import Zhtps.Config.Detected
import Zhtps.Config.Nic
import Zhtps.Lib.Rotation

/-!
What the placement near a network card consists of: the cores of the cache domains of the
interrupts, without the CPUs that serve them and their siblings, taken from the domains in turns.
-/

namespace Zhtps

namespace Config

open Lib Lib.Rotation

section rotation

variable {n slots : Nat} {domains : List (CpuSet n)}

theorem findFirstSet_none {set : CpuSet n} (h : findFirstSet set = none) (cpu : Fin n) :
    set cpu = false := by
  rw [findFirstSet, List.find?_eq_none] at h
  simpa using h cpu (List.mem_finRange cpu)

/-- The first CPU of a set, chosen. -/
def firstCpu (n : Nat) : Choice (Fin n) where
  first := findFirstSet
  sound h := List.find?_some h
  complete h := findFirstSet_none h

/-- A pass over the domains takes from them in turns. -/
theorem placeRound_rotation (domains : List (CpuSet n)) (index : Nat) (s : State (Fin n)) :
    placeRound slots domains s.used s.items =
      ((Rotation.round (firstCpu n) slots domains index s).used,
        (Rotation.round (firstCpu n) slots domains index s).items) := by
  induction domains generalizing index s with
  | nil => rfl
  | cons domain domains ih =>
      have hlength : s.items.length = s.log.length := List.length_map ..
      cases hfirst : findFirstSet fun cpu => domain cpu && !s.used cpu with
      | none =>
          have hchoice : (firstCpu n).first (fun cpu => domain cpu && !s.used cpu) = none := hfirst
          rw [placeRound, Rotation.round, hfirst, hchoice]
          exact ih (index + 1) s
      | some cpu =>
          have hchoice : (firstCpu n).first (fun cpu => domain cpu && !s.used cpu) = some cpu :=
            hfirst
          have htake := ih (index + 1) (s.take index cpu)
          rw [State.items_take] at htake
          rw [placeRound, Rotation.round, hfirst, hchoice]
          dsimp only
          rw [hlength]
          split_ifs with hfull
          · rw [State.items_take]
            rfl
          · exact htake

theorem placeRounds_rotation (turns : Nat) (s : State (Fin n)) :
    placeRounds slots domains turns s.used s.items =
      (rounds (firstCpu n) slots domains turns s).items := by
  induction turns generalizing s with
  | zero => rfl
  | succ turns ih =>
      have hlength (s : State (Fin n)) : s.items.length = s.log.length := List.length_map ..
      rw [placeRounds, rounds]
      simp only [placeRound_rotation domains 0 s, hlength]
      split_ifs
      · rfl
      · exact ih _
      · rfl

/-- The last loop of `readNic` as it stands: rounds with no bound on their number, from the used CPUs
and the placement so far to the placement at its end. -/
inductive Selects (slots : Nat) (domains : List (CpuSet n)) :
    CpuSet n → List (Fin n) → List (Fin n) → Prop
  | full {used placement} (h : ¬placement.length < slots) :
      Selects slots domains used placement placement
  | stuck {used placement} (hroom : placement.length < slots)
      (hstuck : (placeRound slots domains used placement).2.length = placement.length) :
      Selects slots domains used placement placement
  | advanced {used placement final} (hroom : placement.length < slots)
      (hadvanced : (placeRound slots domains used placement).2.length ≠ placement.length)
      (hrest : Selects slots domains (placeRound slots domains used placement).1
        (placeRound slots domains used placement).2 final) :
      Selects slots domains used placement final

theorem length_le_placeRound (domains : List (CpuSet n)) (used : CpuSet n)
    (placement : List (Fin n)) :
    placement.length ≤ (placeRound slots domains used placement).2.length := by
  induction domains generalizing used placement with
  | nil => exact Nat.le_refl _
  | cons domain domains ih =>
      rw [placeRound]
      split
      · exact ih used placement
      · rename_i cpu hfirst
        have hgrown : placement.length ≤ (placement ++ [cpu]).length := by simp
        dsimp only
        split_ifs
        · exact hgrown
        · exact hgrown.trans (ih _ _)

/-- A round that goes on places a CPU, so the loop ends. -/
theorem selects_placeRounds {turns : Nat} {used : CpuSet n} {placement : List (Fin n)}
    (h : slots ≤ placement.length + turns) :
    Selects slots domains used placement (placeRounds slots domains turns used placement) := by
  induction turns generalizing used placement with
  | zero => exact .full (Nat.not_lt.mpr h)
  | succ turns ih =>
      rw [placeRounds]
      split_ifs with hroom
      · dsimp only
        split_ifs with hstuck
        · exact .stuck hroom hstuck
        · have hgrown := @length_le_placeRound n slots domains used placement
          exact .advanced hroom hstuck (ih (by omega))
      · exact .full hroom

theorem Selects.unique {used : CpuSet n} {placement final final' : List (Fin n)}
    (h : Selects slots domains used placement final)
    (h' : Selects slots domains used placement final') : final = final' := by
  induction h with
  | full hfull =>
      cases h' with
      | full => rfl
      | stuck => rfl
      | advanced hroom => exact absurd hroom hfull
  | stuck hroom hstuck =>
      cases h' with
      | full => rfl
      | stuck => rfl
      | advanced _ hadvanced => exact absurd hstuck hadvanced
  | advanced hroom hadvanced _ ih =>
      cases h' with
      | full hfull => exact absurd hroom hfull
      | stuck _ hstuck => exact absurd hstuck hadvanced
      | advanced _ _ hrest => exact ih hrest

end rotation

/-- Every beginning of a placement, written as text, is a CPU list for as many workers. -/
theorem resolveWorkerCpus_take {config : Config} {cpus : List (Fin 1024)} {count : Nat}
    (hnodup : cpus.Nodup) (hlength : cpus.length ≤ 256) (hcount : count ≤ cpus.length)
    (htext : config.workerCpus = (cpuPieces (cpus.take count)).flatten)
    (hworkers : config.workers = count) :
    config.resolveWorkerCpus = .ok ((cpus.take count).map Fin.val) := by
  have htake : (cpus.take count).length = count := List.length_take_of_le hcount
  cases count with
  | zero => exact if_pos (Or.inl htext)
  | succ count =>
      refine resolveWorkerCpus_placement (hnodup.sublist (List.take_sublist _ _)) ?_ ?_ htext
        (hworkers.trans htake.symm)
      · exact htake.symm ▸ hcount.trans hlength
      · intro hnil
        rw [hnil] at htake
        cases htake

/-- The text that sizing writes for a placement names the first of its CPUs, one for each worker. -/
theorem resolveResources_mapped {parseOrigin : Origins} {config result : Config}
    {detected : Resources} {requirements : Requirements} {mapping : Nat}
    (h : config.resolveResources parseOrigin detected requirements mapping = .ok result)
    (hunset : config.workerCpus = []) (hworkers : result.workers ≤ detected.placement.length) :
    result.workerCpus = (cpuPieces (detected.placement.take result.workers)).flatten := by
  simp only [resolveResources, bind_ok, ensure_ok] at h
  obtain ⟨_, -, _, -, threads, -, explicitCpus, hcpus, room, -, plan, -, workerBudget, -, flexible, -,
    largeBytes, -, http2Bytes, -, streams, -, _, -, connections, -, _, -, cpus, hmapping, hresolve⟩ := h
  obtain ⟨-, -, rfl⟩ := resolve_ok hresolve
  have hnone : config.resolveWorkerCpus = .ok [] := if_pos (Or.inl hunset)
  obtain rfl := Except.ok.inj (hnone.symm.trans hcpus)
  rw [mapWorkers, if_neg (by simp), if_pos ⟨hunset, hworkers⟩] at hmapping
  have hspec := Response.writeEach_spec { capacity := mapping }
    (cpuPieces (detected.placement.take plan.workers))
  split at hmapping
  · rename_i writer hwrite
    rw [hwrite] at hspec
    obtain rfl := Except.ok.inj hmapping
    exact hspec.2 rfl
  · cases hmapping

end Config

namespace Discovery

open Lib Lib.Rotation
open Config (CpuSet)

/-! ### What the topology says -/

/-- A CPU that serves an interrupt of a card. -/
def IrqCpu (machine : Machine) (interface : Bytes) (cpu : Fin 1024) : Prop :=
  ∃ irqs, irqCpus machine (nicPath interface) = .ok (some irqs) ∧ irqs cpu = true

/-- An SMT sibling of one. -/
def IrqSibling (machine : Machine) (interface : Bytes) (cpu : Fin 1024) : Prop :=
  ∃ irq siblings, IrqCpu machine interface irq ∧ readSiblings machine irq = .ok siblings ∧
    siblings cpu = true

/-- A core in the cache domain of one. -/
def InDomain (machine : Machine) (cores : CpuSet 1024) (interface : Bytes) (cpu : Fin 1024) : Prop :=
  cores cpu = true ∧ ∃ irq domain, IrqCpu machine interface irq ∧
    cacheDomain machine irq = .ok domain ∧ domain cpu = true

section topology

variable {machine : Machine} {cores : CpuSet 1024} {irqs : CpuSet 1024}

/-- The cores of all domains together. -/
def Topology.Covers (topology : Topology cores) (cpu : Fin 1024) : Prop :=
  ∃ domain ∈ topology.domains, domain cpu = true

theorem Topology.add_ok {topology result : Topology cores} {siblings domain : CpuSet 1024}
    (h : topology.add siblings domain = .ok result) (cpu : Fin 1024) :
    (result.excluded cpu = true ↔ topology.excluded cpu = true ∨ siblings cpu = true) ∧
      (result.Covers cpu ↔ topology.Covers cpu ∨ cores cpu = true ∧ domain cpu = true) := by
  unfold Topology.add at h
  dsimp only at h
  split_ifs at h with hknown hfull
  · obtain rfl := Except.ok.inj h
    obtain ⟨known, hmem, heq⟩ := List.any_eq_true.mp hknown
    obtain rfl := eql_iff.mp heq
    refine ⟨Bool.or_eq_true_iff, fun hcovers => Or.inl hcovers, ?_⟩
    rintro (hcovers | ⟨hcore, hdomain⟩)
    · exact hcovers
    · exact ⟨_, hmem, by rw [hcore, hdomain]; rfl⟩
  · cases h
  · obtain rfl := Except.ok.inj h
    refine ⟨Bool.or_eq_true_iff, ?_⟩
    simp only [Topology.Covers, List.mem_append, List.mem_singleton, or_and_right, exists_or,
      exists_eq_left, Bool.and_eq_true]
    exact or_congr_right And.comm

/-- The loop collects the siblings and the domains of the CPUs of the interrupts. -/
theorem topologyLoop_ok {cpus : List (Fin 1024)} {topology result : Topology cores}
    (h : topologyLoop machine irqs cpus topology = .ok result) (cpu : Fin 1024) :
    (result.excluded cpu = true ↔ topology.excluded cpu = true ∨ ∃ irq ∈ cpus, irqs irq = true ∧
      ∃ siblings, readSiblings machine irq = .ok siblings ∧ siblings cpu = true) ∧
    (result.Covers cpu ↔ topology.Covers cpu ∨ ∃ irq ∈ cpus, irqs irq = true ∧
      ∃ domain, cacheDomain machine irq = .ok domain ∧ cores cpu = true ∧ domain cpu = true) := by
  induction cpus generalizing topology with
  | nil =>
      obtain rfl := Except.ok.inj h
      simp
  | cons irq cpus ih =>
      rw [topologyLoop] at h
      by_cases hirq : irqs irq = true
      · rw [if_neg (by rw [hirq]; decide)] at h
        obtain ⟨siblings, hsiblings, h⟩ := bind_ok.mp h
        obtain ⟨domain, hdomain, h⟩ := bind_ok.mp h
        obtain ⟨next, hadd, h⟩ := bind_ok.mp h
        obtain ⟨hexcluded, hcovers⟩ := Topology.add_ok hadd cpu
        obtain ⟨hexcluded', hcovers'⟩ := ih h
        rw [hexcluded', hcovers', hexcluded, hcovers, List.exists_mem_cons_iff,
          List.exists_mem_cons_iff, hsiblings, hdomain, or_assoc, or_assoc]
        simp [hirq]
      · rw [if_pos (by simpa using hirq)] at h
        obtain ⟨hexcluded, hcovers⟩ := ih h
        rw [hexcluded, hcovers, List.exists_mem_cons_iff, List.exists_mem_cons_iff]
        simp [hirq]

theorem readTopology_ok {interface : Bytes} {topology : Topology cores}
    (h : readTopology machine cores interface = .ok (some topology)) (cpu : Fin 1024) :
    (topology.excluded cpu = true ↔ IrqSibling machine interface cpu) ∧
      (topology.Covers cpu ↔ InDomain machine cores interface cpu) := by
  obtain ⟨nic, hnic, h⟩ := bind_ok.mp h
  have hpath : nic = nicPath interface := by
    rw [shortPath] at hnic
    split_ifs at hnic
    · cases hnic
    · exact (Except.ok.inj hnic).symm
  subst hpath
  split_ifs at h with hopens
  · cases h
  · obtain ⟨steady, -, h⟩ := bind_ok.mp h
    split_ifs at h with hsteady
    · obtain ⟨irqs, hirqs, h⟩ := bind_ok.mp h
      cases irqs with
      | none => cases Except.ok.inj h
      | some irqs =>
          obtain ⟨found, hloop, h⟩ := bind_ok.mp h
          obtain rfl := Option.some.inj (Except.ok.inj h)
          have hirq (irq : Fin 1024) : IrqCpu machine interface irq ↔ irqs irq = true := by
            rw [IrqCpu, hirqs]
            simp
          obtain ⟨hexcluded, hcovers⟩ := topologyLoop_ok hloop cpu
          rw [hexcluded, hcovers]
          constructor
          · simp [IrqSibling, hirq]
          · simp only [InDomain, hirq, Topology.Covers, List.not_mem_nil, false_and, exists_false,
              false_or, List.mem_finRange, true_and]
            constructor
            · rintro ⟨irq, hserves, domain, hdomain, hcore, hcpu⟩
              exact ⟨hcore, irq, domain, hserves, hdomain, hcpu⟩
            · rintro ⟨hcore, irq, domain, hserves, hdomain, hcpu⟩
              exact ⟨irq, hserves, domain, hdomain, hcore, hcpu⟩
    · cases Except.ok.inj h

end topology

/-! ### The placement -/

/-- The state of the turns before the first round. -/
def Topology.start {cores : CpuSet 1024} (topology : Topology cores) : State (Fin 1024) where
  used := topology.excluded

/-- The placement that the last loop of `readNic` makes of a topology. -/
structure Selected (machine : Machine) (cores : CpuSet 1024) (interface : Bytes)
    (topology : Topology cores) (placement : List (Fin 1024)) : Prop where
  /-- The loop ends, and with this placement only. -/
  ends : ∀ final, Config.Selects 256 topology.domains topology.excluded [] final ↔ final = placement
  nodup : placement.Nodup
  within : ∀ cpu ∈ placement, cores cpu = true
  siblings : ∀ cpu ∈ placement, ¬IrqSibling machine interface cpu
  shared : ∀ cpu ∈ placement, InDomain machine cores interface cpu
  exhausted : placement.length = 256 ∨
    ∀ cpu, InDomain machine cores interface cpu → ¬IrqSibling machine interface cpu → cpu ∈ placement
  /-- After any number of rounds the placement so far was taken evenly from the domains. -/
  fair : ∀ turns, ∃ s, s = rounds (Config.firstCpu 1024) 256 topology.domains turns topology.start ∧
    Config.placeRounds 256 topology.domains turns topology.excluded [] = s.items ∧
    Fair 256 topology.domains s

theorem selected_placeRounds {machine : Machine} {cores : CpuSet 1024} {interface : Bytes}
    {topology : Topology cores} (h : readTopology machine cores interface = .ok (some topology)) :
    Selected machine cores interface topology
      (Config.placeRounds 256 topology.domains 256 topology.excluded []) := by
  have hstart : topology.start.items = [] := rfl
  have hitems (turns : Nat) : Config.placeRounds 256 topology.domains turns topology.excluded [] =
      (rounds (Config.firstCpu 1024) 256 topology.domains turns topology.start).items :=
    Config.placeRounds_rotation turns topology.start
  let last := rounds (Config.firstCpu 1024) 256 topology.domains 256 topology.start
  have hkept : Kept 256 topology.domains topology.excluded last :=
    rounds_kept (.start 256 topology.domains topology.excluded) 256
  have hends : Config.Selects 256 topology.domains topology.excluded []
      (Config.placeRounds 256 topology.domains 256 topology.excluded []) :=
    Config.selects_placeRounds (Nat.le_refl _)
  have hplaced : ∀ cpu ∈ last.items, ¬IrqSibling machine interface cpu ∧
      InDomain machine cores interface cpu := by
    intro cpu hcpu
    obtain ⟨hexcluded, hcovers⟩ := readTopology_ok h cpu
    obtain ⟨entry, hentry, rfl⟩ := List.mem_map.mp hcpu
    obtain ⟨domain, hindex, hdomain⟩ := hkept.given entry hentry
    refine ⟨fun hsibling => ?_, hcovers.mp ⟨domain, List.mem_of_getElem? hindex, hdomain⟩⟩
    rw [← hexcluded, hkept.fresh _ hcpu] at hsibling
    cases hsibling
  rw [hitems] at hends ⊢
  exact {
    ends := fun final => ⟨fun hfinal => hfinal.unique hends, fun heq => heq ▸ hends⟩
    nodup := hkept.nodup
    within := fun cpu hcpu => (hplaced cpu hcpu).2.1
    siblings := fun cpu hcpu => (hplaced cpu hcpu).1
    shared := fun cpu hcpu => (hplaced cpu hcpu).2
    exhausted := by
      have hlength : last.items.length = last.log.length := List.length_map ..
      have hend : 256 ≤ last.log.length ∨ ∀ domain ∈ topology.domains, ¬last.Live domain :=
        rounds_end (Nat.le_add_left _ _)
      rcases hend with hfull | hempty
      · left
        exact hlength.trans (Nat.le_antisymm hkept.length_le hfull)
      · right
        intro cpu hdomain hsibling
        obtain ⟨hexcluded, hcovers⟩ := readTopology_ok h cpu
        obtain ⟨domain, hmem, hcpu⟩ := hcovers.mpr hdomain
        have hused : last.used cpu = true := by
          by_contra hfree
          exact hempty domain hmem ⟨cpu, hcpu, by simpa using hfree⟩
        exact ((hkept.used_iff cpu).mp hused).resolve_left (hexcluded.not.mpr hsibling)
    fair := fun turns => ⟨_, rfl, hitems turns, rounds_fair topology.excluded turns⟩ }

/-- What `readNic` places is selected from the domains of its topology, and every beginning of it
that sizing writes into the options maps as many workers. -/
theorem readNic_selected {machine : Machine} {cores : CpuSet 1024} {interface : Bytes}
    {detected result : Config.Resources}
    (h : readNic machine cores detected interface = .ok result) :
    readTopology machine cores interface = .ok none ∧ result = detected ∨
    ∃ topology, readTopology machine cores interface = .ok (some topology) ∧
      Selected machine cores interface topology result.placement ∧
      (∀ (config : Config) (count : Nat), count ≤ result.placement.length →
        config.workerCpus = (Config.cpuPieces (result.placement.take count)).flatten →
        config.workers = count →
        config.resolveWorkerCpus = .ok ((result.placement.take count).map Fin.val)) ∧
      ∀ (parseOrigin : Config.Origins) (config : Config) (requirements : Config.Requirements)
        (mapping : Nat) (sized : Config),
        config.resolveResources parseOrigin result requirements mapping = .ok sized →
        config.workerCpus = [] → sized.workers ≤ result.placement.length →
        sized.workerCpus = (Config.cpuPieces (result.placement.take sized.workers)).flatten ∧
          sized.resolveWorkerCpus =
            .ok ((result.placement.take sized.workers).map Fin.val) := by
  obtain ⟨topology, htopology, h⟩ := bind_ok.mp h
  cases topology with
  | none => exact Or.inl ⟨htopology, (Except.ok.inj h).symm⟩
  | some topology =>
      obtain rfl := Except.ok.inj h
      refine Or.inr ⟨topology, htopology, selected_placeRounds htopology, ?_, ?_⟩
      · intro config count hcount htext hworkers
        exact Config.resolveWorkerCpus_take (Config.Resources.nodup _) (Config.Resources.length_le _)
          hcount htext hworkers
      · intro parseOrigin config requirements mapping sized hsized hunset hworkers
        have htext := Config.resolveResources_mapped hsized hunset hworkers
        exact ⟨htext, Config.resolveWorkerCpus_take (Config.Resources.nodup _)
          (Config.Resources.length_le _) hworkers htext rfl⟩

/-- Eight CPUs in pairs of siblings, and a card whose interrupt is served by the fifth. -/
def cardMachine : Machine where
  file := tree ([0, 1, 2, 3, 4, 5, 6, 7].map (fun cpu : Nat =>
      (s!"sys/devices/system/cpu/cpu{cpu}/topology/thread_siblings_list",
        s!"{cpu % 4},{cpu % 4 + 4}\n")) ++
    [("sys/class/net/eth0/queues/rx-0/rps_cpus", "00000000\n"),
      ("proc/irq/20/effective_affinity_list", "4\n"),
      ("sys/devices/system/cpu/cpu4/cache/index3/level", "3\n"),
      ("sys/devices/system/cpu/cpu4/cache/index3/shared_cpu_list", "0-7\n")])
  list path :=
    if path = ascii "sys/class/net/eth0/queues" then .names [ascii "rx-0"] true
    else if path = ascii "sys/class/net/eth0/device/msi_irqs" then .names [ascii "20"] true
    else if path = ascii "sys/devices/system/cpu/cpu4/cache" then .names [ascii "index3"] true
    else .missing

def fourCores : CpuSet 1024 := fun cpu => cpu.val < 4

theorem readNic_selected_card :
    ∃ topology, readTopology cardMachine fourCores (ascii "eth0") = .ok (some topology) ∧
      Selected cardMachine fourCores (ascii "eth0") topology [1, 2, 3] := by
  have hplacement : (readNic cardMachine fourCores { report := {} } (ascii "eth0")).toOption.map
      (·.placement) = some [1, 2, 3] := by
    simp only [cardMachine, tree_bytes, List.cons_append, List.nil_append, List.map_cons, List.map_nil,
      ascii, String.reduceToList, toString, Nat.reduceMod, Nat.reduceAdd, Nat.repr,
      String.toList_append, String.toList_ofList]
    decide +kernel
  cases hnic : readNic cardMachine fourCores { report := {} } (ascii "eth0") with
  | error stop =>
      rw [hnic] at hplacement
      cases hplacement
  | ok result =>
      rw [hnic] at hplacement
      have hresult : result.placement = [1, 2, 3] := Option.some.inj hplacement
      rcases readNic_selected hnic with ⟨-, rfl⟩ | ⟨topology, htopology, hselected, -⟩
      · cases hresult
      · exact ⟨topology, htopology, hresult ▸ hselected⟩

end Discovery

end Zhtps
