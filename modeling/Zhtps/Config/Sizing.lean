import Mathlib.Algebra.Order.Floor.Div
import Zhtps.Config
import Zhtps.Http.Chunked
import Zhtps.Http.Scan

/-!
Automatic sizing: the budgets of `Config.resolveResources`, fixed one after the other.

Five limits may be left to startup: workers, connections, large buffers, HTTP/2 memory and HTTP/2
streams.  The worker count is cut down until one worker at its smallest sizes fits its share of
every budget; what the share leaves over is then handed out in quarters, and the connections take
the rest.
-/

namespace Zhtps

namespace Config

/-! ### Placement on the cores of a NIC -/

section placement

-- `n` CPUs can be told apart, and the storage holds `slots` of them.
variable {n slots : Nat}

/-- `std.StaticBitSet`. -/
abbrev CpuSet (n : Nat) := Fin n → Bool

def findFirstSet (set : CpuSet n) : Option (Fin n) := (List.finRange n).find? set

/-- One pass over the cache domains: each gives its first unused CPU, while there is storage. -/
def placeRound (slots : Nat) : List (CpuSet n) → CpuSet n → List (Fin n) → CpuSet n × List (Fin n)
  | [], used, placement => (used, placement)
  | domain :: domains, used, placement =>
      match findFirstSet fun cpu => domain cpu && !used cpu with
      | none => placeRound slots domains used placement
      | some cpu =>
          let used := Function.update used cpu true
          if placement.length + 1 = slots then (used, placement ++ [cpu])
          else placeRound slots domains used (placement ++ [cpu])

/-- The loop at the end of `readNic`.  A round that goes on places a CPU, so as many rounds as there
is storage are enough. -/
def placeRounds (slots : Nat) (domains : List (CpuSet n)) :
    Nat → CpuSet n → List (Fin n) → List (Fin n)
  | 0, _, placement => placement
  | rounds + 1, used, placement =>
      if placement.length < slots then
        let next := placeRound slots domains used placement
        if next.2.length = placement.length then placement
        else placeRounds slots domains rounds next.1 next.2
      else placement

/-- What the loop keeps: the placed CPUs are distinct, used, and fit the storage. -/
def Placed (slots : Nat) (used : CpuSet n) (placement : List (Fin n)) : Prop :=
  placement.Nodup ∧ (∀ cpu ∈ placement, used cpu = true) ∧ placement.length ≤ slots

theorem Placed.push {used : CpuSet n} {placement : List (Fin n)} {cpu : Fin n}
    (h : Placed slots used placement) (hroom : placement.length < slots) (hfree : used cpu = false) :
    Placed slots (Function.update used cpu true) (placement ++ [cpu]) := by
  obtain ⟨hnodup, hused, -⟩ := h
  refine ⟨?_, ?_, by rw [List.length_append]; exact hroom⟩
  · rw [List.nodup_append]
    refine ⟨hnodup, by simp, ?_⟩
    rintro placed hmem _ hlast rfl
    obtain rfl := List.mem_singleton.mp hlast
    simp [hused _ hmem] at hfree
  · intro placed hmem
    rcases List.mem_append.mp hmem with hmem | hlast
    · rw [Function.update_apply]
      split
      · rfl
      · exact hused placed hmem
    · obtain rfl := List.mem_singleton.mp hlast
      simp

theorem placeRound_placed (domains : List (CpuSet n)) {used : CpuSet n} {placement : List (Fin n)}
    (h : Placed slots used placement) (hroom : placement.length < slots) :
    Placed slots (placeRound slots domains used placement).1
      (placeRound slots domains used placement).2 := by
  induction domains generalizing used placement with
  | nil => exact h
  | cons domain domains ih =>
      rw [placeRound]
      split
      · exact ih h hroom
      · rename_i cpu hfound
        have hfree : used cpu = false := by
          have := List.find?_some hfound
          simp_all
        have hplaced := h.push hroom hfree
        dsimp only
        split
        · exact hplaced
        · rename_i hfull
          exact ih hplaced (by simp only [List.length_append, List.length_singleton]; omega)

theorem placeRounds_placed (domains : List (CpuSet n)) (rounds : Nat) {used : CpuSet n}
    {placement : List (Fin n)} (h : Placed slots used placement) :
    (placeRounds slots domains rounds used placement).Nodup ∧
      (placeRounds slots domains rounds used placement).length ≤ slots := by
  induction rounds generalizing used placement with
  | zero => exact ⟨h.1, h.2.2⟩
  | succ rounds ih =>
      rw [placeRounds]
      split
      · rename_i hroom
        dsimp only
        split
        · exact ⟨h.1, h.2.2⟩
        · exact ih (placeRound_placed domains h hroom)
      · exact ⟨h.1, h.2.2⟩

end placement

/-- The findings of `Resources.detect`: the report and the placement, with what its loop keeps. -/
structure Resources where
  report : Report
  placement : List (Fin 1024) := []
  nodup : placement.Nodup := by decide
  length_le : placement.length ≤ 256 := by decide

/-- The end of `readNic`: placement over the domains, without the excluded CPUs. -/
def Resources.place (resources : Resources) (domains : List (CpuSet 1024))
    (excluded : CpuSet 1024) : Resources :=
  have hplaced := placeRounds_placed domains 256
    (show Placed 256 excluded [] from ⟨List.nodup_nil, by simp, by simp⟩)
  let placement := placeRounds 256 domains 256 excluded []
  { report := { resources.report with
      placement := if placement.length ≠ 0 then .nic else resources.report.placement }
    placement
    nodup := hplaced.1
    length_le := hplaced.2 }

/-! ### Smallest sizes -/

/-- What the compiled application needs. -/
structure Requirements where
  processBytes : Nat := 0
  processFds : Nat := 0
  processThreads : Nat := 0
  workerBytes : Nat
  connectionBytes : Nat
  adminBytes : Nat
  streamBytes : Nat
  streamQueueBytes : Nat := 0
  laneThreads : Nat := 0
  workerFds : Nat := 3

def memoryBudget (config : Config) (report : Report) : Nat :=
  config.memoryBudgetBytes.getD (report.memoryAvailableBytes / 4)

def sharedBytes (requirements : Requirements) : Nat :=
  addSat requirements.adminBytes requirements.processBytes

def minimumConnections (config : Config) : Nat :=
  if config.maxConnections = automatic then
    max (max 1 (config.admission.maxActive.getD 1)) (config.admission.maxRejecting.getD 0)
  else config.maxConnections

/-- The descriptors left for the workers. -/
def descriptorCapacity (config : Config) (report : Report) (requirements : Requirements) : Nat :=
  report.nofileLimit - report.reservedFds - requirements.processFds - config.adminConnections -
    (if config.adminConnections ≠ 0 then 1 else 0)

def minimumLarge (config : Config) : Nat :=
  if config.largeBufferBytes = automatic then 1024 * 1024 else config.largeBufferBytes

def minimumHttp2 (config : Config) : Nat :=
  if config.http2.memoryBytes = automatic then 1024 * 1024 else config.http2.memoryBytes

def minimumStreams (config : Config) : Nat :=
  if config.http2.maxStreamsPerWorker = automatic then 1 else config.http2.maxStreamsPerWorker

/-- HTTP/2 memory counts behind TLS only. -/
def http2Share (config : Config) (bytes : Nat) : Nat := if config.tls ≠ none then bytes else 0

def minimumWorker (config : Config) (requirements : Requirements) : Nat :=
  let fixedBytes := addSat
    (addSat requirements.workerBytes
      (mulSat requirements.connectionBytes config.minimumConnections))
    (mulSat requirements.streamQueueBytes config.minimumStreams)
  addSat (addSat fixedBytes config.minimumLarge) (config.http2Share config.minimumHttp2)

/-! ### The number of workers -/

/-- The number of workers so far, and which limit set it. -/
structure Plan where
  workers : Nat
  reason : WorkersReason

/-- The cores that automatic workers may use. -/
def cpuCount (config : Config) (detected : Resources) : Nat :=
  let cores := match detected.report.cpuQuotaMillis with
    | none => detected.report.physicalCores
    | some quota => min detected.report.physicalCores (max 1 (quota / 1000))
  if detected.placement.length ≠ 0 ∧ config.workerCpus = [] then min cores detected.placement.length
  else cores

def planWorkers (config : Config) (detected : Resources) (threads : Nat) (explicitCpus : List Nat) :
    Checked Plan :=
  if config.workers = automatic then do
    let share ← div (config.cpuCount detected) threads
    if explicitCpus ≠ [] then return { workers := explicitCpus.length, reason := .mapping }
    else return { workers := min 256 (max 1 share), reason := .cpu }
  else .ok { workers := config.workers, reason := .explicit }

/-- Connections left to sizing need descriptors; a fixed worker count is checked with them later. -/
def limitByDescriptors (config : Config) (requirements : Requirements) (capacity : Nat)
    (adjustable : Bool) (plan : Plan) : Checked Plan :=
  if config.maxConnections = automatic then do
    let perWorker ← add requirements.workerFds config.minimumConnections
    let count ← div capacity perWorker
    ensure (count ≠ 0) .descriptorBudgetTooSmall
    if adjustable = true ∧ count < plan.workers then
      return { workers := count, reason := .descriptors }
    else return plan
  else .ok plan

/-- A budget for `count` workers: an adjustable plan is cut down to it. -/
def limitTo (count : Nat) (error : Error) (reason : WorkersReason) (adjustable : Bool)
    (plan : Plan) : Checked Plan :=
  if count < plan.workers then do
    ensure (adjustable = true ∧ count ≠ 0) error
    return { workers := count, reason }
  else .ok plan

def limitByThreads (report : Report) (requirements : Requirements) (threads : Nat)
    (adjustable : Bool) (plan : Plan) : Checked Plan :=
  match report.availableThreads with
  | none => .ok plan
  | some available => do
      let count ← div (addSat available 1 - requirements.processThreads) threads
      limitTo count .threadBudgetExceeded .threads adjustable plan

def limitByMemory (config : Config) (requirements : Requirements) (room : Nat) (adjustable : Bool)
    (plan : Plan) : Checked Plan := do
  let count ← div room (max 1 (config.minimumWorker requirements))
  limitTo count .memoryBudgetExceeded .memory adjustable plan

/-! ### The sizes of one worker -/

def sizeLarge (config : Config) (flexible : Nat) : Checked Nat :=
  if config.largeBufferBytes = automatic then do
    let bytes ← add config.minimumLarge (flexible / 4)
    return min (64 * 1024 * 1024) bytes
  else .ok config.largeBufferBytes

def sizeHttp2 (config : Config) (flexible : Nat) : Checked Nat :=
  if config.http2.memoryBytes = automatic then
    if config.tls ≠ none then do
      let bytes ← add config.minimumHttp2 (flexible / 4)
      return min (64 * 1024 * 1024) bytes
    else .ok (1024 * 1024)
  else .ok config.http2.memoryBytes

/-- Half of the HTTP/2 memory stays with the protocol. -/
def streamsByMemory (config : Config) (requirements : Requirements) (http2Bytes : Nat) :
    Checked Nat :=
  if config.tls ≠ none then do
    let count ← div (http2Bytes / 2) (max 1 requirements.streamBytes)
    return min 256 (max 1 count)
  else .ok 1

def sizeStreams (config : Config) (requirements : Requirements)
    (workerBudget largeBytes http2Bytes : Nat) : Checked Nat :=
  if config.http2.maxStreamsPerWorker = automatic then do
    let streams ← config.streamsByMemory requirements http2Bytes
    if requirements.streamQueueBytes ≠ 0 then do
      let queueBudget := workerBudget - requirements.workerBytes - largeBytes -
        config.http2Share http2Bytes - mulSat requirements.connectionBytes config.minimumConnections
      let count ← div queueBudget requirements.streamQueueBytes
      return min streams count
    else return streams
  else .ok config.http2.maxStreamsPerWorker

def workerFixed (config : Config) (requirements : Requirements)
    (largeBytes http2Bytes streams : Nat) : Nat :=
  addSat (addSat (addSat requirements.workerBytes largeBytes) (config.http2Share http2Bytes))
    (mulSat requirements.streamQueueBytes streams)

def sizeConnections (config : Config) (requirements : Requirements)
    (capacity workers workerBudget fixedBytes : Nat) : Checked (Nat × ConnectionsReason) :=
  if config.maxConnections = automatic then do
    let room ← sub workerBudget fixedBytes
    let memoryCount ← div room (max 1 requirements.connectionBytes)
    let descriptors ← div capacity workers
    let fdCount := descriptors - requirements.workerFds
    let implementationCount ← sub 8176 config.adminConnections
    let count := min (min memoryCount fdCount) implementationCount
    ensure (config.minimumConnections ≤ count) .descriptorBudgetTooSmall
    return (count, if count = memoryCount then .memory
      else if count = fdCount then .descriptors else .implementation)
  else .ok (config.maxConnections, .explicit)

/-- The memory of the whole process at its limits. -/
def estimate (requirements : Requirements) (workers fixedBytes connections : Nat) : Nat :=
  addSat (sharedBytes requirements)
    (mulSat workers (addSat fixedBytes (mulSat requirements.connectionBytes connections)))

/-! ### The mapping of workers to CPUs -/

/-- The writes of the mapping: every CPU but the first behind a comma. -/
def cpuPieces : List (Fin 1024) → List Bytes
  | [] => []
  | cpu :: cpus => Response.digits 10 cpu :: cpus.flatMap fun cpu => [[44], Response.digits 10 cpu.val]

/-- The list of CPUs of the resolved configuration, and how the report calls the placement. -/
def mapWorkers (config : Config) (detected : Resources) (explicitCpus : List Nat)
    (workers mapping : Nat) : Checked (Bytes × Placement) :=
  if explicitCpus ≠ [] then .ok (config.workerCpus, .explicit)
  else if config.workerCpus = [] ∧ workers ≤ detected.placement.length then
    match Response.Writer.writeEach { capacity := mapping }
        (cpuPieces (detected.placement.take workers)) with
    | (writer, true) => .ok (writer.buffered, detected.report.placement)
    | (_, false) => fail .invalidLimit
  else .ok ([], if detected.report.placement = .nic then .unavailable else detected.report.placement)

/-- `std.math.add(usize, 1, …)` with its error. -/
def threadsPerWorker (requirements : Requirements) : Checked Nat :=
  if 1 + requirements.laneThreads ≤ usizeMax then .ok (1 + requirements.laneThreads)
  else fail .invalidLimit

/-- The cut-down number of workers. -/
def sizeWorkers (config : Config) (detected : Resources) (requirements : Requirements)
    (threads : Nat) (explicitCpus : List Nat) (room : Nat) : Checked Plan := do
  let adjustable := decide (config.workers = automatic ∧ explicitCpus = [])
  let plan ← config.planWorkers detected threads explicitCpus
  let plan ← config.limitByDescriptors requirements
    (config.descriptorCapacity detected.report requirements) adjustable plan
  let plan ← limitByThreads detected.report requirements threads adjustable plan
  config.limitByMemory requirements room adjustable plan

/-- Resolves startup limits without I/O; `mapping` is the room for the text of the mapping. -/
def resolveResources (parseOrigin : Origins) (config : Config) (detected : Resources)
    (requirements : Requirements) (mapping : Nat) : Checked Config := do
  config.validate parseOrigin
  let budget := config.memoryBudget detected.report
  ensure (budget ≠ 0 ∧ budget ≤ detected.report.memoryAvailableBytes ∧
    sharedBytes requirements < budget) .memoryBudgetExceeded
  let threads ← threadsPerWorker requirements
  let explicitCpus ← config.resolveWorkerCpus
  let room ← sub budget (sharedBytes requirements)
  let plan ← config.sizeWorkers detected requirements threads explicitCpus room
  let workerBudget ← div room plan.workers
  let flexible ← sub workerBudget (config.minimumWorker requirements)
  let largeBytes ← config.sizeLarge flexible
  let http2Bytes ← config.sizeHttp2 flexible
  let streams ← config.sizeStreams requirements workerBudget largeBytes http2Bytes
  let fixedBytes := config.workerFixed requirements largeBytes http2Bytes streams
  ensure (fixedBytes < workerBudget) .memoryBudgetExceeded
  let connections ← config.sizeConnections requirements
    (config.descriptorCapacity detected.report requirements) plan.workers workerBudget fixedBytes
  let estimated := estimate requirements plan.workers fixedBytes connections.1
  ensure (estimated ≤ budget) .memoryBudgetExceeded
  let cpus ← config.mapWorkers detected explicitCpus plan.workers mapping
  resolve parseOrigin { config with
    workers := plan.workers
    workerCpus := cpus.1
    maxConnections := connections.1
    largeBufferBytes := largeBytes
    http2 := { config.http2 with maxStreamsPerWorker := streams, memoryBytes := http2Bytes }
    resources := some {
      detected := { detected.report with placement := cpus.2 }
      memoryBudgetBytes := budget
      estimatedBytes := estimated
      threadsPerWorker := threads
      workers := plan.reason
      connections := connections.2
      largeBuffersAutomatic := config.largeBufferBytes = automatic
      http2MemoryAutomatic := config.http2.memoryBytes = automatic
      http2StreamsAutomatic := config.http2.maxStreamsPerWorker = automatic } }

/-! ### What each stage finds -/

section stages

variable {config : Config} {detected : Resources} {requirements : Requirements}

theorem minimumConnections_pos (h : config.countsInRange) : 1 ≤ config.minimumConnections := by
  have hpos := h.2.2.1
  unfold minimumConnections
  split <;> omega

/-- A later plan: cut down at most, never to nothing, and only where the count is adjustable. -/
def Plan.Cut (adjustable : Bool) (plan next : Plan) : Prop :=
  (1 ≤ plan.workers → 1 ≤ next.workers) ∧ next.workers ≤ plan.workers ∧
  (adjustable = false → next = plan)

theorem Plan.Cut.refl (adjustable : Bool) (plan : Plan) : plan.Cut adjustable plan :=
  ⟨id, Nat.le_refl _, fun _ => rfl⟩

theorem Plan.Cut.trans {adjustable : Bool} {a b c : Plan} (hab : a.Cut adjustable b)
    (hbc : b.Cut adjustable c) : a.Cut adjustable c :=
  ⟨fun h => hbc.1 (hab.1 h), Nat.le_trans hbc.2.1 hab.2.1,
    fun h => (hbc.2.2 h).trans (hab.2.2 h)⟩

theorem limitTo_ok {count : Nat} {error : Error} {reason : WorkersReason} {adjustable : Bool}
    {plan next : Plan} (h : limitTo count error reason adjustable plan = .ok next) :
    plan.Cut adjustable next ∧ next.workers ≤ count := by
  unfold limitTo at h
  split at h
  · rename_i hlt
    simp only [bind_ok, ensure_ok] at h
    obtain ⟨_, ⟨hadjustable, hcount⟩, h⟩ := h
    obtain rfl := Except.ok.inj h
    refine ⟨⟨fun _ => Nat.pos_of_ne_zero hcount, Nat.le_of_lt hlt, ?_⟩, Nat.le_refl _⟩
    intro hfixed
    rw [hadjustable] at hfixed
    cases hfixed
  · obtain rfl := Except.ok.inj h
    exact ⟨.refl _ _, by omega⟩

/-- An adjustable plan always fits a budget for at least one worker. -/
theorem limitTo_succeeds {count : Nat} (error : Error) (reason : WorkersReason) (plan : Plan)
    (h : 1 ≤ count) : ∃ next, limitTo count error reason true plan = .ok next := by
  unfold limitTo
  split
  · refine ⟨{ workers := count, reason }, ?_⟩
    simp [ensure, Nat.ne_of_gt h, bind, Except.bind, pure, Except.pure]
  · exact ⟨plan, rfl⟩

theorem limitTo_traps {allowed : Trap → Prop} (count : Nat) (error : Error) (reason : WorkersReason)
    (adjustable : Bool) (plan : Plan) :
    TrapsOnly allowed (limitTo count error reason adjustable plan) := by
  unfold limitTo
  split
  · exact .bind (.ensure _ _) fun _ _ => .ok _
  · exact .ok _

theorem planWorkers_ok {threads : Nat} {explicitCpus : List Nat} {plan : Plan}
    (h : config.planWorkers detected threads explicitCpus = .ok plan)
    (hcounts : config.countsInRange) :
    1 ≤ plan.workers ∧ (config.workers ≠ automatic → plan.workers = config.workers) ∧
    (config.workers = automatic → explicitCpus = [] → plan.workers ≤ 256) := by
  unfold planWorkers at h
  split at h
  · rename_i hautomatic
    rw [bind_ok] at h
    obtain ⟨share, -, h⟩ := h
    split at h
    · rename_i hcpus
      obtain rfl := Except.ok.inj h
      exact ⟨List.length_pos_of_ne_nil hcpus, fun h => absurd hautomatic h, fun _ h => absurd h hcpus⟩
    · obtain rfl := Except.ok.inj h
      refine ⟨?_, fun h => absurd hautomatic h, fun _ _ => ?_⟩ <;> dsimp only <;> omega
  · rename_i hexplicit
    obtain rfl := Except.ok.inj h
    exact ⟨Nat.pos_of_ne_zero hcounts.1, fun _ => rfl, fun h => absurd h hexplicit⟩

theorem limitByDescriptors_ok {capacity : Nat} {adjustable : Bool} {plan next : Plan}
    (h : config.limitByDescriptors requirements capacity adjustable plan = .ok next) :
    plan.Cut adjustable next := by
  unfold limitByDescriptors at h
  split at h
  · simp only [bind_ok, ensure_ok] at h
    obtain ⟨_, -, count, -, _, hcount, h⟩ := h
    split at h
    · rename_i hcut
      obtain rfl := Except.ok.inj h
      refine ⟨fun _ => Nat.pos_of_ne_zero hcount, Nat.le_of_lt hcut.2, ?_⟩
      intro hfixed
      rw [hcut.1] at hfixed
      cases hfixed
    · obtain rfl := Except.ok.inj h
      exact .refl _ _
  · obtain rfl := Except.ok.inj h
    exact .refl _ _

theorem limitByThreads_ok {threads : Nat} {adjustable : Bool} {plan next : Plan}
    (h : limitByThreads detected.report requirements threads adjustable plan = .ok next)
    (hthreads : 1 ≤ threads) :
    plan.Cut adjustable next ∧ ∀ available ∈ detected.report.availableThreads,
      next.workers ≤ (addSat available 1 - requirements.processThreads) / threads := by
  unfold limitByThreads at h
  split at h
  · rename_i hnone
    obtain rfl := Except.ok.inj h
    exact ⟨.refl _ _, by simp [hnone]⟩
  · rename_i available hsome
    rw [bind_ok, div_of_pos hthreads] at h
    obtain ⟨count, hcount, h⟩ := h
    obtain rfl := Except.ok.inj hcount
    obtain ⟨hcut, hle⟩ := limitTo_ok h
    refine ⟨hcut, ?_⟩
    intro other hother
    rw [hsome] at hother
    obtain rfl := Option.some.inj hother
    exact hle

theorem limitByMemory_ok {room : Nat} {adjustable : Bool} {plan next : Plan}
    (h : config.limitByMemory requirements room adjustable plan = .ok next) :
    plan.Cut adjustable next ∧
      next.workers ≤ room / max 1 (config.minimumWorker requirements) := by
  unfold limitByMemory at h
  rw [bind_ok, div_of_pos (by omega)] at h
  obtain ⟨count, hcount, h⟩ := h
  obtain rfl := Except.ok.inj hcount
  exact limitTo_ok h

/-- The number of workers fits threads and memory, and an explicit number is kept. -/
theorem sizeWorkers_ok {threads room : Nat} {explicitCpus : List Nat} {plan : Plan}
    (h : config.sizeWorkers detected requirements threads explicitCpus room = .ok plan)
    (hcounts : config.countsInRange) (hthreads : 1 ≤ threads) :
    1 ≤ plan.workers ∧ (config.workers ≠ automatic → plan.workers = config.workers) ∧
    (config.workers = automatic → explicitCpus = [] → plan.workers ≤ 256) ∧
    (∀ available ∈ detected.report.availableThreads,
      plan.workers ≤ (addSat available 1 - requirements.processThreads) / threads) ∧
    plan.workers ≤ room / max 1 (config.minimumWorker requirements) := by
  simp only [sizeWorkers, bind_ok] at h
  obtain ⟨first, hfirst, second, hsecond, third, hthird, h⟩ := h
  obtain ⟨hpos, hexplicit, hbound⟩ := planWorkers_ok hfirst hcounts
  have hdescriptors := limitByDescriptors_ok hsecond
  obtain ⟨hcut, hthreads⟩ := limitByThreads_ok hthird hthreads
  obtain ⟨hmemory, hroom⟩ := limitByMemory_ok h
  have hall := (hdescriptors.trans hcut).trans hmemory
  refine ⟨hall.1 hpos, ?_, ?_, ?_, hroom⟩
  · intro hnumber
    rw [hall.2.2 (by simp [hnumber])]
    exact hexplicit hnumber
  · intro hautomatic hcpus
    exact Nat.le_trans hall.2.1 (hbound hautomatic hcpus)
  · intro available havailable
    exact Nat.le_trans hmemory.2.1 (hthreads available havailable)

/-- A share of the memory covers one worker at its smallest sizes. -/
theorem minimumWorker_le_share {room workers least : Nat} (hpos : 1 ≤ workers)
    (h : workers ≤ room / max 1 least) : least ≤ room / workers := by
  have hmul : workers * max 1 least ≤ room := (Nat.le_div_iff_mul_le (by omega)).mp h
  refine Nat.le_trans (Nat.le_max_right 1 least) ((Nat.le_div_iff_mul_le hpos).mpr ?_)
  rwa [Nat.mul_comm]

theorem add_quarter {flexible : Nat} (h : flexible ≤ usizeMax) :
    add (1024 * 1024) (flexible / 4) = .ok (1024 * 1024 + flexible / 4) := by
  refine add_of_le ?_
  simp only [usizeMax] at h ⊢
  omega

theorem sizeLarge_spec (config : Config) {flexible : Nat} (h : flexible ≤ usizeMax) :
    ∃ bytes, config.sizeLarge flexible = .ok bytes ∧
      bytes ≤ config.minimumLarge + flexible / 4 ∧
      (config.largeBufferBytes ≠ automatic → bytes = config.largeBufferBytes) := by
  unfold sizeLarge minimumLarge
  by_cases hautomatic : config.largeBufferBytes = automatic
  · simp only [if_pos hautomatic, add_quarter h, bind, Except.bind, pure, Except.pure]
    exact ⟨_, rfl, Nat.min_le_right _ _, fun hset => absurd hautomatic hset⟩
  · simp only [if_neg hautomatic]
    exact ⟨_, rfl, Nat.le_add_right _ _, fun _ => rfl⟩

theorem sizeHttp2_spec (config : Config) {flexible : Nat} (h : flexible ≤ usizeMax) :
    ∃ bytes, config.sizeHttp2 flexible = .ok bytes ∧
      config.http2Share bytes ≤ config.http2Share config.minimumHttp2 + flexible / 4 ∧
      (config.http2.memoryBytes ≠ automatic → bytes = config.http2.memoryBytes) ∧
      (1024 * 1024 ≤ config.http2.memoryBytes → 1024 * 1024 ≤ bytes) := by
  unfold sizeHttp2 minimumHttp2 http2Share
  by_cases hautomatic : config.http2.memoryBytes = automatic
  · by_cases htls : config.tls ≠ none
    · simp only [if_pos hautomatic, if_pos htls, add_quarter h, bind, Except.bind, pure, Except.pure]
      exact ⟨_, rfl, Nat.min_le_right _ _, fun hset => absurd hautomatic hset, fun _ => by omega⟩
    · simp only [if_pos hautomatic, if_neg htls]
      exact ⟨_, rfl, Nat.zero_le _, fun hset => absurd hautomatic hset, fun _ => Nat.le_refl _⟩
  · simp only [if_neg hautomatic]
    exact ⟨_, rfl, Nat.le_add_right _ _, fun _ => rfl, id⟩

theorem streamsByMemory_spec (config : Config) (requirements : Requirements) (http2Bytes : Nat) :
    ∃ streams, config.streamsByMemory requirements http2Bytes = .ok streams ∧
      1 ≤ streams ∧ streams ≤ 256 := by
  unfold streamsByMemory
  by_cases htls : config.tls ≠ none
  · have hstream : 0 < max 1 requirements.streamBytes := by omega
    simp only [if_pos htls, div_of_pos hstream, bind, Except.bind, pure, Except.pure]
    exact ⟨_, rfl, by omega, by omega⟩
  · simp only [if_neg htls]
    exact ⟨1, rfl, by omega, by omega⟩

/-- The streams are kept when set.  Left to sizing, a worker budget that covers the other sizes and
one queue gives at least one stream, and their queues fit what is left. -/
theorem sizeStreams_spec (config : Config) (requirements : Requirements)
    (workerBudget largeBytes http2Bytes : Nat) :
    ∃ streams, config.sizeStreams requirements workerBudget largeBytes http2Bytes = .ok streams ∧
      (config.http2.maxStreamsPerWorker ≠ automatic →
        streams = config.http2.maxStreamsPerWorker) ∧
      (config.http2.maxStreamsPerWorker = automatic →
        requirements.workerBytes + largeBytes + config.http2Share http2Bytes +
          mulSat requirements.connectionBytes config.minimumConnections +
          requirements.streamQueueBytes ≤ workerBudget →
        1 ≤ streams ∧ streams ≤ 256 ∧
        requirements.workerBytes + largeBytes + config.http2Share http2Bytes +
          mulSat requirements.connectionBytes config.minimumConnections +
          requirements.streamQueueBytes * streams ≤ workerBudget) := by
  unfold sizeStreams
  by_cases hautomatic : config.http2.maxStreamsPerWorker = automatic
  · obtain ⟨streams, hstreams, hpos, hle⟩ :=
      streamsByMemory_spec config requirements http2Bytes
    by_cases hqueue : requirements.streamQueueBytes ≠ 0
    · simp only [if_pos hautomatic, hstreams, if_pos hqueue, div_of_pos (Nat.pos_of_ne_zero hqueue),
        bind, Except.bind, pure, Except.pure]
      refine ⟨_, rfl, fun hset => absurd hautomatic hset, fun _ hroom => ?_⟩
      generalize mulSat requirements.connectionBytes config.minimumConnections = storage at hroom ⊢
      generalize hbudget : workerBudget - requirements.workerBytes - largeBytes -
        config.http2Share http2Bytes - storage = queueBudget
      have hone : 1 ≤ queueBudget / requirements.streamQueueBytes :=
        (Nat.one_le_div_iff (Nat.pos_of_ne_zero hqueue)).mpr (by omega)
      have hqueues : requirements.streamQueueBytes *
          min streams (queueBudget / requirements.streamQueueBytes) ≤ queueBudget :=
        Nat.le_trans (Nat.mul_le_mul_left _ (Nat.min_le_right _ _)) (Nat.mul_div_le _ _)
      exact ⟨by omega, by omega, by omega⟩
    · have hqueue : requirements.streamQueueBytes = 0 := by omega
      simp only [if_pos hautomatic, hstreams, hqueue, ne_eq, not_true_eq_false, if_false, bind,
        Except.bind, pure, Except.pure]
      exact ⟨_, rfl, fun hset => absurd hautomatic hset, fun _ hroom => ⟨hpos, hle, by omega⟩⟩
  · simp only [if_neg hautomatic]
    exact ⟨_, rfl, fun _ => rfl, fun hset => absurd hset hautomatic⟩

theorem sizeConnections_ok {capacity workers workerBudget fixedBytes : Nat}
    {connections : Nat × ConnectionsReason}
    (h : config.sizeConnections requirements capacity workers workerBudget fixedBytes =
      .ok connections)
    (hworkers : 1 ≤ workers) (hcounts : config.countsInRange) :
    (config.maxConnections ≠ automatic → connections.1 = config.maxConnections) ∧
    (config.maxConnections = automatic →
      workers * (requirements.workerFds + connections.1) ≤ capacity) := by
  unfold sizeConnections at h
  split at h
  · rename_i hautomatic
    refine ⟨fun hset => absurd hautomatic hset, fun _ => ?_⟩
    simp only [bind_ok, ensure_ok, div_of_pos hworkers] at h
    obtain ⟨room, -, memoryCount, -, descriptors, hdescriptors, implementationCount, -, _, hleast, h⟩
      := h
    obtain rfl := Except.ok.inj hdescriptors
    obtain rfl := Except.ok.inj h
    have hpos := minimumConnections_pos hcounts
    dsimp only
    rw [Nat.mul_comm]
    refine Nat.le_trans (Nat.mul_le_mul_right _ ?_) (Nat.div_mul_le_self capacity workers)
    omega
  · rename_i hset
    obtain rfl := Except.ok.inj h
    exact ⟨fun _ => rfl, fun hautomatic => absurd hautomatic hset⟩

/-! ### No operator traps but one -/

/-- The sum that may trap: the descriptors of one worker at its smallest number of connections. -/
def DescriptorOverflow (config : Config) (requirements : Requirements) (trap : Trap) : Prop :=
  trap = .overflow ∧ config.maxConnections = automatic ∧
    usizeMax < requirements.workerFds + config.minimumConnections

theorem sizeWorkers_traps {threads room : Nat} {explicitCpus : List Nat}
    (hcounts : config.countsInRange) (hthreads : 1 ≤ threads) :
    TrapsOnly (config.DescriptorOverflow requirements)
      (config.sizeWorkers detected requirements threads explicitCpus room) := by
  refine .bind ?_ fun plan _ => .bind ?_ fun plan _ => .bind ?_ fun plan _ => ?_
  · unfold planWorkers
    split
    · refine .bind (.of_eq (div_of_pos hthreads)) fun _ _ => ?_
      split <;> exact .ok _
    · exact .ok _
  · unfold limitByDescriptors
    split
    · rename_i hautomatic
      have hpos := minimumConnections_pos hcounts
      refine .bind ?_ fun perWorker hsum => ?_
      · intro trap h
        unfold add at h
        split at h
        · cases h
        · rename_i hover
          cases h
          exact ⟨rfl, hautomatic, by omega⟩
      · have hne : 0 < perWorker := by
          unfold add at hsum
          split at hsum
          · obtain rfl := Except.ok.inj hsum
            omega
          · cases hsum
        refine .bind (.of_eq (div_of_pos hne)) fun _ _ => .bind (.ensure _ _) fun _ _ => ?_
        split <;> exact .ok _
    · exact .ok _
  · unfold limitByThreads
    split
    · exact .ok _
    · exact .bind (.of_eq (div_of_pos hthreads)) fun _ _ => limitTo_traps _ _ _ _ _
  · exact .bind (.of_eq (div_of_pos (by omega))) fun _ _ => limitTo_traps _ _ _ _ _

theorem mapWorkers_traps {allowed : Trap → Prop} (explicitCpus : List Nat) (workers mapping : Nat) :
    TrapsOnly allowed (config.mapWorkers detected explicitCpus workers mapping) := by
  unfold mapWorkers
  split
  · exact .ok _
  · split
    · split
      · exact .ok _
      · exact .fail _
    · exact .ok _

theorem threadsPerWorker_ok {threads : Nat} (h : threadsPerWorker requirements = .ok threads) :
    threads = 1 + requirements.laneThreads := by
  unfold threadsPerWorker at h
  split at h
  · exact (Except.ok.inj h).symm
  · cases h

theorem memoryBudget_le {budget : Nat} (h : budget ≤ detected.report.memoryAvailableBytes) :
    budget ≤ usizeMax :=
  Nat.le_trans h detected.report.memory_le

theorem resolveResources_traps (parseOrigin : Origins) (config : Config) (detected : Resources)
    (requirements : Requirements) (mapping : Nat) :
    TrapsOnly (config.DescriptorOverflow requirements)
      (config.resolveResources parseOrigin detected requirements mapping) := by
  refine .bind (validate_traps _ _) fun _ hvalid => .bind (.ensure _ _) fun _ hbudget => ?_
  have hvalid := validate_ok.mp hvalid
  obtain ⟨-, havailable, hshared⟩ := ensure_ok.mp hbudget
  refine .bind ?_ fun threads hthreads => .bind (resolveWorkerCpus_traps _) fun cpus _ =>
    .bind (.of_eq (sub_of_le (Nat.le_of_lt hshared))) fun room hroom => ?_
  · unfold threadsPerWorker
    split
    · exact .ok _
    · exact .fail _
  rw [sub_of_le (Nat.le_of_lt hshared)] at hroom
  have hroom := Except.ok.inj hroom
  have hthreads : 1 ≤ threads := by
    rw [threadsPerWorker_ok hthreads]
    omega
  refine .bind (sizeWorkers_traps hvalid.counts hthreads) fun plan hplan => ?_
  obtain ⟨hworkers, -, -, -, hshare⟩ := sizeWorkers_ok hplan hvalid.counts hthreads
  have hleast := minimumWorker_le_share hworkers hshare
  refine .bind (.of_eq (div_of_pos hworkers)) fun workerBudget hbudget => ?_
  rw [div_of_pos hworkers] at hbudget
  obtain rfl := Except.ok.inj hbudget
  refine .bind (.of_eq (sub_of_le hleast)) fun flexible hflexible => ?_
  rw [sub_of_le hleast] at hflexible
  have hflexible : flexible ≤ usizeMax := by
    have hdiv := Nat.div_le_self room plan.workers
    have hmax := memoryBudget_le havailable
    have := Except.ok.inj hflexible
    omega
  obtain ⟨large, hlarge, -⟩ := sizeLarge_spec config hflexible
  obtain ⟨http2, hhttp2, -⟩ := sizeHttp2_spec config hflexible
  refine .bind (.of_eq hlarge) fun largeBytes _ => .bind (.of_eq hhttp2) fun http2Bytes _ => ?_
  obtain ⟨streams, hstreams, -⟩ := sizeStreams_spec config requirements (room / plan.workers)
    largeBytes http2Bytes
  refine .bind (.of_eq hstreams) fun streams _ => .bind (.ensure _ _) fun _ hfixed => ?_
  have hfixed := ensure_ok.mp hfixed
  refine .bind ?_ fun connections _ => .bind (.ensure _ _) fun _ _ =>
    .bind (mapWorkers_traps _ _ _) fun _ _ => resolve_traps _ _
  unfold sizeConnections
  split
  · have hadmin : config.adminConnections ≤ 8176 := by
      have := hvalid.counts.2.2.2.2.1
      omega
    exact .bind (.of_eq (sub_of_le (Nat.le_of_lt hfixed))) fun _ _ =>
      .bind (.of_eq (div_of_pos (by omega))) fun _ _ => .bind (.of_eq (div_of_pos hworkers)) fun _ _ =>
      .bind (.of_eq (sub_of_le hadmin)) fun _ _ => .bind (.ensure _ _) fun _ _ => .ok _
  · exact .ok _

end stages

/-! ### The written mapping reads back -/

theorem not_mem_digits {n : Nat} {c : UInt8} (h : Ascii.isDigit c = false) :
    c ∉ Response.digits 10 n := by
  intro hmem
  rw [Response.isDigit_of_mem_digits hmem] at h
  cases h

theorem splitScalar_cpuPieces (cpu : Fin 1024) (cpus : List (Fin 1024)) :
    Mem.splitScalar 44 (cpuPieces (cpu :: cpus)).flatten =
      (cpu :: cpus).map fun cpu : Fin 1024 => Response.digits 10 cpu.val := by
  have hcomma (cpu : Fin 1024) : 44 ∉ Response.digits 10 cpu := not_mem_digits (by decide)
  induction cpus generalizing cpu with
  | nil => simp [cpuPieces, Mem.splitScalar_of_not_mem (hcomma cpu)]
  | cons next cpus ih =>
      have hrest : (cpuPieces (cpu :: next :: cpus)).flatten =
          Response.digits 10 cpu ++ 44 :: (cpuPieces (next :: cpus)).flatten := by
        simp [cpuPieces, List.flatMap_cons]
      rw [hrest, Mem.splitScalar_append _ (hcomma cpu), ih next]
      simp only [List.map_cons]

theorem parseCpu_digits (cpu : Fin 1024) : parseCpu (Response.digits 10 cpu) = .ok cpu.val := by
  have hint : Fmt.parseInt (Response.digits 10 cpu) 10 = some cpu.val :=
    Response.parseInt_digits (by decide) (by decide) (by have := cpu.isLt; omega)
  have hdigits : (Response.digits 10 cpu).all Ascii.isDigit = true :=
    List.all_eq_true.mpr fun c hc => Response.isDigit_of_mem_digits hc
  simp [parseCpu, ensure, Response.digits_ne_nil, hdigits, hint, bind, Except.bind, pure, Except.pure]

theorem addPart_digits (cpus : List Nat) (cpu : Fin 1024) :
    addPart cpus (Response.digits 10 cpu) = addCpu cpus cpu := by
  have hdash : 45 ∉ Response.digits 10 cpu := not_mem_digits (by decide)
  simp only [addPart, Mem.splitScalar_of_not_mem hdash, parseCpu_digits, List.foldlM_cons,
    List.foldlM_nil, bind, Except.bind, pure, Except.pure]
  cases addCpu cpus cpu <;> rfl

/-- Distinct CPUs that fit the storage are all taken. -/
theorem foldlM_addPart (acc : List Nat) (cpus : List (Fin 1024))
    (hnodup : (acc ++ cpus.map Fin.val).Nodup) (hlength : acc.length + cpus.length ≤ 256) :
    (cpus.map fun cpu : Fin 1024 => Response.digits 10 cpu.val).foldlM addPart acc =
      .ok (acc ++ cpus.map Fin.val) := by
  induction cpus generalizing acc with
  | nil => simp [pure, Except.pure]
  | cons cpu cpus ih =>
      have hfresh : ¬(acc.length = 256 ∨ cpu.val ∈ acc) := by
        rintro (hfull | hmem)
        · rw [List.length_cons] at hlength
          omega
        · rw [List.nodup_append] at hnodup
          exact hnodup.2.2 cpu.val hmem cpu.val (by simp) rfl
      have hadd : addCpu acc cpu = .ok (acc ++ [cpu.val]) := if_neg hfresh
      rw [List.map_cons, List.foldlM_cons, addPart_digits, hadd]
      simp only [bind, Except.bind]
      rw [ih (acc ++ [cpu.val])]
      · simp
      · simpa using hnodup
      · simp only [List.length_append, List.length_cons, List.length_nil] at hlength ⊢
        omega

/-- The text of a placement is a CPU list of as many workers. -/
theorem resolveWorkerCpus_placement {config : Config} {cpus : List (Fin 1024)} (hnodup : cpus.Nodup)
    (hlength : cpus.length ≤ 256) (hne : cpus ≠ [])
    (htext : config.workerCpus = (cpuPieces cpus).flatten) (hworkers : config.workers = cpus.length) :
    config.resolveWorkerCpus = .ok (cpus.map Fin.val) := by
  obtain ⟨cpu, rest, rfl⟩ := List.exists_cons_of_ne_nil hne
  obtain ⟨c, tail, hhead⟩ := List.exists_cons_of_ne_nil (Response.digits_ne_nil 10 cpu)
  have hdigit : Ascii.isDigit c = true := Response.isDigit_of_mem_digits (hhead ▸ List.mem_cons_self)
  have hflatten : (cpuPieces (cpu :: rest)).flatten =
      c :: (tail ++ (rest.flatMap fun cpu => [[44], Response.digits 10 cpu.val]).flatten) := by
    simp [cpuPieces, hhead]
  -- A text that starts with a digit is neither empty nor the word.
  have hmapped : ¬(config.workerCpus = [] ∨ config.workerCpus = ascii "inherit") := by
    rw [htext, hflatten]
    rintro (hnil | hword)
    · cases hnil
    · have hc : c = 105 := (List.cons.inj hword).1
      subst hc
      exact absurd hdigit (by decide)
  have hfold := foldlM_addPart [] (cpu :: rest)
    (by simpa using hnodup.map Fin.val_injective) (by simpa using hlength)
  rw [resolveWorkerCpus, if_neg hmapped, htext, splitScalar_cpuPieces, hfold]
  simp [ensure, hworkers, bind, Except.bind, pure, Except.pure]

/-! ### Resolved limits -/

/-- What resolving keeps of the options: whatever is set, and every option that is no size. -/
structure Keeps (config result : Config) : Prop where
  others : result = { config with
    workers := result.workers
    workerCpus := result.workerCpus
    maxConnections := result.maxConnections
    largeBufferBytes := result.largeBufferBytes
    http2 := { config.http2 with
      maxStreamsPerWorker := result.http2.maxStreamsPerWorker
      memoryBytes := result.http2.memoryBytes }
    admission := { config.admission with
      maxActive := result.admission.maxActive
      maxRejecting := result.admission.maxRejecting
      burst := result.admission.burst }
    resources := result.resources }
  workers : config.workers ≠ automatic → result.workers = config.workers
  connections : config.maxConnections ≠ automatic → result.maxConnections = config.maxConnections
  large : config.largeBufferBytes ≠ automatic → result.largeBufferBytes = config.largeBufferBytes
  memory : config.http2.memoryBytes ≠ automatic →
    result.http2.memoryBytes = config.http2.memoryBytes
  streams : config.http2.maxStreamsPerWorker ≠ automatic →
    result.http2.maxStreamsPerWorker = config.http2.maxStreamsPerWorker
  active : ∀ limit ∈ config.admission.maxActive, result.admission.maxActive = some limit
  rejecting : ∀ limit ∈ config.admission.maxRejecting, result.admission.maxRejecting = some limit
  burst : ∀ burst ∈ config.admission.burst, result.admission.burst = some burst
  cpus : ∀ cpus, config.resolveWorkerCpus = .ok cpus → cpus ≠ [] →
    result.workerCpus = config.workerCpus

/-- The estimate in the resolution is that of the resolved sizes, within the memory budget. -/
structure WithinMemory (config : Config) (detected : Resources) (requirements : Requirements)
    (result : Config) (resolution : Resolution) : Prop where
  reported : result.resources = some resolution
  estimate : resolution.estimatedBytes = estimate requirements result.workers
    (result.workerFixed requirements result.largeBufferBytes result.http2.memoryBytes
      result.http2.maxStreamsPerWorker) result.maxConnections
  estimate_le : resolution.estimatedBytes ≤ resolution.memoryBudgetBytes
  budget_le : resolution.memoryBudgetBytes ≤ detected.report.memoryAvailableBytes
  budget : ∀ bytes ∈ config.memoryBudgetBytes, resolution.memoryBudgetBytes = bytes
  threads : resolution.threadsPerWorker = 1 + requirements.laneThreads

/-- The limits of a resolved configuration. -/
structure Sized (parseOrigin : Origins) (config : Config) (detected : Resources)
    (requirements : Requirements) (result : Config) : Prop where
  valid : result.validate parseOrigin = .ok ()
  keeps : config.Keeps result
  workers : 1 ≤ result.workers
  streams : 1 ≤ result.http2.maxStreamsPerWorker
  connections : 1 ≤ result.maxConnections
  memory : ∃ resolution, config.WithinMemory detected requirements result resolution
  threads : ∀ available ∈ detected.report.availableThreads,
    result.workers * (1 + requirements.laneThreads) + requirements.processThreads ≤ available + 1
  admission : ∃ active rejecting, result.admission.maxActive = some active ∧
    result.admission.maxRejecting = some rejecting ∧ active ≤ result.maxConnections ∧
    rejecting ≤ result.maxConnections
  descriptors : config.maxConnections = automatic →
    result.workers * (requirements.workerFds + result.maxConnections) ≤
      config.descriptorCapacity detected.report requirements

/-- Workers within their count of threads leave the threads of the process. -/
theorem threads_within {workers threads processThreads available : Nat} (hworkers : 1 ≤ workers)
    (hthreads : 1 ≤ threads) (h : workers ≤ (addSat available 1 - processThreads) / threads) :
    workers * threads + processThreads ≤ available + 1 := by
  have hmul : workers * threads ≤ addSat available 1 - processThreads :=
    (Nat.le_div_iff_mul_le hthreads).mp h
  have hpos : 1 ≤ workers * threads := Nat.mul_pos hworkers hthreads
  have hsat : addSat available 1 ≤ available + 1 := Nat.min_le_left _ _
  omega

theorem resolveResources_sized {parseOrigin : Origins} {config : Config} {detected : Resources}
    {requirements : Requirements} {mapping : Nat} {result : Config}
    (h : config.resolveResources parseOrigin detected requirements mapping = .ok result) :
    config.Sized parseOrigin detected requirements result := by
  simp only [resolveResources, bind_ok, ensure_ok] at h
  obtain ⟨_, hvalid, _, ⟨-, havailable, hshared⟩, threads, hthreads, explicitCpus, hcpus, room, hroom,
    plan, hplan, workerBudget, hworkerBudget, flexible, hflexible, largeBytes, hlarge, http2Bytes,
    hhttp2, streams, hstreams, _, hfixed, connections, hconnections, _, hestimate, cpus, hmapping,
    hresolve⟩ := h
  have hvalid := validate_ok.mp hvalid
  obtain rfl := threadsPerWorker_ok hthreads
  obtain ⟨hworkers, hkept, -, hthreadCount, hshare⟩ :=
    sizeWorkers_ok hplan hvalid.counts (Nat.le_add_right _ _)
  have hleast := minimumWorker_le_share hworkers hshare
  rw [sub_of_le (Nat.le_of_lt hshared)] at hroom
  obtain rfl := Except.ok.inj hroom
  rw [div_of_pos hworkers] at hworkerBudget
  obtain rfl := Except.ok.inj hworkerBudget
  rw [sub_of_le hleast] at hflexible
  have hflexible : flexible ≤ usizeMax := by
    have hdiv := Nat.div_le_self
      (config.memoryBudget detected.report - sharedBytes requirements) plan.workers
    have hmax := memoryBudget_le havailable
    have := Except.ok.inj hflexible
    omega
  obtain ⟨_, hlarge', -, hlargeKept⟩ := sizeLarge_spec config hflexible
  obtain rfl := Except.ok.inj (hlarge.symm.trans hlarge')
  obtain ⟨_, hhttp2', -, hhttp2Kept, -⟩ := sizeHttp2_spec config hflexible
  obtain rfl := Except.ok.inj (hhttp2.symm.trans hhttp2')
  obtain ⟨_, hstreams', hstreamsKept, -⟩ := sizeStreams_spec config requirements
    ((config.memoryBudget detected.report - sharedBytes requirements) / plan.workers) largeBytes
    http2Bytes
  obtain rfl := Except.ok.inj (hstreams.symm.trans hstreams')
  obtain ⟨hconnectionsKept, hdescriptors⟩ :=
    sizeConnections_ok hconnections hworkers hvalid.counts
  obtain ⟨hresolved, hnumeric, rfl⟩ := resolve_ok hresolve
  obtain ⟨hconnectionsPos, -⟩ := hresolved.connections_le hnumeric
  obtain ⟨-, hactive, hrejecting⟩ := hresolved.active_le hnumeric
  refine ⟨validate_ok.mpr (hresolved.resolved hnumeric), ?_, hworkers,
    Nat.pos_of_ne_zero hresolved.http2.2.2.1, hconnectionsPos, ?_, ?_,
    ⟨_, _, rfl, rfl, hactive, hrejecting⟩, hdescriptors⟩
  · refine ⟨rfl, hkept, hconnectionsKept, hlargeKept, hhttp2Kept, hstreamsKept, ?_, ?_, ?_, ?_⟩
    · intro limit hlimit
      simp [admissionDefaults, Option.mem_def.mp hlimit]
    · intro limit hlimit
      simp [admissionDefaults, Option.mem_def.mp hlimit]
    · intro burst hburst
      simp [admissionDefaults, Option.mem_def.mp hburst]
    · intro list hlist hne
      obtain rfl := Except.ok.inj (hcpus.symm.trans hlist)
      rw [mapWorkers, if_pos hne] at hmapping
      rw [← Except.ok.inj hmapping]
  · refine ⟨_, rfl, rfl, hestimate, havailable, ?_, rfl⟩
    intro bytes hbytes
    simp [memoryBudget, Option.mem_def.mp hbytes]
  · intro available hsome
    exact threads_within hworkers (Nat.le_add_right _ _) (hthreadCount available hsome)

/-! ### One worker that fits is enough -/

/-- No list of CPUs fixes the number of workers. -/
def Unmapped (config : Config) : Prop :=
  config.workerCpus = [] ∨ config.workerCpus = ascii "inherit"

/-- The bytes of one worker at its smallest sizes, without saturation. -/
def leastBytes (config : Config) (requirements : Requirements) : Nat :=
  requirements.workerBytes + requirements.connectionBytes * config.minimumConnections +
    requirements.streamQueueBytes * config.minimumStreams + config.minimumLarge +
    config.http2Share config.minimumHttp2

/-- One worker at its smallest sizes fits every budget. -/
structure Fits (config : Config) (detected : Resources) (requirements : Requirements) : Prop where
  budget : config.memoryBudget detected.report ≤ detected.report.memoryAvailableBytes
  memory : requirements.adminBytes + requirements.processBytes + config.leastBytes requirements ≤
    config.memoryBudget detected.report
  count : 1 + requirements.laneThreads ≤ usizeMax
  threads : ∀ available ∈ detected.report.availableThreads,
    1 + requirements.laneThreads + requirements.processThreads ≤ addSat available 1
  descriptors : config.maxConnections = automatic →
    requirements.workerFds + config.minimumConnections ≤
      config.descriptorCapacity detected.report requirements

theorem addSat_of_le {a b : Nat} (h : a + b ≤ usizeMax) : addSat a b = a + b := Nat.min_eq_left h

theorem mulSat_of_le {a b : Nat} (h : a * b ≤ usizeMax) : mulSat a b = a * b := Nat.min_eq_left h

section fits

variable {config : Config} {detected : Resources} {requirements : Requirements}

theorem Fits.le_usizeMax (h : config.Fits detected requirements) :
    requirements.adminBytes + requirements.processBytes + config.leastBytes requirements ≤
      usizeMax :=
  Nat.le_trans h.memory (memoryBudget_le h.budget)

theorem Fits.sharedBytes_eq (h : config.Fits detected requirements) :
    sharedBytes requirements = requirements.adminBytes + requirements.processBytes := by
  have := h.le_usizeMax
  exact addSat_of_le (by omega)

theorem Fits.storage_eq (h : config.Fits detected requirements) :
    mulSat requirements.connectionBytes config.minimumConnections =
      requirements.connectionBytes * config.minimumConnections := by
  have := h.le_usizeMax
  simp only [leastBytes] at this
  exact mulSat_of_le (by omega)

/-- Within the budget nothing saturates. -/
theorem Fits.minimumWorker_eq (h : config.Fits detected requirements) :
    config.minimumWorker requirements = config.leastBytes requirements := by
  have hmax := h.le_usizeMax
  have hstorage := h.storage_eq
  simp only [leastBytes] at hmax ⊢
  have hqueues : mulSat requirements.streamQueueBytes config.minimumStreams =
      requirements.streamQueueBytes * config.minimumStreams := mulSat_of_le (by omega)
  rw [minimumWorker, hstorage, hqueues]
  simp only [addSat]
  omega

theorem Fits.sizeWorkers (h : config.Fits detected requirements) (hcounts : config.countsInRange)
    (hautomatic : config.workers = automatic) (hleast : 1 ≤ config.leastBytes requirements) :
    ∃ plan, config.sizeWorkers detected requirements (1 + requirements.laneThreads) []
      (config.memoryBudget detected.report - sharedBytes requirements) = .ok plan := by
  have hadjustable : decide (config.workers = automatic ∧ ([] : List Nat) = []) = true := by
    simp [hautomatic]
  have hpos := minimumConnections_pos hcounts
  have hplan : ∃ plan, config.planWorkers detected (1 + requirements.laneThreads) [] = .ok plan := by
    rw [planWorkers, if_pos hautomatic, div_of_pos (by omega)]
    exact ⟨_, rfl⟩
  have hdescriptors (plan : Plan) : ∃ next, config.limitByDescriptors requirements
      (config.descriptorCapacity detected.report requirements) true plan = .ok next := by
    unfold limitByDescriptors
    split
    · rename_i hconnections
      have hfits := h.descriptors hconnections
      have hcapacity : config.descriptorCapacity detected.report requirements ≤ usizeMax := by
        have := detected.report.nofile_le
        simp only [descriptorCapacity]
        omega
      have hcount : config.descriptorCapacity detected.report requirements /
          (requirements.workerFds + config.minimumConnections) ≠ 0 :=
        Nat.ne_of_gt ((Nat.one_le_div_iff (by omega)).mpr hfits)
      rw [add_of_le (by omega)]
      simp only [bind, Except.bind, div_of_pos (show 0 < requirements.workerFds +
        config.minimumConnections by omega), ensure, hcount, ne_eq, not_false_eq_true, if_true]
      split <;> exact ⟨_, rfl⟩
    · exact ⟨plan, rfl⟩
  have hthreads (plan : Plan) : ∃ next, limitByThreads detected.report requirements
      (1 + requirements.laneThreads) true plan = .ok next := by
    unfold limitByThreads
    split
    · exact ⟨plan, rfl⟩
    · rename_i available hsome
      have hfits := h.threads available hsome
      rw [div_of_pos (by omega)]
      exact limitTo_succeeds _ _ plan ((Nat.one_le_div_iff (by omega)).mpr (by omega))
  have hmemory (plan : Plan) : ∃ next, config.limitByMemory requirements
      (config.memoryBudget detected.report - sharedBytes requirements) true plan = .ok next := by
    have hfits := h.memory
    have hroom : max 1 (config.minimumWorker requirements) ≤
        config.memoryBudget detected.report - sharedBytes requirements := by
      rw [h.minimumWorker_eq, h.sharedBytes_eq]
      omega
    rw [limitByMemory, div_of_pos (by omega)]
    exact limitTo_succeeds _ _ plan ((Nat.one_le_div_iff (by omega)).mpr hroom)
  obtain ⟨first, hfirst⟩ := hplan
  obtain ⟨second, hsecond⟩ := hdescriptors first
  obtain ⟨third, hthird⟩ := hthreads second
  obtain ⟨plan, hlast⟩ := hmemory third
  refine ⟨plan, ?_⟩
  unfold Config.sizeWorkers
  rw [hadjustable]
  simp only [bind_ok]
  exact ⟨first, hfirst, second, hsecond, third, hthird, hlast⟩

/-- The descriptors were counted before the workers were. -/
theorem sizeWorkers_descriptors {threads room : Nat} {plan : Plan}
    (h : config.sizeWorkers detected requirements threads [] room = .ok plan)
    (hautomatic : config.workers = automatic) (hconnections : config.maxConnections = automatic)
    (hthreads : 1 ≤ threads) (hpos : 1 ≤ plan.workers) :
    requirements.workerFds + config.minimumConnections ≤
      config.descriptorCapacity detected.report requirements / plan.workers := by
  simp only [Config.sizeWorkers, bind_ok] at h
  obtain ⟨first, hfirst, second, hsecond, third, hthird, h⟩ := h
  have hcut := (limitByThreads_ok hthird hthreads).1.trans (limitByMemory_ok h).1
  have hle : second.workers ≤ config.descriptorCapacity detected.report requirements /
      (requirements.workerFds + config.minimumConnections) := by
    rw [limitByDescriptors, if_pos hconnections] at hsecond
    simp only [bind_ok, ensure_ok] at hsecond
    obtain ⟨perWorker, hsum, count, hcount, _, hne, hsecond⟩ := hsecond
    have hperWorker : perWorker = requirements.workerFds + config.minimumConnections := by
      unfold add at hsum
      split at hsum
      · exact (Except.ok.inj hsum).symm
      · cases hsum
    subst hperWorker
    have hcount : config.descriptorCapacity detected.report requirements /
        (requirements.workerFds + config.minimumConnections) = count := by
      unfold div at hcount
      split at hcount
      · cases hcount
      · exact Except.ok.inj hcount
    rw [hcount]
    split at hsecond
    · obtain rfl := Except.ok.inj hsecond
      exact Nat.le_refl _
    · rename_i hnot
      obtain rfl := Except.ok.inj hsecond
      simpa [hautomatic] using hnot
  by_cases hzero : requirements.workerFds + config.minimumConnections = 0
  · rw [hzero]
    exact Nat.zero_le _
  · refine (Nat.le_div_iff_mul_le hpos).mpr ?_
    have hmul := (Nat.le_div_iff_mul_le (by omega)).mp (Nat.le_trans hcut.2.1 hle)
    rwa [Nat.mul_comm]

/-- The sizes that the rest of a worker's share is handed out to leave room for its connections. -/
theorem Fits.fixed_le (h : config.Fits detected requirements) {workerBudget largeBytes http2Bytes
    streams : Nat} (hbudget : config.leastBytes requirements ≤ workerBudget)
    (hmax : workerBudget ≤ usizeMax)
    (hlarge : largeBytes ≤
      config.minimumLarge + (workerBudget - config.leastBytes requirements) / 4)
    (hhttp2 : config.http2Share http2Bytes ≤ config.http2Share config.minimumHttp2 +
      (workerBudget - config.leastBytes requirements) / 4)
    (hset : config.http2.maxStreamsPerWorker ≠ automatic →
      streams = config.http2.maxStreamsPerWorker)
    (hfree : config.http2.maxStreamsPerWorker = automatic →
      requirements.workerBytes + largeBytes + config.http2Share http2Bytes +
        mulSat requirements.connectionBytes config.minimumConnections +
        requirements.streamQueueBytes ≤ workerBudget →
      1 ≤ streams ∧ streams ≤ 256 ∧
      requirements.workerBytes + largeBytes + config.http2Share http2Bytes +
        mulSat requirements.connectionBytes config.minimumConnections +
        requirements.streamQueueBytes * streams ≤ workerBudget) :
    config.workerFixed requirements largeBytes http2Bytes streams +
      requirements.connectionBytes * config.minimumConnections ≤ workerBudget ∧
    (config.http2.maxStreamsPerWorker = automatic → 1 ≤ streams ∧ streams ≤ 256) := by
  rw [h.storage_eq] at hfree
  simp only [leastBytes] at hbudget hlarge hhttp2
  have hsum : requirements.workerBytes + largeBytes + config.http2Share http2Bytes +
      requirements.connectionBytes * config.minimumConnections +
      requirements.streamQueueBytes * streams ≤ workerBudget ∧
      (config.http2.maxStreamsPerWorker = automatic → 1 ≤ streams ∧ streams ≤ 256) := by
    by_cases hautomatic : config.http2.maxStreamsPerWorker = automatic
    · have hone : config.minimumStreams = 1 := if_pos hautomatic
      rw [hone, Nat.mul_one] at hbudget hlarge hhttp2
      obtain ⟨hpos, hle, hroom⟩ := hfree hautomatic (by omega)
      exact ⟨hroom, fun _ => ⟨hpos, hle⟩⟩
    · have hset : config.minimumStreams = streams := (if_neg hautomatic).trans (hset hautomatic).symm
      rw [hset] at hbudget hlarge hhttp2
      exact ⟨by omega, fun h => absurd h hautomatic⟩
  refine ⟨?_, hsum.2⟩
  have hqueues : mulSat requirements.streamQueueBytes streams =
      requirements.streamQueueBytes * streams := mulSat_of_le (by omega)
  simp only [workerFixed, hqueues, addSat]
  omega

theorem sizeConnections_succeeds {parseOrigin : Origins} {workers workerBudget fixedBytes : Nat}
    (hvalid : config.Valid parseOrigin) (hbytes : 1 ≤ requirements.connectionBytes)
    (hworkers : 1 ≤ workers)
    (hroom : fixedBytes + requirements.connectionBytes * config.minimumConnections ≤ workerBudget)
    (hdescriptors : config.maxConnections = automatic →
      requirements.workerFds + config.minimumConnections ≤
        config.descriptorCapacity detected.report requirements / workers) :
    ∃ connections, config.sizeConnections requirements
        (config.descriptorCapacity detected.report requirements) workers workerBudget fixedBytes =
        .ok connections ∧
      fixedBytes + requirements.connectionBytes * connections.1 ≤ workerBudget ∧
      config.minimumConnections ≤ connections.1 ∧
      connections.1 + config.adminConnections ≤ 8176 := by
  obtain ⟨-, -, -, -, hadmin, hsum⟩ := hvalid.counts
  unfold sizeConnections
  by_cases hautomatic : config.maxConnections = automatic
  · have hfds := hdescriptors hautomatic
    have hmax : max 1 requirements.connectionBytes = requirements.connectionBytes := by omega
    have hmemory : config.minimumConnections ≤
        (workerBudget - fixedBytes) / requirements.connectionBytes :=
      (Nat.le_div_iff_mul_le hbytes).mpr (by rw [Nat.mul_comm]; omega)
    -- The admission counts were checked against the slots the implementation allows.
    have himplementation : config.minimumConnections ≤ 8176 - config.adminConnections := by
      obtain ⟨hactive, hrejecting⟩ := hvalid.admission
      rw [minimumConnections, if_pos hautomatic]
      have hfirst : config.admission.maxActive.getD 1 ≤ 8176 - config.adminConnections := by
        cases hlimit : config.admission.maxActive with
        | none => simp only [Option.getD_none]; omega
        | some limit =>
            have := (hactive limit hlimit).2
            simp only [Option.getD_some]
            omega
      have hsecond : config.admission.maxRejecting.getD 0 ≤ 8176 - config.adminConnections := by
        cases hlimit : config.admission.maxRejecting with
        | none => simp only [Option.getD_none]; omega
        | some limit =>
            have := hrejecting limit hlimit
            simp only [Option.getD_some]
            omega
      omega
    rw [if_pos hautomatic, sub_of_le (by omega), sub_of_le (by omega), hmax]
    simp only [bind, Except.bind, div_of_pos hbytes, div_of_pos hworkers]
    have hensure : ensure (config.minimumConnections ≤
        min (min ((workerBudget - fixedBytes) / requirements.connectionBytes)
          (config.descriptorCapacity detected.report requirements / workers -
            requirements.workerFds)) (8176 - config.adminConnections))
        .descriptorBudgetTooSmall = .ok () := ensure_ok.mpr (by omega)
    rw [hensure]
    refine ⟨_, rfl, ?_, by dsimp only; omega, by dsimp only; omega⟩
    have hmul := Nat.mul_div_le (workerBudget - fixedBytes) requirements.connectionBytes
    have hle : requirements.connectionBytes *
        min (min ((workerBudget - fixedBytes) / requirements.connectionBytes)
          (config.descriptorCapacity detected.report requirements / workers -
            requirements.workerFds)) (8176 - config.adminConnections) ≤
        requirements.connectionBytes * ((workerBudget - fixedBytes) / requirements.connectionBytes) :=
      Nat.mul_le_mul_left _ (by omega)
    dsimp only
    omega
  · have hset : config.minimumConnections = config.maxConnections := if_neg hautomatic
    rw [if_neg hautomatic]
    rw [hset] at hroom ⊢
    exact ⟨_, rfl, hroom, Nat.le_refl _, hsum.resolve_left hautomatic⟩

theorem cpuPieces_take_length (cpus : List (Fin 1024)) (count : Nat) :
    (cpuPieces (cpus.take count)).flatten.length ≤ (cpuPieces cpus).flatten.length := by
  cases cpus with
  | nil => simp
  | cons cpu rest =>
      cases count with
      | zero => simp [cpuPieces]
      | succ count =>
          simp only [List.take_succ_cons, cpuPieces, List.flatten_cons, List.length_append]
          conv_rhs => rw [← List.take_append_drop count rest, List.flatMap_append, List.flatten_append,
            List.length_append]
          omega

/-- With room for the text of the placement the mapping is written, and reads back. -/
theorem mapWorkers_succeeds (config : Config) {workers mapping : Nat} (hworkers : 1 ≤ workers)
    (hmapping : (cpuPieces detected.placement).flatten.length ≤ mapping) :
    ∃ cpus, config.mapWorkers detected [] workers mapping = .ok cpus ∧
      ∀ result : Config, result.workerCpus = cpus.1 → result.workers = workers →
        ∃ list, result.resolveWorkerCpus = .ok list := by
  unfold mapWorkers
  rw [if_neg (by simp)]
  split
  · rename_i hplaced
    have hspec := Response.writeEach_spec { capacity := mapping }
      (cpuPieces (detected.placement.take workers))
    have hfits := cpuPieces_take_length detected.placement workers
    split
    · rename_i writer hwrite
      rw [hwrite] at hspec
      refine ⟨_, rfl, ?_⟩
      intro result htext hcount
      have hlength : (detected.placement.take workers).length = workers := by
        rw [List.length_take]
        omega
      refine ⟨_, resolveWorkerCpus_placement (detected.nodup.sublist (List.take_sublist _ _)) ?_ ?_
        (htext.trans (hspec.2 rfl)) (hcount.trans hlength.symm)⟩
      · rw [hlength]
        exact Nat.le_trans hplaced.2 detected.length_le
      · intro hnil
        rw [hnil] at hlength
        simp only [List.length_nil] at hlength
        omega
    · rename_i hwrite
      rw [hwrite] at hspec
      exact absurd (hspec.1.mpr (by simpa using Nat.le_trans hfits hmapping)) (by simp)
  · refine ⟨_, rfl, ?_⟩
    intro result htext _
    exact ⟨[], if_pos (.inl htext)⟩

/-- The estimate of sizes that fit their share stays within the budget. -/
theorem estimate_le {budget shared workers fixedBytes connections : Nat}
    (hshared : sharedBytes requirements = shared) (hle : shared ≤ budget) (hmax : budget ≤ usizeMax)
    (hroom : fixedBytes + requirements.connectionBytes * connections ≤ (budget - shared) / workers) :
    estimate requirements workers fixedBytes connections ≤ budget := by
  have hshare : workers * ((budget - shared) / workers) ≤ budget - shared := Nat.mul_div_le _ _
  have hworkers : workers * (fixedBytes + requirements.connectionBytes * connections) ≤
      budget - shared := Nat.le_trans (Nat.mul_le_mul_left _ hroom) hshare
  have hdiv := Nat.div_le_self (budget - shared) workers
  have hstorage : mulSat requirements.connectionBytes connections =
      requirements.connectionBytes * connections := mulSat_of_le (by omega)
  have hworker : addSat fixedBytes (requirements.connectionBytes * connections) =
      fixedBytes + requirements.connectionBytes * connections := addSat_of_le (by omega)
  rw [estimate, hshared, hstorage, hworker, mulSat_of_le (by omega), addSat_of_le (by omega)]
  omega

/-- The sizes found leave a valid configuration. -/
theorem Valid.sized {parseOrigin : Origins} (h : config.Valid parseOrigin) {result : Config}
    (hothers : result = { config with
      workers := result.workers
      workerCpus := result.workerCpus
      maxConnections := result.maxConnections
      largeBufferBytes := result.largeBufferBytes
      http2 := { config.http2 with
        maxStreamsPerWorker := result.http2.maxStreamsPerWorker
        memoryBytes := result.http2.memoryBytes }
      resources := result.resources })
    (hworkers : 1 ≤ result.workers ∧ result.workers ≤ 256)
    (hconnections : config.minimumConnections ≤ result.maxConnections ∧
      result.maxConnections + config.adminConnections ≤ 8176)
    (hmemory : 1024 * 1024 ≤ result.http2.memoryBytes)
    (hstreams : result.http2.maxStreamsPerWorker = config.http2.maxStreamsPerWorker ∨
      1 ≤ result.http2.maxStreamsPerWorker ∧ result.http2.maxStreamsPerWorker ≤ 256)
    (hcpus : ∃ list, result.resolveWorkerCpus = .ok list) :
    result.Valid parseOrigin := by
  have hpos := minimumConnections_pos h.counts
  have hadmin := h.counts.2.2.2.2.1
  have hhttp2 := h.http2
  have hactive := h.admission.1
  have hrejecting := h.admission.2
  -- A limit that was admitted for these options is at most the connections.
  have hleast : (∀ limit ∈ config.admission.maxActive, limit ≤ config.minimumConnections) ∧
      (∀ limit ∈ config.admission.maxRejecting, limit ≤ config.minimumConnections) := by
    unfold minimumConnections
    split
    · refine ⟨fun limit hlimit => ?_, fun limit hlimit => ?_⟩
      · rw [Option.mem_def.mp hlimit, Option.getD_some]
        omega
      · rw [Option.mem_def.mp hlimit, Option.getD_some]
        omega
    · refine ⟨fun limit hlimit => ?_, fun limit hlimit => ?_⟩
      · have := (hactive limit hlimit).2
        omega
      · have := hrejecting limit hlimit
        omega
  rw [hothers]
  refine ⟨h.unsized, ⟨hhttp2.1, hhttp2.2.1, ?_, ?_, hmemory⟩, ⟨?_, .inr hworkers.2, ?_, ?_, hadmin,
    .inr hconnections.2⟩, h.burst, hothers ▸ hcpus, ?_, ?_⟩
  · dsimp only
    rcases hstreams with hset | hfound
    · exact hset ▸ hhttp2.2.2.1
    · omega
  · dsimp only
    rcases hstreams with hset | hfound
    · exact hset ▸ hhttp2.2.2.2.1
    · exact .inr (by omega)
  · dsimp only
    omega
  · dsimp only
    omega
  · dsimp only
    exact .inr (by omega)
  · intro limit hlimit
    have hle := hleast.1 limit hlimit
    exact ⟨(hactive limit hlimit).1, by dsimp only; omega⟩
  · intro limit hlimit
    have hle := hleast.2 limit hlimit
    dsimp only
    omega

theorem resolveResources_succeeds {parseOrigin : Origins} {mapping : Nat}
    (hvalid : config.Valid parseOrigin) (hbytes : 1 ≤ requirements.connectionBytes)
    (hmapping : (cpuPieces detected.placement).flatten.length ≤ mapping)
    (hautomatic : config.workers = automatic) (hunmapped : config.Unmapped)
    (hfits : config.Fits detected requirements) :
    ∃ result, config.resolveResources parseOrigin detected requirements mapping = .ok result := by
  have hpos := minimumConnections_pos hvalid.counts
  have hstorage : 1 ≤ requirements.connectionBytes * config.minimumConnections :=
    Nat.mul_pos hbytes hpos
  have hleast : 1 ≤ config.leastBytes requirements := by
    simp only [leastBytes]
    omega
  have hmemory := hfits.memory
  have hmax := memoryBudget_le hfits.budget
  have hshared := hfits.sharedBytes_eq
  have hlt : sharedBytes requirements < config.memoryBudget detected.report := by omega
  have hcpus : config.resolveWorkerCpus = .ok [] := if_pos hunmapped
  obtain ⟨plan, hplan⟩ := hfits.sizeWorkers hvalid.counts hautomatic hleast
  obtain ⟨hworkers, -, hfew, -, hshare⟩ :=
    sizeWorkers_ok hplan hvalid.counts (Nat.le_add_right _ _)
  have hminimum := minimumWorker_le_share hworkers hshare
  have hbudget := hminimum
  rw [hfits.minimumWorker_eq] at hbudget
  generalize hroom : config.memoryBudget detected.report - sharedBytes requirements = room at *
  have hdiv := Nat.div_le_self room plan.workers
  have hflexible : room / plan.workers - config.minimumWorker requirements ≤ usizeMax := by omega
  obtain ⟨largeBytes, hlarge, hlargeLe, -⟩ := sizeLarge_spec config hflexible
  obtain ⟨http2Bytes, hhttp2, hhttp2Le, -, hhttp2Least⟩ := sizeHttp2_spec config hflexible
  obtain ⟨streams, hstreams, hset, hfree⟩ :=
    sizeStreams_spec config requirements (room / plan.workers) largeBytes http2Bytes
  rw [hfits.minimumWorker_eq] at hlargeLe hhttp2Le
  obtain ⟨hfixed, hcounted⟩ := hfits.fixed_le hbudget (by omega) hlargeLe hhttp2Le hset hfree
  have hdescriptors (hfree : config.maxConnections = automatic) :=
    sizeWorkers_descriptors hplan hautomatic hfree (Nat.le_add_right _ _) hworkers
  obtain ⟨connections, hconnections, hwithin, henough, hslots⟩ :=
    sizeConnections_succeeds hvalid hbytes hworkers hfixed hdescriptors
  obtain ⟨cpus, hmapped, hread⟩ := mapWorkers_succeeds config hworkers hmapping
  have hestimate := estimate_le hshared (by omega) hmax (hshared ▸ hroom ▸ hwithin)
  simp only [resolveResources, bind_ok, ensure_ok]
  refine ⟨_, (), validate_ok.mpr hvalid, (), ⟨by omega, hfits.budget, hlt⟩, _, if_pos hfits.count, [],
    hcpus, _, sub_of_le (Nat.le_of_lt hlt), plan, hroom ▸ hplan, room / plan.workers, ?_, _,
    sub_of_le hminimum, largeBytes, hlarge, http2Bytes, hhttp2, streams, hstreams, (), by omega,
    connections, hconnections, (), hestimate, cpus, hmapped, resolve_eq ?_ ?_⟩
  · rw [hroom]
    exact div_of_pos hworkers
  · refine hvalid.sized rfl ⟨hworkers, hfew hautomatic rfl⟩ ⟨henough, hslots⟩
      (hhttp2Least hvalid.http2.2.2.2.2) ?_ (hread _ rfl rfl)
    by_cases hstreamsSet : config.http2.maxStreamsPerWorker = automatic
    · exact .inr (hcounted hstreamsSet)
    · exact .inl (hset hstreamsSet)
  · show connections.1 ≠ automatic
    simp only [automatic, usizeMax]
    omega

end fits

/-- Startup sizing.  The only operator of `resolveResources` that can trap is one sum of descriptors;
resolved limits respect every budget and every option that was set; and with automatic workers, no
list of CPUs and room for the text of the mapping, one worker that fits is enough to start. -/
theorem resolveResources_correct (parseOrigin : Origins) (config : Config) (detected : Resources)
    (requirements : Requirements) (mapping : Nat) (hvalid : config.validate parseOrigin = .ok ())
    (hbytes : 1 ≤ requirements.connectionBytes)
    (hmapping : (cpuPieces detected.placement).flatten.length ≤ mapping) :
    (∀ trap, config.resolveResources parseOrigin detected requirements mapping =
      .error (.trap trap) → config.DescriptorOverflow requirements trap) ∧
    (∀ result, config.resolveResources parseOrigin detected requirements mapping = .ok result →
      config.Sized parseOrigin detected requirements result) ∧
    (config.workers = automatic → config.Unmapped → config.Fits detected requirements →
      ∃ result, config.resolveResources parseOrigin detected requirements mapping = .ok result) := by
  refine ⟨resolveResources_traps parseOrigin config detected requirements mapping, ?_, ?_⟩
  · intro result h
    exact resolveResources_sized h
  · intro hautomatic hunmapped hfits
    exact resolveResources_succeeds (validate_ok.mp hvalid) hbytes hmapping hautomatic hunmapped hfits

/-- A container of 256 MiB with 128 descriptors and a quota of two and a half CPUs. -/
def smallHost : Resources where
  report := {
    physicalCores := 16
    cpuQuotaMillis := some 2500
    memoryAvailableBytes := 256 * 1024 * 1024
    nofileLimit := 128 }

/-- An application with one executor lane. -/
def smallApplication : Requirements where
  workerBytes := 4 * 1024 * 1024
  connectionBytes := 64 * 1024
  adminBytes := 1024 * 1024
  streamBytes := 128 * 1024
  laneThreads := 1

theorem resolveResources_correct_defaults :
    ∃ result, resolveResources (fun _ => false) {} smallHost smallApplication 1280 = .ok result ∧
      result.workers = 1 ∧ result.maxConnections = 84 ∧
      Sized (fun _ => false) {} smallHost smallApplication result := by
  have hcorrect := resolveResources_correct (fun _ => false) {} smallHost smallApplication 1280
    (by decide +kernel) (by decide) (by decide)
  have hfits : Fits {} smallHost smallApplication :=
    ⟨by decide, by decide, by decide, by decide, by decide⟩
  obtain ⟨result, h⟩ := hcorrect.2.2 rfl (.inl rfl) hfits
  have hcounts : (resolveResources (fun _ => false) {} smallHost smallApplication 1280).toOption.map
      (fun result => (result.workers, result.maxConnections)) = some (1, 84) := by decide +kernel
  rw [h] at hcounts
  obtain ⟨hworkers, hconnections⟩ := Prod.mk.inj (Option.some.inj hcounts)
  exact ⟨result, h, hworkers, hconnections, hcorrect.2.1 result h⟩

end Config

end Zhtps
