import Zhtps.Config.Discovery

/-!
The CPUs near a network card, after `readPlacement` and `readNic` of `src/Config/Resources.zig`:
the CPUs of its interrupts, their SMT siblings, and the cores that share their last-level caches.
-/

namespace Zhtps.Discovery

open Config (CpuSet)

/-! ### Directories -/

/-- What the iteration of a directory gives before it ends or fails. -/
inductive Listing
  | missing
  | names (names : List Bytes) (complete : Bool)

/-- A host whose directories can be listed. -/
structure Machine extends Host where
  list : Bytes → Listing

/-- A name formatted into storage for so many bytes. -/
def shortPath (size : Nat) (path : Bytes) : Checked Bytes :=
  if size < path.length then invalid else .ok path

def network : Bytes := ascii "sys/class/net"

/-! ### Interrupts -/

/-- The loop over the queues: whether no receive queue is steered to CPUs by the kernel. -/
def queueLoop (machine : Machine) (queues : Bytes) (complete : Bool) : List Bytes → Checked Bool
  | [] => if complete then .ok true else unavailable
  | queue :: rest =>
      if !(ascii "rx-").isPrefixOf queue then queueLoop machine queues complete rest
      else do
        let name ← shortPath 8192 (queue ++ ascii "/rps_cpus")
        let rps ← required (readOptional machine.toHost (queues ++ 0x2f :: name) 8192)
        if rps.any fun byte => byte != 0x30 && byte != 0x2c then return false
        else queueLoop machine queues complete rest

def unsteered (machine : Machine) (nic : Bytes) : Checked Bool :=
  match machine.list (nic ++ ascii "/queues") with
  | .missing => unavailable
  | .names queues complete => queueLoop machine (nic ++ ascii "/queues") complete queues

def affinity (irq : Nat) : Bytes :=
  ascii "proc/irq/" ++ Response.digits 10 irq ++ ascii "/effective_affinity_list"

def readIrq (machine : Machine) (irq : Nat) (cpus : CpuSet 1024) : Checked (CpuSet 1024) := do
  let list ← cpuList (← required (readOptional machine.toHost (affinity irq) 8192))
  return fun cpu => cpus cpu || list cpu

def irqLoop (machine : Machine) (complete : Bool) :
    List Bytes → CpuSet 1024 → Checked (CpuSet 1024)
  | [], cpus => if complete then .ok cpus else unavailable
  | entry :: rest, cpus => do
      irqLoop machine complete rest (← readIrq machine (← number entry) cpus)

def msiIrqs (machine : Machine) (nic : Bytes) : Checked (CpuSet 1024) :=
  match machine.list (nic ++ ascii "/device/msi_irqs") with
  | .missing => .ok fun _ => false
  | .names entries complete => irqLoop machine complete entries fun _ => false

/-- The CPUs that serve the interrupts of a card; none where it has no interrupt. -/
def irqCpus (machine : Machine) (nic : Bytes) : Checked (Option (CpuSet 1024)) := do
  let cpus ← msiIrqs machine nic
  if count cpus ≠ 0 then return some cpus
  else do
    let irq ← number (← required (readOptional machine.toHost (nic ++ ascii "/device/irq") 8192))
    if irq = 0 then return none else return some (← readIrq machine irq cpus)

/-! ### Topology -/

def readSiblings (machine : Machine) (cpu : Fin 1024) : Checked (CpuSet 1024) := do
  cpuList (← required (readOptional machine.toHost (threadSiblings cpu) 8192))

def cachesOf (cpu : Fin 1024) : Bytes :=
  ascii "sys/devices/system/cpu/cpu" ++ Response.digits 10 cpu ++ ascii "/cache"

/-- The loop over the caches of a CPU, up to the first one of the third level. -/
def cacheLoop (machine : Machine) (caches : Bytes) : List Bytes → Checked (CpuSet 1024)
  | [] => unavailable
  | entry :: rest => do
      let levelPath ← shortPath 8192 (entry ++ ascii "/level")
      match ← readOptional machine.toHost (caches ++ 0x2f :: levelPath) 8192 with
      | none => cacheLoop machine caches rest
      | some level =>
          if level ≠ ascii "3" then cacheLoop machine caches rest
          else do
            let sharedPath ← shortPath 8192 (entry ++ ascii "/shared_cpu_list")
            cpuList (← required (readOptional machine.toHost (caches ++ 0x2f :: sharedPath) 8192))

/-- The CPUs that share the third-level cache of a CPU; a failure to list the caches and a list
without such a cache end alike. -/
def cacheDomain (machine : Machine) (cpu : Fin 1024) : Checked (CpuSet 1024) :=
  match machine.list (cachesOf cpu) with
  | .missing => unavailable
  | .names entries _ => cacheLoop machine (cachesOf cpu) entries

/-- `std.StaticBitSet.eql`. -/
def eql (a b : CpuSet 1024) : Bool := (List.finRange 1024).all fun cpu => a cpu == b cpu

theorem eql_iff {a b : CpuSet 1024} : eql a b = true ↔ a = b := by
  rw [eql, List.all_eq_true]
  constructor
  · intro h
    funext cpu
    exact beq_iff_eq.mp (h cpu (List.mem_finRange cpu))
  · rintro rfl cpu -
    exact beq_iff_eq.mpr rfl

/-- The cache domains found, distinct and within the cores, and the CPUs left to interrupts. -/
structure Topology (cores : CpuSet 1024) where
  excluded : CpuSet 1024 := fun _ => false
  domains : List (CpuSet 1024) := []
  nodup : domains.Nodup := by exact List.nodup_nil
  within : ∀ domain ∈ domains, ∀ cpu, domain cpu = true → cores cpu = true := by exact nofun
  length_le : domains.length ≤ 256 := by exact Nat.zero_le _

variable {cores : CpuSet 1024}

/-- The siblings and the cache domain of one more CPU. -/
def Topology.add (topology : Topology cores) (siblings domain : CpuSet 1024) :
    Checked (Topology cores) :=
  let excluded : CpuSet 1024 := fun cpu => topology.excluded cpu || siblings cpu
  let domain : CpuSet 1024 := fun cpu => domain cpu && cores cpu
  if hknown : topology.domains.any (eql · domain) then .ok { topology with excluded }
  else if hfull : topology.domains.length = 256 then invalid
  else .ok {
    excluded
    domains := topology.domains ++ [domain]
    nodup := by
      refine List.nodup_append.mpr ⟨topology.nodup, List.nodup_singleton _, ?_⟩
      rintro known hmem _ hlast rfl
      rw [List.mem_singleton.mp hlast] at hmem
      exact hknown (List.any_eq_true.mpr ⟨_, hmem, eql_iff.mpr rfl⟩)
    within := by
      intro found hmem cpu hcpu
      rcases List.mem_append.mp hmem with hmem | hlast
      · exact topology.within found hmem cpu hcpu
      · rw [List.mem_singleton.mp hlast] at hcpu
        exact (Bool.and_eq_true_iff.mp hcpu).2
    length_le := by
      have := topology.length_le
      rw [List.length_append, List.length_singleton]
      omega }

/-- The loop over the CPUs of the interrupts. -/
def topologyLoop (machine : Machine) (irqs : CpuSet 1024) :
    List (Fin 1024) → Topology cores → Checked (Topology cores)
  | [], topology => .ok topology
  | cpu :: cpus, topology =>
      if !irqs cpu then topologyLoop machine irqs cpus topology
      else do
        let siblings ← readSiblings machine cpu
        let domain ← cacheDomain machine cpu
        topologyLoop machine irqs cpus (← topology.add siblings domain)

def irqTopology (machine : Machine) (cores : CpuSet 1024) :
    Option (CpuSet 1024) → Checked (Option (Topology cores))
  | none => .ok none
  | some irqs => do return some (← topologyLoop machine irqs (List.finRange 1024) {})

def nicPath (interface : Bytes) : Bytes := network ++ 0x2f :: interface

/-- `readNic` up to its last loop; nothing where it returns before. -/
def readTopology (machine : Machine) (cores : CpuSet 1024) (interface : Bytes) :
    Checked (Option (Topology cores)) := do
  let nic ← shortPath 8192 (nicPath interface)
  if !machine.opens nic then unavailable
  else if ← unsteered machine nic then irqTopology machine cores (← irqCpus machine nic)
  else return none

/-! ### Placement -/

def readNic (machine : Machine) (cores : CpuSet 1024) (detected : Config.Resources)
    (interface : Bytes) : Checked Config.Resources := do
  match ← readTopology machine cores interface with
  | none => return detected
  | some topology => return detected.place topology.domains topology.excluded

theorem no_cpus_nodup : ([] : List (Fin 1024)).Nodup :=
  List.nodup_nil

theorem no_cpus_le : ([] : List (Fin 1024)).length ≤ 256 :=
  Nat.zero_le 256

def unplaced (detected : Config.Resources) (placement : Config.Placement) : Config.Resources where
  report := { detected.report with placement }
  nodup := no_cpus_nodup
  length_le := no_cpus_le

/-- The loop over the network interfaces: the one that has a device, nothing where there is more
than one. -/
def interfaceLoop (machine : Machine) (complete : Bool) : List Bytes → Bytes → Checked (Option Bytes)
  | [], selected => if complete then .ok (some selected) else unavailable
  | name :: names, selected =>
      let device := name ++ ascii "/device"
      if 512 < device.length || !machine.opens (network ++ 0x2f :: device) then
        interfaceLoop machine complete names selected
      else if selected ≠ [] then .ok none
      else if 256 < name.length then invalid
      else interfaceLoop machine complete names name

/-- Failures to read the card leave the placement to the scheduler. -/
def placed (detected : Config.Resources) : Checked Config.Resources → Checked Config.Resources
  | .error (.error .resourceDetectionUnavailable) | .error (.error .invalidResourceFile) =>
      .ok (unplaced detected .unavailable)
  | outcome => outcome

def placeInterface (machine : Machine) (cores : CpuSet 1024) (detected : Config.Resources) :
    Option Bytes → Checked Config.Resources
  | none => .ok (unplaced detected .ambiguous)
  | some [] => .ok (unplaced detected .unavailable)
  | some interface => placed detected (readNic machine cores (unplaced detected .unavailable) interface)

/-- `resources` holds the cores, and `detected` the findings that sizing reads. -/
def readPlacement (machine : Machine) (resources : Resources) (detected : Config.Resources) :
    Checked Config.Resources :=
  if !resources.topologyAvailable then .ok (unplaced detected .unavailable)
  else match machine.list network with
    | .missing => .ok (unplaced detected .unavailable)
    | .names names complete => do
        placeInterface machine resources.cores detected (← interfaceLoop machine complete names [])

end Zhtps.Discovery
