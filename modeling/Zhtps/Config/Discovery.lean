import Zhtps.Config.Sizing
import Zhtps.Lib.Effects

/-!
Startup discovery of what the host and the control groups allow, after `read` and its helpers of
`src/Config/Resources.zig`.

Files are read from a tree that does not change meanwhile.  What a control file says is found without
looking at the limits found before; a finding then lowers them.
-/

namespace Zhtps.Mem

/-- `std.mem.trim` of the bytes of a set. -/
def trimStartOf (set bytes : Bytes) : Bytes := bytes.dropWhile (set.contains ·)

def trimEndOf (set bytes : Bytes) : Bytes := (trimStartOf set bytes.reverse).reverse

def trimOf (set bytes : Bytes) : Bytes := trimEndOf set (trimStartOf set bytes)

/-- `std.mem.tokenizeAny`, run to its end. -/
def tokenizeAny (set bytes : Bytes) : List Bytes :=
  (bytes.splitOnP (set.contains ·)).filter (· ≠ [])

end Zhtps.Mem

namespace Zhtps.Discovery

open Config (CpuSet MemorySource findFirstSet)

inductive Error
  | resourceDetectionUnavailable
  | invalidResourceFile
  | affinityMaskTooSmall
  | cpuUnavailable
  deriving DecidableEq, Repr

/-- Where the code stops without a result: at an error, at the unwrapping of a null, or not at all
within the turns that the model grants a loop. -/
inductive Stop
  | error (error : Error)
  | trap
  | unfinished
  deriving DecidableEq, Repr

abbrev Checked := Except Stop

def fail {α : Type} (error : Error) : Checked α := .error (.error error)

def invalid {α : Type} : Checked α := fail .invalidResourceFile

def unavailable {α : Type} : Checked α := fail .resourceDetectionUnavailable

/-! ### Files -/

inductive File
  | missing
  | failed
  | text (bytes : Bytes)
  deriving DecidableEq

/-- The tree below the root, and the number of entries of the directory of open files, where it can
be opened and listed. -/
structure Host where
  file : Bytes → File
  opens : Bytes → Bool := fun _ => true
  descriptors : Option (Option Nat) := none

def space : Bytes := [0x20, 0x09, 0x0d, 0x0a]

def readOptional (host : Host) (path : Bytes) (size : Nat) : Checked (Option Bytes) :=
  match host.file path with
  | .missing => .ok none
  | .failed => unavailable
  | .text bytes =>
      if size ≤ bytes.length then invalid else .ok (some (Mem.trimOf space bytes))

def groupFile (host : Host) (group name : Bytes) : Checked (Option Bytes) :=
  let path := Mem.trimStartOf [0x2f] group ++ 0x2f :: name
  if 8192 < path.length then invalid else readOptional host path 8192

/-- The text of a file that has to be there. -/
def required (file : Checked (Option Bytes)) : Checked Bytes :=
  match file with
  | .error stop => .error stop
  | .ok none => unavailable
  | .ok (some text) => .ok text

/-! ### Texts -/

def number (text : Bytes) : Checked Nat :=
  if text.isEmpty || !text.all Ascii.isDigit then invalid
  else match Fmt.parseInt text 10 with
    | none => invalid
    | some value => .ok value

/-- The end of a range, which is its start when there is none. -/
def rangeEnd (first : Nat) : List Bytes → Checked Nat
  | [] => .ok first
  | last :: _ => number last

/-- One part of a CPU list: a CPU, or a range of them. -/
def cpuRange (set : CpuSet 1024) (part : Bytes) : Checked (CpuSet 1024) :=
  match Mem.splitScalar 0x2d part with
  | [] => .error .trap
  | first :: rest => do
      let first ← number first
      let last ← rangeEnd first rest
      if 1 < rest.length ∨ last < first then invalid
      else if 1024 ≤ last then fail .affinityMaskTooSmall
      else return fun cpu => set cpu || (first ≤ cpu && cpu ≤ last)

def cpuList (text : Bytes) : Checked (CpuSet 1024) :=
  (Mem.splitScalar 0x2c (Mem.trimOf space text)).foldlM cpuRange fun _ => false

def contains (csv item : Bytes) : Bool := (Mem.splitScalar 0x2c csv).contains item

def validAbsolutePath (path : Bytes) : Bool :=
  path.head? == some 0x2f && (Mem.splitScalar 0x2f path).all fun part =>
    part != ascii "." && part != ascii ".." && !part.contains 0

/-- Octal escapes resolved, into storage for so many bytes. -/
def unescape : Nat → Bytes → Checked Bytes
  | _, [] => .ok []
  | 0, _ :: _ => invalid
  | room + 1, 0x5c :: a :: b :: c :: rest =>
      match (Fmt.parseInt [a, b, c] 8).filter (· < 256) with
      | none => invalid
      | some byte => (unescape room rest).map (UInt8.ofNat byte :: ·)
  | room + 1, c :: rest =>
      if c = 0x5c then invalid else (unescape room rest).map (c :: ·)

/-- The amount on the first line with a key, which must be in kilobytes. -/
def meminfoLines (key : Bytes) : List Bytes → Checked Nat
  | [] => invalid
  | line :: lines =>
      match Mem.tokenizeAny [0x20, 0x09] line with
      | [] => .error .trap
      | first :: fields =>
          if first ≠ key then meminfoLines key lines
          else match fields with
            | amount :: unit :: _ => do
                let amount ← number amount
                if unit ≠ ascii "kB" then invalid
                else if amount * 1024 < 2 ^ 64 then return amount * 1024
                else invalid
            | _ => invalid

def meminfoBytes (text key : Bytes) : Checked Nat :=
  meminfoLines key (Mem.tokenizeScalar 0x0a text)

/-! ### Limits -/

inductive Hierarchies
  | none
  | v1
  | v2
  | hybrid
  deriving DecidableEq, Repr

/-- `Resources` with its report. -/
structure Resources where
  allowed : CpuSet 1024
  cores : CpuSet 1024 := fun _ => false
  allowedCpus : Nat := 0
  physicalCores : Nat := 0
  topologyAvailable : Bool := false
  cpuQuotaMillis : Option Nat := none
  memoryLimitBytes : Nat := 0
  memoryAvailableBytes : Nat := 0
  memorySource : MemorySource := .host
  cgroup : Hierarchies := .none
  nofileLimit : Nat := 0
  reservedFds : Nat := 32
  availableThreads : Option Nat := none

inductive Controller
  | unified
  | cpu
  | memory
  | cpuset
  | pids
  deriving DecidableEq, Repr

def Controller.tagName : Controller → Bytes
  | .unified => ascii "unified"
  | .cpu => ascii "cpu"
  | .memory => ascii "memory"
  | .cpuset => ascii "cpuset"
  | .pids => ascii "pids"

/-- What one line or control file adds to the report. -/
inductive Finding
  | hierarchy (unified : Bool)
  | quota (millis : Nat)
  | memory (limit usage : Nat) (source : MemorySource)
  | cpus (set : CpuSet 1024)
  | threads (count : Nat)
  deriving DecidableEq

def u64Max : Nat := 2 ^ 64 - 1

def Resources.apply (resources : Resources) : Finding → Resources
  | .hierarchy unified =>
      { resources with
        cgroup := match unified, resources.cgroup with
          | true, .none | true, .v2 => .v2
          | false, .none | false, .v1 => .v1
          | _, _ => .hybrid }
  | .quota millis =>
      { resources with cpuQuotaMillis := some (min (resources.cpuQuotaMillis.getD u64Max) millis) }
  | .memory limit usage source =>
      { resources with
        memoryLimitBytes :=
          if limit < resources.memoryLimitBytes then limit else resources.memoryLimitBytes
        memorySource :=
          if limit < resources.memoryLimitBytes then source else resources.memorySource
        memoryAvailableBytes := min resources.memoryAvailableBytes (limit - usage) }
  | .cpus set => { resources with allowed := fun cpu => resources.allowed cpu && set cpu }
  | .threads count =>
      { resources with
        availableThreads := some (min (resources.availableThreads.getD u64Max) count) }

def Resources.applyAll (resources : Resources) (findings : List Finding) : Resources :=
  findings.foldl Resources.apply resources

/-! ### One group -/

/-- `applyQuota`, up to the comparison with the quota that was found before. -/
def quotaMillis (quota period : Nat) : Checked (List Finding) :=
  if quota = 0 ∨ period = 0 then invalid
  else .ok [.quota (min u64Max (quota * 1000 / period))]

def readQuota (host : Host) (group : Bytes) : Controller → Checked (List Finding)
  | .unified => do
      match ← groupFile host group (ascii "cpu.max") with
      | none => return []
      | some text =>
          match Mem.tokenizeAny space text with
          | [] | [_] => invalid
          | quota :: period :: rest => do
              let period ← number period
              if period = 0 ∨ rest ≠ [] then invalid
              else if quota = ascii "max" then return []
              else quotaMillis (← number quota) period
  | .cpu => do
      match ← groupFile host group (ascii "cpu.cfs_quota_us") with
      | none => return []
      | some text =>
          if text = ascii "-1" then return []
          else do
            let quota ← number text
            let period ← number (← required (groupFile host group (ascii "cpu.cfs_period_us")))
            quotaMillis quota period
  | _ => return []

/-- The names of the limits of memory, and of the file with its use. -/
def memoryFiles : Controller → List (Bytes × MemorySource) × Bytes
  | .unified =>
      ([(ascii "memory.max", .cgroupMax), (ascii "memory.high", .cgroupHigh)],
        ascii "memory.current")
  | .memory => ([(ascii "memory.limit_in_bytes", .cgroupMax)], ascii "memory.usage_in_bytes")
  | _ => ([], [])

def readMemory (host : Host) (group : Bytes) (controller : Controller) : Checked (List Finding) :=
  Lib.Effects.collect (fun (name, source) => do
    match ← groupFile host group name with
    | none => return []
    | some text =>
        if text = ascii "max" then return []
        else do
          let limit ← number text
          let usage ← number (← required (groupFile host group (memoryFiles controller).2))
          return [.memory limit usage source]) (memoryFiles controller).1

def cpusetName : Controller → Option Bytes
  | .unified => some (ascii "cpuset.cpus.effective")
  | .cpuset => some (ascii "cpuset.effective_cpus")
  | _ => none

def cpusetText (host : Host) (group name : Bytes) : Checked (Option Bytes) := do
  match ← groupFile host group name with
  | some text => return some text
  | none => groupFile host group (ascii "cpuset.cpus")

def readCpuset (host : Host) (group : Bytes) (controller : Controller) : Checked (List Finding) :=
  match cpusetName controller with
  | none => return []
  | some name => do
      match ← cpusetText host group name with
      | none => return []
      | some cpus => if cpus = [] then return [] else return [.cpus (← cpuList cpus)]

def readPids (host : Host) (group : Bytes) (controller : Controller) : Checked (List Finding) :=
  if controller = .unified ∨ controller = .pids then do
    match ← groupFile host group (ascii "pids.max") with
    | none => return []
    | some text =>
        if text = ascii "max" then return []
        else do
          let limit ← number text
          let current ← number (← required (groupFile host group (ascii "pids.current")))
          return [.threads (limit - current)]
  else return []

def groupFindings (host : Host) (group : Bytes) (controller : Controller) :
    Checked (List Finding) := do
  let quota ← readQuota host group controller
  let memory ← readMemory host group controller
  let cpuset ← readCpuset host group controller
  let pids ← readPids host group controller
  return quota ++ memory ++ cpuset ++ pids

def readGroup (host : Host) (resources : Resources) (group : Bytes) (controller : Controller) :
    Checked Resources := do
  return resources.applyAll (← groupFindings host group controller)

/-! ### One hierarchy -/

/-- The part of a group's path below the root of a mount. -/
def suffixOf (group mountRoot : Bytes) : Option Bytes :=
  if mountRoot = ascii "/" then some group
  else if group = mountRoot then some []
  else if mountRoot.isPrefixOf group && (group[mountRoot.length]? == some 0x2f) then
    some (group.drop mountRoot.length)
  else if group = ascii "/" then some []
  else none

/-- The root and the place of a mount that serves a controller. -/
def mountOf (controller : Controller) (line : Bytes) : Checked (Option (Bytes × Bytes)) :=
  match Mem.indexOf line (ascii " - ") with
  | none => invalid
  | some separator =>
      match Mem.tokenizeScalar 0x20 (line.drop (separator + 3)) with
      | filesystem :: _ :: options :: _ =>
          if controller = .unified ∧ filesystem ≠ ascii "cgroup2" then .ok none
          else if controller ≠ .unified ∧
              (filesystem ≠ ascii "cgroup" ∨ contains options controller.tagName = false) then .ok none
          else match Mem.tokenizeScalar 0x20 (line.take separator) with
            | _ :: _ :: _ :: mountRoot :: rest => do
                let mountRoot ← unescape 4096 mountRoot
                match rest with
                | [] => invalid
                | mount :: _ => do
                    let mount ← unescape 4096 mount
                    if !validAbsolutePath mountRoot || !validAbsolutePath mount then invalid
                    else return some (mountRoot, mount)
            | _ => invalid
      | _ => invalid

def trimSlash (path : Bytes) : Bytes := Mem.trimEndOf [0x2f] path

/-- The path of a group below a mount. -/
def groupPath (mount suffix : Bytes) : Checked Bytes :=
  if 8192 < (trimSlash mount ++ suffix).length then invalid
  else .ok (trimSlash (trimSlash mount ++ suffix))

/-- The loop up the path of a group; its turns are bounded by the length of the path. -/
def walk (host : Host) (controller : Controller) (boundary : Nat) :
    Nat → Resources → Bytes → Checked Resources
  | 0, _, _ => .error .unfinished
  | turns + 1, resources, path => do
      let resources ← readGroup host resources path controller
      if path.length = boundary then return resources
      else match Mem.lastIndexOfScalar path 0x2f with
        | none => invalid
        | some slash =>
            if slash < boundary then invalid
            else walk host controller boundary turns resources (path.take slash)

/-- One line of the mount table. -/
def readMount (host : Host) (group : Bytes) (controller : Controller)
    (state : Bool × Resources) (line : Bytes) : Checked (Bool × Resources) := do
  match ← mountOf controller line with
  | none => return state
  | some (mountRoot, mount) =>
      match suffixOf group mountRoot with
      | none => return state
      | some suffix => do
          let path ← groupPath mount suffix
          if !host.opens (Mem.trimStartOf [0x2f] path) then unavailable
          else do
            let boundary := (trimSlash mount).length
            let resources ← walk host controller boundary (path.length + 1) state.2 path
            return (true, resources)

def readHierarchy (host : Host) (mounts group : Bytes) (resources : Resources)
    (controller : Controller) : Checked Resources := do
  let (found, resources) ←
    (Mem.tokenizeScalar 0x0a mounts).foldlM (readMount host group controller) (false, resources)
  if found then return resources else unavailable

/-! ### The process -/

/-- The fields of a membership line: hierarchy, controllers and group. -/
def membership (line : Bytes) : Checked (Bytes × Bytes × Bytes) :=
  match Mem.indexOfScalar line 0x3a with
  | none => invalid
  | some first =>
      let rest := line.drop (first + 1)
      match Mem.indexOfScalar rest 0x3a with
      | none => .ok (line.take first, rest, [])
      | some second => .ok (line.take first, rest.take second, rest.drop (second + 1))

/-- The hierarchies of a line whose files are read. -/
def listed (hierarchy controllers : Bytes) : List Controller :=
  if hierarchy = ascii "0" ∧ controllers = [] then [.unified]
  else [.cpu, .memory, .cpuset, .pids].filter fun controller => contains controllers controller.tagName

def readMembership (host : Host) (mounts : Bytes) (resources : Resources) (line : Bytes) :
    Checked Resources := do
  let (hierarchy, controllers, group) ← membership line
  if !validAbsolutePath group then invalid
  else
    let unified := hierarchy = ascii "0" ∧ controllers = []
    (listed hierarchy controllers).foldlM (readHierarchy host mounts group)
      (resources.apply (.hierarchy unified))

def threadSiblings (cpu : Fin 1024) : Bytes :=
  ascii "sys/devices/system/cpu/cpu" ++ Response.digits 10 cpu ++
    ascii "/topology/thread_siblings_list"

/-- The loop over the allowed CPUs, with the siblings of those before; none where the topology is
unknown. -/
def coresLoop (host : Host) (allowed : CpuSet 1024) :
    List (Fin 1024) → CpuSet 1024 → CpuSet 1024 → Checked (Option (CpuSet 1024))
  | [], _, cores => .ok (some cores)
  | cpu :: cpus, seen, cores =>
      if !allowed cpu || seen cpu then coresLoop host allowed cpus seen cores
      else do
        match ← readOptional host (threadSiblings cpu) 8192 with
        | none => return none
        | some text => do
            let siblings ← cpuList text
            if !siblings cpu then invalid
            else
              coresLoop host allowed cpus (fun other => seen other || siblings other)
                (Function.update cores cpu true)

def count (set : CpuSet 1024) : Nat := ((List.finRange 1024).filter set).length

def readCores (host : Host) (resources : Resources) : Checked Resources := do
  match ← coresLoop host resources.allowed (List.finRange 1024) (fun _ => false) resources.cores with
  | some cores =>
      return { resources with cores, physicalCores := count cores, topologyAvailable := true }
  | none =>
      match findFirstSet resources.allowed with
      | none => .error .trap
      | some cpu => return { resources with cores := fun other => other = cpu, physicalCores := 1 }

/-- What follows the limits: the CPUs are counted, and the open files. -/
def finishLimits (host : Host) (resources : Resources) : Checked Resources := do
  let resources := { resources with allowedCpus := count resources.allowed }
  if resources.allowedCpus = 0 then fail .cpuUnavailable
  else do
    let resources ← readCores host resources
    match host.descriptors with
    | none => return resources
    | some none => unavailable
    | some (some entries) =>
        return { resources with reservedFds := max resources.reservedFds (entries + 16) }

/-- `read` behind the three files of the process. -/
def readLimits (host : Host) (memberships mounts : Bytes) (resources : Resources) :
    Checked Resources := do
  let resources ←
    (Mem.tokenizeScalar 0x0a memberships).foldlM (readMembership host mounts) resources
  finishLimits host resources

/-- A file of the calling thread, or of the process where there is none. -/
def ownFile (host : Host) (name : Bytes) (size : Nat) : Checked Bytes := do
  match ← readOptional host (ascii "proc/thread-self/" ++ name) size with
  | some text => return text
  | none => required (readOptional host (ascii "proc/self/" ++ name) size)

/-- What the memory of the host allows. -/
def readHost (host : Host) (allowed : CpuSet 1024) (nofile : Nat) : Checked Resources := do
  let meminfo ← required (readOptional host (ascii "proc/meminfo") (64 * 1024))
  let total ← meminfoBytes meminfo (ascii "MemTotal:")
  let available ← meminfoBytes meminfo (ascii "MemAvailable:")
  return {
    allowed
    nofileLimit := nofile
    memoryLimitBytes := total
    memoryAvailableBytes := min total available }

def read (host : Host) (allowed : CpuSet 1024) (nofile : Nat) : Checked Resources := do
  let resources ← readHost host allowed nofile
  let memberships ← ownFile host (ascii "cgroup") (64 * 1024)
  let mounts ← ownFile host (ascii "mountinfo") (1024 * 1024)
  readLimits host memberships mounts resources

end Zhtps.Discovery
