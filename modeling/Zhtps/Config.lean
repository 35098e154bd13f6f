import Zhtps.Http.ResponseHead

/-!
The startup configuration: `Config.validate`, the CPU list and the admission defaults of `Config.zig`.

Numbers are natural numbers; `usize` and `u64` share their width on the supported targets.  The
checked operators of the source trap, so a fallible function either reports an error of the source
or stops at a trap.
-/

namespace Zhtps

/-- `std.math.maxInt(usize)`. -/
def usizeMax : Nat := 2 ^ 64 - 1

namespace Config

inductive Error
  | invalidVictoriaLogsUrl
  | invalidVictoriaMetricsUrl
  | conflictingLogOptions
  | invalidOption
  | httpsRequired
  | invalidLimit
  | unresolvedResources
  | memoryBudgetExceeded
  | descriptorBudgetTooSmall
  | threadBudgetExceeded
  deriving DecidableEq, Repr

/-- What a checked operator detects. -/
inductive Trap
  | underflow
  | overflow
  | divisionByZero
  | truncation
  deriving DecidableEq, Repr

/-- Why a function returned nothing. -/
inductive Stop
  | error (error : Error)
  | trap (trap : Trap)
  deriving DecidableEq, Repr

abbrev Checked := Except Stop

def fail {α : Type} (error : Error) : Checked α := .error (.error error)

def ensure (condition : Prop) [Decidable condition] (error : Error) : Checked Unit :=
  if condition then .ok () else fail error

/-! ### Checked and saturating arithmetic -/

def sub (a b : Nat) : Checked Nat := if b ≤ a then .ok (a - b) else .error (.trap .underflow)

def add (a b : Nat) : Checked Nat := if a + b ≤ usizeMax then .ok (a + b) else .error (.trap .overflow)

def mul (a b : Nat) : Checked Nat := if a * b ≤ usizeMax then .ok (a * b) else .error (.trap .overflow)

def div (a b : Nat) : Checked Nat := if b = 0 then .error (.trap .divisionByZero) else .ok (a / b)

/-- `@intCast` to `u32`. -/
def intCast32 (n : Nat) : Checked Nat := if n < 2 ^ 32 then .ok n else .error (.trap .truncation)

/-- The operator `+|`. -/
def addSat (a b : Nat) : Nat := min (a + b) usizeMax

/-- The operator `*|`. -/
def mulSat (a b : Nat) : Nat := min (a * b) usizeMax

theorem bind_ok {α β : Type} {x : Checked α} {f : α → Checked β} {b : β} :
    (x >>= f) = .ok b ↔ ∃ a, x = .ok a ∧ f a = .ok b := by
  cases x <;> simp [bind, Except.bind]

theorem bind_stop {α β : Type} {x : Checked α} {f : α → Checked β} {stop : Stop} :
    (x >>= f) = .error stop ↔ x = .error stop ∨ ∃ a, x = .ok a ∧ f a = .error stop := by
  cases x <;> simp [bind, Except.bind]

@[simp] theorem ensure_ok {condition : Prop} [Decidable condition] {error : Error} {u : Unit} :
    ensure condition error = .ok u ↔ condition := by
  unfold ensure
  split <;> simp_all [fail]

/-- The only traps a computation can stop at. -/
def TrapsOnly {α : Type} (allowed : Trap → Prop) (x : Checked α) : Prop :=
  ∀ trap, x = .error (.trap trap) → allowed trap

section traps

variable {α β : Type} {allowed : Trap → Prop}

theorem TrapsOnly.ok (a : α) : TrapsOnly allowed (.ok a : Checked α) := by
  intro trap h
  cases h

theorem TrapsOnly.fail (error : Error) : TrapsOnly allowed (fail error : Checked α) := by
  intro trap h
  cases h

theorem TrapsOnly.ensure (condition : Prop) [Decidable condition] (error : Error) :
    TrapsOnly allowed (ensure condition error) := by
  intro trap h
  unfold Config.ensure at h
  split at h <;> cases h

theorem TrapsOnly.bind {x : Checked α} {f : α → Checked β} (hx : TrapsOnly allowed x)
    (hf : ∀ a, x = .ok a → TrapsOnly allowed (f a)) : TrapsOnly allowed (x >>= f) := by
  intro trap h
  rcases bind_stop.mp h with h | ⟨a, ha, h⟩
  · exact hx trap h
  · exact hf a ha trap h

theorem TrapsOnly.of_eq {x : Checked α} {a : α} (h : x = .ok a) : TrapsOnly allowed x :=
  h ▸ .ok a

theorem TrapsOnly.foldlM {f : β → α → Checked β} (hf : ∀ b a, TrapsOnly allowed (f b a))
    (xs : List α) (b : β) : TrapsOnly allowed (xs.foldlM f b) := by
  induction xs generalizing b with
  | nil => exact .ok b
  | cons x xs ih => exact .bind (hf b x) fun b _ => ih b

end traps

theorem sub_of_le {a b : Nat} (h : b ≤ a) : sub a b = .ok (a - b) := if_pos h

theorem add_of_le {a b : Nat} (h : a + b ≤ usizeMax) : add a b = .ok (a + b) := if_pos h

theorem mul_of_le {a b : Nat} (h : a * b ≤ usizeMax) : mul a b = .ok (a * b) := if_pos h

theorem div_of_pos {a b : Nat} (h : 0 < b) : div a b = .ok (a / b) := if_neg (Nat.ne_of_gt h)

theorem intCast32_of_lt {n : Nat} (h : n < 2 ^ 32) : intCast32 n = .ok n := if_pos h

/-! ### Options -/

structure Tls where
  certificate : Bytes := []
  privateKey : Bytes := []
  handshakeTimeoutMs : Nat := 5000
  deriving DecidableEq, Repr

/-- Selects startup sizing for the limits that allow it. -/
def automatic : Nat := usizeMax

structure Http2 where
  maxStreams : Nat := 100
  maxStreamsPerWorker : Nat := automatic
  memoryBytes : Nat := automatic
  deriving DecidableEq, Repr

structure AdmissionOptions where
  maxActive : Option Nat := none
  maxRejecting : Option Nat := none
  requestsPerSecond : Nat := 0
  burst : Option Nat := none
  rejectionsPerSecond : Nat := 1000
  deriving DecidableEq, Repr

inductive MemorySource
  | host
  | cgroupMax
  | cgroupHigh
  deriving DecidableEq, Repr

inductive Placement
  | scheduler
  | nic
  | explicit
  | unavailable
  | ambiguous
  deriving DecidableEq, Repr

/-- `Resources.Report`: the limits found on the host.  The two that bound a budget are `u64`. -/
structure Report where
  physicalCores : Nat := 0
  cpuQuotaMillis : Option Nat := none
  memoryAvailableBytes : Nat := 0
  nofileLimit : Nat := 0
  reservedFds : Nat := 32
  availableThreads : Option Nat := none
  placement : Placement := .scheduler
  memory_le : memoryAvailableBytes ≤ usizeMax := by decide
  nofile_le : nofileLimit ≤ usizeMax := by decide
  deriving DecidableEq, Repr

inductive WorkersReason
  | explicit
  | cpu
  | mapping
  | memory
  | descriptors
  | threads
  deriving DecidableEq, Repr

inductive ConnectionsReason
  | explicit
  | memory
  | descriptors
  | implementation
  deriving DecidableEq, Repr

/-- How the limits were found, kept for the startup log. -/
structure Resolution where
  detected : Report
  memoryBudgetBytes : Nat
  estimatedBytes : Nat
  threadsPerWorker : Nat
  workers : WorkersReason
  connections : ConnectionsReason
  largeBuffersAutomatic : Bool
  http2MemoryAutomatic : Bool
  http2StreamsAutomatic : Bool
  deriving DecidableEq, Repr

end Config

/-- The options that `validate` and the sizing read. -/
structure Config where
  port : Nat := 8080
  tls : Option Config.Tls := none
  httpRedirect : Bool := false
  httpRedirectPort : Nat := 80
  http2 : Config.Http2 := {}
  workers : Nat := Config.automatic
  workerCpus : Bytes := []
  maxConnections : Nat := Config.automatic
  memoryBudgetBytes : Option Nat := none
  resources : Option Config.Resolution := none
  adminConnections : Nat := 8
  headerBytes : Nat := 32 * 1024
  trailerBytes : Nat := 8 * 1024
  receiveBytes : Nat := 16 * 1024
  responseBytes : Nat := 32 * 1024
  applicationBytes : Nat := 64 * 1024
  largeBufferBytes : Nat := Config.automatic
  maxChunkFramingBytes : Nat := 64 * 1024
  headerTimeoutMs : Nat := 5000
  bodyTimeoutMs : Nat := 30000
  writeTimeoutMs : Nat := 5000
  idleTimeoutMs : Nat := 15000
  idleReclaimMs : Nat := 0
  closeTimeoutMs : Nat := 100
  shutdownTimeoutMs : Nat := 5000
  maxRequestsPerConnection : Nat := 1000
  completionBudget : Nat := 64
  responseBatches : Nat := 64
  logSlots : Nat := 256
  logFd : Option Int := some 2
  victoriaLogs : Option Bytes := none
  victoriaMetrics : Option Bytes := none
  accessLog : Bool := true
  admission : Config.AdmissionOptions := {}
  deriving DecidableEq, Repr

namespace Config

/-! ### The CPU list -/

def parseCpu (text : Bytes) : Checked Nat := do
  ensure (text ≠ []) .invalidOption
  ensure (text.all Ascii.isDigit = true) .invalidOption
  match Fmt.parseInt text 10 with
  | none => fail .invalidOption
  | some cpu => do
      ensure (cpu < 1024) .invalidOption
      return cpu

/-- One CPU written to the caller's storage of 256 entries. -/
def addCpu (cpus : List Nat) (cpu : Nat) : Checked (List Nat) :=
  if cpus.length = 256 ∨ cpu ∈ cpus then fail .invalidOption else .ok (cpus ++ [cpu])

/-- One part of the list: a CPU, or a range of them. -/
def addPart (cpus : List Nat) (part : Bytes) : Checked (List Nat) := do
  match Mem.splitScalar 45 part with
  | [text] => do
      let first ← parseCpu text
      [first].foldlM addCpu cpus
  | [text, last] => do
      let first ← parseCpu text
      let last ← parseCpu last
      ensure (first ≤ last) .invalidOption
      (List.range' first (last + 1 - first)).foldlM addCpu cpus
  | text :: last :: _ => do
      let _ ← parseCpu text
      let _ ← parseCpu last
      fail .invalidOption
  | [] => fail .invalidOption

def resolveWorkerCpus (config : Config) : Checked (List Nat) :=
  if config.workerCpus = [] ∨ config.workerCpus = ascii "inherit" then .ok []
  else do
    let cpus ← (Mem.splitScalar 44 config.workerCpus).foldlM addPart []
    ensure (config.workers = automatic ∨ cpus.length = config.workers) .invalidLimit
    return cpus

/-! ### Validation -/

/-- The origins that `http_push.parseOrigin` accepts. -/
abbrev Origins := Bytes → Bool

def validateVictoria (parseOrigin : Origins) (config : Config) : Checked Unit := do
  ensure (∀ url ∈ config.victoriaMetrics, parseOrigin url = true) .invalidVictoriaMetricsUrl
  ensure (config.victoriaLogs = none ∨ config.accessLog = true) .conflictingLogOptions
  ensure (∀ url ∈ config.victoriaLogs, parseOrigin url = true) .invalidVictoriaLogsUrl

def validateRedirect (config : Config) : Checked Unit := do
  ensure (config.httpRedirect = false ∨ config.tls ≠ none) .httpsRequired
  ensure (config.httpRedirect = false ∨ config.port = 0 ∨ config.httpRedirectPort ≠ config.port)
    .invalidOption

def validateHttp2 (http2 : Http2) : Checked Unit :=
  ensure (http2.maxStreams ≠ 0 ∧ http2.maxStreams ≤ 65535 ∧ http2.maxStreamsPerWorker ≠ 0 ∧
    (http2.maxStreamsPerWorker = automatic ∨ http2.maxStreamsPerWorker ≤ 65535) ∧
    1024 * 1024 ≤ http2.memoryBytes) .invalidLimit

def validateTls (config : Config) : Checked Unit :=
  ensure (∀ tls ∈ config.tls, tls.certificate ≠ [] ∧ tls.privateKey ≠ [] ∧ 0 ∉ tls.certificate ∧
    0 ∉ tls.privateKey ∧ tls.handshakeTimeoutMs ≠ 0) .invalidOption

/-- The worker and connection counts. -/
def countsInRange (config : Config) : Prop :=
  config.workers ≠ 0 ∧ (config.workers = automatic ∨ config.workers ≤ 256) ∧
  config.maxConnections ≠ 0 ∧
  (config.maxConnections = automatic ∨ config.maxConnections ≤ 8176) ∧
  config.adminConnections ≤ 128 ∧
  (config.maxConnections = automatic ∨ config.maxConnections + config.adminConnections ≤ 8176)

instance (config : Config) : Decidable config.countsInRange := by
  unfold countsInRange
  infer_instance

/-- The limits that sizing leaves alone. -/
def limitsInRange (config : Config) : Prop :=
  (8192 ≤ config.headerBytes ∧ config.headerBytes ≤ 1024 * 1024) ∧
  (2 ≤ config.trailerBytes ∧ config.trailerBytes ≤ 1024 * 1024) ∧
  (config.receiveBytes ≠ 0 ∧ config.receiveBytes ≤ 1024 * 1024) ∧
  (16384 ≤ config.responseBytes ∧ config.responseBytes ≤ 1024 * 1024) ∧
  (32 * 1024 ≤ config.applicationBytes ∧ config.applicationBytes ≤ 16 * 1024 * 1024) ∧
  (config.logSlots ≠ 0 ∧ config.logSlots ≤ 65536) ∧
  (config.completionBudget ≠ 0 ∧ config.completionBudget ≤ 256) ∧
  config.responseBatches ≤ 8176 ∧ 3 ≤ config.maxChunkFramingBytes ∧
  config.maxRequestsPerConnection ≠ 0 ∧ config.headerTimeoutMs ≠ 0 ∧
  config.bodyTimeoutMs ≠ 0 ∧ config.writeTimeoutMs ≠ 0 ∧
  config.idleTimeoutMs ≠ 0 ∧ config.closeTimeoutMs ≠ 0 ∧
  (config.idleReclaimMs = 0 ∨ config.idleReclaimMs < config.idleTimeoutMs) ∧
  config.shutdownTimeoutMs ≠ 0

instance (config : Config) : Decidable config.limitsInRange := by
  unfold limitsInRange
  infer_instance

/-- A rate needs a bucket. -/
def burstInRange (admission : AdmissionOptions) : Prop :=
  admission.requestsPerSecond = 0 ∨ admission.burst ≠ some 0

instance (admission : AdmissionOptions) : Decidable (burstInRange admission) := by
  unfold burstInRange
  infer_instance

/-- The public slots that the two admission counts may use. -/
def publicSlots (config : Config) : Checked Nat := do
  let slots ← sub 8176 config.adminConnections
  return min config.maxConnections slots

/-- One admission count against its smallest value and the public slots. -/
def validateCount (config : Config) (least : Nat) : Option Nat → Checked Unit
  | none => .ok ()
  | some limit => do
      let slots ← config.publicSlots
      ensure (least ≤ limit ∧ limit ≤ slots) .invalidLimit

def validateAdmission (config : Config) : Checked Unit := do
  config.validateCount 1 config.admission.maxActive
  config.validateCount 0 config.admission.maxRejecting

/-- Rejects unsupported limits and listener combinations. -/
def validate (parseOrigin : Origins) (config : Config) : Checked Unit := do
  validateVictoria parseOrigin config
  validateRedirect config
  validateHttp2 config.http2
  validateTls config
  ensure (config.countsInRange ∧ config.limitsInRange ∧ burstInRange config.admission) .invalidLimit
  ensure (∀ fd ∈ config.logFd, 0 ≤ fd) .invalidLimit
  ensure (config.memoryBudgetBytes ≠ some 0) .invalidLimit
  let _ ← config.resolveWorkerCpus
  validateAdmission config

/-- The part of `validate` that reads no limit found by sizing. -/
def Unsized (parseOrigin : Origins) (config : Config) : Prop :=
  (∀ url ∈ config.victoriaMetrics, parseOrigin url = true) ∧
  (config.victoriaLogs = none ∨ config.accessLog = true) ∧
  (∀ url ∈ config.victoriaLogs, parseOrigin url = true) ∧
  (config.httpRedirect = false ∨ config.tls ≠ none) ∧
  (config.httpRedirect = false ∨ config.port = 0 ∨ config.httpRedirectPort ≠ config.port) ∧
  (∀ tls ∈ config.tls, tls.certificate ≠ [] ∧ tls.privateKey ≠ [] ∧ 0 ∉ tls.certificate ∧
    0 ∉ tls.privateKey ∧ tls.handshakeTimeoutMs ≠ 0) ∧
  config.limitsInRange ∧ (∀ fd ∈ config.logFd, 0 ≤ fd) ∧ config.memoryBudgetBytes ≠ some 0

def http2InRange (http2 : Http2) : Prop :=
  http2.maxStreams ≠ 0 ∧ http2.maxStreams ≤ 65535 ∧ http2.maxStreamsPerWorker ≠ 0 ∧
  (http2.maxStreamsPerWorker = automatic ∨ http2.maxStreamsPerWorker ≤ 65535) ∧
  1024 * 1024 ≤ http2.memoryBytes

/-- The admission counts fit the public slots. -/
def admissionInRange (config : Config) : Prop :=
  (∀ limit ∈ config.admission.maxActive,
    1 ≤ limit ∧ limit ≤ min config.maxConnections (8176 - config.adminConnections)) ∧
  (∀ limit ∈ config.admission.maxRejecting,
    limit ≤ min config.maxConnections (8176 - config.adminConnections))

/-- What `validate` accepts. -/
structure Valid (parseOrigin : Origins) (config : Config) : Prop where
  unsized : config.Unsized parseOrigin
  http2 : http2InRange config.http2
  counts : config.countsInRange
  burst : burstInRange config.admission
  cpus : ∃ cpus, config.resolveWorkerCpus = .ok cpus
  admission : config.admissionInRange

theorem publicSlots_eq {config : Config} (h : config.countsInRange) :
    config.publicSlots = .ok (min config.maxConnections (8176 - config.adminConnections)) := by
  have hadmin : config.adminConnections ≤ 8176 := by
    have := h.2.2.2.2.1
    omega
  simp [publicSlots, sub_of_le hadmin, bind, Except.bind, pure, Except.pure]

theorem validateCount_ok {config : Config} (h : config.countsInRange) (least : Nat)
    (limit : Option Nat) (u : Unit) :
    config.validateCount least limit = .ok u ↔ ∀ n ∈ limit,
      least ≤ n ∧ n ≤ min config.maxConnections (8176 - config.adminConnections) := by
  cases limit with
  | none => simp [validateCount]
  | some n => simp [validateCount, bind_ok, publicSlots_eq h]

theorem validate_ok {parseOrigin : Origins} {config : Config} {u : Unit} :
    config.validate parseOrigin = .ok u ↔ config.Valid parseOrigin := by
  constructor
  · intro h
    simp only [validate, validateVictoria, validateRedirect, validateHttp2, validateTls,
      validateAdmission, bind_ok, ensure_ok] at h
    obtain ⟨_, ⟨_, hmetrics, _, haccess, hlogs⟩, _, ⟨_, hhttps, hport⟩, _, hhttp2, _, htls, _,
      ⟨hcounts, hlimits, hburst⟩, _, hfd, _, hbudget, cpus, hcpus, _, hactive, hrejecting⟩ := h
    refine ⟨⟨hmetrics, haccess, hlogs, hhttps, hport, htls, hlimits, hfd, hbudget⟩, hhttp2, hcounts,
      hburst, ⟨cpus, hcpus⟩, (validateCount_ok hcounts _ _ _).mp hactive, ?_⟩
    intro limit hlimit
    exact ((validateCount_ok hcounts _ _ _).mp hrejecting limit hlimit).2
  · rintro ⟨⟨hmetrics, haccess, hlogs, hhttps, hport, htls, hlimits, hfd, hbudget⟩, hhttp2, hcounts,
      hburst, ⟨cpus, hcpus⟩, hactive, hrejecting⟩
    simp only [validate, validateVictoria, validateRedirect, validateHttp2, validateTls,
      validateAdmission, bind_ok, ensure_ok]
    refine ⟨(), ⟨(), hmetrics, (), haccess, hlogs⟩, (), ⟨(), hhttps, hport⟩, (), hhttp2, (), htls, (),
      ⟨hcounts, hlimits, hburst⟩, (), hfd, (), hbudget, cpus, hcpus, (),
      (validateCount_ok hcounts _ _ _).mpr hactive, (validateCount_ok hcounts _ _ _).mpr ?_⟩
    intro limit hlimit
    exact ⟨Nat.zero_le _, hrejecting limit hlimit⟩

theorem parseCpu_traps {allowed : Trap → Prop} (text : Bytes) :
    TrapsOnly allowed (parseCpu text) := by
  refine .bind (.ensure _ _) fun _ _ => .bind (.ensure _ _) fun _ _ => ?_
  split
  · exact .fail _
  · exact .bind (.ensure _ _) fun _ _ => .ok _

theorem addPart_traps {allowed : Trap → Prop} (cpus : List Nat) (part : Bytes) :
    TrapsOnly allowed (addPart cpus part) := by
  have hadd (cpus : List Nat) (cpu : Nat) : TrapsOnly allowed (addCpu cpus cpu) := by
    unfold addCpu
    split
    · exact .fail _
    · exact .ok _
  unfold addPart
  split
  · exact .bind (parseCpu_traps _) fun _ _ => .foldlM hadd _ _
  · exact .bind (parseCpu_traps _) fun _ _ => .bind (parseCpu_traps _) fun _ _ =>
      .bind (.ensure _ _) fun _ _ => .foldlM hadd _ _
  · exact .bind (parseCpu_traps _) fun _ _ => .bind (parseCpu_traps _) fun _ _ => .fail _
  · exact .fail _

theorem resolveWorkerCpus_traps {allowed : Trap → Prop} (config : Config) :
    TrapsOnly allowed config.resolveWorkerCpus := by
  unfold resolveWorkerCpus
  split
  · exact .ok _
  · exact .bind (.foldlM addPart_traps _ _) fun _ _ => .bind (.ensure _ _) fun _ _ => .ok _

/-- The one subtraction of `validate` stands behind the check of its subtrahend. -/
theorem validate_traps {allowed : Trap → Prop} (parseOrigin : Origins) (config : Config) :
    TrapsOnly allowed (config.validate parseOrigin) := by
  have hcount (h : config.countsInRange) (least : Nat) (limit : Option Nat) :
      TrapsOnly allowed (config.validateCount least limit) := by
    cases limit with
    | none => exact .ok _
    | some n => exact .bind (.of_eq (publicSlots_eq h)) fun _ _ => .ensure _ _
  refine .bind ?_ fun _ _ => .bind ?_ fun _ _ => .bind (.ensure _ _) fun _ _ =>
    .bind (.ensure _ _) fun _ _ => .bind (.ensure _ _) fun _ hcounts => .bind (.ensure _ _) fun _ _ =>
    .bind (.ensure _ _) fun _ _ => .bind (resolveWorkerCpus_traps _) fun _ _ => ?_
  · exact .bind (.ensure _ _) fun _ _ => .bind (.ensure _ _) fun _ _ => .ensure _ _
  · exact .bind (.ensure _ _) fun _ _ => .ensure _ _
  · have h := (ensure_ok.mp hcounts).1
    exact .bind (hcount h _ _) fun _ _ => hcount h _ _

/-! ### Admission defaults -/

/-- `Admission.Options`. -/
structure Limits where
  maxActive : Nat
  maxRejecting : Nat
  requestsPerSecond : Nat
  burst : Nat
  rejectionsPerSecond : Nat
  deriving DecidableEq, Repr

/-- Three quarters of the connections unless the option is set. -/
def resolveActive (config : Config) : Checked Nat :=
  match config.admission.maxActive with
  | some limit => .ok limit
  | none => do
      let tripled ← mul config.maxConnections 3
      return max 1 (tripled / 4)

def resolveBurst (config : Config) (maxActive : Nat) : Checked Nat :=
  match config.admission.burst with
  | some burst => .ok burst
  | none => intCast32 maxActive

/-- Effective limits of one worker, once the connections are counted. -/
def resolveAdmission (parseOrigin : Origins) (config : Config) : Checked Limits := do
  config.validate parseOrigin
  ensure (config.maxConnections ≠ automatic) .unresolvedResources
  let maxActive ← config.resolveActive
  let burst ← config.resolveBurst maxActive
  return {
    maxActive
    maxRejecting := config.admission.maxRejecting.getD (max 1 (config.maxConnections / 8))
    requestsPerSecond := config.admission.requestsPerSecond
    burst
    rejectionsPerSecond := config.admission.rejectionsPerSecond }

/-- The configuration with its admission defaults filled in. -/
def resolve (parseOrigin : Origins) (config : Config) : Checked Config := do
  let limits ← config.resolveAdmission parseOrigin
  return { config with
    admission := {
      maxActive := some limits.maxActive
      maxRejecting := some limits.maxRejecting
      requestsPerSecond := limits.requestsPerSecond
      burst := some limits.burst
      rejectionsPerSecond := limits.rejectionsPerSecond } }

theorem resolveActive_eq {config : Config} (h : config.maxConnections ≤ 8176) :
    config.resolveActive =
      .ok (config.admission.maxActive.getD (max 1 (config.maxConnections * 3 / 4))) := by
  have hmul : config.maxConnections * 3 ≤ usizeMax := by
    simp only [usizeMax]
    omega
  unfold resolveActive
  split <;> rename_i hactive
  · simp [hactive]
  · simp [hactive, mul_of_le hmul, bind, Except.bind, pure, Except.pure]

theorem Valid.connections_le {parseOrigin : Origins} {config : Config}
    (h : config.Valid parseOrigin) (hnumeric : config.maxConnections ≠ automatic) :
    1 ≤ config.maxConnections ∧ config.maxConnections + config.adminConnections ≤ 8176 := by
  obtain ⟨_, _, hpos, _, _, hsum⟩ := h.counts
  exact ⟨Nat.pos_of_ne_zero hpos, hsum.resolve_left hnumeric⟩

/-- The admission counts in force fit the connections. -/
theorem Valid.active_le {parseOrigin : Origins} {config : Config} (h : config.Valid parseOrigin)
    (hnumeric : config.maxConnections ≠ automatic) :
    1 ≤ config.admission.maxActive.getD (max 1 (config.maxConnections * 3 / 4)) ∧
    config.admission.maxActive.getD (max 1 (config.maxConnections * 3 / 4)) ≤ config.maxConnections ∧
    config.admission.maxRejecting.getD (max 1 (config.maxConnections / 8)) ≤
      config.maxConnections := by
  obtain ⟨hpos, hsum⟩ := h.connections_le hnumeric
  obtain ⟨hactive, hrejecting⟩ := h.admission
  refine ⟨?_, ?_, ?_⟩
  · cases hlimit : config.admission.maxActive with
    | none => simp only [Option.getD_none]; omega
    | some limit => exact (hactive limit hlimit).1
  · cases hlimit : config.admission.maxActive with
    | none => simp only [Option.getD_none]; omega
    | some limit =>
        have := (hactive limit hlimit).2
        simp only [Option.getD_some]
        omega
  · cases hlimit : config.admission.maxRejecting with
    | none => simp only [Option.getD_none]; omega
    | some limit =>
        have := hrejecting limit hlimit
        simp only [Option.getD_some]
        omega

/-- The admission options that `resolve` writes. -/
def admissionDefaults (config : Config) : AdmissionOptions :=
  let maxActive := config.admission.maxActive.getD (max 1 (config.maxConnections * 3 / 4))
  { config.admission with
    maxActive := some maxActive
    maxRejecting := some (config.admission.maxRejecting.getD (max 1 (config.maxConnections / 8)))
    burst := some (config.admission.burst.getD maxActive) }

/-- Valid options with a number of connections resolve: the defaults are in range. -/
theorem resolve_eq {parseOrigin : Origins} {config : Config} (h : config.Valid parseOrigin)
    (hnumeric : config.maxConnections ≠ automatic) :
    config.resolve parseOrigin = .ok { config with admission := config.admissionDefaults } := by
  obtain ⟨hpos, hsum⟩ := h.connections_le hnumeric
  have hle := (h.active_le hnumeric).2.1
  have hburst : config.resolveBurst
      (config.admission.maxActive.getD (max 1 (config.maxConnections * 3 / 4))) =
      .ok (config.admission.burst.getD
        (config.admission.maxActive.getD (max 1 (config.maxConnections * 3 / 4)))) := by
    unfold resolveBurst
    split <;> rename_i hburst
    · simp [hburst]
    · simp only [hburst, Option.getD_none]
      exact intCast32_of_lt (by omega)
  have hensure : ensure (config.maxConnections ≠ automatic) .unresolvedResources = .ok () :=
    ensure_ok.mpr hnumeric
  have hvalidate : config.validate parseOrigin = .ok () := validate_ok.mpr h
  simp only [resolve, resolveAdmission, hvalidate, hensure,
    resolveActive_eq (show config.maxConnections ≤ 8176 by omega), hburst, admissionDefaults, bind,
    Except.bind, pure, Except.pure]

/-- `resolve` returns valid options only, and fills in nothing but the admission defaults. -/
theorem resolve_ok {parseOrigin : Origins} {config result : Config}
    (h : config.resolve parseOrigin = .ok result) :
    config.Valid parseOrigin ∧ config.maxConnections ≠ automatic ∧
      result = { config with admission := config.admissionDefaults } := by
  have hresolve := h
  simp only [resolve, resolveAdmission, bind_ok, ensure_ok] at h
  obtain ⟨_, ⟨_, hvalid, _, hnumeric, _⟩, _⟩ := h
  rw [resolve_eq (validate_ok.mp hvalid) hnumeric] at hresolve
  cases hresolve
  exact ⟨validate_ok.mp hvalid, hnumeric, rfl⟩

theorem Valid.resolved {parseOrigin : Origins} {config : Config} (h : config.Valid parseOrigin)
    (hnumeric : config.maxConnections ≠ automatic) :
    Valid parseOrigin { config with admission := config.admissionDefaults } := by
  obtain ⟨hpos, hsum⟩ := h.connections_le hnumeric
  obtain ⟨hactive, hle, hrejecting⟩ := h.active_le hnumeric
  refine ⟨h.unsized, h.http2, h.counts, ?_, h.cpus, ?_, ?_⟩
  · rcases h.burst with hrate | hburst
    · exact .inl hrate
    · right
      intro hzero
      have hzero : config.admission.burst.getD
          (config.admission.maxActive.getD (max 1 (config.maxConnections * 3 / 4))) = 0 :=
        Option.some.inj hzero
      cases hset : config.admission.burst with
      | none =>
          rw [hset, Option.getD_none] at hzero
          omega
      | some burst =>
          rw [hset, Option.getD_some] at hzero
          exact hburst (hzero ▸ hset)
  · intro limit hlimit
    obtain rfl := Option.some.inj hlimit
    exact ⟨hactive, by dsimp only; omega⟩
  · intro limit hlimit
    obtain rfl := Option.some.inj hlimit
    dsimp only
    omega

theorem resolve_traps {allowed : Trap → Prop} (parseOrigin : Origins) (config : Config) :
    TrapsOnly allowed (config.resolve parseOrigin) := by
  refine .bind (.bind (validate_traps parseOrigin config) fun u hvalid =>
    .bind (.ensure _ _) fun v hnumeric => ?_) fun _ _ => .ok _
  have hvalid := validate_ok.mp hvalid
  have hnumeric : config.maxConnections ≠ automatic := ensure_ok.mp hnumeric
  have hsum := (hvalid.connections_le hnumeric).2
  have hle := (hvalid.active_le hnumeric).2.1
  have hactive := resolveActive_eq (show config.maxConnections ≤ 8176 by omega)
  refine .bind (.of_eq hactive) fun maxActive hmax => .bind ?_ fun _ _ => .ok _
  rw [hactive] at hmax
  obtain rfl := Except.ok.inj hmax
  unfold resolveBurst
  split
  · exact .ok _
  · exact .of_eq (intCast32_of_lt (by omega))

end Config

end Zhtps
