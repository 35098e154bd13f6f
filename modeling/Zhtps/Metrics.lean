import Zhtps.Lib.Counters
import Zhtps.Lib.Transition

/-!
The counters and histograms of `src/Metrics.zig`.  The thread that owns them uses its recorder, which
adds with a load and a store; the counters that other threads also touch are added to atomically.
Snapshots are read cell by cell in the meantime.

Nothing is lost, whatever the interleaving, and a quiet histogram has each observation in its bucket.
Gauges are single stores and left out.
-/

namespace Zhtps.Metrics

/-- The wrapping addition of the atomics. -/
scoped instance wrapping : AddCommMonoid UInt64 where
  add_assoc := UInt64.add_assoc
  zero_add := UInt64.zero_add
  add_zero := UInt64.add_zero
  add_comm := UInt64.add_comm
  nsmul := nsmulRec

inductive Counter
  | connectionsAcceptedTotal
  | connectionsClosedTotal
  | connectionsRefusedTotal
  | connectionsIdleClosedTotal
  | connectionsReclaimedTotal
  | connectionReclaimTimeoutsTotal
  | tlsHandshakesTotal
  | tlsSessionsReusedTotal
  | tlsErrorsTotal
  | tlsHandshakeTimeoutsTotal
  | requestsTotal
  | requestsAdmittedTotal
  | requestsRejectedTotal
  | requestsClosedBeforeHeadTotal
  | requestsCompletedTotal
  | requestsAbortedTotal
  | protocolErrorsTotal
  | requestTimeoutsTotal
  | headerTimeoutsTotal
  | bodyTimeoutsTotal
  | applicationTimeoutsTotal
  | applicationQueueRejectionsTotal
  | writeTimeoutsTotal
  | peerDisconnectsTotal
  | bytesReceivedTotal
  | bytesSentTotal
  | ioSubmissionsTotal
  | ioCompletionsTotal
  | ioErrorsTotal
  | responseBatchesTotal
  | responsesBatchedTotal
  | responseBatchFallbacksTotal
  | bufferAllocationsTotal
  | bufferExhaustionsTotal
  | connectionBufferAllocationsTotal
  | connectionBufferExhaustionsTotal
  | requestStorageAllocationsTotal
  | requestStorageExhaustionsTotal
  | logEventsTotal
  | logDroppedTotal
  | logWriteErrorsTotal
  | metricsPushesTotal
  | metricsPushErrorsTotal
  | rejectionAbortedTotal
  | responses1xxTotal
  | responses2xxTotal
  | responses3xxTotal
  | responses4xxTotal
  | responses5xxTotal
  deriving DecidableEq, Repr

inductive Histogram
  | requestDurationSeconds
  | admittedDurationSeconds
  | rejectedDurationSeconds
  | abortedDurationSeconds
  | adminDurationSeconds
  | timeToFirstByteSeconds
  | headerDurationSeconds
  | eventLoopDurationSeconds
  deriving DecidableEq, Repr

/-- `std.meta.tags(Counter)`. -/
def Counter.all : List Counter :=
  [.connectionsAcceptedTotal, .connectionsClosedTotal, .connectionsRefusedTotal,
    .connectionsIdleClosedTotal, .connectionsReclaimedTotal, .connectionReclaimTimeoutsTotal,
    .tlsHandshakesTotal, .tlsSessionsReusedTotal, .tlsErrorsTotal, .tlsHandshakeTimeoutsTotal,
    .requestsTotal, .requestsAdmittedTotal, .requestsRejectedTotal,
    .requestsClosedBeforeHeadTotal, .requestsCompletedTotal, .requestsAbortedTotal,
    .protocolErrorsTotal, .requestTimeoutsTotal, .headerTimeoutsTotal, .bodyTimeoutsTotal,
    .applicationTimeoutsTotal, .applicationQueueRejectionsTotal, .writeTimeoutsTotal,
    .peerDisconnectsTotal, .bytesReceivedTotal, .bytesSentTotal, .ioSubmissionsTotal,
    .ioCompletionsTotal, .ioErrorsTotal, .responseBatchesTotal, .responsesBatchedTotal,
    .responseBatchFallbacksTotal, .bufferAllocationsTotal, .bufferExhaustionsTotal,
    .connectionBufferAllocationsTotal, .connectionBufferExhaustionsTotal,
    .requestStorageAllocationsTotal, .requestStorageExhaustionsTotal, .logEventsTotal,
    .logDroppedTotal, .logWriteErrorsTotal, .metricsPushesTotal, .metricsPushErrorsTotal,
    .rejectionAbortedTotal, .responses1xxTotal, .responses2xxTotal, .responses3xxTotal,
    .responses4xxTotal, .responses5xxTotal]

/-- `std.meta.tags(Histogram)`. -/
def Histogram.all : List Histogram :=
  [.requestDurationSeconds, .admittedDurationSeconds, .rejectedDurationSeconds,
    .abortedDurationSeconds, .adminDurationSeconds, .timeToFirstByteSeconds,
    .headerDurationSeconds, .eventLoopDurationSeconds]

/-- `bounds_ns`. -/
def boundsNs : List Nat :=
  [10000, 25000, 50000, 100000, 250000, 500000, 1000000, 5000000, 10000000, 100000000, 1000000000]

/-- One atomic of the storage; a histogram has one bucket more than there are bounds. -/
inductive Cell
  | counter (counter : Counter)
  | bucket (histogram : Histogram) (index : Nat)
  | sumNs (histogram : Histogram)
  deriving DecidableEq, Repr

/-- The loop of `record`, from a bucket on. -/
def bucketFrom (nanoseconds : Nat) : List Nat → Nat → Nat
  | [], bucket => bucket
  | bound :: bounds, bucket =>
      if bound < nanoseconds then bucketFrom nanoseconds bounds (bucket + 1) else bucket

def bucketOf (nanoseconds : Nat) : Nat := bucketFrom nanoseconds boundsNs 0

/-- `statusCounter`; other statuses are unreachable. -/
def statusCounter (status : Nat) : Option Counter :=
  match status / 100 with
  | 1 => some .responses1xxTotal
  | 2 => some .responses2xxTotal
  | 3 => some .responses3xxTotal
  | 4 => some .responses4xxTotal
  | 5 => some .responses5xxTotal
  | _ => none

/-- A call of `add`, `response` or `observe`, of the recorder's or the concurrent ones. -/
inductive Update
  | add (counter : Counter) (amount : UInt64)
  | response (status : Nat)
  | observe (histogram : Histogram) (nanoseconds : UInt64)
  deriving DecidableEq, Repr

/-- The additions that an update makes, in their order. -/
def Update.increments : Update → Option (List (Cell × UInt64))
  | .add counter amount => some [(.counter counter, amount)]
  | .response status => (statusCounter status).map fun counter => [(.counter counter, 1)]
  | .observe histogram nanoseconds =>
      some [(.bucket histogram (bucketOf nanoseconds.toNat), 1), (.sumNs histogram, nanoseconds)]

/-- The counters of the logs and of the pushed metrics, which the sender tasks and the threads of the
application update too: nobody uses the recorder for them. -/
def concurrent : Cell → Bool
  | .counter counter =>
      [.logEventsTotal, .logDroppedTotal, .logWriteErrorsTotal, .metricsPushesTotal,
        .metricsPushErrorsTotal].contains counter
  | _ => false

/-- The order in which `snapshot` reads. -/
def snapshotCells : List Cell :=
  Counter.all.map .counter ++ Histogram.all.flatMap fun histogram =>
    ((List.range (boundsNs.length + 1)).map fun index => .bucket histogram index) ++ [.sumNs histogram]

inductive Event (t r : Nat)
  /-- A call of the owner, and its next addition: the load and the store of the recorder, or the atomic
  one. -/
  | call (change : Update)
  | load
  | store
  | fetchAdd
  /-- A call of another thread, and its next addition. -/
  | callFrom (thread : Fin t) (change : Update)
  | fetchAddFrom (thread : Fin t)
  | snapshot (reader : Fin r)
  | read (reader : Fin r)
  deriving Repr

variable {t r : Nat}

def Event.lower : Event t r → Option (Lib.Counters.Event Cell UInt64 t r)
  | .call change => change.increments.map .own
  | .load => some .load
  | .store => some .store
  | .fetchAdd => some .bump
  | .callFrom thread change => change.increments.map (.share thread)
  | .fetchAddFrom thread => some (.add thread)
  | .snapshot reader => some (.snapshot reader snapshotCells)
  | .read reader => some (.read reader)

/-- The metrics of one worker with those who use them. -/
abbrev State (t r : Nat) := Lib.Counters Cell UInt64 t r

def step (s : State t r) (event : Event t r) : Option (State t r) :=
  event.lower.bind (Lib.Counters.step concurrent s)

def run : State t r → List (Event t r) → Option (State t r) := Lib.run step

def init : State t r := { cells := fun _ => 0 }

/-- The update that an event begins. -/
def Event.begins : Event t r → Option Update
  | .call change | .callFrom _ change => some change
  | _ => none

def updates (events : List (Event t r)) : List Update := events.filterMap Event.begins

def Update.amounts (update : Update) : List (Cell × UInt64) := update.increments.getD []

/-- How much an update counts at a counter. -/
def Update.counted (counter : Counter) : Update → Nat
  | .add other amount => if other = counter then amount.toNat else 0
  | .response status => if statusCounter status = some counter then 1 else 0
  | .observe _ _ => 0

def Update.observed (histogram : Histogram) : Update → Option Nat
  | .observe other nanoseconds => if other = histogram then some nanoseconds.toNat else none
  | _ => none

/-- The durations that a histogram was given. -/
def observations (histogram : Histogram) (updates : List Update) : List Nat :=
  updates.filterMap (Update.observed histogram)

variable {s next : State t r} {events : List (Event t r)}

theorem step_begun {event : Event t r} (hstep : step s event = some next) :
    next.begun = s.begun ++ (event.begins.map Update.amounts).getD [] := by
  obtain ⟨lower, hlower, hstep⟩ := Option.bind_eq_some_iff.mp hstep
  rw [Lib.Counters.step_begun hstep]
  congr 1
  cases event with
  | call change =>
      obtain ⟨additions, hadditions, rfl⟩ := Option.map_eq_some_iff.mp hlower
      exact (congrArg (Option.getD · []) hadditions).symm
  | callFrom thread change =>
      obtain ⟨additions, hadditions, rfl⟩ := Option.map_eq_some_iff.mp hlower
      exact (congrArg (Option.getD · []) hadditions).symm
  | load => exact Option.some.inj hlower ▸ rfl
  | store => exact Option.some.inj hlower ▸ rfl
  | fetchAdd => exact Option.some.inj hlower ▸ rfl
  | fetchAddFrom thread => exact Option.some.inj hlower ▸ rfl
  | snapshot reader => exact Option.some.inj hlower ▸ rfl
  | read reader => exact Option.some.inj hlower ▸ rfl

theorem run_sound (hrun : run init events = some s) :
    s.Sound concurrent ∧ s.begun = (updates events).flatMap Update.amounts := by
  have hall : ∀ (events : List (Event t r)) (first last : State t r), first.Sound concurrent →
      run first events = some last →
        last.Sound concurrent ∧ last.begun = first.begun ++ (updates events).flatMap Update.amounts := by
    intro events
    induction events with
    | nil =>
        intro first last hsound hrun
        obtain rfl := Option.some.inj hrun
        exact ⟨hsound, (List.append_nil _).symm⟩
    | cons event events ih =>
        intro first last hsound hrun
        obtain ⟨next, hstep, hrest⟩ := Lib.run_cons.mp hrun
        obtain ⟨lower, -, hlower⟩ := Option.bind_eq_some_iff.mp hstep
        obtain ⟨hlast, hbegun⟩ := ih next last (Lib.Counters.step_sound hsound hlower) hrest
        refine ⟨hlast, ?_⟩
        rw [hbegun, step_begun hstep, List.append_assoc]
        congr 1
        unfold updates
        cases hbegins : event.begins with
        | none => rw [List.filterMap_cons_none hbegins]; rfl
        | some update => rw [List.filterMap_cons_some hbegins, List.flatMap_cons]; rfl
  obtain ⟨hsound, hbegun⟩ := hall events init s Lib.Counters.init_sound hrun
  exact ⟨hsound, hbegun.trans (List.nil_append _)⟩

/-! ### What the updates come to -/

theorem tally_counter (counter : Counter) (updates : List Update) :
    Lib.tally (updates.flatMap Update.amounts) (.counter counter) =
      UInt64.ofNat (updates.map (Update.counted counter)).sum := by
  induction updates with
  | nil => rfl
  | cons update updates ih =>
      rw [List.flatMap_cons, Lib.tally_append, ih, List.map_cons, List.sum_cons, UInt64.ofNat_add]
      congr 1
      cases update with
      | add other amount =>
          show Lib.tally [(Cell.counter other, amount)] _ = UInt64.ofNat (if other = counter then _ else _)
          rw [Lib.tally_single]
          by_cases hother : other = counter
          · rw [if_pos (congrArg Cell.counter hother), if_pos hother, UInt64.ofNat_toNat]
          · rw [if_neg fun h => hother (Cell.counter.inj h), if_neg hother]
            rfl
      | response status =>
          show Lib.tally (((statusCounter status).map _).getD []) _ =
            UInt64.ofNat (if statusCounter status = some counter then _ else _)
          cases hstatus : statusCounter status with
          | none => rfl
          | some other =>
              rw [Option.map_some, Option.getD_some, Lib.tally_single]
              by_cases hother : other = counter
              · rw [if_pos (congrArg Cell.counter hother), if_pos (congrArg some hother)]
                rfl
              · rw [if_neg fun h => hother (Cell.counter.inj h), if_neg fun h => hother (Option.some.inj h)]
                rfl
      | observe histogram nanoseconds => rfl

/-- An observation counts in one bucket, and with its duration. -/
theorem tally_amounts (histogram : Histogram) (change : Update) :
    (∀ index, Lib.tally change.amounts (.bucket histogram index) =
        UInt64.ofNat ((observations histogram [change]).countP fun nanoseconds =>
          bucketOf nanoseconds == index)) ∧
      Lib.tally change.amounts (.sumNs histogram) = UInt64.ofNat (observations histogram [change]).sum := by
  cases change with
  | add counter amount => exact ⟨fun _ => add_zero _, add_zero _⟩
  | response status =>
      have hamounts : (Update.response status).amounts =
          ((statusCounter status).map fun counter => [(Cell.counter counter, (1 : UInt64))]).getD [] := rfl
      cases hstatus : statusCounter status with
      | none =>
          rw [hamounts, hstatus]
          exact ⟨fun _ => rfl, rfl⟩
      | some counter =>
          rw [hamounts, hstatus]
          exact ⟨fun _ => add_zero _, add_zero _⟩
  | observe other nanoseconds =>
      have hamounts : (Update.observe other nanoseconds).amounts =
          [(Cell.bucket other (bucketOf nanoseconds.toNat), 1)] ++ [(Cell.sumNs other, nanoseconds)] := rfl
      rw [hamounts]
      by_cases hother : other = histogram
      · have hobserved : observations histogram [.observe other nanoseconds] = [nanoseconds.toNat] := by
          simp [observations, Update.observed, hother]
        refine ⟨fun index => ?_, ?_⟩
        · rw [Lib.tally_append, Lib.tally_single, Lib.tally_single, hobserved]
          by_cases hindex : bucketOf nanoseconds.toNat = index <;> simp [hother, hindex]
        · rw [Lib.tally_append, Lib.tally_single, Lib.tally_single, hobserved]
          simp [hother]
      · have hobserved : observations histogram [.observe other nanoseconds] = [] := by
          simp [observations, Update.observed, hother]
        refine ⟨fun index => ?_, ?_⟩
        · rw [Lib.tally_append, Lib.tally_single, Lib.tally_single, hobserved]
          simp [hother]
        · rw [Lib.tally_append, Lib.tally_single, Lib.tally_single, hobserved]
          simp [hother]

theorem observations_cons (histogram : Histogram) (change : Update) (changes : List Update) :
    observations histogram (change :: changes) =
      observations histogram [change] ++ observations histogram changes :=
  List.filterMap_append (l := [change])

theorem tally_observe (histogram : Histogram) (changes : List Update) :
    (∀ index, Lib.tally (changes.flatMap Update.amounts) (.bucket histogram index) =
        UInt64.ofNat ((observations histogram changes).countP fun nanoseconds =>
          bucketOf nanoseconds == index)) ∧
      Lib.tally (changes.flatMap Update.amounts) (.sumNs histogram) =
        UInt64.ofNat (observations histogram changes).sum := by
  induction changes with
  | nil => exact ⟨fun _ => rfl, rfl⟩
  | cons change changes ih =>
      obtain ⟨hbuckets, hsum⟩ := tally_amounts histogram change
      refine ⟨fun index => ?_, ?_⟩
      · rw [List.flatMap_cons, Lib.tally_append, hbuckets, ih.1,
          observations_cons histogram change changes, List.countP_append, UInt64.ofNat_add]
      · rw [List.flatMap_cons, Lib.tally_append, hsum, ih.2,
          observations_cons histogram change changes, List.sum_append, UInt64.ofNat_add]

/-- Whatever the interleaving, each addition has taken effect once or is still pending, a snapshot has
of each atomic what it held at some moment of the snapshot, and when nobody is in the middle of an
update the atomics are what the updates come to, modulo `2 ^ 64`. -/
theorem no_lost_update (hrun : run init events = some s) :
    ((updates events).flatMap Update.amounts).Perm (s.applied ++ s.pending) ∧
      (∀ reader, ∀ entry ∈ (s.readers reader).captured, ∃ moment, (s.readers reader).since ≤ moment ∧
        moment ≤ s.applied.length ∧ entry.2 = Lib.tally (s.applied.take moment) entry.1) ∧
      (s.pending = [] →
        (∀ counter, (s.cells (.counter counter)).toNat =
          ((updates events).map (Update.counted counter)).sum % 2 ^ 64) ∧
        (∀ histogram index, (s.cells (.bucket histogram index)).toNat =
          ((observations histogram (updates events)).countP fun nanoseconds =>
            bucketOf nanoseconds == index) % 2 ^ 64) ∧
        ∀ histogram, (s.cells (.sumNs histogram)).toNat =
          (observations histogram (updates events)).sum % 2 ^ 64) := by
  obtain ⟨hsound, hbegun⟩ := run_sound hrun
  refine ⟨hbegun ▸ hsound.conserved, fun reader => (hsound.timely reader).2, fun hpending => ?_⟩
  refine ⟨fun counter => ?_, fun histogram index => ?_, fun histogram => ?_⟩
  · rw [hsound.settled hpending, hbegun, tally_counter]
    exact UInt64.toNat_ofNat' ..
  · rw [hsound.settled hpending, hbegun, (tally_observe histogram _).1]
    exact UInt64.toNat_ofNat' ..
  · rw [hsound.settled hpending, hbegun, (tally_observe histogram _).2]
    exact UInt64.toNat_ofNat' ..

attribute [local instance] Lib.one_neZero in
def sampleRecords : List (Event 1 1) :=
  [.call (.observe .requestDurationSeconds 11000), .callFrom 0 (.add .logEventsTotal 2), .load,
    .snapshot 0, .fetchAddFrom 0, .store, .read 0, .load, .store, .call (.response 503), .fetchAdd]

theorem no_lost_update_sample : ∃ s, run init sampleRecords = some s ∧
    (s.cells (.counter .logEventsTotal)).toNat = 2 ∧
    (s.cells (.counter .responses5xxTotal)).toNat = 1 ∧
    (s.cells (.bucket .requestDurationSeconds 1)).toNat = 1 ∧
    (s.cells (.sumNs .requestDurationSeconds)).toNat = 11000 := by
  have hrun : run init sampleRecords = some _ := rfl
  obtain ⟨hcounters, hbuckets, hsums⟩ := (no_lost_update hrun).2.2 rfl
  exact ⟨_, hrun, hcounters .logEventsTotal, hcounters .responses5xxTotal,
    hbuckets .requestDurationSeconds 1, hsums .requestDurationSeconds⟩

end Zhtps.Metrics
