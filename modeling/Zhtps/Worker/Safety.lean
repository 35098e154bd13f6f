import Zhtps.Worker.Runs

/-!
What holds in every reachable worker: permits and requests are conserved, a slot outlives its
operations, the slot lists are disjoint, streams are live or cached, and the buffer budget is what
is leased.
-/

namespace Zhtps

namespace Worker

variable {n : Nat} {config : Config} {publicSlots : Nat} {options : Admission.Options} {now : Nat}
  {events : List (Event n)} {w : Worker n}

/-- Connections that hold a permit of a kind. -/
def permits (w : Worker n) (kind : Decision) : Nat :=
  (Finset.univ.filter fun i => (w.slots i).permit = some kind).card

/-- Streams that hold a permit of a kind. -/
def streamPermits (w : Worker n) (kind : Decision) : Nat :=
  ∑ i, (w.slots i).streams.countP fun stream => stream.permit = some kind

/-- Responses of live batches that are not completed. -/
def batched (w : Worker n) : Nat := ∑ i, (w.slots i).batched

/-- Connections whose own request is started and not completed. -/
def requesting (w : Worker n) : Nat :=
  (Finset.univ.filter fun i => (w.slots i).requesting = true).card

def liveStreams (w : Worker n) : Nat := ∑ i, (w.slots i).streams.length

/-- An isolated application, two slots and one stream. -/
def sample : Config :=
  { app := .isolated true
    limits := {}
    full := fun _ => 64
    small := fun _ => 64
    largeBufferBytes := 256
    maxBodyBytes := 64
    maxRequestsPerConnection := 4
    batches := 0
    maxStreams := 1
    maxStreamsPerWorker := 1 }

attribute [local instance] Lib.two_neZero in
/-- A request arrives and its head is given to a hook, which a thread runs. -/
def sampleRun : List (Event 2) :=
  [Event.visit 0 (.accept 7 false false {}), .call {},
    .visit 0 (.complete 0 (.received (.bytes (ascii "GET / HTTP/1.1\r\nHost: a\r\n\r\n"))))] ++
    List.replicate 5 (Event.call { normalized := some (ascii "/") }) ++ [Event.takeTask 0]

theorem sampleRun_runs : ∃ w, (init 2 sample 1 {} 0).run sample sampleRun = some w :=
  Option.isSome_iff_exists.mp (by decide +kernel)

/-- The worker of `sample` speaks HTTP/2 over TLS, two streams at a time. -/
def sampleHttp2 : Config := { sample with tls := true, maxStreams := 2, maxStreamsPerWorker := 2 }

attribute [local instance] Lib.two_neZero in
/-- One stream is reset and destroyed.  The next one gets its storage, and its body is given to a hook
that a thread runs while a receive is pending. -/
def streamsRun : List (Event 2) :=
  [Event.visit 0 (.accept 7 false true {}), .call { tls := .complete [] 0 true }] ++
    [Http2Step.begin 1 500 true, .headComplete 1 false false, .closed 1 8, .drive [{}], .begin 3 501 true,
      .headComplete 3 false false, .body 3 [1, 2, 3] {},
      .drive [{ inlineHead := true, streamsBody := true }],
      .finish false true].map (fun step => Event.call { http2 := step }) ++ [Event.takeTask 0]

/-! ### Closed slots -/

theorem Connection.streamHolds_eq (streams : List Stream) (kind : Decision) :
    Connection.streamHolds streams kind =
      streams.countP fun stream => stream.permit = some kind := by
  induction streams with
  | nil => rfl
  | cons stream streams ih =>
      rw [Connection.streamHolds, List.map_cons, List.sum_cons, List.countP_cons, ← ih]
      by_cases h : stream.permit = some kind <;>
        simp [holds, h, Connection.streamHolds, Nat.add_comm]

/-- A call works on an open slot. -/
theorem Connection.Pre.open_slot {c : Connection} {call : Call} (h : c.Pre config call) :
    c.fd.isSome = true := by
  cases call with
  | processInput => exact h.1.1
  | parseInput => exact h.1.1.1
  | receiveHead => exact h.1.1.1
  | dispatchHead => exact h.1.1.1
  | receiveBody bytes => exact h.1.1.1
  | finishRequest => exact h.1.1.1
  | continueAfterHead => exact h.1.1.1
  | reject status => exact h.1.1
  | respondStatus status close => exact h.1.1
  | startResponse response => exact h.1.1.1
  | queueSend => exact h.1.1
  | aggregate => exact h.1.1.1
  | transmit => exact h.1.1.1
  | queueBatch => exact h.1.1
  | queueReceive => exact h.elim (fun h => h.1.1) fun h => h.2.1.1.1
  | received result => exact h.elim (fun h => h.1.1.1) fun h => h.elim (fun h => h.2.1) fun h => h.2.1.1.1
  | receivedTls result => exact h.1.1
  | sentTls ok => exact h.1.1
  | sent count => exact h.1.1
  | pumpResponseStream => exact h.1.1
  | finishResponse => exact h.1.1.1
  | drainConnection => exact h.1.1.1
  | beginTcpDrain => exact h.2.1.1.1
  | advanceTls => exact h.1.1
  | pumpHttp2 => exact h.1

/-- A free slot is closed: nothing is pending for it and it holds nothing. -/
theorem Consistent.closed (h : w.Consistent config publicSlots) {i : Fin n}
    (hfd : (w.slots i).fd = none) : (w.slots i).Closed := by
  have hdue := h.2.2.1 i
  unfold Due at hdue
  split at hdue
  · rwa [Connection.Rest, hfd] at hdue
  · split at hdue
    · have hopen := Connection.Pre.open_slot hdue
      rw [hfd] at hopen
      cases hopen
    · rwa [Connection.Rest, hfd] at hdue

/-- Without an active connection every slot is closed. -/
theorem Consistent.all_closed (h : w.Consistent config publicSlots)
    (hnone : w.shared.activeSlots = []) (i : Fin n) :
    (w.slots i).fd = none ∧ (w.slots i).Closed := by
  have hfd : (w.slots i).fd = none := by
    cases hfd : (w.slots i).fd with
    | none => rfl
    | some fd =>
        have hmem := (h.1.2.2.2.1.1.2 i.val).mpr ⟨i, rfl, by rw [Open, hfd]; rfl⟩
        rw [hnone] at hmem
        cases hmem
  exact ⟨hfd, h.closed hfd⟩

theorem Connection.Closed.streams {c : Connection} (h : c.Closed) : c.streams = [] := by
  obtain ⟨-, -, -, -, hhttp2, -⟩ := h
  rw [Connection.streams, hhttp2]

theorem Connection.Closed.batched {c : Connection} (h : c.Closed) : c.batched = 0 := by
  obtain ⟨-, -, -, hbatch, -⟩ := h
  rw [Connection.batched, hbatch]

/-- Nobody holds anything without an active connection. -/
theorem Consistent.nothing_held (h : w.Consistent config publicSlots)
    (hnone : w.shared.activeSlots = []) :
    (∀ i, (w.slots i).admits = 0 ∧ (w.slots i).rejects = 0 ∧ (w.slots i).live = 0) := by
  intro i
  obtain ⟨hfd, hclosed⟩ := h.all_closed hnone i
  have hpermit : (w.slots i).permit = none := hclosed.2.2.2.2.2.1
  simp [Connection.admits, Connection.rejects, Connection.live, Connection.requesting, hfd, hpermit,
    hclosed.streams, hclosed.batched, Connection.streamHolds, holds]

/-! ### Permits and requests -/

theorem sum_holds (w : Worker n) (kind : Decision) :
    ∑ i, holds (w.slots i).permit kind = w.permits kind := by
  rw [permits, Finset.card_filter]
  rfl

/-- **Permits.** In every reachable worker the permits taken from admission are those that
connections, live batches and streams hold.  A release always finds one, and none is left once no
connection is active. -/
theorem permits_conserved
    (hrun : (init n config publicSlots options now).run config events = some w) :
    w.shared.admission.active =
        w.permits .admitted + w.batched + w.streamPermits .admitted ∧
      w.shared.admission.rejecting = w.permits .reject + w.streamPermits .reject ∧
      Fault.release ∉ w.shared.faults ∧
      (w.shared.activeSlots = [] →
        w.shared.admission.active = 0 ∧ w.shared.admission.rejecting = 0) := by
  have h := run_consistent hrun
  obtain ⟨⟨hactive, hrejecting, -⟩, hsane, -⟩ := h.1
  refine ⟨?_, ?_, fun hmem => ?_, fun hnone => ?_⟩
  · rw [hactive, streamPermits, batched, ← sum_holds]
    simp only [Connection.admits, Connection.streamHolds_eq, Finset.sum_add_distrib]
  · rw [hrejecting, streamPermits, ← sum_holds]
    simp only [Connection.rejects, Connection.streamHolds_eq, Finset.sum_add_distrib]
  · cases hsane _ hmem
  · have hheld := h.nothing_held hnone
    rw [hactive, hrejecting]
    exact ⟨Finset.sum_eq_zero fun i _ => (hheld i).1, Finset.sum_eq_zero fun i _ => (hheld i).2.1⟩

theorem permits_conserved_sample :
    ∃ w, (init 2 sample 1 {} 0).run sample sampleRun = some w ∧
      w.shared.admission.active = w.permits .admitted + w.batched + w.streamPermits .admitted := by
  obtain ⟨w, hrun⟩ := sampleRun_runs
  exact ⟨w, hrun, (permits_conserved hrun).1⟩

/-- **Requests.** In every reachable worker each request that started is completed, aborted, or
still held by its connection, by a live batch or as a stream. -/
theorem requests_conserved
    (hrun : (init n config publicSlots options now).run config events = some w) :
    w.shared.requestsTotal = w.shared.requestsCompletedTotal + w.shared.requestsAbortedTotal +
        w.requesting + w.batched + w.liveStreams ∧
      (w.shared.activeSlots = [] → w.shared.requestsTotal =
        w.shared.requestsCompletedTotal + w.shared.requestsAbortedTotal) := by
  have h := run_consistent hrun
  obtain ⟨⟨-, -, htotal⟩, -⟩ := h.1
  refine ⟨?_, fun hnone => ?_⟩
  · have hrequesting : ∑ i, (w.slots i).requesting.toNat = w.requesting := by
      rw [requesting, Finset.card_filter]
      refine Finset.sum_congr rfl fun i _ => ?_
      cases (w.slots i).requesting <;> rfl
    rw [htotal, batched, liveStreams, ← hrequesting]
    simp only [Connection.live, Finset.sum_add_distrib]
    omega
  · rw [htotal, Finset.sum_eq_zero fun i _ => (h.nothing_held hnone i).2.2, Nat.add_zero]

theorem requests_conserved_sample :
    ∃ w, (init 2 sample 1 {} 0).run sample sampleRun = some w ∧
      w.shared.requestsTotal = w.shared.requestsCompletedTotal + w.shared.requestsAbortedTotal +
        w.requesting + w.batched + w.liveStreams := by
  obtain ⟨w, hrun⟩ := sampleRun_runs
  exact ⟨w, hrun, (requests_conserved hrun).1⟩

/-! ### The lifetime of a slot -/

/-- Tasks of a slot that `pending` counts: they produce its response or borrow one of its streams. -/
def Executor.counted (executor : Executor) (index : Nat) : Nat :=
  (executor.tasks index).countP fun task => task.loan ≠ .application

theorem Connection.loans_counted {c : Connection} (hlent : ∀ stream ∈ c.streams, stream.Lent)
    (resting : Bool) : (c.loans resting).countP (fun loan => loan ≠ .application) =
      c.responseStreamBusy.toNat + c.busyStreams := by
  have hstreams : ∀ streams : List Stream, (∀ stream ∈ streams, stream.Lent) →
      (streams.filterMap fun stream =>
        stream.lentFor.map fun stage => Loan.stream stream.address stage).countP
          (fun loan => loan ≠ .application) = streams.countP fun stream => stream.busy := by
    intro streams hlent
    induction streams with
    | nil => rfl
    | cons stream streams ih =>
        obtain ⟨hstage, -⟩ := hlent stream List.mem_cons_self
        have ih := ih fun other hmem => hlent other (List.mem_cons_of_mem _ hmem)
        rw [List.countP_cons, ← ih, List.filterMap_cons]
        cases hl : stream.lentFor <;> simp [hl, ← hstage]
  unfold Connection.loans
  rw [List.countP_append, List.countP_append, hstreams c.streams hlent, Cell.busyStreams_eq]
  congr 1
  by_cases hhook : resting = true ∧ c.fd.isSome = true ∧ c.phase = .application <;>
    cases c.responseStreamBusy <;> simp [hhook]

/-- A slot can only be accepted into when it is on its free list. -/
theorem accepts_free (h : w.Consistent config publicSlots) {i : Fin n} {fd : Nat}
    {redirect secured : Bool} {choice : Choice} {next : Worker n}
    (hstep : w.step config (.visit i (.accept fd redirect secured choice)) = some next) :
    (w.slots i).fd = none := by
  simp only [step] at hstep
  split at hstep
  · cases hstep
  · obtain ⟨outcome, hvisit, -⟩ := Option.map_eq_some_iff.mp hstep
    simp only [Cell.visit, Cell.acceptConnection] at hvisit
    split at hvisit
    · cases hvisit
    · rename_i hready
      simp only [not_or, Decidable.not_not] at hready
      obtain ⟨-, -, hpub, hadm, -⟩ := (h.1.cell i).listed
      have hin := List.mem_of_mem_head? hready.2
      unfold Cell.freeList at hin
      split at hin
      · exact (hadm.2.1.mp hin).1
      · exact (hpub.2.1.mp hin).1

/-- **Lifetimes.** In every reachable worker `pending` counts the kernel's operations and the tasks
that borrow the slot.  While it is not zero the slot is on no free list and no connection is
accepted into it.  So operations and tasks belong to the present use of the slot, whatever
`generation` has wrapped around to, and the assertions on completions hold. -/
theorem slot_outlives_operations
    (hrun : (init n config publicSlots options now).run config events = some w) :
    (∀ i, (w.slots i).pending =
        (w.slots i).kernel.length + w.shared.executor.counted i.val) ∧
      (∀ i, (w.slots i).pending ≠ 0 →
        i.val ∉ w.shared.publicFree ∧ i.val ∉ w.shared.adminFree ∧
          ∀ fd redirect secured choice,
            w.step config (.visit i (.accept fd redirect secured choice)) = none) ∧
      (∀ i, ∀ operation ∈ (w.slots i).kernel,
        operation.occupant = (w.slots i).occupant ∧
          operation.generation = (w.slots i).generation ∧ (w.slots i).fd.isSome = true ∧
            0 < (w.slots i).pending) ∧
      (∀ i, ∀ task ∈ w.shared.executor.tasks i.val,
        task.occupant = (w.slots i).occupant ∧ task.generation = (w.slots i).generation) ∧
      Fault.complete ∉ w.shared.faults := by
  have h := run_consistent hrun
  have hbusy : ∀ i, (w.slots i).pending ≠ 0 → (w.slots i).fd ≠ none := fun i hpending hfd =>
    hpending (h.closed hfd).2.1
  refine ⟨fun i => ?_, fun i hpending => ⟨?_, ?_, ?_⟩, fun i operation hmem => ?_,
    fun i task hmem => ?_, fun hmem => ?_⟩
  · have hlent : ∀ stream ∈ (w.slots i).streams, stream.Lent := (h.1.cell i).lent
    have hcounted : w.shared.executor.counted i.val =
        (w.slots i).responseStreamBusy.toNat + (w.slots i).busyStreams := by
      rw [← Connection.loans_counted hlent (w.resting i), ← (h.1.2.2.1.2.1 i).1.countP_eq,
        List.countP_map]
      rfl
    rw [(h.2.1 i).1.1, hcounted, Nat.add_assoc]
  · intro hmem
    obtain ⟨j, hj, hfree, -⟩ := (h.1.2.2.2.1.2.2.1.2 i.val).mp hmem
    exact hbusy i hpending (Fin.ext hj ▸ hfree)
  · intro hmem
    obtain ⟨j, hj, hfree, -⟩ := (h.1.2.2.2.1.2.2.2.1.2 i.val).mp hmem
    exact hbusy i hpending (Fin.ext hj ▸ hfree)
  · intro fd redirect secured choice
    cases hstep : w.step config (.visit i (.accept fd redirect secured choice)) with
    | none => rfl
    | some next => exact absurd (accepts_free h hstep) (hbusy i hpending)
  · obtain ⟨hpending, -, htagged⟩ := (h.2.1 i).1
    have hlength := List.length_pos_of_mem hmem
    have hpositive : 0 < (w.slots i).pending := by omega
    obtain ⟨hgeneration, hoccupant⟩ := htagged operation hmem
    refine ⟨hoccupant, hgeneration, ?_, hpositive⟩
    cases hfd : (w.slots i).fd with
    | none => exact absurd hfd (hbusy i (Nat.ne_of_gt hpositive))
    | some fd => rfl
  · obtain ⟨hgeneration, hoccupant⟩ := (h.1.2.2.1.2.1 i).2 task hmem
    exact ⟨hoccupant, hgeneration⟩
  · cases h.1.2.1 _ hmem

/-- The task of the stream of `streamsRun`. -/
def bodyTask : Task :=
  { index := 0, generation := 1, occupant := 1, stage := .body, stream := some 500 }

/-- The operations and the tasks of the first slot, and the outstanding tasks. -/
theorem streamsRun_runs :
    ∃ w, (init 2 sampleHttp2 1 {} 0).run sampleHttp2 streamsRun = some w ∧
      ((w.slots 0).kernel.length, w.shared.executor.counted 0, w.shared.executor.outstanding) =
        (1, 1, [bodyTask]) :=
  Option.map_eq_some_iff.mp (by decide +kernel)

/-- A receive and a stream's task are outstanding, and both keep the slot. -/
theorem slot_outlives_operations_sample :
    ∃ w, (init 2 sampleHttp2 1 {} 0).run sampleHttp2 streamsRun = some w ∧
      (w.slots 0).kernel.length = 1 ∧ w.shared.executor.counted 0 = 1 ∧
      (w.slots 0).pending = (w.slots 0).kernel.length + w.shared.executor.counted 0 ∧
      0 ∉ w.shared.publicFree ∧
      (∀ fd redirect secured choice,
        w.step sampleHttp2 (.visit 0 (.accept fd redirect secured choice)) = none) ∧
      (∀ operation ∈ (w.slots 0).kernel, operation.occupant = (w.slots 0).occupant) ∧
      ∀ task ∈ w.shared.executor.tasks 0, task.occupant = (w.slots 0).occupant := by
  obtain ⟨w, hrun, hview⟩ := streamsRun_runs
  simp only [Prod.mk.injEq] at hview
  obtain ⟨hkernel, hcounted, -⟩ := hview
  obtain ⟨hpending, hkept, hoperations, htasks, -⟩ := slot_outlives_operations hrun
  have hfirst : (w.slots 0).pending =
      (w.slots 0).kernel.length + w.shared.executor.counted 0 := hpending 0
  have hbusy : (w.slots 0).pending ≠ 0 := by
    rw [hfirst, hkernel, hcounted]
    decide
  obtain ⟨hfree, -, hrefused⟩ := hkept 0 hbusy
  exact ⟨w, hrun, hkernel, hcounted, hfirst, hfree, hrefused,
    fun operation hmem => (hoperations 0 operation hmem).1, fun task hmem => (htasks 0 task hmem).1⟩

/-! ### The slot lists -/

/-- Of three memberships exactly one holds. -/
def OneOf (p q r : Prop) : Prop := p ∧ ¬q ∧ ¬r ∨ ¬p ∧ q ∧ ¬r ∨ ¬p ∧ ¬q ∧ r

/-- **Slot lists.** In every reachable worker each slot is on exactly one of the free lists and the
active list, which has no repeats and which `activePosition` inverts.  The idle list is well linked
and has exactly the slots marked as queued: active public ones without a started request. -/
theorem slots_listed
    (hrun : (init n config publicSlots options now).run config events = some w) :
    (∀ i : Fin n, OneOf (i.val ∈ w.shared.publicFree) (i.val ∈ w.shared.adminFree)
        (i.val ∈ w.shared.activeSlots)) ∧
      (w.shared.publicFree.Nodup ∧ w.shared.adminFree.Nodup ∧ w.shared.activeSlots.Nodup) ∧
      (∀ j ∈ w.shared.publicFree ++ w.shared.adminFree ++ w.shared.activeSlots, j < n) ∧
      (∀ position j, w.shared.activeSlots[position]? = some j ↔
        j ∈ w.shared.activeSlots ∧ w.shared.activePosition j = position) ∧
      ∃ list, w.shared.idle.Represents list ∧ ∀ j ∈ list, j ∈ w.shared.activeSlots ∧
        ∃ i : Fin n, i.val = j ∧ (w.slots i).admin = false ∧
          (w.slots i).requestStarted = false := by
  have h := run_consistent hrun
  obtain ⟨⟨hactiveNodup, hactive⟩, ⟨hlocated, -⟩, ⟨hpublicNodup, hpublic⟩, ⟨hadminNodup, hadmin⟩,
    list, hlist, hidle⟩ := h.1.2.2.2.1
  have hopen (i : Fin n) : i.val ∈ w.shared.activeSlots ↔ (w.slots i).fd.isSome = true :=
    (hactive i.val).trans Numbered.self
  have hfree (i : Fin n) : i.val ∈ w.shared.publicFree ↔
      (w.slots i).fd = none ∧ (w.slots i).admin = false := (hpublic i.val).trans Numbered.self
  have hspare (i : Fin n) : i.val ∈ w.shared.adminFree ↔
      (w.slots i).fd = none ∧ (w.slots i).admin = true := (hadmin i.val).trans Numbered.self
  refine ⟨fun i => ?_, ⟨hpublicNodup, hadminNodup, hactiveNodup⟩, fun j hmem => ?_,
    fun position j => ⟨fun hget => ?_, fun ⟨hmem, hposition⟩ => ?_⟩, list, hlist, fun j hmem => ?_⟩
  · rw [OneOf, hopen, hfree, hspare]
    cases (w.slots i).fd <;> cases (w.slots i).admin <;> simp
  · have hnumbered : ∃ property, w.Numbered property j := by
      simp only [List.mem_append] at hmem
      rcases hmem with (hmem | hmem) | hmem
      · exact ⟨_, (hpublic j).mp hmem⟩
      · exact ⟨_, (hadmin j).mp hmem⟩
      · exact ⟨_, (hactive j).mp hmem⟩
    obtain ⟨-, i, rfl, -⟩ := hnumbered
    exact i.isLt
  · have hmem := List.mem_of_getElem? hget
    obtain ⟨hlt, hvalue⟩ := List.getElem?_eq_some_iff.mp hget
    obtain ⟨hlt', hvalue'⟩ := List.getElem?_eq_some_iff.mp (hlocated j hmem)
    exact ⟨hmem, (hactiveNodup.getElem_inj_iff).mp (hvalue'.trans hvalue.symm)⟩
  · rw [← hposition]
    exact hlocated j hmem
  · obtain ⟨i, rfl, hfd, -, hstarted, -, hpublicSlot⟩ := hidle j hmem
    exact ⟨(hopen i).mpr hfd, i, rfl, hpublicSlot, hstarted⟩

theorem slots_listed_sample :
    ∃ w, (init 2 sample 1 {} 0).run sample sampleRun = some w ∧
      ∀ i : Fin 2, OneOf (i.val ∈ w.shared.publicFree) (i.val ∈ w.shared.adminFree)
        (i.val ∈ w.shared.activeSlots) := by
  obtain ⟨w, hrun⟩ := sampleRun_runs
  exact ⟨w, hrun, (slots_listed hrun).1⟩

/-! ### Streams -/

/-- The streams that the sessions of all connections count. -/
def streamCount (w : Worker n) : Nat := ∑ i, (((w.slots i).http2).map Session.count).getD 0

/-- Serial numbers of the streams that are live. -/
def liveSerials (w : Worker n) : List Nat := Lib.gather fun i => (w.slots i).serials

/-- Storage of the streams that are live. -/
def liveAddresses (w : Worker n) : List Nat := Lib.gather fun i => (w.slots i).addresses

theorem Connection.Formed.count {c : Connection} (h : c.Formed config) :
    (c.http2.map Session.count).getD 0 = c.streams.length := by
  unfold Connection.streams
  cases hsession : c.http2 with
  | none => rfl
  | some session => exact (h.2.2.1 session hsession).1

/-- **Streams.** In every reachable worker each stream that began is either live, once, or
destroyed, once, and none was destroyed while a task borrowed it; once no connection is active all
are destroyed.  The worker's count is the sum of the connections' counts, both within their limits;
the storage of a stream is live once or cached, 64 times at most; and no stream was assigned a
second permit. -/
theorem streams_accounted
    (hrun : (init n config publicSlots options now).run config events = some w) :
    ((w.liveSerials ++ w.shared.http2Destroyed).Perm (List.range w.shared.http2Begun) ∧
        (w.shared.activeSlots = [] →
          w.shared.http2Destroyed.Perm (List.range w.shared.http2Begun)) ∧
        Fault.busy ∉ w.shared.faults) ∧
      (w.shared.http2Streams = w.streamCount ∧
        w.shared.http2Streams + w.shared.http2Destroyed.length = w.shared.http2Begun ∧
        w.shared.http2Streams ≤ config.maxStreamsPerWorker ∧
        ∀ i session, (w.slots i).http2 = some session →
          session.count = session.streams.length ∧ session.count ≤ config.maxStreams) ∧
      (w.shared.http2Cached = w.shared.http2Free.length ∧ w.shared.http2Cached ≤ 64 ∧
        (w.liveAddresses ++ w.shared.http2Free).Nodup) ∧
      ∀ i, ∀ stream ∈ (w.slots i).streams, stream.assigned ≤ 1 := by
  have h := run_consistent hrun
  obtain ⟨-, hsane, -, -, ⟨hheap, hnodup, hcached, hlimit, hbegun, hcount, hbound⟩, -, hformed⟩ := h.1
  have hlength : w.liveSerials.length = w.shared.http2Streams := by
    rw [liveSerials, Lib.length_gather, hcount]
    exact Finset.sum_congr rfl fun i _ => List.length_map ..
  refine ⟨⟨hbegun, fun hnone => ?_, fun hmem => ?_⟩, ⟨?_, ?_, hbound, fun i => (hformed i).2.2.1⟩,
    ⟨hcached, hlimit, hheap.nodup_iff.mpr hnodup⟩, fun i stream hmem => ?_⟩
  · have hempty : w.liveSerials = [] := by
      refine List.eq_nil_iff_forall_not_mem.mpr fun serial hmem => ?_
      obtain ⟨i, hin⟩ := Lib.mem_gather.mp hmem
      rw [Connection.serials, (h.all_closed hnone i).2.streams] at hin
      cases hin
    rw [liveSerials] at hempty
    rwa [hempty] at hbegun
  · cases hsane _ hmem
  · rw [hcount, streamCount]
    exact Finset.sum_congr rfl fun i _ => ((hformed i).count).symm
  · have hall := hbegun.length_eq
    rw [List.length_append, List.length_range] at hall
    rw [← hlength]
    exact hall
  · exact ((hformed i).2.1 stream hmem).2.1.1

/-- One of two streams is live, in the storage of the other one. -/
theorem streams_accounted_sample :
    ∃ w, (init 2 sampleHttp2 1 {} 0).run sampleHttp2 streamsRun = some w ∧
      w.liveSerials = [1] ∧ w.shared.http2Destroyed = [0] ∧ w.shared.http2Begun = 2 ∧
      w.liveAddresses = [500] ∧
      (w.liveSerials ++ w.shared.http2Destroyed).Perm (List.range w.shared.http2Begun) ∧
      w.shared.http2Streams = w.streamCount ∧ w.shared.http2Streams = 1 ∧
      (w.liveAddresses ++ w.shared.http2Free).Nodup ∧
      ∀ stream ∈ (w.slots 0).streams, stream.assigned ≤ 1 := by
  have heval : ((init 2 sampleHttp2 1 {} 0).run sampleHttp2 streamsRun).map (fun w =>
      (w.liveSerials, w.shared.http2Destroyed, w.shared.http2Begun, w.liveAddresses)) =
      some ([1], [0], 2, [500]) := by
    decide +kernel
  obtain ⟨w, hrun, hview⟩ := Option.map_eq_some_iff.mp heval
  simp only [Prod.mk.injEq] at hview
  obtain ⟨hlive, hdestroyed, hbegun, hstorage⟩ := hview
  obtain ⟨⟨hperm, -, -⟩, ⟨hcount, hsum, -, -⟩, ⟨-, -, hnodup⟩, hassigned⟩ := streams_accounted hrun
  refine ⟨w, hrun, hlive, hdestroyed, hbegun, hstorage, hperm, hcount, ?_, hnodup, hassigned 0⟩
  rw [hdestroyed, hbegun, List.length_singleton] at hsum
  omega

/-! ### Buffers -/

/-- Bytes of the large buffers that a slot leases. -/
def Connection.leasedBytes (config : Config) (c : Connection) : Nat :=
  (c.largeBuffers.map fun lease => config.full lease.1).sum

/-- The blocks that a pool counts, and the bounds of its cache. -/
def Pooled (pool : BufferPool) (lent : Nat) : Prop :=
  pool.borrowed = lent ∧ pool.cached = pool.free.length ∧ pool.cached ≤ BufferPool.cacheLimit ∧
    (pool.cached ≤ BufferPool.largeCacheLimit ∨ pool.cached * pool.size ≤ BufferPool.cacheBytes)

theorem Pooled.of_valid {pool : BufferPool} {lent : Nat} (h : pool.Valid lent) : Pooled pool lent :=
  ⟨h.2.1, h.1, h.2.2⟩

/-- Without a buffer for its stream a response is refused.  What was set in front of the allocation
stays, and nothing else happens. -/
theorem Cell.sendResponse_fails {choice : Choice} {index : Nat} {response : Response} {head : Bytes}
    {encoder : Response.Encoder} {cell begun next : Cell}
    (hbegun : begun = cell.setConnection (Cell.beginOutput response encoder cell.connection))
    (hproducer : choice.producer = true ∧ cell.connection.applicationInitialized = true)
    (h : Cell.allocateStream config choice response encoder begun = (next, false)) :
    cell.sendResponse config choice index response head encoder =
      (begun, .call (.reject 503)) := by
  obtain ⟨rfl, hstreamed⟩ := Cell.allocateStream_fails h
  unfold Cell.sendResponse
  rw [← hbegun]
  dsimp only
  have hinit : next.connection.applicationInitialized = true := by
    rw [hbegun]
    exact hproducer.2
  rw [if_neg (by simp [hproducer.1, hinit]), h]

/-- What a slot owes is part of the total. -/
theorem le_total (f : Fin n → Nat) (i : Fin n) : f i ≤ ∑ j, f j := by
  rw [Lib.sum_split f i]
  exact Nat.le_add_right _ _

/-- **Buffers.** In every reachable worker the budget is charged with the leased buffers and the
response streams' buffers, and not exceeded; the pools count the blocks lent and cached within the
limits of their caches.  A lease that fails changes nothing, nor does a stream's buffer that is
refused: the response is then given up with nothing set but what stands in front of the allocation.
So what a slot gives back was charged and counted before. -/
theorem buffers_budgeted
    (hrun : (init n config publicSlots options now).run config events = some w) :
    (w.shared.buffers.active = ∑ i, (w.slots i).leasedBytes config +
          ∑ i, (w.slots i).responseStreamBuffer ∧
        w.shared.buffers.active ≤ config.largeBufferBytes) ∧
      ((∀ kind, (w.shared.buffers.pools kind).size = config.full kind ∧
          Pooled (w.shared.buffers.pools kind) (∑ i, (w.slots i).blocks kind)) ∧
        Pooled w.shared.buffers.connections (∑ i, (w.slots i).smallBlock.isSome.toNat)) ∧
      ((∀ i granted address kind next,
          (w.cell i).ensureBuffer config granted address kind = (next, false) → next = w.cell i) ∧
        (∀ i granted size next,
          (w.cell i).allocateResponseStream config granted size = (next, false) →
          next = w.cell i) ∧
        ∀ i choice response head encoder begun next,
          begun = (w.cell i).setConnection (Cell.beginOutput response encoder (w.slots i)) →
          choice.producer = true ∧ (w.slots i).applicationInitialized = true →
          Cell.allocateStream config choice response encoder begun = (next, false) →
          (w.cell i).sendResponse config choice i.val response head encoder =
            (begun, .call (.reject 503))) ∧
      ∀ i, (w.slots i).leasedBytes config + (w.slots i).responseStreamBuffer ≤
          w.shared.buffers.active ∧
        (∀ kind, (w.slots i).blocks kind ≤ (w.shared.buffers.pools kind).borrowed) ∧
        (w.slots i).smallBlock.isSome.toNat ≤ w.shared.buffers.connections.borrowed := by
  have h := run_consistent hrun
  obtain ⟨-, -, -, -, -, ⟨hcharge, hbudget, hpools, hsmall⟩, -⟩ := h.1
  refine ⟨⟨?_, hbudget⟩, ⟨fun kind => ⟨(hpools kind).1, .of_valid (hpools kind).2⟩, .of_valid hsmall⟩,
    ⟨fun i granted address kind next hfails => Cell.ensureBuffer_fails hfails,
      fun i granted size next hfails => Cell.allocateResponseStream_fails hfails,
      fun i choice response head encoder begun next hbegun hproducer hfails =>
        Cell.sendResponse_fails hbegun hproducer hfails⟩, fun i => ⟨?_, fun kind => ?_, ?_⟩⟩
  · rw [hcharge]
    exact Finset.sum_add_distrib
  · rw [hcharge]
    exact le_total (fun j => (w.slots j).charge config) i
  · rw [(hpools kind).2.2.1]
    exact le_total (fun j => (w.slots j).blocks kind) i
  · rw [hsmall.2.1]
    exact le_total (fun j => (w.slots j).smallBlock.isSome.toNat) i

/-- The worker of `sample` with small buffers of its own, and a budget for one large one. -/
def sampleTight : Config := { sample with small := fun _ => 16, largeBufferBytes := 64 }

attribute [local instance] Lib.two_neZero in
/-- A head that outgrows the slot's own buffer of 16 bytes. -/
def growingRun : List (Event 2) :=
  [Event.visit 0 (.accept 7 false false {}), .call {},
    .visit 0 (.complete 0 (.received (.bytes (ascii "GET / HTTP/1.1\r\n"))))] ++
    List.replicate 4 (Event.call { block := 900 }) ++
  [Event.visit 0 (.complete 0 (.received (.bytes (ascii "Host: a\r\n"))))] ++
    List.replicate 4 (Event.call { block := 900 })

/-- The budget is spent on the head's buffer, so that neither another buffer nor a stream gets one;
the attempts change nothing. -/
theorem buffers_budgeted_sample :
    ∃ w, (init 2 sampleTight 1 {} 0).run sampleTight growingRun = some w ∧
      (w.slots 0).largeBuffers = [(.head, 900)] ∧
      w.shared.buffers.active = 64 ∧ w.shared.buffers.active ≤ sampleTight.largeBufferBytes ∧
      Pooled (w.shared.buffers.pools .head) (∑ i, (w.slots i).blocks .head) ∧
      (w.cell 0).ensureBuffer sampleTight true 901 .output = (w.cell 0, false) ∧
      (w.cell 0).allocateResponseStream sampleTight true 32 = (w.cell 0, false) := by
  have heval : ((init 2 sampleTight 1 {} 0).run sampleTight growingRun).map (fun w =>
      ((w.slots 0).largeBuffers, w.shared.buffers.active,
        ((w.cell 0).ensureBuffer sampleTight true 901 .output).2,
        ((w.cell 0).allocateResponseStream sampleTight true 32).2)) =
      some ([(.head, 900)], 64, false, false) := by
    decide +kernel
  obtain ⟨w, hrun, hview⟩ := Option.map_eq_some_iff.mp heval
  simp only [Prod.mk.injEq] at hview
  obtain ⟨hlarge, hactive, hlease, hstream⟩ := hview
  obtain ⟨⟨-, hbudget⟩, ⟨hpools, -⟩, ⟨hleases, hstreams, -⟩, -⟩ := buffers_budgeted hrun
  refine ⟨w, hrun, hlarge, hactive, hbudget, (hpools .head).2, ?_, ?_⟩
  · have hpair : (w.cell 0).ensureBuffer sampleTight true 901 .output =
        (((w.cell 0).ensureBuffer sampleTight true 901 .output).1, false) := Prod.ext rfl hlease
    exact hpair.trans (congrArg (·, false) (hleases 0 true 901 .output _ hpair))
  · have hpair : (w.cell 0).allocateResponseStream sampleTight true 32 =
        (((w.cell 0).allocateResponseStream sampleTight true 32).1, false) := Prod.ext rfl hstream
    exact hpair.trans (congrArg (·, false) (hstreams 0 true 32 _ hpair))

end Worker

end Zhtps
