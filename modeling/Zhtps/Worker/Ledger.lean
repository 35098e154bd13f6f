import Zhtps.Lib.SwapRemove
import Zhtps.Worker.Contract
import Zhtps.Worker.Flow

/-!
What a worker's shared state owes to one of its slots.

Permits, request counts, executor tasks, stream storage, buffers and list memberships are shared,
but each of them belongs to one slot.  `Ledger` fixes the part of the other slots and says what the
rest must be for this one.  A handler works on one slot, so that it keeps the ledger for every choice
of the others.
-/

namespace Zhtps

/-- A batch whose entries lie within its bytes. -/
def ResponseBatch.Formed (batch : ResponseBatch) : Prop :=
  batch.completed ≤ batch.count ∧ ∀ entry ∈ batch.responses, entry.stop ≤ batch.bytes.length

namespace Worker

/-- What a task of the executor borrows from its slot. -/
inductive Loan
  /-- The request, for a hook. -/
  | application
  /-- The exchange, for the producer of a response stream. -/
  | producer
  /-- One HTTP/2 stream, for one stage. -/
  | stream (address : Nat) (stage : Stage)
  deriving DecidableEq, Repr

def Task.loan (task : Task) : Loan :=
  match task.stream with
  | some address => .stream address task.stage
  | none => if task.stage = .produce then .producer else .application

/-- The accepted tasks of one slot whose completion was not taken yet. -/
def Executor.tasks (executor : Executor) (index : Nat) : List Task :=
  executor.outstanding.filter fun task => task.index == index

/-- Every accepted task is outstanding or applied, once. -/
def Executor.Ticketed (executor : Executor) : Prop :=
  (executor.outstanding.map (fun task => task.ticket) ++ executor.applied).Perm
    (List.range executor.submitted)

namespace Connection

/-- Responses of the live batch that are not completed. -/
def batched (c : Connection) : Nat :=
  match c.batch with
  | none => 0
  | some batch => batch.count - batch.completed

/-- The live HTTP/2 streams. -/
def streams (c : Connection) : List Stream :=
  match c.http2 with
  | none => []
  | some session => session.streams

def streamHolds (streams : List Stream) (kind : Decision) : Nat :=
  (streams.map fun stream => holds stream.permit kind).sum

/-- Admit permits that the connection, its batch and its streams hold. -/
def admits (c : Connection) : Nat :=
  holds c.permit .admitted + c.batched + streamHolds c.streams .admitted

/-- Reject permits that the connection and its streams hold. -/
def rejects (c : Connection) : Nat :=
  holds c.permit .reject + streamHolds c.streams .reject

/-- The connection's own request is started and not completed. -/
def requesting (c : Connection) : Bool :=
  c.fd.isSome && c.requestStarted && !c.requestCompleted

/-- Requests that started and are neither completed nor aborted. -/
def live (c : Connection) : Nat := c.requesting.toNat + c.batched + c.streams.length

/-- What the slot lends to tasks.  While the slot's own call is executed no hook borrows it. -/
def loans (resting : Bool) (c : Connection) : List Loan :=
  (if resting ∧ c.fd.isSome ∧ c.phase = .application then [.application] else []) ++
    (if c.responseStreamBusy then [.producer] else []) ++
    c.streams.filterMap fun stream => stream.lentFor.map fun stage => .stream stream.address stage

/-- The storage of the live streams. -/
def addresses (c : Connection) : List Nat := c.streams.map fun stream => stream.address

def serials (c : Connection) : List Nat := c.streams.map fun stream => stream.serial

/-- Bytes of the slot's leased buffers and of its response stream's buffer. -/
def charge (config : Config) (c : Connection) : Nat :=
  (c.largeBuffers.map fun lease => config.full lease.1).sum + c.responseStreamBuffer

/-- How many blocks of a kind the slot leases. -/
def blocks (c : Connection) (kind : Buffer) : Nat :=
  c.largeBuffers.countP fun lease => lease.1 == kind

/-- An idle connection waits for its next request. -/
def Idle (c : Connection) : Prop :=
  c.fd.isSome = true ∧ c.phase = .reading ∧ c.requestStarted = false ∧ c.batch = none ∧
    c.admin = false

/-- A response stream's buffer belongs to a public exchange, which frees it. -/
def backed (c : Connection) : Bool :=
  c.responseStreamBuffer == 0 || c.applicationInitialized && !c.admin

/-- The parts of a slot are what their operations leave. -/
def Formed (config : Config) (c : Connection) : Prop :=
  (∀ batch, c.batch = some batch → batch.Formed) ∧
    (∀ stream ∈ c.streams, stream.Lent ∧ stream.Assigned ∧ stream.Metered) ∧
    (∀ session, c.http2 = some session →
      session.count = session.streams.length ∧ session.count ≤ config.maxStreams) ∧
    c.backed = true ∧
    (c.fd = none → c.smallBlock = none ∧ c.responseStreamBuffer = 0) ∧
    (c.admin = true → c.http2 = none ∧ c.responseStreamBusy = false)

/-- No stream will ask for a second permit, and all may go on. -/
def Sounds (c : Connection) : Prop := ∀ stream ∈ c.streams, stream.Sound ∧ stream.Flowing

/-- What a task reads of the connection that it borrows: the request's metadata in the parser, the
body bytes it was given, and the storage behind them. -/
def view (c : Connection) :=
  (c.parser, c.applicationBody, (c.largeBuffers, c.smallBlock), c.lease, c.applicationInitialized,
    c.responseStreamBuffer)

end Connection

/-- The other slots' part of the shared state, and what this slot has lent before a step and must
keep. -/
structure Others where
  admits : Nat
  rejects : Nat
  live : Nat
  tasks : List Task
  /-- All completions; only `finishApplication` takes one. -/
  completions : List Completion
  applied : List Nat
  /-- The kind of this slot. -/
  admin : Bool
  active : Nat → Prop
  publicFree : Nat → Prop
  adminFree : Nat → Prop
  idle : Nat → Prop
  addresses : List Nat
  serials : List Nat
  charge : Nat
  blocks : Buffer → Nat
  /-- The blocks that hold slots' own buffers. -/
  smallBlocks : Nat
  producer : Option Connection := none
  lent : List Stream := []

/-- What was lent is still lent, and unchanged. -/
def Connection.Honors (c : Connection) (others : Others) : Prop :=
  (∀ before, others.producer = some before →
      c.responseStreamBusy = true ∧ c.view = before.view) ∧
    ∀ before ∈ others.lent, ∃ stream ∈ c.streams, stream.busy = true ∧ stream.view = before.view

/-- A duplicate-free list that contains the slot under a condition, and others as given. -/
def Places (index : Nat) (list : List Nat) (here : Prop) (others : Nat → Prop) : Prop :=
  list.Nodup ∧ (index ∈ list ↔ here) ∧ ∀ j, j ≠ index → (j ∈ list ↔ others j)

/-- A linked list that may contain the slot where it is `here`, and others as given. -/
def Waits (index : Nat) (idle : Lib.Linked Nat) (here : Prop) (others : Nat → Prop) : Prop :=
  ∃ list, idle.Represents list ∧ (index ∈ list → here) ∧ ∀ j, j ≠ index → (j ∈ list ↔ others j)

/-- A slot that is not on the list may become anything. -/
theorem Waits.of_not_queued {index : Nat} {idle : Lib.Linked Nat} {here there : Prop}
    {others : Nat → Prop} (h : Waits index idle here others) (hqueued : idle.queued index = false) :
    Waits index idle there others := by
  obtain ⟨list, hlist, -, hothers⟩ := h
  exact ⟨list, hlist, fun hin => absurd hin (hlist.queued_eq_false.mp hqueued), hothers⟩

namespace Cell

def Accounted (others : Others) (cell : Cell) : Prop :=
  cell.shared.admission.active = cell.connection.admits + others.admits ∧
    cell.shared.admission.rejecting = cell.connection.rejects + others.rejects ∧
    cell.shared.requestsTotal = cell.shared.requestsCompletedTotal +
      cell.shared.requestsAbortedTotal + cell.connection.live + others.live

/-- The only assertion that can fail concerns the application's answer. -/
def Sane (cell : Cell) : Prop := ∀ fault ∈ cell.shared.faults, fault = .response

def Loaned (others : Others) (index : Nat) (resting : Bool) (cell : Cell) : Prop :=
  ((cell.shared.executor.outstanding.filter fun task => task.index != index) = others.tasks ∧
      cell.shared.executor.completions = others.completions ∧
      cell.shared.executor.applied = others.applied) ∧
    ((cell.shared.executor.tasks index).map Task.loan).Perm (cell.connection.loans resting) ∧
    (∀ task ∈ cell.shared.executor.tasks index,
      task.generation = cell.connection.generation ∧
        task.occupant = cell.connection.occupant) ∧
    cell.shared.executor.Ticketed

/-- The lists a slot is on; its kind, which never changes, says on which one it is free. -/
def Listed (others : Others) (index : Nat) (cell : Cell) : Prop :=
  Places index cell.shared.activeSlots (cell.connection.fd.isSome = true) others.active ∧
    (Lib.Located cell.shared.activeSlots cell.shared.activePosition ∧
      cell.connection.admin = others.admin) ∧
    Places index cell.shared.publicFree
      (cell.connection.fd = none ∧ cell.connection.admin = false) others.publicFree ∧
    Places index cell.shared.adminFree
      (cell.connection.fd = none ∧ cell.connection.admin = true) others.adminFree ∧
    Waits index cell.shared.idle cell.connection.Idle others.idle

/-- Every stream object is live or cached, and every stream that began is live or destroyed. -/
def Hosted (config : Config) (others : Others) (cell : Cell) : Prop :=
  (cell.connection.addresses ++ others.addresses ++ cell.shared.http2Free).Perm
      cell.shared.http2Heap ∧
    cell.shared.http2Heap.Nodup ∧
    cell.shared.http2Cached = cell.shared.http2Free.length ∧
    cell.shared.http2Cached ≤ 64 ∧
    (cell.connection.serials ++ others.serials ++ cell.shared.http2Destroyed).Perm
      (List.range cell.shared.http2Begun) ∧
    cell.shared.http2Streams = cell.connection.streams.length + others.addresses.length ∧
    cell.shared.http2Streams ≤ config.maxStreamsPerWorker

/-- The budget is charged with what is leased, and the pools count what they lent. -/
def Stocked (config : Config) (others : Others) (cell : Cell) : Prop :=
  cell.shared.buffers.active = cell.connection.charge config + others.charge ∧
    cell.shared.buffers.active ≤ config.largeBufferBytes ∧
    (∀ kind, (cell.shared.buffers.pools kind).size = config.full kind ∧
      (cell.shared.buffers.pools kind).Valid (cell.connection.blocks kind + others.blocks kind)) ∧
    cell.shared.buffers.connections.Valid
      (cell.connection.smallBlock.isSome.toNat + others.smallBlocks)

def Ledger (config : Config) (others : Others) (index : Nat) (resting : Bool) (cell : Cell) :
    Prop :=
  cell.Accounted others ∧ cell.Sane ∧ cell.Loaned others index resting ∧
    cell.Listed others index ∧ cell.Hosted config others ∧ cell.Stocked config others ∧
    cell.connection.Formed config

/-- The ledger of a slot whose streams own their permits. -/
def Settled (config : Config) (others : Others) (index : Nat) (resting : Bool) (cell : Cell) :
    Prop :=
  cell.Ledger config others index resting ∧ cell.connection.Sounds ∧ cell.connection.Honors others

/-- The outcome of a handler keeps the ledger. -/
def Balances (config : Config) (others : Others) (index : Nat) (result : Cell × Next) : Prop :=
  match result.2 with
  | .done => result.1.Settled config others index true
  | .call _ => result.1.Settled config others index false

variable {config : Config} {others : Others} {index : Nat} {resting : Bool} {cell : Cell}

/-! ### The parts of a ledger -/

namespace Ledger

theorem accounted (h : cell.Ledger config others index resting) : cell.Accounted others := h.1

theorem loaned (h : cell.Ledger config others index resting) : cell.Loaned others index resting :=
  h.2.2.1

theorem listed (h : cell.Ledger config others index resting) : cell.Listed others index :=
  h.2.2.2.1

theorem hosted (h : cell.Ledger config others index resting) : cell.Hosted config others :=
  h.2.2.2.2.1

theorem stocked (h : cell.Ledger config others index resting) : cell.Stocked config others :=
  h.2.2.2.2.2.1

theorem formed (h : cell.Ledger config others index resting) : cell.connection.Formed config :=
  h.2.2.2.2.2.2

theorem lent (h : cell.Ledger config others index resting) :
    ∀ stream ∈ cell.connection.streams, stream.Lent :=
  fun stream hmem => (h.formed.2.1 stream hmem).1

/-- What is not idle is not on the idle list. -/
theorem not_idle (h : cell.Ledger config others index resting) (hne : ¬cell.connection.Idle) :
    cell.shared.idle.queued index = false := by
  obtain ⟨list, hlist, hidle, -⟩ := h.listed.2.2.2.2
  exact hlist.queued_eq_false.mpr fun hin => hne (hidle hin)

theorem not_idle_of_started (h : cell.Ledger config others index resting)
    (hs : cell.connection.requestStarted = true) : cell.shared.idle.queued index = false :=
  h.not_idle fun hidle => by simp [hidle.2.2.1] at hs

theorem not_idle_of_phase (h : cell.Ledger config others index resting)
    (hphase : cell.connection.phase ≠ .reading) : cell.shared.idle.queued index = false :=
  h.not_idle fun hidle => hphase hidle.2.1

end Ledger

/-! ### Changes of a connection -/

/-- The fields of a connection that its account is about. -/
def account (c : Connection) :=
  ((c.permit, c.batch, c.http2, c.responseStreamBusy), (c.fd, c.requestStarted, c.requestCompleted),
    (c.generation, c.occupant, c.admin),
    (c.largeBuffers, c.responseStreamBuffer, c.smallBlock, c.backed))

theorem loans_of_account {c d : Connection} (hc : account c = account d) {resting : Bool}
    (hphase : resting = true → c.phase = d.phase) : c.loans resting = d.loans resting := by
  simp only [account, Prod.mk.injEq] at hc
  obtain ⟨⟨-, -, hhttp2, hbusy⟩, ⟨hfd, -⟩, -⟩ := hc
  unfold Connection.loans Connection.streams
  rw [hhttp2, hbusy, hfd]
  cases resting with
  | false => simp
  | true => rw [hphase rfl]

/-- A connection may change in what neither its account, its loans nor the idle list knows. -/
theorem Ledger.change (h : cell.Ledger config others index resting) {c : Connection}
    (hc : account c = account cell.connection)
    (hloans : c.loans resting = cell.connection.loans resting)
    (hwaits : Waits index cell.shared.idle c.Idle others.idle) :
    Ledger config others index resting (cell.setConnection c) := by
  simp only [account, Prod.mk.injEq] at hc
  obtain ⟨⟨hpermit, hbatch, hhttp2, hbusy⟩, ⟨hfd, hs, hcompleted⟩, ⟨hgen, hocc, hadmin⟩, hlarge,
    hbuffer, hsmall, hbacked⟩ := hc
  have hstreams : c.streams = cell.connection.streams := by simp only [Connection.streams, hhttp2]
  have hbatched : c.batched = cell.connection.batched := by simp only [Connection.batched, hbatch]
  obtain ⟨⟨hactive, hrejecting, htotal⟩, hsane, ⟨htasks, hperm, htagged, htickets⟩,
    ⟨hact, hloc, hpub, hadm, -⟩, hhosted, hstocked, hformed⟩ := h
  refine ⟨⟨?_, ?_, ?_⟩, hsane, ⟨htasks, ?_, ?_, htickets⟩,
    ⟨?_, ⟨hloc.1, hadmin.trans hloc.2⟩, ?_, ?_, hwaits⟩, ?_, ?_, ?_⟩
  · simpa only [setConnection, Connection.admits, hbatched, hstreams, hpermit] using hactive
  · simpa only [setConnection, Connection.rejects, hstreams, hpermit] using hrejecting
  · simpa only [setConnection, Connection.live, Connection.requesting, hbatched, hstreams, hfd, hs,
      hcompleted] using htotal
  · simpa only [setConnection, hloans] using hperm
  · simpa only [setConnection, hgen, hocc] using htagged
  · simpa only [setConnection, hfd] using hact
  · simpa only [setConnection, hfd, hadmin] using hpub
  · simpa only [setConnection, hfd, hadmin] using hadm
  · simpa only [setConnection, Hosted, Connection.addresses, Connection.serials, hstreams]
      using hhosted
  · simpa only [setConnection, Stocked, Connection.charge, Connection.blocks, hlarge, hbuffer,
      hsmall] using hstocked
  · simpa only [setConnection, Connection.Formed, hbatch, hstreams, hhttp2, hbacked, hfd, hsmall,
      hbuffer, hadmin, hbusy] using hformed

/-- A connection that is not idle may change in everything else. -/
theorem Ledger.update (h : cell.Ledger config others index false)
    (hidle : cell.shared.idle.queued index = false) {c : Connection}
    (hc : account c = account cell.connection) :
    Ledger config others index false (cell.setConnection c) :=
  h.change hc (loans_of_account hc nofun) (h.listed.2.2.2.2.of_not_queued hidle)

/-- In its phase a connection may change in everything else, idle or not. -/
theorem Ledger.remark (h : cell.Ledger config others index resting) {c : Connection}
    (hc : account c = account cell.connection) (hphase : c.phase = cell.connection.phase) :
    Ledger config others index resting (cell.setConnection c) := by
  refine h.change hc (loans_of_account hc fun _ => hphase) ?_
  have hidle : c.Idle ↔ cell.connection.Idle := by
    simp only [account, Prod.mk.injEq] at hc
    obtain ⟨⟨-, hbatch, -⟩, ⟨hfd, hs, -⟩, ⟨-, -, hadmin⟩, -⟩ := hc
    rw [Connection.Idle, Connection.Idle, hfd, hphase, hs, hbatch, hadmin]
  obtain ⟨list, hlist, hin, hothers⟩ := h.listed.2.2.2.2
  exact ⟨list, hlist, fun hmem => hidle.mpr (hin hmem), hothers⟩

/-- A connection without streams and without a producer has lent nothing. -/
theorem Honors.of_quiet {c d : Connection} (h : c.Honors others)
    (hbusy : c.responseStreamBusy = false) (hc : c.http2 = none) : d.Honors others := by
  refine ⟨fun before hbefore => ?_, fun before hmem => ?_⟩
  · have := (h.1 before hbefore).1
    rw [hbusy] at this
    cases this
  · obtain ⟨stream, hin, -⟩ := h.2 before hmem
    rw [Connection.streams, hc] at hin
    cases hin

theorem Sounds.of_http1 {c : Connection} (hc : c.http2 = none) : c.Sounds := by
  intro stream hmem
  rw [Connection.streams, hc] at hmem
  cases hmem

/-- At the end of its call a slot whose request no hook borrows is at rest. -/
theorem Ledger.rest (h : cell.Ledger config others index false)
    (hphase : cell.connection.phase ≠ .application) : cell.Ledger config others index true := by
  obtain ⟨haccounted, hsane, ⟨htasks, hperm, htagged⟩, hlisted⟩ := h
  refine ⟨haccounted, hsane, ⟨htasks, ?_, htagged⟩, hlisted⟩
  simpa [Connection.loans, hphase] using hperm

/-- A slot that no hook borrows may start a call. -/
theorem Ledger.start (h : cell.Ledger config others index true)
    (hphase : cell.connection.phase ≠ .application) : cell.Ledger config others index false := by
  obtain ⟨haccounted, hsane, ⟨htasks, hperm, htagged⟩, hlisted⟩ := h
  refine ⟨haccounted, hsane, ⟨htasks, ?_, htagged⟩, hlisted⟩
  simpa [Connection.loans, hphase] using hperm

theorem Settled.rest (h : cell.Settled config others index false)
    (hphase : cell.connection.phase ≠ .application) : cell.Settled config others index true :=
  ⟨h.1.rest hphase, h.2⟩

theorem Settled.start (h : cell.Settled config others index true)
    (hphase : cell.connection.phase ≠ .application) : cell.Settled config others index false :=
  ⟨h.1.start hphase, h.2⟩

/-- A connection that is not idle may change in what is neither accounted for nor lent. -/
theorem Settled.alter (h : cell.Settled config others index false)
    (hidle : cell.shared.idle.queued index = false) {c : Connection}
    (hc : account c = account cell.connection) (hhonors : c.Honors others) :
    Settled config others index false (cell.setConnection c) := by
  refine ⟨h.1.update hidle hc, ?_, hhonors⟩
  simp only [account, Prod.mk.injEq] at hc
  intro stream hmem
  refine h.2.1 stream ?_
  simpa only [setConnection, Connection.streams, hc.1.2.2.1] using hmem

theorem Settled.remark (h : cell.Settled config others index resting) {c : Connection}
    (hc : account c = account cell.connection) (hphase : c.phase = cell.connection.phase)
    (hview : c.view = cell.connection.view) :
    Settled config others index resting (cell.setConnection c) := by
  refine ⟨h.1.remark hc hphase, ?_, ?_⟩
  · simp only [account, Prod.mk.injEq] at hc
    intro stream hmem
    refine h.2.1 stream ?_
    simpa only [setConnection, Connection.streams, hc.1.2.2.1] using hmem
  · simp only [account, Prod.mk.injEq] at hc
    obtain ⟨⟨-, -, hhttp2, hbusy⟩, -⟩ := hc
    refine ⟨fun before hbefore => ?_, fun before hmem => ?_⟩
    · obtain ⟨hb, hv⟩ := h.2.2.1 before hbefore
      exact ⟨hbusy.trans hb, hview.trans hv⟩
    · simpa only [setConnection, Connection.streams, hhttp2] using h.2.2.2 before hmem

/-- A connection that has lent nothing may change in everything that is not accounted for. -/
theorem Settled.update (h : cell.Settled config others index false)
    (hidle : cell.shared.idle.queued index = false) (hhttp2 : cell.connection.http2 = none)
    (hbusy : cell.connection.responseStreamBusy = false) {c : Connection}
    (hc : account c = account cell.connection) :
    Settled config others index false (cell.setConnection c) :=
  h.alter hidle hc (Honors.of_quiet h.2.2 hbusy hhttp2)

/-- A task that is accepted joins the tasks of its slot. -/
theorem Loaned.submit (h : cell.Loaned others index resting) {task : Task} {shared : Shared}
    {c : Connection} {next : Bool}
    (hexecutor : shared.executor =
      { cell.shared.executor with
        queued := cell.shared.executor.queued ++ [task]
        submitted := cell.shared.executor.submitted + 1 })
    (hindex : task.index = index) (hticket : task.ticket = cell.shared.executor.submitted)
    (hgen : task.generation = cell.connection.generation)
    (hocc : task.occupant = cell.connection.occupant)
    (hc : c.generation = cell.connection.generation ∧ c.occupant = cell.connection.occupant)
    (hloans : (c.loans next).Perm (task.loan :: cell.connection.loans resting)) :
    Loaned others index next ⟨shared, c⟩ := by
  obtain ⟨htasks, hperm, htagged, htickets⟩ := h
  have hout : shared.executor.outstanding.Perm (task :: cell.shared.executor.outstanding) := by
    rw [hexecutor]
    simp only [Executor.outstanding, List.append_assoc, List.singleton_append]
    exact List.perm_middle
  have hown : (shared.executor.tasks index).Perm (task :: cell.shared.executor.tasks index) := by
    have := hout.filter fun task => task.index == index
    rwa [List.filter_cons_of_pos (by simp [hindex])] at this
  refine ⟨⟨?_, ?_, ?_⟩, ?_, ?_, ?_⟩
  · rw [← htasks.1, hexecutor]
    simp [Executor.outstanding, List.filter_append, hindex]
  · rw [← htasks.2.1, hexecutor]
  · rw [← htasks.2.2, hexecutor]
  · exact (hown.map Task.loan).trans ((hperm.cons _).trans hloans.symm)
  · intro other hmem
    rcases List.mem_cons.mp (hown.mem_iff.mp hmem) with rfl | hmem
    · exact ⟨hgen.trans hc.1.symm, hocc.trans hc.2.symm⟩
    · obtain ⟨hg, ho⟩ := htagged other hmem
      exact ⟨hg.trans hc.1.symm, ho.trans hc.2.symm⟩
  · have hmap := (hout.map fun task => task.ticket).append_right shared.executor.applied
    refine hmap.trans ?_
    rw [hexecutor]
    simp only [List.map_cons, hticket, List.cons_append, List.range_succ]
    exact (List.Perm.cons _ htickets).trans (List.perm_append_singleton _ _).symm

end Cell

end Worker

end Zhtps
