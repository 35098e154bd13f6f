import Zhtps.Worker.Batch.Sends
import Zhtps.Worker.Respond

/-!
The batch that the worker keeps is the contents of one in its 4096 bytes, and the events of a send
are what it does to the state that connections share.
-/

namespace Zhtps.ResponseBatch

open Lib

open Worker (Cell Shared)

def Stored.view (memory : Memory UInt8) (stored : Stored) : Entry where
  status := stored.status
  bodyBytes := stored.bodyBytes
  method := stored.method.take stored.methodLen
  userAgent := stored.userAgent.map memory.read
  stop := stored.stop

/-- The contents of a batch. -/
def Storage.view (batch : Storage) : ResponseBatch where
  bytes := batch.bytes.read ⟨0, batch.len⟩
  metadata := capacity - batch.metadataStart
  responses := batch.responses.map (·.view batch.bytes)
  sent := batch.sent
  completed := batch.completed
  sending := batch.sending
  resumeResponse := batch.resumeResponse

/-- What an event does to what the worker's connections share. -/
def Event.apply (shared : Shared) : Event → Shared
  | .completed _ _ => { shared with requestsCompletedTotal := shared.requestsCompletedTotal + 1 }
  | .release _ => shared.release .admitted
  | .aborted _ _ => { shared with requestsAbortedTotal := shared.requestsAbortedTotal + 1 }
  | .free => { shared with freeBatches := shared.freeBatches + 1 }
  | _ => shared

def entries : Nat → List Appended → List Entry
  | _, [] => []
  | begin, a :: rest =>
      { status := a.response.status
        bodyBytes := a.response.bodyBytes
        method := a.response.method.take a.response.methodLen
        userAgent := a.userAgent
        stop := begin + a.bytes.length } :: entries (begin + a.bytes.length) rest

theorem entries_append (xs ys : List Appended) :
    ∀ begin, entries begin (xs ++ ys) =
      entries begin xs ++ entries (begin + (wire xs).length) ys := by
  induction xs with
  | nil => exact fun begin => rfl
  | cons x xs ih =>
      intro begin
      rw [List.cons_append, entries, entries, ih, wire_cons, List.length_append,
        Nat.add_assoc begin]
      rfl

theorem Matches.view {memory : Memory UInt8} {metadataStart : Nat} :
    ∀ {begin : Nat} {stored : List Stored} {as : List Appended},
      Matches memory metadataStart begin stored as →
      stored.map (·.view memory) = entries begin as
  | _, [], [], _ => rfl
  | begin, entry :: rest, a :: as, h => by
      rw [List.map_cons, h.2.view, entries, Stored.view, h.1.userAgent, h.1.response]
  | _, [], _ :: _, h => h.elim
  | _, _ :: _, [], h => h.elim

/-- The worker's batch is the contents of one that is kept in 4096 bytes. -/
theorem view_append {batch batch' : Storage} {as : List Appended} {a : Appended}
    (h : batch.Holds as) (happend : batch.append a = some batch') :
    batch'.view = batch.view.append a.bytes a.response.status a.response.bodyBytes
      (a.response.method.take a.response.methodLen) a.userAgent := by
  have h' := Storage.append_holds h happend
  obtain ⟨hfits, hafter⟩ := Storage.append_eq_some happend
  have hroom := hfits.room
  have hhead := h.room
  have hinside := h.inside
  unfold Storage.remainingCapacity at hroom
  unfold Storage.view ResponseBatch.append
  rw [h'.responses.view, h'.wire, h.responses.view, h.wire, hafter.sent, hafter.completed,
    hafter.sending, hafter.resumeResponse, hafter.metadataStart, entries_append]
  congr 1
  · exact List.flatMap_append.trans (congrArg _ (List.append_nil _))
  · show _ = capacity - batch.metadataStart + _
    omega
  · rw [List.length_append, Nat.zero_add]
    rfl

theorem completeLoop_view (batch : Storage) (accessLog : Bool) (previous now : Nat)
    (stored : List Stored) : ∀ (completed : Nat) (shared : Shared),
      Cell.completeEntries shared batch.sent (stored.map (·.view batch.bytes)) completed =
        ((batch.completeLoop accessLog previous now stored completed).2.foldl Event.apply shared,
          (batch.completeLoop accessLog previous now stored completed).1) := by
  induction stored with
  | nil => exact fun completed shared => rfl
  | cons entry rest ih =>
      intro completed shared
      have hfirst : ∀ c : Prop, [Decidable c] → (if c then
          [Event.firstByte completed (now - entry.startedNs)] else []).foldl Event.apply shared =
            shared := by
        intro c _
        split <;> rfl
      have hcomplete : (batch.complete accessLog now completed entry).foldl Event.apply shared =
          { shared with requestsCompletedTotal := shared.requestsCompletedTotal + 1 }.release
            .admitted := by
        unfold Storage.complete
        cases accessLog <;> rfl
      rw [List.map_cons, Cell.completeEntries, Storage.completeLoop]
      simp only
      by_cases hshort : batch.sent < entry.stop
      · rw [if_pos hshort, if_pos (show batch.sent < (entry.view batch.bytes).stop from hshort),
          hfirst]
      · rw [if_neg hshort, if_neg (show ¬batch.sent < (entry.view batch.bytes).stop from hshort),
          ih, List.foldl_append, List.foldl_append, hfirst, hcomplete]

theorem abortLoop_view (memory : Memory UInt8) (now : Nat) (stored : List Stored) :
    ∀ (place : Nat) (shared : Shared),
      Cell.abortEntries shared (stored.map (·.view memory)) =
        (Storage.abortLoop now stored place).foldl Event.apply shared := by
  induction stored with
  | nil => exact fun place shared => rfl
  | cons entry rest ih =>
      intro place shared
      have habort : { shared.release .admitted with
            requestsAbortedTotal := shared.requestsAbortedTotal + 1 } =
          Event.apply (shared.release .admitted) (.aborted place (now - entry.startedNs)) := by
        unfold Event.apply Shared.release
        split <;> rfl
      rw [List.map_cons, Cell.abortEntries, Storage.abortLoop, ih (place + 1), habort]
      rfl

/-- The worker's `sentBatch` by what its loop computes. -/
theorem sentBatch_of_entries {batch : ResponseBatch} {count completed : Nat} {cell : Cell}
    {shared : Shared} (h : Cell.completeEntries cell.shared (batch.sent + count)
      (batch.responses.drop batch.completed) batch.completed = (shared, completed)) :
    Cell.sentBatch batch count cell =
      let next := some { batch with sent := batch.sent + count, completed }
      let cell := ({ shared, connection := { cell.connection with batch := next } } : Cell)
      if batch.sent + count < batch.bytes.length then (cell, .call .queueBatch)
      else cell.releaseBatch.afterBatch batch.resumeResponse := by
  unfold Cell.sentBatch
  simp only [h]

/-- A send of the batch in its storage is a send of the worker's batch. -/
theorem sentBatch_view {batch : Storage} {as : List Appended} {previous : Nat}
    (h : batch.Underway as previous) (accessLog : Bool) {send : Send} (hpos : 0 < send.count)
    (hle : previous + send.count ≤ (wire as).length) (cell : Cell) :
    ∃ next events, batch.sentBatch accessLog send.count send.now = some (next, events) ∧
      Cell.sentBatch batch.view send.count cell =
        let cell := ({
          shared := events.foldl Event.apply cell.shared
          connection := { cell.connection with batch := next.map Storage.view } } : Cell)
        if next.isSome then (cell, .call .queueBatch)
        else cell.afterBatch batch.resumeResponse := by
  obtain ⟨completed, events, hloop, -, -, heq⟩ := h.sentBatch accessLog hpos hle
  have hentries := completeLoop_view { batch with sent := previous + send.count } accessLog previous
    send.now (batch.responses.drop batch.completed) batch.completed cell.shared
  rw [List.map_drop, hloop] at hentries
  have hsent : batch.view.sent = previous := h.sent_eq
  have hlen : batch.view.bytes.length = (wire as).length :=
    (Memory.length_read _ _).trans h.holds.len
  have hcell := @sentBatch_of_entries batch.view send.count completed cell
    (events.foldl Event.apply cell.shared) (by
      rw [hsent]
      exact hentries)
  rw [hsent, hlen] at hcell
  rw [hcell, heq]
  by_cases hmore : previous + send.count < (wire as).length
  · have hview : Storage.view { batch with
          sent := previous + send.count
          completed
          sending := true } =
        { batch.view with sent := previous + send.count, completed } := by
      unfold Storage.view
      congr 1
      exact h.sending.symm
    rw [if_pos hmore, if_pos hmore]
    refine ⟨_, _, rfl, ?_⟩
    rw [List.cons_append, List.foldl_cons, List.foldl_append, Option.map_some, hview]
    rfl
  · rw [if_neg hmore, if_neg hmore]
    refine ⟨_, _, rfl, ?_⟩
    rw [List.cons_append, List.foldl_cons, List.foldl_append]
    rfl

theorem abortBatch_view {batch : Storage} (now : Nat) {cell : Cell}
    (hbatch : cell.connection.batch = some batch.view) :
    ∃ events, batch.abortBatch now = some events ∧
      cell.abortBatch = {
        shared := events.foldl Event.apply cell.shared
        connection := { cell.connection with batch := none } } := by
  have hloop := abortLoop_view batch.bytes now (batch.responses.drop batch.completed)
    batch.completed cell.shared
  rw [List.map_drop] at hloop
  have hreleased : { batch with completed := batch.count }.releaseBatch = some .free :=
    if_pos rfl
  refine ⟨Storage.abortLoop now (batch.responses.drop batch.completed) batch.completed ++ [.free],
    ?_, ?_⟩
  · unfold Storage.abortBatch
    simp only
    rw [hreleased, Option.map_some]
  · unfold Cell.abortBatch
    rw [hbatch, List.foldl_append, ← hloop]
    rfl

end Zhtps.ResponseBatch
