import Zhtps.Worker.Batch

/-!
The sends that empty a batch: what one send owes the responses, and what a whole run does.
-/

namespace Zhtps.ResponseBatch

open Lib

namespace Storage

variable {batch batch' : Storage} {as : List Appended}

/-! ### The loop of a send -/

theorem Holds.get (h : batch.Holds as) {place : Nat} {a : Appended} (ha : as[place]? = some a) :
    ∃ entry, batch.responses[place]? = some entry ∧
      entry.Keeps batch.bytes batch.metadataStart a (offset as (place + 1)) := by
  have := h.responses.get ha
  rwa [Nat.zero_add] at this

theorem Holds.count (h : batch.Holds as) : batch.count = as.length := h.responses.length

/-- The entry before a response ends where it begins. -/
theorem Holds.start (h : batch.Holds as) {place : Nat} (hplace : place ≤ as.length) :
    batch.start place = offset as place := by
  unfold Storage.start
  cases place with
  | zero => rfl
  | succ before =>
      obtain ⟨entry, hentry, hkeeps⟩ := h.get (List.getElem?_eq_getElem hplace)
      rw [if_neg (Nat.succ_ne_zero before), Nat.add_sub_cancel, hentry]
      exact congrArg Stored.stop hkeeps.response

/-- What is logged is what was appended. -/
theorem Holds.complete {stored : Stored} {a : Appended} {stop : Nat}
    (h : stored.Keeps batch.bytes batch.metadataStart a stop) (accessLog : Bool) (now place : Nat) :
    batch.complete accessLog now place stored = a.completion accessLog place now := by
  unfold Storage.complete Storage.record Appended.completion Appended.record
  rw [h.userAgent, h.response]

/-- A batch of which `sent` bytes are sent and the responses below `completed` are complete. -/
structure Reached (as : List Appended) (sent completed : Nat) : Prop where
  le : completed ≤ as.length
  covered : offset as completed ≤ sent
  short : completed < as.length → sent < offset as (completed + 1)

theorem completeLoop_dues (h : batch.Holds as) (accessLog : Bool) (previous : Nat) (send : Send)
    (hsent : batch.sent = previous + send.count) :
    ∀ (rest : List Appended) (completed : Nat), as.drop completed = rest →
      completed ≤ as.length → offset as completed ≤ batch.sent →
      (completed < as.length → previous < offset as (completed + 1)) →
      (batch.completeLoop accessLog previous send.now (batch.responses.drop completed)
            completed).2 =
          dues (·.due accessLog previous send) completed (offset as completed) rest ∧
        Reached as batch.sent
          (batch.completeLoop accessLog previous send.now (batch.responses.drop completed)
            completed).1 := by
  intro rest
  induction rest with
  | nil =>
      intro completed hdrop hle hcovered _
      have hall : as.length ≤ completed := List.drop_eq_nil_iff.mp hdrop
      have hnone : batch.responses.drop completed = [] :=
        List.drop_eq_nil_iff.mpr (h.count.le.trans hall)
      rw [hnone]
      exact ⟨rfl, hle, hcovered, fun hlt => absurd hall (Nat.not_le.mpr hlt)⟩
  | cons a rest ih =>
      intro completed hdrop _ hcovered hprevious
      have hlt : completed < as.length := by
        have := congrArg List.length hdrop
        rw [List.length_drop, List.length_cons] at this
        omega
      have ha : as[completed]? = some a := by
        rw [← Nat.add_zero completed, ← List.getElem?_drop, hdrop]
        rfl
      obtain ⟨entry, hentry, hkeeps⟩ := h.get ha
      obtain ⟨hbound, hget⟩ := List.getElem?_eq_some_iff.mp hentry
      have hcons : batch.responses.drop completed =
          entry :: batch.responses.drop (completed + 1) := by
        rw [List.drop_eq_getElem_cons hbound, hget]
      have hnext : offset as (completed + 1) = offset as completed + a.bytes.length :=
        offset_succ ha
      have hfilled : 0 < a.bytes.length := h.filled a (List.mem_of_getElem? ha)
      have hstop : entry.stop = offset as completed + a.bytes.length := by
        rw [hkeeps.response, ← hnext]
      have hstarted : entry.startedNs = a.response.startedNs := by rw [hkeeps.response]
      have hlast := hprevious hlt
      rw [hcons, completeLoop, h.start hlt.le, hstarted, hstop, hsent, dues]
      simp only
      by_cases hshort : previous + send.count < offset as completed + a.bytes.length
      · -- The send ends inside this response, so that those behind it are owed nothing.
        have hrest : dues (·.due accessLog previous send) (completed + 1)
            (offset as completed + a.bytes.length) rest = [] :=
          dues_outside rest _ _ (Or.inr hshort.le) fun x hx =>
            h.filled x (List.mem_of_mem_drop (hdrop ▸ List.mem_cons_of_mem _ hx))
        rw [if_pos hshort, hrest, Appended.due_short hshort, List.append_nil]
        exact ⟨rfl, hlt.le, hsent ▸ hcovered, fun _ => hnext ▸ hshort⟩
      · have hreach : offset as completed + a.bytes.length ≤ previous + send.count :=
          Nat.not_lt.mp hshort
        obtain ⟨hevents, hreached⟩ := ih (completed + 1)
          (by rw [← List.drop_drop, hdrop]; rfl) hlt (by rw [hnext, hsent]; exact hreach)
          fun hmore => by
            have := offset_le as (completed + 1 + 1)
            rw [offset_succ (List.getElem?_eq_getElem hmore)]
            omega
        rw [if_neg hshort, Appended.due_through (hnext ▸ hlast) hreach hfilled, ← hnext,
          ← hevents, Holds.complete hkeeps]
        exact ⟨rfl, hsent ▸ hreached⟩

/-! ### One send, one abort -/

/-- A batch between two sends. -/
structure Underway (batch : Storage) (as : List Appended) (sent : Nat) : Prop where
  holds : batch.Holds as
  sent_eq : batch.sent = sent
  reached : Reached as sent batch.completed
  short : sent < (wire as).length
  sending : batch.sending = true

/-- Sends change nothing of what a batch holds. -/
theorem Holds.sends (h : batch.Holds as) (sent completed : Nat) (sending : Bool) :
    { batch with sent, completed, sending }.Holds as :=
  ⟨h.room, h.inside, h.len, h.wire, h.responses, h.filled⟩

theorem Reached.all {sent completed : Nat} (h : Reached as sent completed)
    (hsent : sent = (wire as).length) : completed = as.length := by
  by_contra hne
  have hlt : completed < as.length := Nat.lt_of_le_of_ne h.le hne
  exact absurd (h.short hlt) (Nat.not_lt.mpr (hsent ▸ offset_le as _))

theorem read_rest (h : batch.Holds as) {sent : Nat} (hsent : sent ≤ batch.len) :
    batch.bytes.read ⟨sent, batch.len - sent⟩ = (wire as).drop sent := by
  have hpart := @Memory.read_part _ batch.bytes ⟨0, batch.len⟩ sent
    (batch.len - sent) (Nat.add_sub_cancel' hsent).le
  rw [Nat.zero_add, h.wire] at hpart
  rw [hpart, List.take_of_length_le (by rw [List.length_drop, h.len])]

/-- A batch that is under way, or freed. -/
def After (as : List Appended) (sent : Nat) : Option Storage → Prop
  | some next => next.Underway as sent
  | none => sent = (wire as).length

/-- What the loop of a send leaves and does.  It reads the batch with the new count of bytes. -/
theorem Underway.loop {previous : Nat} (h : batch.Underway as previous) (accessLog : Bool)
    (send : Send) :
    ({ batch with sent := previous + send.count }.completeLoop accessLog previous send.now
        (batch.responses.drop batch.completed) batch.completed).2 =
      dues (·.due accessLog previous send) 0 0 as ∧
    Reached as (previous + send.count)
      ({ batch with sent := previous + send.count }.completeLoop accessLog previous send.now
        (batch.responses.drop batch.completed) batch.completed).1 := by
  have hholds : { batch with sent := previous + send.count }.Holds as :=
    h.holds.sends _ batch.completed batch.sending
  obtain ⟨hevents, hreached⟩ := completeLoop_dues hholds accessLog previous send
    rfl _ batch.completed rfl h.reached.le
    (h.reached.covered.trans (Nat.le_add_right _ _)) h.reached.short
  have hdone : dues (·.due accessLog previous send) 0 0 (as.take batch.completed) = [] := by
    refine dues_outside _ 0 0 (Or.inl ?_) fun a ha => h.holds.filled a (List.mem_of_mem_take ha)
    rw [Nat.zero_add]
    exact h.reached.covered
  refine ⟨?_, hreached⟩
  rw [dues_split _ as h.reached.le, hdone, List.nil_append]
  exact hevents

/-- A send that fits makes a batch that goes on, or one that is released. -/
theorem Underway.sentBatch {previous : Nat} (h : batch.Underway as previous) (accessLog : Bool)
    {send : Send} (hpos : 0 < send.count) (hle : previous + send.count ≤ (wire as).length) :
    ∃ completed events,
      { batch with sent := previous + send.count }.completeLoop accessLog previous send.now
        (batch.responses.drop batch.completed) batch.completed = (completed, events) ∧
      events = dues (·.due accessLog previous send) 0 0 as ∧
      Reached as (previous + send.count) completed ∧
      batch.sentBatch accessLog send.count send.now =
        if previous + send.count < (wire as).length then
          some (some { batch with sent := previous + send.count, completed, sending := true },
            .bytesSent send.count :: events ++
              [.submit ((ResponseBatch.wire as).drop (previous + send.count))])
        else some (none, .bytesSent send.count :: events ++ [.free]) := by
  have hlen : batch.len = (ResponseBatch.wire as).length := h.holds.len
  have hpositive : ¬(send.count : Int) ≤ 0 := by omega
  have hfits : ¬batch.len - batch.sent < send.count := by rw [h.sent_eq]; omega
  obtain ⟨hevents, hreached⟩ := h.loop accessLog send
  refine ⟨_, _, rfl, hevents, hreached, ?_⟩
  unfold Storage.sentBatch
  rw [if_neg hpositive, Int.toNat_natCast]
  simp only
  rw [if_neg hfits, h.sent_eq]
  by_cases hmore : previous + send.count < batch.len
  · have hqueue : ¬batch.len ≤ previous + send.count := Nat.not_le.mpr hmore
    rw [if_pos hmore, if_pos (hlen ▸ hmore), queueBatch, if_neg hqueue,
      ← read_rest h.holds hmore.le]
    rfl
  · have hall : previous + send.count = (ResponseBatch.wire as).length := by omega
    rw [if_neg hmore, if_neg (hlen ▸ hmore), releaseBatch, if_pos]
    · rfl
    · exact (hreached.all hall).trans h.holds.count.symm

theorem sentBatch_events {previous : Nat} (h : batch.Underway as previous) (accessLog : Bool)
    {send : Send} (hpos : 0 < send.count)
    (hle : previous + send.count ≤ (wire as).length) :
    ∃ next, batch.sentBatch accessLog send.count send.now =
        some (next, sendEvents accessLog as previous send) ∧
      After as (previous + send.count) next := by
  obtain ⟨completed, events, -, rfl, hreached, heq⟩ := h.sentBatch accessLog hpos hle
  rw [heq, sendEvents]
  split
  next hmore => exact ⟨_, rfl, h.holds.sends _ _ _, rfl, hreached, hmore, rfl⟩
  next hall => exact ⟨none, rfl, by show _ = _; omega⟩

/-- Responses whose bytes are all sent are not aborted. -/
theorem dues_covered {now sent : Nat} (xs : List Appended) :
    ∀ place begin, begin + (wire xs).length ≤ sent →
      dues (·.abortion now sent) place begin xs = [] := by
  induction xs with
  | nil => exact fun _ _ _ => rfl
  | cons x xs ih =>
      intro place begin hsent
      rw [wire_cons, List.length_append] at hsent
      have hx : ¬sent < begin + x.bytes.length := by omega
      rw [dues, Appended.abortion, if_neg hx, ih _ _ (by omega)]
      rfl

theorem abortLoop_dues {memory : Memory UInt8} {metadataStart : Nat} {now sent : Nat} :
    ∀ {stored : List Stored} {xs : List Appended} {begin : Nat} (place : Nat),
      Matches memory metadataStart begin stored xs →
      (∀ a, xs.head? = some a → sent < begin + a.bytes.length) →
      abortLoop now stored place = dues (·.abortion now sent) place begin xs
  | [], [], _, _, _, _ => rfl
  | entry :: rest, a :: xs, begin, place, h, hshort => by
      have ha : sent < begin + a.bytes.length := hshort a rfl
      have hstarted : entry.startedNs = a.response.startedNs := by rw [h.1.response]
      rw [abortLoop, dues, Appended.abortion, if_pos ha, hstarted,
        abortLoop_dues (place + 1) h.2 fun _ _ => ha.trans_le (Nat.le_add_right _ _)]
      rfl
  | [], _ :: _, _, _, h, _ => h.elim
  | _ :: _, [], _, _, h, _ => h.elim

theorem abortBatch_events {sent : Nat} (h : batch.Underway as sent) (now : Nat) :
    batch.abortBatch now = some (dues (·.abortion now sent) 0 0 as ++ [.free]) := by
  have hdone : dues (·.abortion now sent) 0 0 (as.take batch.completed) = [] :=
    dues_covered _ 0 0 (by rw [Nat.zero_add]; exact h.reached.covered)
  have hrest : abortLoop now (batch.responses.drop batch.completed) batch.completed =
      dues (·.abortion now sent) batch.completed (offset as batch.completed)
        (as.drop batch.completed) := by
    refine abortLoop_dues _ (Nat.zero_add (offset as _) ▸ h.holds.responses.drop _) ?_
    intro a ha
    rw [List.head?_drop] at ha
    obtain ⟨hlt, -⟩ := List.getElem?_eq_some_iff.mp ha
    rw [← offset_succ ha]
    exact h.reached.short hlt
  have hreleased : { batch with completed := batch.count }.releaseBatch = some .free :=
    if_pos rfl
  unfold abortBatch
  simp only
  rw [hreleased, hrest, dues_split _ as h.reached.le, hdone]
  rfl

end Storage

/-! ### Whole runs -/

def Send.action (send : Send) : Action := .sent send.count send.now

/-- How a run ends: with a send in flight or a freed batch, or with an abort, which a failed send
may have called for. -/
inductive Ending
  | pending
  | aborted (now : Nat)
  | failed (result : Int) (failedNs now : Nat)

namespace Ending

def actions : Ending → List Action
  | .pending => []
  | .aborted now => [.abort now]
  | .failed result failedNs now => [.sent result failedNs, .abort now]

def abort : Ending → Option Nat
  | .pending => none
  | .aborted now => some now
  | .failed _ _ now => some now

/-- A send fails only where there was one to fail. -/
def Possible (len sent : Nat) : Ending → Prop
  | .failed result _ _ => result ≤ 0 ∧ sent < len
  | _ => True

def events (as : List Appended) (sent : Nat) : Ending → List Event
  | .pending => []
  | .aborted now =>
      if sent < (wire as).length then dues (·.abortion now sent) 0 0 as ++ [.free] else []
  | .failed _ _ now => .ioError :: dues (·.abortion now sent) 0 0 as ++ [.free]

end Ending

section Runs

variable {as : List Appended} {accessLog : Bool}

theorem run_sends (sends : List Send) : ∀ {previous : Nat} {s : Outgoing},
    Storage.After as previous s.batch → (∀ send ∈ sends, 0 < send.count) →
    previous + (sends.map Send.count).sum ≤ (wire as).length →
    ∃ s', run (Outgoing.step accessLog) s (sends.map Send.action) = some s' ∧
      Storage.After as (previous + (sends.map Send.count).sum) s'.batch ∧
      s'.history = s.history ++ allEvents accessLog as previous sends := by
  induction sends with
  | nil => exact fun h _ _ => ⟨_, rfl, h, (List.append_nil _).symm⟩
  | cons send rest ih =>
      intro previous s h hpos hsum
      have hsend : 0 < send.count := hpos send List.mem_cons_self
      have hsums : ((send :: rest).map Send.count).sum =
          send.count + (rest.map Send.count).sum := List.sum_cons
      rw [hsums, ← Nat.add_assoc] at hsum ⊢
      cases hbatch : s.batch with
      | none =>
          have hall : previous = (wire as).length := by
                      rwa [hbatch] at h
          omega
      | some batch =>
          have hunderway : batch.Underway as previous := by
                      rwa [hbatch] at h
          obtain ⟨next, heq, hafter⟩ :=
            Storage.sentBatch_events hunderway accessLog hsend (by omega)
          have hstep : s.step accessLog send.action =
              some ⟨next, s.history ++ sendEvents accessLog as previous send⟩ := by
            unfold Outgoing.step Send.action
            simp only [hbatch, Option.bind_some, heq, Option.map_some]
          obtain ⟨s', hrun, hafter', hhistory⟩ :=
            @ih (previous + send.count) ⟨next, _⟩ hafter
              (fun x hx => hpos x (List.mem_cons_of_mem _ hx)) hsum
          refine ⟨s', run_cons.mpr ⟨_, hstep, hrun⟩, hafter', ?_⟩
          rw [hhistory, allEvents, List.append_assoc]

theorem run_ending {sent : Nat} {s : Outgoing} (h : Storage.After as sent s.batch) (ending : Ending)
    (hpossible : ending.Possible (wire as).length sent) :
    ∃ s', run (Outgoing.step accessLog) s ending.actions = some s' ∧
      s'.history = s.history ++ ending.events as sent := by
  have habort : ∀ {batch : Storage} {history : List Event} (now : Nat), batch.Underway as sent →
      Outgoing.step accessLog ⟨some batch, history⟩ (.abort now) =
        some ⟨none, history ++ (dues (·.abortion now sent) 0 0 as ++ [.free])⟩ := by
    intro batch history now hunderway
    show ((batch.abortBatch now).map fun events => (⟨none, history ++ events⟩ : Outgoing)) = _
    rw [Storage.abortBatch_events hunderway]
    rfl
  obtain ⟨current, history⟩ := s
  cases ending with
  | pending => exact ⟨_, rfl, (List.append_nil _).symm⟩
  | aborted now =>
      cases current with
      | none =>
          have hall : sent = (wire as).length := h
          refine ⟨⟨none, history⟩, rfl, ?_⟩
          rw [Ending.events, if_neg (by omega), List.append_nil]
      | some batch =>
          have hunderway : batch.Underway as sent := h
          rw [Ending.events, if_pos hunderway.short]
          exact ⟨_, run_cons.mpr ⟨_, habort now hunderway, rfl⟩, rfl⟩
  | failed result failedNs now =>
      obtain ⟨hresult, hlt⟩ := hpossible
      cases current with
      | none => exact absurd h (Nat.ne_of_lt hlt)
      | some batch =>
          have hfailed : Outgoing.step accessLog ⟨some batch, history⟩ (.sent result failedNs) =
              some ⟨some batch, history ++ [.ioError]⟩ := by
            unfold Outgoing.step Storage.sentBatch
            simp only [Option.bind_some, if_pos hresult, Option.map_some]
          refine ⟨_, run_cons.mpr ⟨_, hfailed, run_cons.mpr ⟨_, habort now h, rfl⟩⟩, ?_⟩
          rw [List.append_assoc]
          rfl

end Runs

/-! ### The events of one response -/

/-- All that happens to a response: its first byte is observed at the send that covers it, and it is
completed, with its record, at the send that covers its last byte; an abort takes it before that. -/
def Appended.life (a : Appended) (accessLog : Bool) (place begin : Nat) (sends : List Send)
    (ending : Ending) : List Event :=
  ((covering begin 0 sends).map fun send =>
    Event.firstByte place (send.now - a.response.startedNs)).toList ++
  match covering (begin + a.bytes.length - 1) 0 sends with
  | some send => a.completion accessLog place send.now
  | none =>
      match ending.abort with
      | some now => [.release place, .aborted place (now - a.response.startedNs)]
      | none => []

@[simp] theorem about_append (place : Nat) (xs ys : List Event) :
    about place (xs ++ ys) = about place xs ++ about place ys := List.filter_append ..

theorem about_self {place : Nat} {events : List Event}
    (h : ∀ e ∈ events, e.place? = some place) : about place events = events := by
  refine List.filter_eq_self.mpr fun e he => ?_
  rw [h e he, beq_self_eq_true]

theorem about_other {place other : Nat} (hne : other ≠ place) {events : List Event}
    (h : ∀ e ∈ events, e.place? = some other) : about place events = [] := by
  refine List.filter_eq_nil_iff.mpr fun e he => ?_
  rw [h e he, beq_iff_eq, Option.some.injEq]
  exact hne

section Places

variable {f : Appended → Nat → Nat → List Event}
  (hf : ∀ a place begin, ∀ e ∈ f a place begin, e.place? = some place)

include hf

theorem about_dues_before {place : Nat} (xs : List Appended) :
    ∀ {from' begin : Nat}, place < from' → about place (dues f from' begin xs) = [] := by
  induction xs with
  | nil => exact fun _ => rfl
  | cons x xs ih =>
      intro from' begin hlt
      rw [dues, about_append, about_other (by omega) (hf x from' begin), ih (by omega)]
      rfl

/-- Of what the responses are owed, one response is owed its own part. -/
theorem about_dues {a : Appended} (xs : List Appended) :
    ∀ (from' begin : Nat) {place : Nat}, xs[place]? = some a →
      about (from' + place) (dues f from' begin xs) =
        f a (from' + place) (begin + offset xs place) := by
  induction xs with
  | nil => exact fun _ _ _ h => nomatch h
  | cons x xs ih =>
      intro from' begin place ha
      cases place with
      | zero =>
          obtain rfl : x = a := Option.some.inj ha
          rw [dues, about_append, Nat.add_zero, about_self (hf x from' begin),
            about_dues_before hf xs (Nat.lt_succ_self from'), List.append_nil]
          rfl
      | succ place =>
          have hoffset : begin + offset (x :: xs) (place + 1) =
              begin + x.bytes.length + offset xs place := by
            simp [offset, Nat.add_assoc]
          have hplace : from' + (place + 1) = from' + 1 + place := by omega
          rw [dues, about_append, about_other (by omega) (hf x from' begin), hplace, ih _ _ ha, hoffset]
          rfl

end Places

theorem Appended.due_place (accessLog : Bool) (previous : Nat) (send : Send) (a : Appended)
    (place begin : Nat) : ∀ e ∈ a.due accessLog previous send place begin,
      e.place? = some place := by
  intro e he
  unfold due completion at he
  simp only [List.mem_append, List.mem_ite_nil_right, List.mem_cons, List.not_mem_nil, or_false]
    at he
  rcases he with ⟨-, rfl⟩ | ⟨-, (rfl | ⟨-, rfl⟩) | rfl⟩ <;> rfl

theorem Appended.abortion_place (now sent : Nat) (a : Appended) (place begin : Nat) :
    ∀ e ∈ a.abortion now sent place begin, e.place? = some place := by
  intro e he
  unfold abortion at he
  simp only [List.mem_ite_nil_right, List.mem_cons, List.not_mem_nil, or_false] at he
  rcases he with ⟨-, rfl | rfl⟩ <;> rfl

theorem covering_before (position : Nat) (sends : List Send) :
    ∀ {previous : Nat}, position < previous → covering position previous sends = none := by
  induction sends with
  | nil => exact fun _ => rfl
  | cons send rest ih =>
      intro previous hlt
      rw [covering, if_neg (by omega)]
      exact ih (by omega)

theorem covering_none (position : Nat) (sends : List Send) :
    ∀ {previous : Nat}, previous ≤ position → (covering position previous sends = none ↔
      previous + (sends.map Send.count).sum ≤ position) := by
  induction sends with
  | nil => exact fun h => ⟨fun _ => h, fun _ => rfl⟩
  | cons send rest ih =>
      intro previous hle
      rw [covering, List.map_cons, List.sum_cons, ← Nat.add_assoc]
      by_cases hlt : position < previous + send.count
      · rw [if_pos ⟨hle, hlt⟩]
        exact ⟨nofun, fun h => by omega⟩
      · rw [if_neg fun h => hlt h.2, ih (by omega)]

/-- Over all sends a response is owed one observation and one completion at most. -/
theorem about_allEvents {as : List Appended} {accessLog : Bool} {place : Nat} {a : Appended}
    (ha : as[place]? = some a) (hfilled : 0 < a.bytes.length) (sends : List Send) :
    ∀ previous, about place (allEvents accessLog as previous sends) =
      ((covering (offset as place) previous sends).map fun send =>
        Event.firstByte place (send.now - a.response.startedNs)).toList ++
      ((covering (offset as place + a.bytes.length - 1) previous sends).map fun send =>
        a.completion accessLog place send.now).getD [] := by
  induction sends with
  | nil => exact fun _ => rfl
  | cons send rest ih =>
      intro previous
      have hone : about place (sendEvents accessLog as previous send) =
          a.due accessLog previous send place (offset as place) := by
        have := about_dues (Appended.due_place accessLog previous send) as 0 0 ha
        rw [Nat.zero_add, Nat.zero_add] at this
        rw [sendEvents, about_append, ← this]
        split <;> simp [about, Event.place?]
      rw [allEvents, about_append, hone, ih, covering, covering, Appended.due]
      by_cases hlast : previous ≤ offset as place + a.bytes.length - 1 ∧
          offset as place + a.bytes.length - 1 < previous + send.count
      · -- The bytes of the response end here, so that nothing of it is left to the other sends.
        rw [covering_before (offset as place) rest (by omega),
          covering_before (offset as place + a.bytes.length - 1) rest hlast.2,
          if_pos hlast]
        split <;> simp
      · by_cases hfirst : previous ≤ offset as place ∧ offset as place < previous + send.count
        · rw [covering_before (offset as place) rest hfirst.2]
          simp [hfirst, hlast]
        · simp [hfirst, hlast]

theorem about_ending {as : List Appended} {place : Nat} {a : Appended} {sent : Nat}
    (ha : as[place]? = some a) (ending : Ending) :
    about place (ending.events as sent) =
      (ending.abort.map fun now => a.abortion now sent place (offset as place)).getD [] := by
  have habort : ∀ now, about place (dues (·.abortion now sent) 0 0 as ++ [.free]) =
      a.abortion now sent place (offset as place) := by
    intro now
    have := about_dues (Appended.abortion_place now sent) as 0 0 ha
    rw [Nat.zero_add, Nat.zero_add] at this
    rw [about_append, this]
    exact List.append_nil _
  cases ending with
  | pending => rfl
  | failed result failedNs now => exact habort now
  | aborted now =>
      rw [Ending.events]
      split
      · exact habort now
      · have hcovered : offset as place + a.bytes.length ≤ (wire as).length :=
          offset_succ ha ▸ offset_le as (place + 1)
        show [] = a.abortion now sent place (offset as place)
        rw [Appended.abortion, if_neg (by omega)]

/-- A batch that was just queued. -/
theorem queueBatch_underway {batch queued : Storage} {submitted : Event} {as : List Appended}
    (h : batch.Holds as) (hsent : batch.sent = 0) (hcompleted : batch.completed = 0)
    (hqueued : batch.queueBatch = some (queued, submitted)) : queued.Underway as 0 := by
  unfold Storage.queueBatch at hqueued
  split at hqueued
  · cases hqueued
  next hlen =>
    obtain ⟨rfl, -⟩ := Prod.mk.injEq .. ▸ Option.some.inj hqueued
    have hshort : 0 < (wire as).length := by
      rw [← h.len]
      omega
    refine ⟨h.sends _ _ _, hsent, ?_, hshort, rfl⟩
    show Storage.Reached as 0 batch.completed
    rw [hcompleted]
    refine ⟨Nat.zero_le _, Nat.le_refl _, fun hlt => ?_⟩
    rw [offset_succ (List.getElem?_eq_getElem hlt)]
    exact Nat.add_pos_right _ (h.filled _ (List.getElem_mem hlt))

/-- For every batch of appended responses and every sequence of sends, the sends and the end of the
run do what they owe, send by send and in the order of the responses: each response is observed and
completed once, at the sends that cover its first and its last byte, or aborted. -/
theorem sentBatch_once {memory : Memory UInt8} {as : List Appended} {batch queued : Storage}
    {submitted : Event} (hbatch : ({ bytes := memory } : Storage).appendAll as = some batch)
    (hqueued : batch.queueBatch = some (queued, submitted)) (accessLog : Bool) (sends : List Send)
    (hpos : ∀ send ∈ sends, 0 < send.count) (hsum : (sends.map Send.count).sum ≤ batch.len)
    (ending : Ending) (hending : ending.Possible batch.len (sends.map Send.count).sum) :
    ∃ s, run (Outgoing.step accessLog) ⟨some queued, []⟩
        (sends.map Send.action ++ ending.actions) = some s ∧
      s.history =
        allEvents accessLog as 0 sends ++ ending.events as (sends.map Send.count).sum ∧
      ∀ place a, as[place]? = some a →
        about place s.history = a.life accessLog place (offset as place) sends ending := by
  obtain ⟨hholds, hsent, hcompleted⟩ :=
    Storage.appendAll_holds as (Storage.holds_empty memory) rfl rfl hbatch
  rw [List.nil_append] at hholds
  rw [hholds.len] at hsum hending
  have hunderway : queued.Underway as 0 :=
    queueBatch_underway hholds hsent hcompleted hqueued
  obtain ⟨mid, hrun, hafter', hhistory⟩ :=
    @run_sends as accessLog sends 0 ⟨some queued, []⟩ hunderway hpos
      ((Nat.zero_add _).symm ▸ hsum)
  rw [Nat.zero_add] at hafter'
  obtain ⟨s, hrun', hhistory'⟩ := @run_ending as accessLog _ mid hafter' ending hending
  rw [hhistory, List.nil_append] at hhistory'
  refine ⟨s, ?_, hhistory', ?_⟩
  · rw [run_append, hrun]
    exact hrun'
  · intro place a ha
    have hfilled : 0 < a.bytes.length := hholds.filled a (List.mem_of_getElem? ha)
    have hnone := covering_none (offset as place + a.bytes.length - 1) sends
      (Nat.zero_le _)
    rw [Nat.zero_add] at hnone
    rw [hhistory', about_append, about_allEvents ha hfilled, about_ending ha, List.append_assoc,
      Appended.life]
    congr 1
    cases hcovering : covering (offset as place + a.bytes.length - 1) 0 sends with
    | none =>
        -- Its last byte is not sent, so that an abort finds it incomplete.
        have hshort : (sends.map Send.count).sum < offset as place + a.bytes.length := by
          have := hnone.mp hcovering
          omega
        cases hend : ending.abort with
        | none => rfl
        | some now => exact if_pos hshort
    | some send =>
        have hsent : ¬(sends.map Send.count).sum < offset as place + a.bytes.length := by
          intro hshort
          rw [hnone.mpr (by omega)] at hcovering
          cases hcovering
        have habort : (ending.abort.map fun now =>
            a.abortion now (sends.map Send.count).sum place (offset as place)).getD [] = [] := by
          cases ending.abort with
          | none => rfl
          | some now => exact if_neg hsent
        rw [habort, List.append_nil]
        rfl

/-- Two responses of eight bytes: one send covers a part of the first one, the next one the rest of
it and two bytes of the second one, and then the connection fails. -/
theorem sentBatch_once_failed :
    let first : Appended :=
      ⟨ascii "FIRST123", { startedNs := 1, bodyBytes := 6, status := 200 }, some (ascii "first")⟩
    let second : Appended :=
      ⟨ascii "SECOND45", { startedNs := 2, bodyBytes := 0, status := 204 }, none⟩
    ∃ batch queued submitted s,
      ({ bytes := ⟨fun _ => 0, [], List.Pairwise.nil⟩ } : Storage).appendAll [first, second] =
          some batch ∧
        batch.queueBatch = some (queued, submitted) ∧
        run (Outgoing.step true) ⟨some queued, []⟩
          ([⟨5, 10⟩, ⟨5, 20⟩].map Send.action ++ (Ending.failed 0 30 40).actions) = some s ∧
        about 0 s.history = [.firstByte 0 9, .completed 0 19,
          .emit 0 ⟨some (ascii "first"), 200, [], 19, 6⟩, .release 0] ∧
        about 1 s.history = [.firstByte 1 18, .release 1, .aborted 1 38] := by
  intro first second
  obtain ⟨s, hrun, -, hplaces⟩ :=
    @sentBatch_once ⟨fun _ => 0, [], List.Pairwise.nil⟩ [first, second] _ _ _
      rfl rfl true [⟨5, 10⟩, ⟨5, 20⟩] (by decide) (by decide) (.failed 0 30 40)
      ⟨by decide, by decide⟩
  exact ⟨_, _, _, s, rfl, rfl, hrun, hplaces 0 first rfl, hplaces 1 second rfl⟩

end Zhtps.ResponseBatch
