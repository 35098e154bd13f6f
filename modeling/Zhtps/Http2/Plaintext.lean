import Mathlib.Data.List.Chain
import Zhtps.Http2.Pump
import Zhtps.Lib.Transition

/-!
What OpenSSL accepts from an HTTP/2 connection is what the engine put out: a batch is not touched
before it is written, a write that has to be retried is, with the same bytes and before anything else,
and the TLS shutdown waits for both the batch and the frame that did not fit it.
-/

namespace Zhtps.Pump

open Lib

/-- After a write that was not accepted comes the same one. -/
def Retries (first second : SslCall) : Prop :=
  ∀ bytes, first = .write bytes false → ∃ accepted, second = .write bytes accepted

structure Ordered (s : Session) : Prop where
  size : s.plaintextOutput.length = batchSize
  start_le : s.pendingStart ≤ s.pendingEnd
  end_le : s.pendingEnd ≤ batchSize
  accepted : s.accepted <+: s.frames.flatten
  order : s.closed = none → s.accepted ++ s.plaintext ++ s.pendingFrame = s.frames.flatten
  chain : s.ssl.IsChain Retries
  retry : s.closed = none → s.writeRetry = true →
    s.plaintext ≠ [] ∧ s.ssl.getLast? = some (.write (s.plaintext.take batchSize) false)
  fresh : s.closed = none → s.writeRetry = false → ∀ bytes, s.ssl.getLast? ≠ some (.write bytes false)
  closing : s.closing = true → s.plaintext = [] ∧ s.pendingFrame = [] ∧ s.writeRetry = false ∧
    s.accepted = s.frames.flatten
  shutdown : .shutdown ∈ s.ssl → s.closing = true

variable {s : Session}

theorem ordered_initial (network : Bytes) : Ordered (initial network) where
  size := List.length_replicate
  start_le := Nat.le_refl _
  end_le := Nat.zero_le _
  accepted := List.prefix_rfl
  order _ := by
    have hplaintext : (initial network).plaintext = [] := slice_empty _ (Nat.le_refl 0)
    rw [hplaintext]
    rfl
  chain := .nil
  retry _ h := Bool.noConfusion h
  fresh _ _ _ h := by cases h
  closing h := Bool.noConfusion h
  shutdown h := by cases h

/-- A closed session has no more to put out. -/
theorem ordered_closed (hsize : s.plaintextOutput.length = batchSize)
    (hstart : s.pendingStart ≤ s.pendingEnd) (hend : s.pendingEnd ≤ batchSize)
    (haccepted : s.accepted <+: s.frames.flatten) (hchain : s.ssl.IsChain Retries)
    (hclosing : s.closing = true → s.plaintext = [] ∧ s.pendingFrame = [] ∧ s.writeRetry = false ∧
      s.accepted = s.frames.flatten)
    (hshutdown : .shutdown ∈ s.ssl → s.closing = true) (hclosed : s.closed ≠ none) : Ordered s :=
  ⟨hsize, hstart, hend, haccepted, fun h => absurd h hclosed, hchain, fun h => absurd h hclosed,
    fun h => absurd h hclosed, hclosing, hshutdown⟩

theorem Ordered.forceClose (h : Ordered s) (cause : Cause) : Ordered (s.forceClose cause) :=
  ordered_closed h.size h.start_le h.end_le h.accepted h.chain h.closing h.shutdown
    (Option.some_ne_none cause)

/-- The side of the socket does not touch the plaintext. -/
theorem Ordered.socket (h : Ordered s) {last : Session} (hsame : last = { s with
    incoming := last.incoming
    outgoing := last.outgoing
    outgoingStart := last.outgoingStart
    outgoingEnd := last.outgoingEnd
    receivePending := last.receivePending
    sendPending := last.sendPending
    network := last.network
    operation := last.operation
    result := last.result
    failed := last.failed
    taken := last.taken
    delivered := last.delivered
    submitted := last.submitted }) : Ordered last := by
  rw [hsame]
  exact ⟨h.size, h.start_le, h.end_le, h.accepted, h.order, h.chain, h.retry, h.fresh, h.closing,
    h.shutdown⟩

/-- A call of OpenSSL after one that is not to be retried. -/
theorem chain_append {log : List SslCall} (h : log.IsChain Retries) (call : SslCall)
    (hlast : ∀ bytes, log.getLast? = some (.write bytes false) →
      ∃ accepted, call = .write bytes accepted) : (log ++ [call]).IsChain Retries := by
  refine List.isChain_append.mpr ⟨h, List.isChain_singleton call, fun first hfirst second hsecond => ?_⟩
  obtain rfl : call = second := by simpa using hsecond
  intro bytes hwrite
  rw [hwrite] at hfirst
  exact hlast bytes hfirst

/-! ### The batch -/

/-- Frames went into the batch, and nothing else changed. -/
structure Filling (s : Session) (more : List Bytes) (last : Session) : Prop where
  same : last = { s with
    plaintextOutput := last.plaintextOutput
    pendingFrame := last.pendingFrame
    frames := s.frames ++ more }
  size : last.plaintextOutput.length = batchSize

/-- The batch and the rest of a frame are what they were and the new frames. -/
structure Filled (s : Session) (used : Nat) (more : List Bytes) (last : Session) (stop : Nat) : Prop
    extends Filling s more last where
  stop_le : stop ≤ batchSize
  order : slice last.plaintextOutput 0 stop ++ last.pendingFrame =
    slice s.plaintextOutput 0 used ++ s.pendingFrame ++ more.flatten

theorem Filling.trans {middle last : Session} {first second : List Bytes}
    (h : Filling s first middle) (h' : Filling middle second last) :
    Filling s (first ++ second) last := by
  refine ⟨?_, h'.size⟩
  have hsame := h'.same
  rw [h.same] at hsame
  rw [← List.append_assoc]
  exact hsame

theorem Filled.trans {middle last : Session} {first second : List Bytes} {used stop next : Nat}
    (h : Filled s used first middle stop) (h' : Filled middle stop second last next) :
    Filled s used (first ++ second) last next where
  toFilling := h.toFilling.trans h'.toFilling
  stop_le := h'.stop_le
  order := by rw [h'.order, h.order, List.flatten_append, List.append_assoc]

theorem Filled.refl (hsize : s.plaintextOutput.length = batchSize) {used : Nat}
    (hused : used ≤ batchSize) : Filled s used [] s used where
  same := by rw [List.append_nil]
  size := hsize
  stop_le := hused
  order := by rw [List.flatten_nil, List.append_nil]

theorem nextFrame_spec (hsize : s.plaintextOutput.length = batchSize) {used : Nat}
    (hused : used ≤ batchSize) (frame : Option Bytes) :
    s.nextFrame frame = none ∨
    ∃ next more, s.nextFrame frame = some next ∧ Filled s used more next used := by
  unfold Session.nextFrame
  split_ifs with hpending
  · cases frame with
    | none => exact Or.inl rfl
    | some frame =>
        refine Or.inr ⟨_, [frame], rfl, ⟨⟨rfl, hsize⟩, hused, ?_⟩⟩
        rw [hpending, List.append_nil, List.flatten_singleton]
  · exact Or.inr ⟨s, [], rfl, .refl hsize hused⟩

theorem copyFrame_spec (hsize : s.plaintextOutput.length = batchSize) {used : Nat}
    (hused : used ≤ batchSize) : Filled s used [] (s.copyFrame used) (used + s.room used) := by
  have hroom : s.room used ≤ batchSize - used := hsize ▸ Nat.min_le_right ..
  have htake : (s.pendingFrame.take (s.room used)).length = s.room used := by
    rw [List.length_take]
    exact Nat.min_eq_left (Nat.min_le_left ..)
  refine ⟨⟨?_, ?_⟩, by omega, ?_⟩
  · simp [Session.copyFrame]
  · rw [Session.copyFrame, length_copyTo (by omega), hsize]
  · have hcopy := @slice_copyTo s.plaintextOutput (s.pendingFrame.take (s.room used)) used (by omega)
    rw [htake] at hcopy
    rw [Session.copyFrame]
    dsimp only
    rw [hcopy, List.append_assoc, List.take_append_drop, List.flatten_nil, List.append_nil]

/-- The loop of `output` puts frames into the batch as they come. -/
theorem fillBatch_spec (next : Nat → Option Bytes) (fuel : Nat) {used : Nat}
    (hsize : s.plaintextOutput.length = batchSize) (hused : used ≤ batchSize) :
    ∃ more last, (Session.fillBatch next fuel used s = (last, none) ∧ Filling s more last) ∨
      ∃ stop, Session.fillBatch next fuel used s = (last, some stop) ∧
        Filled s used more last stop := by
  induction fuel generalizing s used with
  | zero => exact ⟨[], s, Or.inr ⟨used, rfl, .refl hsize hused⟩⟩
  | succ fuel ih =>
      rcases nextFrame_spec hsize hused (next fuel) with hnone | ⟨middle, more, hsome, hnext⟩
      · refine ⟨[], s, Or.inl ⟨?_, (Filled.refl hsize hused).toFilling⟩⟩
        simp only [Session.fillBatch, hnone]
      · have hcopy := hnext.trans (copyFrame_spec hnext.size hused)
        by_cases hempty : middle.pendingFrame = []
        · exact ⟨more, middle, Or.inr ⟨used, by simp only [Session.fillBatch, hsome, if_pos hempty],
            hnext⟩⟩
        · by_cases hfull : used + middle.room used = middle.plaintextOutput.length
          · refine ⟨more ++ [], _, Or.inr ⟨_, ?_, hcopy⟩⟩
            simp only [Session.fillBatch, hsome, if_neg hempty, if_pos hfull]
          · obtain ⟨others, last, hrest⟩ := ih hcopy.size hcopy.stop_le
            refine ⟨(more ++ []) ++ others, last, ?_⟩
            rcases hrest with ⟨hrun, hfilling⟩ | ⟨stop, hrun, hfilled⟩
            · refine Or.inl ⟨?_, hcopy.toFilling.trans hfilling⟩
              simp only [Session.fillBatch, hsome, if_neg hempty, if_neg hfull, hrun]
            · refine Or.inr ⟨stop, ?_, hcopy.trans hfilled⟩
              simp only [Session.fillBatch, hsome, if_neg hempty, if_neg hfull, hrun]

/-- A new batch follows what was accepted. -/
theorem Ordered.output (h : Ordered s) (hopen : s.closed = none) (hempty : s.plaintext = [])
    (hretry : s.writeRetry = false) (hclosing : s.closing = false) (next : Nat → Option Bytes) :
    Ordered (s.output next) := by
  have horder := h.order hopen
  rw [hempty, List.append_nil] at horder
  have hnever : s.closing = true → False := fun htrue => Bool.noConfusion (hclosing.symm.trans htrue)
  obtain ⟨more, last, hrest⟩ := @fillBatch_spec s next 64 0 h.size (Nat.zero_le _)
  have hgrown : s.accepted <+: (s.frames ++ more).flatten := by
    rw [List.flatten_append]
    exact h.accepted.trans (List.prefix_append ..)
  unfold Session.output
  rcases hrest with ⟨hrun, hfilling⟩ | ⟨stop, hrun, hfilled⟩
  · rw [hrun]
    have hsame := hfilling.same
    rw [hsame]
    exact ordered_closed hfilling.size h.start_le h.end_le hgrown h.chain
      (fun htrue => (hnever htrue).elim) h.shutdown (Option.some_ne_none Cause.failure)
  · rw [hrun]
    have hsame := hfilled.same
    rw [hsame]
    refine ⟨hfilled.size, Nat.zero_le _, hfilled.stop_le, hgrown, fun _ => ?_, h.chain, ?_, ?_,
      fun htrue => (hnever htrue).elim, h.shutdown⟩
    · have hthis := hfilled.order
      rw [slice_empty _ (Nat.le_refl 0), List.nil_append] at hthis
      dsimp only [Session.plaintext]
      rw [List.append_assoc, hthis, List.flatten_append, ← horder, List.append_assoc]
    · intro _ htrue
      exact Bool.noConfusion (hretry.symm.trans htrue)
    · intro _ _
      exact h.fresh hopen hretry

/-! ### Rounds -/

theorem Ordered.readRound (h : Ordered s) (hopen : s.closed = none) (hclosing : s.closing = false)
    (r : Round) : Ordered (s.readRound r).1 := by
  unfold Session.readRound
  split_ifs with hfails hretry
  · exact h.forceClose .failure
  · exact h
  · have hfresh : s.writeRetry = false := by simpa using hretry
    have hchain := chain_append h.chain .read fun bytes hlast =>
      absurd hlast (h.fresh hopen hfresh bytes)
    -- nothing of the plaintext was touched
    have hread : Ordered { s.produce r.readProduced with ssl := s.ssl ++ [.read] } := by
      refine ⟨h.size, h.start_le, h.end_le, h.accepted, h.order, hchain,
        fun _ htrue => absurd htrue hretry, fun _ _ bytes => ?_, h.closing, fun hmem => ?_⟩
      · rw [List.getLast?_concat]
        exact fun heq => SslCall.noConfusion (Option.some.inj heq)
      · exact h.shutdown (by simpa using hmem)
    have hdone (progress : Bool) : Ordered (if Session.plaintext
        { s.produce r.readProduced with ssl := s.ssl ++ [.read] } = [] then
          Session.output { s.produce r.readProduced with ssl := s.ssl ++ [.read] } r.frames
        else { s.produce r.readProduced with ssl := s.ssl ++ [.read] }, progress).1 := by
      dsimp only
      split_ifs with hempty
      · exact hread.output hopen hempty hfresh hclosing r.frames
      · exact hread
    cases r.read with
    | waits => exact hdone false
    | ended => exact hread.forceClose .failure
    | failed => exact hread.forceClose .failure
    | plaintext engineFails =>
        cases engineFails with
        | true => exact hread.forceClose .failure
        | false => exact hdone true

theorem Ordered.plaintext_le (h : Ordered s) : s.plaintext.take batchSize = s.plaintext := by
  refine List.take_of_length_le ?_
  rw [Session.plaintext, length_slice _ (h.size ▸ h.end_le)]
  have := h.end_le
  omega

theorem Ordered.writeRound (h : Ordered s) (hopen : s.closed = none) (r : Round) :
    Ordered (s.writeRound r).1 := by
  have hwhole := h.plaintext_le
  have horder := h.order hopen
  unfold Session.writeRound
  split_ifs with hempty hguarantee
  · exact h
  · exact h
  · -- the same bytes are offered again when a write is to be retried
    have hcall (accepted : Bool) :
        (s.ssl ++ [SslCall.write (s.plaintext.take batchSize) accepted]).IsChain Retries := by
      refine chain_append h.chain _ fun bytes hlast => ?_
      cases hretry : s.writeRetry with
      | false => exact absurd hlast (h.fresh hopen hretry bytes)
      | true =>
          obtain ⟨-, hwrite⟩ := h.retry hopen hretry
          rw [hlast] at hwrite
          obtain ⟨rfl, -⟩ := SslCall.write.inj (Option.some.inj hwrite)
          exact ⟨accepted, rfl⟩
    have hnever : s.closing = true → False := fun htrue => hempty (h.closing htrue).1
    have hshutdown (accepted : Bool)
        (hmem : .shutdown ∈ s.ssl ++ [SslCall.write (s.plaintext.take batchSize) accepted]) :
        s.closing = true := h.shutdown (by simpa using hmem)
    cases r.write with
    | failed => exact h.forceClose .failure
    | retry =>
        refine ⟨h.size, h.start_le, h.end_le, h.accepted, h.order, hcall false, fun _ _ => ?_,
          fun _ hfalse => Bool.noConfusion hfalse, fun htrue => (hnever htrue).elim,
          hshutdown false⟩
        exact ⟨hempty, List.getLast?_concat⟩
    | accepted =>
        have hlength : (s.plaintext.take batchSize).length = s.pendingEnd - s.pendingStart := by
          rw [hwhole, Session.plaintext, length_slice _ (h.size ▸ h.end_le)]
        have hstart := h.start_le
        have hlast : s.pendingStart + (s.plaintext.take batchSize).length = s.pendingEnd := by omega
        have hnone : slice s.plaintextOutput
            (s.pendingStart + (s.plaintext.take batchSize).length) s.pendingEnd = [] :=
          slice_empty _ (Nat.le_of_eq hlast.symm)
        refine ⟨h.size, Nat.le_of_eq hlast, h.end_le, ?_, fun _ => ?_, hcall true,
          fun _ htrue => Bool.noConfusion htrue, fun _ _ bytes => ?_,
          fun htrue => (hnever htrue).elim, hshutdown true⟩
        · dsimp only [Session.produce]
          rw [hwhole, ← horder]
          exact List.prefix_append ..
        · dsimp only [Session.produce, Session.plaintext] at horder hnone hwhole ⊢
          rw [hnone, hwhole, List.append_nil]
          exact horder
        · dsimp only
          rw [List.getLast?_concat]
          exact fun heq => Bool.noConfusion (SslCall.write.inj (Option.some.inj heq)).2

/-- The shutdown calls nothing else of OpenSSL. -/
theorem Ordered.advance (h : Ordered s) (hopen : s.closed = none) (hclosing : s.closing = true)
    (r : Round) : Ordered (s.advance r).1 := by
  obtain ⟨calls, hcalls, hadvanced⟩ := Session.advance_spec s r
  have hsame := hadvanced.same
  rcases hcalls with rfl | rfl
  · rw [List.append_nil] at hsame
    rw [hsame]
    exact h.socket rfl
  · have hretry := (h.closing hclosing).2.2.1
    have hcalled : Ordered { s with ssl := s.ssl ++ [.shutdown] } := by
      refine ⟨h.size, h.start_le, h.end_le, h.accepted, h.order, ?_, fun _ htrue => ?_,
        fun _ _ bytes => ?_, h.closing, fun _ => hclosing⟩
      · exact chain_append h.chain _ fun bytes hlast => absurd hlast (h.fresh hopen hretry bytes)
      · exact Bool.noConfusion (hretry.symm.trans htrue)
      · rw [List.getLast?_concat]
        exact fun heq => SslCall.noConfusion (Option.some.inj heq)
    rw [hsame]
    exact hcalled.socket rfl

theorem Ordered.closeRound (h : Ordered s) (hopen : s.closed = none) (hclosing : s.closing = true)
    (r : Round) : Ordered (s.closeRound r) := by
  have hadvance := h.advance hopen hclosing r
  unfold Session.closeRound
  split_ifs
  · exact h
  · generalize s.advance r = pair at hadvance ⊢
    obtain ⟨last, answer⟩ := pair
    cases answer with
    | error => exact hadvance.forceClose .failure
    | trap => exact hadvance.forceClose .trap
    | receive => exact hadvance
    | complete => exact hadvance.forceClose .complete
    | send bytes =>
        dsimp only
        split_ifs
        · exact hadvance.socket rfl
        · exact hadvance.forceClose .trap

theorem Ordered.feed (h : Ordered s) (r : Round) : Ordered (s.feed r).1 := by
  unfold Session.feed
  split_ifs
  · exact h.socket rfl
  · exact h

theorem Ordered.drainRound (h : Ordered s) (r : Round) : Ordered (s.drainRound r).1 := by
  unfold Session.drainRound
  split_ifs
  · exact h.socket rfl
  · exact h

theorem Ordered.round (h : Ordered s) (hopen : s.closed = none) (r : Round) :
    Ordered (s.round r).1 := by
  have hfeed := h.feed r
  have hfed := (Session.feed_closed s r).trans hopen
  unfold Session.round
  dsimp only
  split_ifs with hclosing hread hwrite
  · exact hfeed.closeRound hfed hclosing r
  · exact hfeed.readRound hfed (by simpa using hclosing) r
  · exact (hfeed.readRound hfed (by simpa using hclosing) r).writeRound (by simpa using hread) r
  · refine Ordered.drainRound (Ordered.writeRound ?_ (by simpa using hread) r) r
    exact hfeed.readRound hfed (by simpa using hclosing) r

/-- The loop of `pumpHttp2`, which may stop after any round. -/
theorem Ordered.rounds (h : Ordered s) (hopen : s.closed = none) (choice : Nat → Round)
    (fuel : Nat) : Ordered (s.rounds choice fuel) := by
  induction fuel generalizing s with
  | zero => exact h
  | succ fuel ih =>
      have hround := h.round hopen (choice fuel)
      have hagain := Session.round_again s (choice fuel)
      unfold Session.rounds
      generalize s.round (choice fuel) = pair at hround hagain ⊢
      obtain ⟨next, again⟩ := pair
      cases again with
      | true => exact ih hround (hagain rfl)
      | false => exact hround

theorem Ordered.submitSend (h : Ordered s) : Ordered s.submitSend := by
  unfold Session.submitSend
  split_ifs
  · exact h.socket rfl
  · exact h

theorem Ordered.submitReceive (h : Ordered s) : Ordered s.submitReceive := by
  unfold Session.submitReceive
  split_ifs
  · exact h.socket rfl
  · exact h

/-- The shutdown begins when all output is with OpenSSL. -/
theorem Ordered.startShutdown (h : Ordered s) (hopen : s.closed = none) (hplaintext : s.plaintext = [])
    (hframe : s.pendingFrame = []) : Ordered s.startShutdown := by
  unfold Session.startShutdown
  split_ifs
  · have horder := h.order hopen
    rw [hplaintext, hframe, List.append_nil, List.append_nil] at horder
    refine ⟨h.size, h.start_le, h.end_le, h.accepted, h.order, h.chain, h.retry, h.fresh,
      fun _ => ⟨hplaintext, hframe, ?_, horder⟩, fun _ => rfl⟩
    cases hretry : s.writeRetry with
    | false => rfl
    | true => exact absurd hplaintext (h.retry hopen hretry).1
  · exact h.forceClose .trap

theorem Ordered.pass (h : Ordered s) (hopen : s.closed = none) (p : Pass) : Ordered (s.pass p).1 := by
  have hrounds := h.rounds hopen p.rounds 64
  unfold Session.pass
  dsimp only
  split_ifs with hexpired hfails hclosed hdone
  · exact h.forceClose .deadline
  · exact h.forceClose .failure
  · exact hrounds
  · obtain ⟨-, -, hplaintext, hframe, -⟩ := hdone
    refine hrounds.submitSend.startShutdown ?_ hplaintext hframe
    rw [Session.submitSend_closed]
    exact Option.not_isSome_iff_eq_none.mp hclosed
  · exact hrounds.submitSend.submitReceive

theorem Ordered.pump (h : Ordered s) (hopen : s.closed = none) (p q : Pass) :
    Ordered (s.pump p q) := by
  have hpass := h.pass hopen p
  unfold Session.pump
  generalize s.pass p = pair at hpass ⊢
  obtain ⟨next, again⟩ := pair
  cases again with
  | false => exact hpass
  | true =>
      dsimp only
      split_ifs with hclosed
      · exact hpass
      · exact hpass.pass (Option.not_isSome_iff_eq_none.mp hclosed) q

/-- An event keeps the output in order. -/
theorem Ordered.step (s : Session) (event : Event) (next : Session) (h : Ordered s)
    (hstep : step s event = some next) : Ordered next := by
  cases event with
  | pump p q =>
      obtain ⟨hopen, rfl⟩ := step_pump hstep
      exact h.pump hopen p q
  | forceClose expired =>
      obtain ⟨-, rfl⟩ := step_forceClose hstep
      exact h.forceClose _
  | sent count p q =>
      obtain ⟨-, -, rfl⟩ := step_sent hstep
      have hsent : Ordered
          { s with sendPending := false, delivered := s.delivered ++ s.submitted.take count } :=
        h.socket rfl
      unfold Session.sent
      dsimp only
      split_ifs with hclosed
      · exact hsent
      · exact hsent.forceClose .failure
      · refine Ordered.pump (hsent.socket rfl) ?_ p q
        exact Option.not_isSome_iff_eq_none.mp hclosed
  | received bytes p q =>
      obtain ⟨-, rfl⟩ := step_received hstep
      have hreceived : Ordered { s with receivePending := false } := h.socket rfl
      unfold Session.received
      dsimp only
      split_ifs with hclosed
      · exact hreceived
      · exact hreceived.forceClose .failure
      · refine Ordered.pump (hreceived.socket rfl) ?_ p q
        exact Option.not_isSome_iff_eq_none.mp hclosed

/-- Along every run OpenSSL accepts the frames of the engine in order: all of them but what waits in
the batch and behind it.  A write is retried with the same bytes, before any other call, and the
shutdown begins when nothing waits. -/
theorem plaintext_in_order (network : Bytes) (events : List Event) (s : Session)
    (h : run step (initial network) events = some s) :
    s.accepted <+: s.frames.flatten ∧
    (s.closed = none → s.accepted ++ s.plaintext ++ s.pendingFrame = s.frames.flatten) ∧
    s.ssl.IsChain Retries ∧
    (.shutdown ∈ s.ssl → s.closing = true) ∧
    (s.closing = true →
      s.plaintext = [] ∧ s.pendingFrame = [] ∧ s.accepted = s.frames.flatten) := by
  have hordered := run_invariant Ordered.step events _ s (ordered_initial network) h
  refine ⟨hordered.accepted, hordered.order, hordered.chain, hordered.shutdown, fun hclosing => ?_⟩
  obtain ⟨hplaintext, hframe, -, haccepted⟩ := hordered.closing hclosing
  exact ⟨hplaintext, hframe, haccepted⟩

/-- One frame comes out, and OpenSSL asks for a retry. -/
def retriedPass : Pass where
  rounds _ := { frames := fun left => if left = 63 then some [1, 2, 3] else some [], write := .retry }

def acceptedPass : Pass where
  rounds _ := { writeProduced := [23, 3, 3] }

theorem plaintext_in_order_retried :
    ∃ s, run step (initial []) [.pump retriedPass retriedPass, .pump acceptedPass acceptedPass] =
        some s ∧
      s.ssl = [.read, .write [1, 2, 3] false, .write [1, 2, 3] true, .read] ∧
      s.accepted <+: s.frames.flatten ∧ s.ssl.IsChain Retries := by
  have hcalls : (run step (initial [])
      [.pump retriedPass retriedPass, .pump acceptedPass acceptedPass]).map (·.ssl) =
        some [.read, .write [1, 2, 3] false, .write [1, 2, 3] true, .read] := by
    decide +kernel
  obtain ⟨s, hrun, hssl⟩ := Option.map_eq_some_iff.mp hcalls
  obtain ⟨hbegins, -, hchain, -⟩ := plaintext_in_order [] _ s hrun
  exact ⟨s, hrun, hssl, hbegins, hchain⟩

end Zhtps.Pump
