import Zhtps.Http2.Pump
import Zhtps.Lib.Transition

/-!
What the socket takes from an HTTP/2 connection is the ciphertext that OpenSSL gave out.  The normal
drain refills the outgoing buffer when all of it is sent; the branch after the TLS shutdown has begun
does not ask, so that there the rest of a short send is lost unless OpenSSL waits for the peer.
-/

namespace Zhtps.Pump

open Lib

/-- The outgoing buffer between OpenSSL and the socket. -/
structure Flowing (s : Session) : Prop where
  size : s.outgoing.length = networkSize
  start_le : s.outgoingStart ≤ s.outgoingEnd
  end_le : s.outgoingEnd ≤ networkSize
  room : s.network.length ≤ networkSize
  pending : s.sendPending = true → s.unsent = s.submitted
  order : s.closed = none → s.delivered ++ s.unsent = s.taken
  sending : s.delivered ++ (if s.sendPending then s.submitted else []) <+: s.taken
  complete : s.closed = some .complete → s.sendPending = false ∧ s.delivered = s.taken
  trap : s.closed ≠ some .trap
  operation : s.closed = none → s.operation = if s.closing then .shutdown else .idle

/-- All of the outgoing buffer is sent. -/
def Session.Sent (s : Session) : Prop := s.outgoingStart = s.outgoingEnd

/-- After the shutdown has begun, what is not sent is with the socket. -/
def Idle (s : Session) : Prop :=
  s.closed = none → s.closing = true → s.sendPending = false → s.Sent

/-- OpenSSL has no ciphertext, and its next call of `SSL_shutdown` gives out none and does not end the
shutdown. -/
def Waiting (s : Session) (r : Round) : Prop :=
  s.network = [] ∧
    (s.failed = true ∨ s.result = false ∧ r.shutdownProduced = [] ∧ r.shutdown ≠ .done)

variable {s : Session}

theorem flowing_initial (network : Bytes) : Flowing (initial network) where
  size := List.length_replicate
  start_le := Nat.le_refl _
  end_le := Nat.zero_le _
  room := List.length_take_le ..
  pending h := Bool.noConfusion h
  order _ := slice_empty _ (Nat.le_refl 0)
  sending := List.prefix_rfl
  complete h := by cases h
  trap h := by cases h
  operation _ := rfl

theorem Session.Sent.unsent (h : s.Sent) : s.unsent = [] := slice_empty _ (Nat.le_of_eq h.symm)

theorem Flowing.length_unsent (h : Flowing s) :
    s.unsent.length = s.outgoingEnd - s.outgoingStart :=
  length_slice _ (h.size ▸ h.end_le)

/-- A connection that is closed otherwise than after the shutdown keeps what the socket has. -/
theorem Flowing.forceClose (h : Flowing s) {cause : Cause} (hcomplete : cause ≠ .complete)
    (htrap : cause ≠ .trap) : Flowing (s.forceClose cause) :=
  ⟨h.size, h.start_le, h.end_le, h.room, h.pending,
    fun hnone => absurd hnone (Option.some_ne_none cause), h.sending,
    fun heq => absurd (Option.some.inj heq) hcomplete, fun heq => htrap (Option.some.inj heq),
    fun hnone => absurd hnone (Option.some_ne_none cause)⟩

/-! ### The engine's side -/

/-- The batch, the engine and OpenSSL went on; the connection may be closed as failed. -/
structure Engined (s last : Session) : Prop where
  same : last = { s with
    plaintextOutput := last.plaintextOutput
    pendingFrame := last.pendingFrame
    pendingStart := last.pendingStart
    pendingEnd := last.pendingEnd
    writeRetry := last.writeRetry
    closed := last.closed
    network := last.network
    frames := last.frames
    accepted := last.accepted
    ssl := last.ssl }
  room : s.network.length ≤ networkSize → last.network.length ≤ networkSize
  closed : last.closed = s.closed ∨ last.closed = some .failure

theorem Engined.refl (s : Session) : Engined s s := ⟨rfl, id, Or.inl rfl⟩

theorem Engined.trans {middle last : Session} (h : Engined s middle) (h' : Engined middle last) :
    Engined s last := by
  refine ⟨?_, fun hle => h'.room (h.room hle), ?_⟩
  · have hsame := h'.same
    rw [h.same] at hsame
    exact hsame
  · rcases h'.closed with heq | heq
    · rw [heq]
      exact h.closed
    · exact Or.inr heq

theorem Engined.fail {last : Session} (h : Engined s last) : Engined s (last.forceClose .failure) :=
  h.trans ⟨rfl, id, Or.inr rfl⟩

theorem fillBatch_engined (next : Nat → Option Bytes) (fuel used : Nat) (s : Session) :
    Engined s (Session.fillBatch next fuel used s).1 := by
  induction fuel generalizing used s with
  | zero => exact .refl s
  | succ fuel ih =>
      rw [Session.fillBatch]
      cases hnext : s.nextFrame (next fuel) with
      | none => exact .refl s
      | some middle =>
          have hmiddle : Engined s middle := by
            unfold Session.nextFrame at hnext
            split_ifs at hnext
            · obtain ⟨frame, -, rfl⟩ := Option.map_eq_some_iff.mp hnext
              exact ⟨rfl, id, Or.inl rfl⟩
            · obtain rfl := Option.some.inj hnext
              exact .refl s
          have hcopied : Engined s (middle.copyFrame used) := hmiddle.trans ⟨rfl, id, Or.inl rfl⟩
          dsimp only
          split_ifs
          · exact hmiddle
          · exact hcopied
          · exact hcopied.trans (ih _ _)

theorem output_engined (s : Session) (next : Nat → Option Bytes) : Engined s (s.output next) := by
  have hfill := fillBatch_engined next 64 0 s
  unfold Session.output
  generalize Session.fillBatch next 64 0 s = pair at hfill ⊢
  obtain ⟨last, used⟩ := pair
  cases used with
  | none => exact hfill.fail
  | some used => exact hfill.trans ⟨rfl, id, Or.inl rfl⟩

theorem readRound_engined (s : Session) (r : Round) : Engined s (s.readRound r).1 := by
  unfold Session.readRound
  split_ifs
  · exact (Engined.refl s).fail
  · exact .refl s
  · have hread : Engined s { s.produce r.readProduced with ssl := s.ssl ++ [.read] } :=
      ⟨rfl, Session.length_produce s r.readProduced, Or.inl rfl⟩
    have hdone (progress : Bool) : Engined s (if Session.plaintext
        { s.produce r.readProduced with ssl := s.ssl ++ [.read] } = [] then
          Session.output { s.produce r.readProduced with ssl := s.ssl ++ [.read] } r.frames
        else { s.produce r.readProduced with ssl := s.ssl ++ [.read] }, progress).1 := by
      dsimp only
      split_ifs
      · exact hread.trans (output_engined _ _)
      · exact hread
    cases r.read with
    | waits => exact hdone false
    | ended => exact hread.fail
    | failed => exact hread.fail
    | plaintext engineFails =>
        cases engineFails with
        | true => exact hread.fail
        | false => exact hdone true

theorem writeRound_engined (s : Session) (r : Round) : Engined s (s.writeRound r).1 := by
  unfold Session.writeRound
  split_ifs
  · exact .refl s
  · exact .refl s
  · cases r.write with
    | failed => exact (Engined.refl s).fail
    | retry => exact ⟨rfl, Session.length_produce s r.writeProduced, Or.inl rfl⟩
    | accepted => exact ⟨rfl, Session.length_produce s r.writeProduced, Or.inl rfl⟩

/-- The engine's side leaves the outgoing buffer alone. -/
theorem Flowing.engined (h : Flowing s) {last : Session} (he : Engined s last) : Flowing last := by
  have hsame := he.same
  have hroom := he.room h.room
  have hclosed := he.closed
  rw [hsame] at hroom hclosed ⊢
  dsimp only at hroom hclosed
  refine ⟨h.size, h.start_le, h.end_le, hroom, h.pending, ?_, h.sending, ?_, ?_, ?_⟩
  all_goals dsimp only
  all_goals rcases hclosed with heq | heq
  all_goals rw [heq]
  · exact h.order
  · exact nofun
  · exact h.complete
  · exact nofun
  · exact h.trap
  · exact nofun
  · exact h.operation
  · exact nofun

/-! ### The socket's side -/

/-- New ciphertext goes to a buffer that is sent. -/
theorem Flowing.refill (h : Flowing s) (hopen : s.closed = none) (hpending : s.sendPending = false)
    (hsent : s.Sent) {bytes : Bytes} (hle : bytes.length ≤ networkSize) :
    Flowing { s with
      outgoing := copyTo s.outgoing 0 bytes
      outgoingStart := 0
      outgoingEnd := bytes.length
      network := s.network.drop bytes.length
      taken := s.taken ++ bytes } := by
  have horder := h.order hopen
  rw [hsent.unsent, List.append_nil] at horder
  have hfits : 0 + bytes.length ≤ s.outgoing.length := by
    rw [Nat.zero_add, h.size]
    exact hle
  refine ⟨(length_copyTo hfits).trans h.size, Nat.zero_le _, hle, ?_, ?_, fun _ => ?_, ?_, ?_, h.trap,
    h.operation⟩
  · rw [List.length_drop]
    exact Nat.le_trans (Nat.sub_le ..) h.room
  · exact fun htrue => Bool.noConfusion (hpending.symm.trans htrue)
  · dsimp only [Session.unsent]
    rw [slice_copyTo_zero, horder]
  · exact h.sending.trans (List.prefix_append ..)
  · intro hcomplete
    cases hopen.symm.trans hcomplete

theorem Flowing.feed (h : Flowing s) (r : Round) : Flowing (s.feed r).1 := by
  unfold Session.feed
  split_ifs
  · exact ⟨h.size, h.start_le, h.end_le, h.room, h.pending, h.order, h.sending, h.complete, h.trap,
      h.operation⟩
  · exact h

theorem Flowing.drainRound (h : Flowing s) (hopen : s.closed = none) (r : Round) :
    Flowing (s.drainRound r).1 := by
  unfold Session.drainRound
  split_ifs with hfree
  · refine h.refill hopen (by simpa using hfree.1) hfree.2 ?_
    exact Nat.le_trans (List.length_take_le' ..) h.room
  · exact h

/-- `SSL_shutdown` and the tests before it. -/
theorem Flowing.advance (h : Flowing s) (hopen : s.closed = none) (r : Round)
    (hnot : (s.advance r).2 ≠ .complete) : Flowing (s.advance r).1 := by
  obtain ⟨calls, -, hadvanced⟩ := Session.advance_spec s r
  have hroom := hadvanced.room h.room
  have hoperation := hadvanced.operation.resolve_left hnot
  have hsame := hadvanced.same
  rw [hsame] at hroom hoperation ⊢
  dsimp only at hroom hoperation
  refine ⟨h.size, h.start_le, h.end_le, hroom, h.pending, h.order, h.sending, h.complete, h.trap,
    fun _ => ?_⟩
  dsimp only
  rw [hoperation]
  exact h.operation hopen

/-- While OpenSSL waits for the peer, it gives out nothing. -/
theorem advance_waiting {r : Round} (hoperation : s.operation = .shutdown) (h : Waiting s r) :
    (s.advance r).2 = .receive ∨ (s.advance r).2 = .error := by
  obtain ⟨hnetwork, hcase⟩ := h
  unfold Session.advance
  rcases hcase with hfailed | ⟨hresult, hproduced, hdone⟩
  · refine Or.inr ?_
    simp [Session.settle, hnetwork, hfailed]
  · cases hfailed : s.failed with
    | true =>
        refine Or.inr ?_
        simp [Session.settle, hnetwork, hfailed]
    | false =>
        cases hanswer : r.shutdown with
        | done => exact absurd hanswer hdone
        | failed =>
            refine Or.inr ?_
            simp [Session.settle, Session.shutdownOnce, Session.produce, hnetwork, hfailed, hresult,
              hoperation, hanswer, hproduced]
        | wantWrite =>
            refine Or.inr ?_
            simp [Session.settle, Session.shutdownOnce, Session.produce, hnetwork, hfailed, hresult,
              hoperation, hanswer, hproduced]
        | wantRead room =>
            cases room with
            | true =>
                refine Or.inl ?_
                simp [Session.settle, Session.shutdownOnce, Session.produce, hnetwork, hfailed,
                  hresult, hoperation, hanswer, hproduced]
            | false =>
                refine Or.inr ?_
                simp [Session.settle, Session.shutdownOnce, Session.produce, hnetwork, hfailed,
                  hresult, hoperation, hanswer, hproduced]

/-- The branch after the shutdown has begun, where nothing is left to send or OpenSSL waits. -/
theorem Flowing.closeRound (h : Flowing s) (hopen : s.closed = none) (hclosing : s.closing = true)
    (r : Round) (hready : s.sendPending = false → s.Sent ∨ Waiting s r) :
    Flowing (s.closeRound r) := by
  have hoperation : s.operation = .shutdown := by
    rw [h.operation hopen, if_pos hclosing]
  unfold Session.closeRound
  split_ifs with hpending
  · exact h
  · have hfree : s.sendPending = false := by simpa using hpending
    have hadvance := h.advance hopen r
    have hwaiting := @advance_waiting s r hoperation
    obtain ⟨calls, -, hspec⟩ := Session.advance_spec s r
    generalize s.advance r = pair at hadvance hwaiting hspec ⊢
    obtain ⟨last, answer⟩ := pair
    have hsame := hspec.same
    dsimp only at hadvance hwaiting hspec hsame ⊢
    cases answer with
    | error => exact (hadvance nofun).forceClose nofun nofun
    | receive => exact hadvance nofun
    | trap =>
        have hidle := hspec.trap rfl
        rw [hoperation] at hidle
        cases hidle
    | complete =>
        have hsent : s.Sent := (hready hfree).resolve_right fun hwait => by
          rcases hwaiting hwait with heq | heq <;> cases heq
        have horder := h.order hopen
        rw [hsent.unsent, List.append_nil] at horder
        have hroom := hspec.room h.room
        rw [hsame] at hroom ⊢
        exact ⟨h.size, h.start_le, h.end_le, hroom, h.pending, nofun, h.sending,
          fun _ => ⟨hfree, horder⟩, nofun, nofun⟩
    | send bytes =>
        have hsent : s.Sent := (hready hfree).resolve_right fun hwait => by
          rcases hwaiting hwait with heq | heq <;> cases heq
        have hlast := hadvance nofun
        have hle : bytes.length ≤ networkSize := by
          rw [hspec.send bytes rfl]
          exact Nat.le_trans (List.length_take_le' ..) hlast.room
        dsimp only
        rw [if_pos (by rw [hlast.size]; exact hle)]
        refine hlast.refill ?_ ?_ ?_ hle
        · rw [hsame]
          exact hopen
        · rw [hsame]
          exact hfree
        · rw [hsame]
          exact hsent

/-! ### Passes -/

theorem feed_eq (s : Session) (r : Round) :
    (s.feed r).1 = { s with incoming := (s.feed r).1.incoming } := by
  unfold Session.feed
  split_ifs <;> rfl

theorem drainRound_closing (s : Session) (r : Round) : (s.drainRound r).1.closing = s.closing := by
  unfold Session.drainRound
  split_ifs <;> rfl

/-- What has to hold before a round, when the shutdown has begun. -/
def Ready (s : Session) (r : Round) : Prop :=
  s.closing = true → s.sendPending = false → s.Sent ∨ Waiting s r

theorem Flowing.round (h : Flowing s) (hopen : s.closed = none) (r : Round) (hready : Ready s r) :
    Flowing (s.round r).1 := by
  have hfeed := h.feed r
  have hfed := (Session.feed_closed s r).trans hopen
  have hstill : Ready (s.feed r).1 r := by
    rw [feed_eq]
    exact hready
  unfold Session.round
  dsimp only
  have hread := hfeed.engined (readRound_engined (s.feed r).1 r)
  have hwritten := hread.engined (writeRound_engined ((s.feed r).1.readRound r).1 r)
  split_ifs with hclosing hreadClosed hwriteClosed
  · exact hfeed.closeRound hfed hclosing r (hstill hclosing)
  · exact hread
  · exact hwritten
  · exact hwritten.drainRound (Option.not_isSome_iff_eq_none.mp hwriteClosed) r

/-- Another round follows only before the shutdown. -/
theorem round_again_closing (s : Session) (r : Round) (h : (s.round r).2 = true) :
    (s.round r).1.closing = false := by
  unfold Session.round at h ⊢
  dsimp only at h ⊢
  split_ifs at h ⊢ with hclosing hread hwrite
  have hfed : (s.feed r).1.closing = false := by simpa using hclosing
  have hengined := (readRound_engined (s.feed r).1 r).trans (writeRound_engined _ r)
  rw [drainRound_closing, hengined.same]
  exact hfed

theorem Flowing.rounds (h : Flowing s) (hopen : s.closed = none) (choice : Nat → Round) (fuel : Nat)
    (hready : Ready s (choice (fuel - 1))) : Flowing (s.rounds choice fuel) := by
  induction fuel generalizing s with
  | zero => exact h
  | succ fuel ih =>
      have hround := h.round hopen (choice fuel) hready
      have hagain := Session.round_again s (choice fuel)
      have hclosing := round_again_closing s (choice fuel)
      unfold Session.rounds
      generalize s.round (choice fuel) = pair at hround hagain hclosing ⊢
      obtain ⟨next, again⟩ := pair
      cases again with
      | true =>
          refine ih hround (hagain rfl) fun htrue => ?_
          exact Bool.noConfusion ((hclosing rfl).symm.trans htrue)
      | false => exact hround

/-- What is left goes to the socket. -/
theorem Flowing.submitSend (h : Flowing s) (hopen : s.closed = none) : Flowing s.submitSend := by
  unfold Session.submitSend
  split_ifs
  · refine ⟨h.size, h.start_le, h.end_le, h.room, fun _ => rfl, h.order, ?_, ?_, h.trap, h.operation⟩
    · dsimp only
      rewrite [if_pos rfl, h.order hopen]
      exact List.prefix_rfl
    · intro hcomplete
      cases hopen.symm.trans hcomplete
  · exact h

theorem submitSend_sent (h : Flowing s) (hpending : s.submitSend.sendPending = false) :
    s.submitSend.Sent := by
  unfold Session.submitSend at hpending ⊢
  split_ifs at hpending ⊢ with hfree
  have hnot : ¬s.outgoingStart < s.outgoingEnd := fun hlt => hfree ⟨by simpa using hpending, hlt⟩
  exact Nat.le_antisymm h.start_le (Nat.le_of_not_lt hnot)

theorem submitReceive_flowing (h : Flowing s) : Flowing s.submitReceive := by
  unfold Session.submitReceive
  split_ifs
  · exact ⟨h.size, h.start_le, h.end_le, h.room, h.pending, h.order, h.sending, h.complete, h.trap,
      h.operation⟩
  · exact h

theorem submitReceive_idle (h : Idle s) : Idle s.submitReceive := by
  unfold Session.submitReceive
  split_ifs
  · exact h
  · exact h

theorem Flowing.startShutdown (h : Flowing s) (hopen : s.closed = none) (hclosing : s.closing = false) :
    Flowing s.startShutdown := by
  have hidle : s.operation = .idle := by
    rw [h.operation hopen, hclosing, if_neg Bool.false_ne_true]
  unfold Session.startShutdown
  rw [if_pos hidle]
  exact ⟨h.size, h.start_le, h.end_le, h.room, h.pending, h.order, h.sending, h.complete, h.trap,
    fun _ => rfl⟩

theorem idle_of_closed {cause : Cause} (h : s.closed = some cause) : Idle s :=
  fun hopen => absurd (hopen.symm.trans h) nofun

theorem Flowing.pass (h : Flowing s) (hopen : s.closed = none) (p : Pass)
    (hready : p.expired = false → p.shutdownFails = false → Ready s (p.rounds 63)) :
    Flowing (s.pass p).1 ∧ Idle (s.pass p).1 := by
  have hrounds (hexpired : ¬p.expired = true) (hfails : ¬p.shutdownFails = true) :
      Flowing (s.rounds p.rounds 64) :=
    h.rounds hopen p.rounds 64 (hready (by simpa using hexpired) (by simpa using hfails))
  unfold Session.pass
  dsimp only
  split_ifs with hexpired hfails hclosed hdone
  · exact ⟨h.forceClose nofun nofun, idle_of_closed rfl⟩
  · exact ⟨h.forceClose nofun nofun, idle_of_closed rfl⟩
  · obtain ⟨cause, hcause⟩ := Option.isSome_iff_exists.mp hclosed
    exact ⟨hrounds hexpired hfails, idle_of_closed hcause⟩
  · have hlast := hrounds hexpired hfails
    have hnone := Option.not_isSome_iff_eq_none.mp hclosed
    obtain ⟨hclosing, hpending, -⟩ := hdone
    refine ⟨(hlast.submitSend hnone).startShutdown ?_ (by simpa using hclosing), fun _ _ _ => ?_⟩
    · rw [Session.submitSend_closed]
      exact hnone
    · have hsent := submitSend_sent hlast (by simpa using hpending)
      unfold Session.startShutdown
      split_ifs
      · exact hsent
      · exact hsent
  · have hlast := hrounds hexpired hfails
    have hnone := Option.not_isSome_iff_eq_none.mp hclosed
    refine ⟨submitReceive_flowing (hlast.submitSend hnone), submitReceive_idle fun _ _ hpending => ?_⟩
    exact submitSend_sent hlast hpending

theorem Flowing.pump (h : Flowing s) (hopen : s.closed = none) (p q : Pass)
    (hready : p.expired = false → p.shutdownFails = false → Ready s (p.rounds 63)) :
    Flowing (s.pump p q) ∧ Idle (s.pump p q) := by
  have hpass := h.pass hopen p hready
  unfold Session.pump
  generalize s.pass p = pair at hpass ⊢
  obtain ⟨next, again⟩ := pair
  cases again with
  | false => exact hpass
  | true =>
      dsimp only
      split_ifs with hclosed
      · exact hpass
      · have hnone := Option.not_isSome_iff_eq_none.mp hclosed
        refine hpass.1.pass hnone q fun _ _ hclosing hpending => Or.inl ?_
        exact hpass.2 hnone hclosing hpending

/-! ### While a send is pending -/

/-- The send that is pending is the same, and so is its buffer. -/
structure Kept (s last : Session) : Prop where
  pending : last.sendPending = true
  outgoing : last.outgoing = s.outgoing
  submitted : last.submitted = s.submitted

theorem Kept.trans {middle last : Session} (h : Kept s middle) (h' : Kept middle last) :
    Kept s last :=
  ⟨h'.pending, h'.outgoing.trans h.outgoing, h'.submitted.trans h.submitted⟩

theorem Engined.kept {last : Session} (h : Engined s last) (hpending : s.sendPending = true) :
    Kept s last := by
  rw [h.same]
  exact ⟨hpending, rfl, rfl⟩

theorem feed_kept (h : s.sendPending = true) (r : Round) : Kept s (s.feed r).1 := by
  rw [feed_eq]
  exact ⟨h, rfl, rfl⟩

theorem drainRound_kept (h : s.sendPending = true) (r : Round) : Kept s (s.drainRound r).1 := by
  unfold Session.drainRound
  rw [if_neg fun hfree => by simp [h] at hfree]
  exact ⟨h, rfl, rfl⟩

theorem round_kept (h : s.sendPending = true) (r : Round) : Kept s (s.round r).1 := by
  have hfeed := feed_kept h r
  have hread := hfeed.trans ((readRound_engined (s.feed r).1 r).kept hfeed.pending)
  have hwritten := hread.trans ((writeRound_engined _ r).kept hread.pending)
  unfold Session.round
  dsimp only
  split_ifs
  · unfold Session.closeRound
    rw [if_pos hfeed.pending]
    exact hfeed
  · exact hread
  · exact hwritten
  · exact hwritten.trans (drainRound_kept hwritten.pending r)

theorem rounds_kept (h : s.sendPending = true) (choice : Nat → Round) (fuel : Nat) :
    Kept s (s.rounds choice fuel) := by
  induction fuel generalizing s with
  | zero => exact ⟨h, rfl, rfl⟩
  | succ fuel ih =>
      have hround := round_kept h (choice fuel)
      unfold Session.rounds
      generalize s.round (choice fuel) = pair at hround ⊢
      obtain ⟨next, again⟩ := pair
      cases again with
      | true => exact hround.trans (ih hround.pending)
      | false => exact hround

/-- The shutdown does not begin while a send is pending. -/
theorem pump_kept (h : s.sendPending = true) (p q : Pass) : Kept s (s.pump p q) := by
  have hrounds := rounds_kept h p.rounds 64
  have hsubmit : (s.rounds p.rounds 64).submitSend = s.rounds p.rounds 64 := by
    unfold Session.submitSend
    exact if_neg fun hfree => by simp [hrounds.pending] at hfree
  have hpass : Kept s (s.pass p).1 ∧ (s.pass p).2 = false := by
    unfold Session.pass
    dsimp only
    rw [hsubmit]
    split_ifs with hexpired hfails hclosed hdone
    · exact ⟨⟨h, rfl, rfl⟩, rfl⟩
    · exact ⟨⟨h, rfl, rfl⟩, rfl⟩
    · exact ⟨hrounds, rfl⟩
    · exact absurd hdone.2.1 (by simp [hrounds.pending])
    · refine ⟨hrounds.trans ?_, rfl⟩
      unfold Session.submitReceive
      split_ifs
      · exact ⟨hrounds.pending, rfl, rfl⟩
      · exact ⟨hrounds.pending, rfl, rfl⟩
  unfold Session.pump
  generalize s.pass p = pair at hpass ⊢
  obtain ⟨next, again⟩ := pair
  obtain ⟨hkept, rfl⟩ := hpass
  exact hkept

theorem step_kept {event : Event} {next : Session} (h : s.sendPending = true)
    (hstep : step s event = some next) (hevent : ∀ count p q, event ≠ .sent count p q) :
    Kept s next := by
  cases event with
  | pump p q =>
      obtain ⟨-, rfl⟩ := step_pump hstep
      exact pump_kept h p q
  | forceClose expired =>
      obtain ⟨-, rfl⟩ := step_forceClose hstep
      exact ⟨h, rfl, rfl⟩
  | sent count p q => exact absurd rfl (hevent count p q)
  | received bytes p q =>
      obtain ⟨-, rfl⟩ := step_received hstep
      unfold Session.received
      dsimp only
      split_ifs
      · exact ⟨h, rfl, rfl⟩
      · exact ⟨h, rfl, rfl⟩
      · have hnext : Kept s { s with receivePending := false, incoming := bytes } := ⟨h, rfl, rfl⟩
        exact hnext.trans (pump_kept hnext.pending p q)

/-! ### Runs -/

/-- A send that completes after the shutdown has begun takes all its bytes, unless OpenSSL then waits
for the peer or the connection is closed as failed or expired. -/
def Whole (s : Session) : Event → Prop
  | .sent count p _ =>
      s.closed = none → s.closing = true → count ≠ 0 → p.expired = false → p.shutdownFails = false →
        count = s.submitted.length ∨ Waiting s (p.rounds 63)
  | _ => True

theorem Flowing.sent (h : Flowing s) (hpending : s.sendPending = true) {count : Nat}
    (hle : count ≤ s.submitted.length) :
    s.outgoingStart + count ≤ s.outgoingEnd ∧
    Flowing { s with
      sendPending := false
      delivered := s.delivered ++ s.submitted.take count
      outgoingStart := s.outgoingStart + count } := by
  have hunsent := h.pending hpending
  have hlength := h.length_unsent
  have hstart := h.start_le
  rw [hunsent] at hlength
  have hsending := h.sending
  rw [if_pos hpending] at hsending
  refine ⟨by omega, h.size, by dsimp only; omega, h.end_le, h.room, Bool.noConfusion, fun hopen => ?_,
    ?_, fun hcomplete => ?_, h.trap, h.operation⟩
  · dsimp only [Session.unsent] at hunsent ⊢
    rw [← slice_drop, hunsent, List.append_assoc, List.take_append_drop, ← hunsent]
    exact h.order hopen
  · dsimp only
    rw [if_neg Bool.false_ne_true, List.append_nil]
    refine List.IsPrefix.trans ?_ hsending
    exact (List.prefix_append_right_inj _).mpr (List.take_prefix ..)
  · exact Bool.noConfusion (hpending.symm.trans (h.complete hcomplete).1)

/-- An event keeps what flows to the socket in order. -/
theorem Flowing.step (s : Session) (event : Event) (next : Session) (h : Flowing s ∧ Idle s)
    (hwhole : Whole s event) (hstep : step s event = some next) : Flowing next ∧ Idle next := by
  obtain ⟨hflowing, hidle⟩ := h
  cases event with
  | pump p q =>
      obtain ⟨hopen, rfl⟩ := step_pump hstep
      exact hflowing.pump hopen p q fun _ _ hclosing hpending =>
        Or.inl (hidle hopen hclosing hpending)
  | forceClose expired =>
      obtain ⟨-, rfl⟩ := step_forceClose hstep
      refine ⟨hflowing.forceClose ?_ ?_, idle_of_closed rfl⟩
      all_goals cases expired
      all_goals exact nofun
  | received bytes p q =>
      obtain ⟨-, rfl⟩ := step_received hstep
      have hnext (incoming : Bytes) :
          Flowing { s with receivePending := false, incoming := incoming } :=
        ⟨hflowing.size, hflowing.start_le, hflowing.end_le, hflowing.room, hflowing.pending,
          hflowing.order, hflowing.sending, hflowing.complete, hflowing.trap, hflowing.operation⟩
      unfold Session.received
      dsimp only
      split_ifs with hclosed hbytes
      · obtain ⟨cause, hcause⟩ := Option.isSome_iff_exists.mp hclosed
        exact ⟨hnext s.incoming, idle_of_closed hcause⟩
      · exact ⟨(hnext s.incoming).forceClose nofun nofun, idle_of_closed rfl⟩
      · have hopen := Option.not_isSome_iff_eq_none.mp hclosed
        exact (hnext bytes).pump hopen p q fun _ _ hclosing hpending =>
          Or.inl (hidle hopen hclosing hpending)
  | sent count p q =>
      obtain ⟨hpending, hle, rfl⟩ := step_sent hstep
      obtain ⟨hstop, hnext⟩ := hflowing.sent hpending hle
      obtain ⟨-, hnone⟩ := hflowing.sent hpending (Nat.zero_le _)
      unfold Session.sent
      dsimp only
      split_ifs with hclosed hcount
      · obtain ⟨cause, hcause⟩ := Option.isSome_iff_exists.mp hclosed
        refine ⟨⟨hflowing.size, hflowing.start_le, hflowing.end_le, hflowing.room, Bool.noConfusion,
          fun hopen => ?_, hnext.sending, hnext.complete, hflowing.trap, hflowing.operation⟩,
          idle_of_closed hcause⟩
        cases hopen.symm.trans hcause
      · rw [hcount]
        exact ⟨hnone.forceClose nofun nofun, idle_of_closed rfl⟩
      · have hopen := Option.not_isSome_iff_eq_none.mp hclosed
        refine hnext.pump hopen p q fun hexpired hfails hclosing _ => ?_
        refine (hwhole hopen hclosing hcount hexpired hfails).imp (fun hall => ?_) id
        have hlength := hflowing.length_unsent
        have hstart := hflowing.start_le
        rw [hflowing.pending hpending] at hlength
        change s.outgoingStart + count = s.outgoingEnd
        omega

/-- The socket takes the ciphertext in order: all of it but what is left in the buffer, and that too
when the connection is closed after the shutdown. -/
structure Intact (s : Session) : Prop where
  delivered : s.delivered <+: s.taken
  order : s.closed = none → s.delivered ++ s.unsent = s.taken
  pending : s.sendPending = true → s.unsent = s.submitted ∧ s.delivered ++ s.submitted <+: s.taken
  complete : s.closed = some .complete → s.delivered = s.taken
  trap : s.closed ≠ some .trap

theorem Flowing.intact (h : Flowing s) : Intact s where
  delivered := (List.prefix_append ..).trans h.sending
  order := h.order
  pending hpending := by
    have hsending := h.sending
    rw [if_pos hpending] at hsending
    exact ⟨h.pending hpending, hsending⟩
  complete hcomplete := (h.complete hcomplete).2
  trap := h.trap

/-- Along every run whose sends are whole once the shutdown has begun, the socket takes the ciphertext
in order and nothing touches the buffer of a pending send. -/
theorem ciphertext_in_order (network : Bytes) (events : List Event) (s : Session)
    (h : run step (initial network) events = some s)
    (hwhole : Guarded step Whole (initial network) events) :
    Intact s ∧
    ∀ event next, s.sendPending = true → step s event = some next →
      (∀ count p q, event ≠ .sent count p q) →
      next.sendPending = true ∧ next.outgoing = s.outgoing ∧ next.submitted = s.submitted := by
  have hinitial : Flowing (initial network) ∧ Idle (initial network) :=
    ⟨flowing_initial network, fun _ hclosing => Bool.noConfusion hclosing⟩
  have hflowing := run_invariant_of_guarded Flowing.step events _ s hinitial hwhole h
  refine ⟨hflowing.1.intact, fun event next hpending hstep hevent => ?_⟩
  have hkept := step_kept hpending hstep hevent
  exact ⟨hkept.pending, hkept.outgoing, hkept.submitted⟩

/-- The engine wants no more, and `SSL_shutdown` gives out its alert. -/
def alertPass : Pass where
  rounds _ := { shutdownProduced := [21, 3, 3, 0] }
  ended := true

theorem ciphertext_in_order_whole :
    ∃ s, run step (initial []) [.pump alertPass alertPass, .sent 4 alertPass alertPass] = some s ∧
      s.closed = some .complete ∧ s.delivered = [21, 3, 3, 0] ∧ Intact s := by
  have hends : (run step (initial []) [.pump alertPass alertPass, .sent 4 alertPass alertPass]).map
      (fun s => (s.closed, s.delivered)) = some (some .complete, [21, 3, 3, 0]) := by
    decide +kernel
  obtain ⟨s, hrun, hfacts⟩ := Option.map_eq_some_iff.mp hends
  obtain ⟨hclosed, hdelivered⟩ := Prod.mk.inj hfacts
  refine ⟨s, hrun, hclosed, hdelivered, (ciphertext_in_order [] _ s hrun ⟨trivial, ?_⟩).1⟩
  intro middle hmiddle
  refine ⟨fun _ _ _ _ _ => Or.inl ?_, fun _ _ => trivial⟩
  have hsubmitted : (step (initial []) (.pump alertPass alertPass)).map (·.submitted.length) =
      some 4 := by
    decide +kernel
  rw [hmiddle] at hsubmitted
  exact (Option.some.inj hsubmitted).symm

/-- Half of the alert is sent, and the connection is closed as complete without the other half. -/
theorem ciphertext_abandoned :
    ¬ ∀ (network : Bytes) (events : List Event) (s : Session),
      run step (initial network) events = some s → Intact s := by
  intro h
  have hends : (run step (initial []) [.pump alertPass alertPass, .sent 2 alertPass alertPass]).map
      (fun s => (s.closed, decide (s.delivered = s.taken))) = some (some .complete, false) := by
    decide +kernel
  obtain ⟨s, hrun, hfacts⟩ := Option.map_eq_some_iff.mp hends
  obtain ⟨hclosed, hlost⟩ := Prod.mk.inj hfacts
  exact of_decide_eq_false hlost ((h [] _ s hrun).complete hclosed)

end Zhtps.Pump
