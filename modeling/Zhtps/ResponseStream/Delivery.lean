import Zhtps.ResponseStream

/-!
What the transport reads is what the producer wrote.  The argument does not use the mutex, which is
there for the sleeping producer: it rests on `publication`.  The producer touches its buffer only
while the transport holds no part of a publication, and the transport takes hold of one only after
loading `ready`.

The producer's program counter fixes which of four situations the pair is in: the buffer is being
filled, a publication stands, it has been drained, or the task is over.
-/

namespace Zhtps.ResponseStream

/-- The transport has loaded `ready` and has not acknowledged that publication yet. -/
def Held (s : State) : Prop :=
  match s.transport with
  | .loaded .ready _ | .copying .. | .consumeLock | .consumeAssert | .consumeStore | .panicked => True
  | _ => s.chunk = true ∨ 0 < s.offset

/-- How much of the current publication the transport has copied. -/
def progress (s : State) : Nat :=
  match s.transport with
  | .copying done _ _ => done
  | .consumeLock | .consumeAssert | .consumeStore | .panicked => s.publishedLen
  | _ => if s.chunk then s.publishedLen else s.offset

/-- How much of the buffer holds bytes the producer wrote since the last publication. -/
def cursor (s : State) : Nat :=
  match s.producer with
  | .copying _ pos => pos
  | _ => s.stop

/-! ### The four situations -/

/-- No publication stands, none is held, and the end has not been announced. -/
def Released (s : State) : Prop :=
  s.publication = .writing ∧ ¬ Held s ∧ s.seenFinished = false

theorem Released.publication {s : State} (h : Released s) : s.publication = .writing := h.1

theorem Released.held {s : State} (h : Released s) : ¬ Held s := h.2.1

theorem Released.seen {s : State} (h : Released s) : s.seenFinished = false := h.2.2

def Filling (s : State) : Prop :=
  Released s ∧ s.written = s.acked ++ s.buffer.take (cursor s)

def Drained (s : State) : Prop :=
  Released s ∧ s.written = s.acked

/-- The published bytes are all that is written and not acknowledged. -/
def Outstanding (s : State) : Prop :=
  s.publishedLen ≤ s.buffer.length ∧ s.written = s.acked ++ s.buffer.take s.publishedLen

def Published (s : State) : Prop :=
  (s.publication = .ready ∧ s.seenFinished = false ∧ Outstanding s) ∨ Drained s

/-- The task is over: after an error the publication may stand forever, after `finish` none does. -/
def Over (s : State) : Prop :=
  s.acked <+: s.written ∧
    (Held s ∨ s.publication = .ready → Outstanding s) ∧
    (s.publication = .finished ∨ s.seenFinished = true →
      s.written = s.acked ∧ ¬ Held s ∧ s.publication ≠ .ready)

def ProducerOk (s : State) : Prop :=
  match s.producer with
  | .queued | .running | .lock _ | .checkCanceled _ | .checkEmpty _ | .setLength _ => Filling s
  | .copying rest pos => Filling s ∧ pos + rest.length ≤ s.buffer.length
  | .publish _ => Filling s ∧ s.publishedLen = s.stop
  | .notify _ | .testReady _ | .testCanceled _ | .wait _ | .relock _ => Published s
  | .lastCanceled _ | .clear _ | .finish => Drained s
  | .unlock _ true => Drained s ∧ s.stop = 0
  | .unlock _ false | .fail | .notifyFinished | .notifyFailed | .returned => Over s

/-- What the transport's own fields say at each of its steps. -/
def TransportOk (path : Path) (s : State) : Prop :=
  match s.transport with
  | .load room | .loaded _ room => s.chunk = false ∧ (path = .http1 → room = none)
  | .copying done goal len =>
      s.chunk = false ∧ done ≤ goal ∧ goal ≤ len ∧ len = s.publishedLen ∧
        (path = .http1 → goal = len)
  | .consumeLock | .consumeAssert | .consumeStore | .consumeSignal | .consumeUnlock | .panicked =>
      s.chunk = false ∧ s.offset = 0
  | .idle | .cancelLock _ | .cancelSignal _ | .cancelUnlock _ | .ended => True

/-- `publication_offset` belongs to HTTP/2 streams, `response_stream_chunk` to HTTP/1. -/
def PathOk (s : State) : Path → Prop
  | .http1 => s.offset = 0
  | .http2 => s.chunk = false

structure Inv (path : Path) (s : State) : Prop where
  stop_le : s.stop ≤ s.buffer.length
  offset_le : s.offset ≤ s.publishedLen
  copied_eq : s.copied = s.acked ++ s.buffer.take (progress s)
  producerOk : ProducerOk s
  transportOk : TransportOk path s
  pathOk : PathOk s path

theorem init_inv (path : Path) (buffer : Bytes) : Inv path (init buffer) := by
  refine ⟨Nat.zero_le _, Nat.le_refl _, ?_, ?_, ?_, ?_⟩
  · simp [init, progress]
  · exact ⟨⟨rfl, by simp [init, Held], rfl⟩, by simp [init, cursor]⟩
  · simp [init, TransportOk]
  · cases path <;> simp [init, PathOk]

/-! ### Steps of the transport -/

/-- All that the producer can notice of a step of the transport. -/
structure Quiet (s s' : State) : Prop where
  publication : s'.publication = s.publication
  acked : s'.acked = s.acked
  held : Held s' → Held s ∨ s.publication = .ready
  seen : s'.seenFinished = true → s.seenFinished = true ∨ s.publication = .finished

/-- The store in `consume`. -/
structure Consumes (s s' : State) : Prop where
  held : Held s
  publication : s'.publication = .writing
  acked : s'.acked = s.acked ++ s.buffer.take s.publishedLen
  released : ¬ Held s'
  seen : s'.seenFinished = s.seenFinished

structure TransportStep (s s' : State) : Prop where
  buffer : s'.buffer = s.buffer
  stop : s'.stop = s.stop
  publishedLen : s'.publishedLen = s.publishedLen
  written : s'.written = s.written
  producer : s'.producer = s.producer ∨ s'.producer = signal s.producer
  effect : Quiet s s' ∨ Consumes s s'

theorem cursor_signal {s s' : State} (hstop : s'.stop = s.stop)
    (hp : s'.producer = s.producer ∨ s'.producer = signal s.producer) :
    cursor s' = cursor s := by
  rcases hp with hp | hp <;> cases h : s.producer <;> simp [cursor, hp, h, hstop, signal]

namespace TransportStep

variable {s s' : State}

theorem quiet_of_not_held (h : TransportStep s s') (hs : ¬ Held s) : Quiet s s' := by
  rcases h.effect with hq | hc
  · exact hq
  · exact absurd hc.held hs

theorem released (h : TransportStep s s') (hs : Released s) : Released s' := by
  have hq := h.quiet_of_not_held hs.held
  refine ⟨hq.publication.trans hs.publication, ?_, ?_⟩
  · intro hheld
    rcases hq.held hheld with hold | hready
    · exact hs.held hold
    · rw [hs.publication] at hready
      cases hready
  · rw [← Bool.not_eq_true]
    intro hseen
    rcases hq.seen hseen with hold | hfinished
    · rw [hs.seen] at hold
      cases hold
    · rw [hs.publication] at hfinished
      cases hfinished

theorem filling (h : TransportStep s s') (hs : Filling s) : Filling s' := by
  refine ⟨h.released hs.1, ?_⟩
  rw [h.written, (h.quiet_of_not_held hs.1.held).acked, h.buffer,
    cursor_signal h.stop h.producer]
  exact hs.2

theorem drained (h : TransportStep s s') (hs : Drained s) : Drained s' := by
  refine ⟨h.released hs.1, ?_⟩
  rw [h.written, (h.quiet_of_not_held hs.1.held).acked]
  exact hs.2

theorem outstanding (h : TransportStep s s') (hacked : s'.acked = s.acked)
    (hs : Outstanding s) : Outstanding s' := by
  unfold Outstanding
  rw [h.written, h.buffer, h.publishedLen, hacked]
  exact hs

theorem published (h : TransportStep s s') (hs : Published s) : Published s' := by
  rcases hs with ⟨hready, hseen, hout⟩ | hs
  · rcases h.effect with hq | hc
    · refine Or.inl ⟨hq.publication.trans hready, ?_, h.outstanding hq.acked hout⟩
      rw [← Bool.not_eq_true]
      intro hseen'
      rcases hq.seen hseen' with hold | hfinished
      · rw [hseen] at hold
        cases hold
      · rw [hready] at hfinished
        cases hfinished
    · -- the acknowledged bytes are now everything the producer wrote
      refine Or.inr ⟨⟨hc.publication, hc.released, hc.seen.trans hseen⟩, ?_⟩
      rw [h.written, hc.acked]
      exact hout.2
  · exact Or.inr (h.drained hs)

theorem isOver (h : TransportStep s s') (hs : Over s) : Over s' := by
  obtain ⟨hacked, hout, hfin⟩ := hs
  rcases h.effect with hq | hc
  · refine ⟨?_, ?_, ?_⟩
    · rw [h.written, hq.acked]
      exact hacked
    · intro hh
      refine h.outstanding hq.acked (hout ?_)
      rcases hh with hheld | hready
      · exact hq.held hheld
      · exact Or.inr (hq.publication ▸ hready)
    · intro hh
      have hold : s.publication = .finished ∨ s.seenFinished = true := by
        rcases hh with hpub | hseen
        · exact Or.inl (hq.publication ▸ hpub)
        · exact (hq.seen hseen).symm
      obtain ⟨hall, hheld, hready⟩ := hfin hold
      refine ⟨?_, ?_, hq.publication ▸ hready⟩
      · rw [h.written, hq.acked]
        exact hall
      · intro hheld'
        rcases hq.held hheld' with hh' | hh'
        · exact hheld hh'
        · exact hready hh'
  · have hall : s'.written = s'.acked := by
      rw [h.written, hc.acked]
      exact (hout (Or.inl hc.held)).2
    refine ⟨hall ▸ List.prefix_refl _, ?_, ?_⟩
    · rintro (hheld | hready)
      · exact absurd hheld hc.released
      · rw [hc.publication] at hready
        cases hready
    · intro _
      refine ⟨hall, hc.released, ?_⟩
      rw [hc.publication]
      decide

theorem producerOk (h : TransportStep s s') (hs : ProducerOk s) : ProducerOk s' := by
  have hfill := h.filling
  have hdrain := h.drained
  have hpub := h.published
  have hover := h.isOver
  have hbuf := h.buffer
  have hlen := h.publishedLen
  have hstop := h.stop
  rcases h.producer with hp | hp <;> unfold ProducerOk at hs ⊢ <;> rw [hp] <;>
    cases hc : s.producer <;> simp only [hc, signal] at hs ⊢ <;>
    first
    | exact hfill hs
    | exact hdrain hs
    | exact hpub hs
    | exact hover hs
    | exact ⟨hfill hs.1, by rw [hbuf]; exact hs.2⟩
    | exact ⟨hfill hs.1, by rw [hlen, hstop]; exact hs.2⟩
    | skip
  all_goals
    rename_i ok
    cases ok
    · exact hover hs
    · exact ⟨hdrain hs.1, hstop.trans hs.2⟩

end TransportStep

theorem offset_le_goal {s : State} (h : s.offset ≤ s.publishedLen) (room : Option Nat) :
    s.offset ≤ goal s room := by
  cases room with
  | none => exact h
  | some room => exact Nat.le_min.mpr ⟨Nat.le_add_right _ _, h⟩

theorem goal_le (s : State) (room : Option Nat) : goal s room ≤ s.publishedLen := by
  cases room with
  | none => exact Nat.le_refl _
  | some room => exact Nat.min_le_right _ _

/-- A step of the transport that copies and acknowledges nothing. -/
structure Frame (s s' : State) : Prop where
  buffer : s'.buffer = s.buffer
  stop : s'.stop = s.stop
  publishedLen : s'.publishedLen = s.publishedLen
  written : s'.written = s.written
  publication : s'.publication = s.publication
  acked : s'.acked = s.acked
  copied : s'.copied = s.copied
  offset : s'.offset = s.offset
  producer : s'.producer = s.producer ∨ s'.producer = signal s.producer
  seen : s'.seenFinished = true → s.seenFinished = true ∨ s.publication = .finished

namespace Inv

variable {path : Path} {s s' : State}

theorem of_transport (hi : Inv path s) (h : TransportStep s s')
    (hoffset : s'.offset ≤ s.publishedLen)
    (hcopied : s'.copied = s'.acked ++ s.buffer.take (progress s'))
    (htransport : TransportOk path s') (hpath : PathOk s' path) : Inv path s' := by
  refine ⟨?_, ?_, ?_, h.producerOk hi.producerOk, htransport, hpath⟩
  · rw [h.stop, h.buffer]
    exact hi.stop_le
  · rw [h.publishedLen]
    exact hoffset
  · rw [h.buffer]
    exact hcopied

theorem of_frame (hi : Inv path s) (h : Frame s s')
    (hheld : Held s' → Held s ∨ s.publication = .ready)
    (hprogress : progress s' = progress s)
    (htransport : TransportOk path s') (hpath : PathOk s' path) : Inv path s' := by
  have hstep : TransportStep s s' :=
    ⟨h.buffer, h.stop, h.publishedLen, h.written, h.producer,
      Or.inl ⟨h.publication, h.acked, hheld, h.seen⟩⟩
  refine hi.of_transport hstep ?_ ?_ htransport hpath
  · rw [h.offset]
    exact hi.offset_le
  · rw [h.copied, h.acked, hprogress]
    exact hi.copied_eq

/-- The transport goes back to rest, or from there into `cancel`. -/
theorem of_rest (hi : Inv path s) (hheld : s.chunk = true ∨ 0 < s.offset → Held s)
    (hprogress : progress s = if s.chunk then s.publishedLen else s.offset) {t : Transport}
    {canceled : Bool}
    (ht : t = .idle ∨ t = .ended ∨ ∃ close, t = .cancelLock close) :
    Inv path { s with transport := t, canceled := canceled } := by
  refine hi.of_frame ⟨rfl, rfl, rfl, rfl, rfl, rfl, rfl, rfl, Or.inl rfl, Or.inl⟩ ?_ ?_ ?_ ?_
  · rcases ht with rfl | rfl | ⟨close, rfl⟩ <;> exact fun hh => Or.inl (hheld hh)
  · rw [hprogress]
    rcases ht with rfl | rfl | ⟨close, rfl⟩ <;> rfl
  · rcases ht with rfl | rfl | ⟨close, rfl⟩ <;> trivial
  · cases path <;> exact hi.pathOk

theorem loaded_step (hi : Inv path s) {seen : Publication} {room : Option Nat} {ok : Bool}
    {count : Nat} (ht : s.transport = .loaded seen room)
    (h : stepTransport path s ok count = some s') : Inv path s' := by
  have htok := hi.transportOk
  simp only [TransportOk, ht] at htok
  have hheld : s.chunk = true ∨ 0 < s.offset → Held s := by
    cases seen <;> simp [Held, ht]
  have hprogress : progress s = if s.chunk then s.publishedLen else s.offset := by
    simp [progress, ht]
  simp only [stepTransport, ht] at h
  cases seen with
  | writing =>
      obtain rfl := Option.some.inj h
      exact hi.of_rest hheld hprogress (Or.inl rfl)
  | ready =>
      simp only at h
      split at h
      · obtain rfl := Option.some.inj h
        refine hi.of_frame ⟨rfl, rfl, rfl, rfl, rfl, rfl, rfl, rfl, Or.inl rfl, Or.inl⟩ ?_ ?_ ?_ ?_
        · exact fun _ => Or.inl (by simp [Held, ht])
        · simp [progress, ht, htok.1]
        · refine ⟨htok.1, offset_le_goal hi.offset_le room, goal_le s room, rfl, ?_⟩
          intro hp
          rw [htok.2 hp]
          rfl
        · cases path <;> exact hi.pathOk
      · split at h <;> obtain rfl := Option.some.inj h
        · exact hi.of_rest hheld hprogress (Or.inr (Or.inr ⟨true, rfl⟩))
        · exact hi.of_rest hheld hprogress (Or.inl rfl)
  | finished =>
      simp only at h
      split at h <;> obtain rfl := Option.some.inj h
      · exact hi.of_rest hheld hprogress (Or.inl rfl)
      · exact hi.of_rest hheld hprogress (Or.inr (Or.inl rfl))
  | failed =>
      simp only at h
      split at h <;> obtain rfl := Option.some.inj h
      · exact hi.of_rest hheld hprogress (Or.inr (Or.inr ⟨true, rfl⟩))
      · exact hi.of_rest hheld hprogress (Or.inl rfl)

theorem copying_step (hi : Inv path s) {done goal len : Nat} {ok : Bool} {count : Nat}
    (ht : s.transport = .copying done goal len)
    (h : stepTransport path s ok count = some s') : Inv path s' := by
  have htok := hi.transportOk
  have hcopied := hi.copied_eq
  have hpath := hi.pathOk
  simp only [TransportOk, progress, ht] at htok hcopied
  obtain ⟨hchunk, hdone, hgoal, hlen, hwhole⟩ := htok
  have hheld : Held s := by simp [Held, ht]
  have hquiet : ∀ {t : State}, t.publication = s.publication → t.acked = s.acked →
      t.seenFinished = s.seenFinished → Quiet s t := fun hpub hacked hseen =>
    ⟨hpub, hacked, fun _ => Or.inl hheld, fun hs => Or.inl (hseen ▸ hs)⟩
  simp only [stepTransport, ht] at h
  split at h <;> obtain rfl := Option.some.inj h
  · refine hi.of_transport ⟨rfl, rfl, rfl, rfl, Or.inl rfl, Or.inl (hquiet rfl rfl rfl)⟩
      hi.offset_le ?_ ?_ hpath
    · simp only [progress]
      rw [hcopied, List.append_assoc, ← List.take_add]
    · exact ⟨hchunk, by omega, hgoal, hlen, hwhole⟩
  · have hend : done = goal := by omega
    cases path with
    | http1 =>
        refine hi.of_transport ⟨rfl, rfl, rfl, rfl, Or.inl rfl, Or.inl (hquiet rfl rfl rfl)⟩
          hi.offset_le ?_ trivial hpath
        simp only [copiedAll, progress, if_true]
        rw [hcopied, hend, hwhole rfl, hlen]
    | http2 =>
        simp only [copiedAll]
        split
        · rename_i hexhausted
          refine hi.of_transport ⟨rfl, rfl, rfl, rfl, Or.inl rfl, Or.inl (hquiet rfl rfl rfl)⟩
            (Nat.zero_le _) ?_ ⟨hchunk, rfl⟩ hpath
          simp only [progress]
          rw [hcopied, hend, hexhausted, hlen]
        · refine hi.of_transport ⟨rfl, rfl, rfl, rfl, Or.inl rfl, Or.inl (hquiet rfl rfl rfl)⟩
            (hlen ▸ hgoal) ?_ trivial hpath
          simp only [progress, hchunk, Bool.false_eq_true, if_false]
          rw [hcopied, hend]

theorem transport_step (hi : Inv path s) {ok : Bool} {count : Nat}
    (h : stepTransport path s ok count = some s') : Inv path s' := by
  have hpath := hi.pathOk
  have htok := hi.transportOk
  unfold TransportOk at htok
  cases ht : s.transport with
  | idle | ended | panicked => simp [stepTransport, ht] at h
  | load room =>
      simp only [stepTransport, ht, Option.some.injEq] at h
      simp only [ht] at htok
      subst h
      refine hi.of_frame ⟨rfl, rfl, rfl, rfl, rfl, rfl, rfl, rfl, Or.inl rfl, ?_⟩ ?_ ?_ htok hpath
      · simp
      · cases hp : s.publication <;> simp [Held, ht]
      · simp [progress, ht]
  | loaded seen room => exact hi.loaded_step ht h
  | copying done goal len => exact hi.copying_step ht h
  | consumeLock =>
      simp only [stepTransport, ht] at h
      simp only [ht] at htok
      split at h
      · obtain rfl := Option.some.inj h
        refine hi.of_frame ⟨rfl, rfl, rfl, rfl, rfl, rfl, rfl, rfl, Or.inl rfl, Or.inl⟩ ?_ ?_ htok hpath
        · exact fun _ => Or.inl (by simp [Held, ht])
        · simp [progress, ht]
      · cases h
  | consumeAssert =>
      simp only [stepTransport, ht] at h
      simp only [ht] at htok
      have hheld : Held s := by simp [Held, ht]
      split at h <;> obtain rfl := Option.some.inj h
      · refine hi.of_frame ⟨rfl, rfl, rfl, rfl, rfl, rfl, rfl, rfl, Or.inl rfl, Or.inl⟩
          (fun _ => Or.inl hheld) ?_ htok hpath
        simp [progress, ht]
      · refine hi.of_frame ⟨rfl, rfl, rfl, rfl, rfl, rfl, rfl, rfl, Or.inl rfl, Or.inl⟩
          (fun _ => Or.inl hheld) ?_ htok hpath
        simp [progress, ht]
  | consumeStore =>
      have hcopied := hi.copied_eq
      simp only [progress, ht] at hcopied
      simp only [stepTransport, ht, Option.some.injEq] at h
      simp only [ht] at htok
      subst h
      refine hi.of_transport ⟨rfl, rfl, rfl, rfl, Or.inl rfl, Or.inr ⟨?_, rfl, hcopied, ?_, rfl⟩⟩
        hi.offset_le ?_ htok hpath
      · simp [Held, ht]
      · simp [Held, htok.1, htok.2]
      · simp [progress, htok.1, htok.2]
  | consumeSignal =>
      simp only [stepTransport, ht, Option.some.injEq] at h
      simp only [ht] at htok
      subst h
      refine hi.of_frame ⟨rfl, rfl, rfl, rfl, rfl, rfl, rfl, rfl, Or.inr rfl, Or.inl⟩ ?_ ?_ htok hpath
      · simp [Held, htok.1, htok.2]
      · simp [progress, ht]
  | consumeUnlock =>
      simp only [stepTransport, ht, Option.some.injEq] at h
      simp only [ht] at htok
      subst h
      refine hi.of_frame ⟨rfl, rfl, rfl, rfl, rfl, rfl, rfl, rfl, Or.inl rfl, Or.inl⟩ ?_ ?_ ?_ hpath
      · cases path <;> simp [Held, htok.1, htok.2, afterConsume]
      · cases path <;> simp [progress, ht, afterConsume]
      · cases path <;> simp [TransportOk, afterConsume, htok.1]
  | cancelLock close =>
      simp only [stepTransport, ht] at h
      split at h
      · obtain rfl := Option.some.inj h
        refine hi.of_frame ⟨rfl, rfl, rfl, rfl, rfl, rfl, rfl, rfl, Or.inl rfl, Or.inl⟩ ?_ ?_ trivial hpath
        · exact fun hh => Or.inl (by simpa [Held, ht] using hh)
        · simp [progress, ht]
      · cases h
  | cancelSignal close =>
      simp only [stepTransport, ht, Option.some.injEq] at h
      subst h
      refine hi.of_frame ⟨rfl, rfl, rfl, rfl, rfl, rfl, rfl, rfl, Or.inr rfl, Or.inl⟩ ?_ ?_ trivial hpath
      · exact fun hh => Or.inl (by simpa [Held, ht] using hh)
      · simp [progress, ht]
  | cancelUnlock close =>
      simp only [stepTransport, ht, Option.some.injEq] at h
      subst h
      refine hi.of_frame ⟨rfl, rfl, rfl, rfl, rfl, rfl, rfl, rfl, Or.inl rfl, Or.inl⟩ ?_ ?_ trivial hpath
      · exact fun hh => Or.inl (by simpa [Held, ht] using hh)
      · simp [progress, ht]

end Inv

/-! ### Steps of the producer -/

/-- The actions that the executor and the producer callback choose. -/
def Action.isCall : Action → Bool
  | .start | .expire | .write .. | .flush | .succeed | .error => true
  | _ => false

/-- A step of the producer leaves the transport's fields alone, and changes what the transport may
be reading only while nothing is held. -/
structure ProducerStep (s s' : State) : Prop where
  transport : s'.transport = s.transport
  chunk : s'.chunk = s.chunk
  offset : s'.offset = s.offset
  copied : s'.copied = s.copied
  acked : s'.acked = s.acked
  seen : s'.seenFinished = s.seenFinished
  canceled : s'.canceled = s.canceled
  closed : s'.closed = s.closed
  stable : Held s → s'.buffer = s.buffer ∧ s'.publishedLen = s.publishedLen
  publication : Held s →
    s'.publication = s.publication ∨ s'.publication = .ready ∨ s.producer = .fail

theorem ProducerStep.held_iff {s s' : State} (h : ProducerStep s s') : Held s' ↔ Held s := by
  unfold Held
  rw [h.transport, h.chunk, h.offset]

theorem ProducerStep.released {s s' : State} (h : ProducerStep s s') (hs : Released s)
    (hpub : s'.publication = s.publication) : Released s' :=
  ⟨hpub.trans hs.publication, fun hh => hs.held (h.held_iff.mp hh), h.seen.trans hs.seen⟩

theorem progress_of_not_held {s : State} (h : ¬ Held s) : progress s = 0 := by
  unfold Held at h
  unfold progress
  cases ht : s.transport with
  | loaded seen room => cases seen <;> simp_all
  | _ => simp_all

theorem offset_of_not_held {s : State} (h : ¬ Held s) : s.offset = 0 := by
  unfold Held at h
  cases ht : s.transport with
  | loaded seen room => cases seen <;> simp_all
  | _ => simp_all

namespace Inv

variable {path : Path} {s s' : State}

theorem of_producer (hi : Inv path s) (h : ProducerStep s s') (hstop : s'.stop ≤ s'.buffer.length)
    (hok : ProducerOk s') : ProducerStep s s' ∧ Inv path s' := by
  refine ⟨h, ?_⟩
  have hpath : PathOk s' path := by
    have hold := hi.pathOk
    cases path
    · exact h.offset.trans hold
    · exact h.chunk.trans hold
  by_cases hheld : Held s
  · obtain ⟨hbuffer, hlen⟩ := h.stable hheld
    refine ⟨hstop, ?_, ?_, hok, ?_, hpath⟩
    · rw [h.offset, hlen]
      exact hi.offset_le
    · have hprogress : progress s' = progress s := by
        unfold progress
        rw [h.transport, h.chunk, h.offset, hlen]
      rw [h.copied, h.acked, hbuffer, hprogress]
      exact hi.copied_eq
    · have hold := hi.transportOk
      unfold TransportOk at hold ⊢
      rw [h.transport, h.chunk, h.offset, hlen]
      exact hold
  · have hheld' : ¬ Held s' := fun hh => hheld (h.held_iff.mp hh)
    refine ⟨hstop, ?_, ?_, hok, ?_, hpath⟩
    · rw [offset_of_not_held hheld']
      exact Nat.zero_le _
    · have hold := hi.copied_eq
      rw [progress_of_not_held hheld, List.take_zero] at hold
      rw [h.copied, h.acked, progress_of_not_held hheld', List.take_zero]
      exact hold
    · have hold := hi.transportOk
      unfold TransportOk at hold ⊢
      rw [h.transport, h.chunk, h.offset]
      cases ht : s.transport <;> simp_all [Held]

end Inv

theorem Released.isOver {s : State} (h : Released s) (hacked : s.acked <+: s.written) : Over s := by
  refine ⟨hacked, ?_, ?_⟩
  · rintro (hheld | hready)
    · exact absurd hheld h.held
    · rw [h.publication] at hready
      cases hready
  · rintro (hfinished | hseen)
    · rw [h.publication] at hfinished
      cases hfinished
    · rw [h.seen] at hseen
      cases hseen

theorem Filling.isOver {s : State} (h : Filling s) : Over s :=
  h.1.isOver (h.2 ▸ List.prefix_append _ _)

theorem Drained.isOver {s : State} (h : Drained s) : Over s :=
  h.1.isOver (h.2 ▸ List.prefix_refl _)

theorem Published.isOver {s : State} (h : Published s) : Over s := by
  rcases h with ⟨hready, hseen, hout⟩ | h
  · refine ⟨hout.2 ▸ List.prefix_append _ _, fun _ => hout, ?_⟩
    rintro (hfinished | hseen')
    · rw [hready] at hfinished
      cases hfinished
    · rw [hseen] at hseen'
      cases hseen'
  · exact h.isOver

/-- An acknowledged publication left everything written behind. -/
theorem Published.drained {s : State} (h : Published s) (hnot : s.publication ≠ .ready) :
    Drained s := by
  rcases h with ⟨hready, -⟩ | h
  · exact absurd hready hnot
  · exact h

theorem Filling.outstanding {s : State} (h : Filling s) (hcursor : cursor s = s.publishedLen)
    (hle : s.publishedLen ≤ s.buffer.length) : Outstanding s :=
  ⟨hle, hcursor ▸ h.2⟩

theorem take_set_succ (buffer : Bytes) (byte : UInt8) {pos : Nat} (h : pos < buffer.length) :
    (buffer.set pos byte).take (pos + 1) = buffer.take pos ++ [byte] := by
  rw [List.take_add_one, List.getElem?_set_self h, List.take_set_of_le (Nat.le_refl pos)]
  rfl

namespace Inv

variable {path : Path} {s s' : State}

/-- The producer moves without touching any shared field but the mutex. -/
theorem of_pc (hi : Inv path s) {p : Producer} {mutex : Option Thread}
    (hok : ProducerOk { s with producer := p, mutex := mutex }) :
    ProducerStep s { s with producer := p, mutex := mutex } ∧
      Inv path { s with producer := p, mutex := mutex } :=
  hi.of_producer ⟨rfl, rfl, rfl, rfl, rfl, rfl, rfl, rfl, fun _ => ⟨rfl, rfl⟩,
    fun _ => Or.inl rfl⟩ hi.stop_le hok

theorem producer_step (hi : Inv path s) {wake : Bool} (h : stepProducer s wake = some s') :
    ProducerStep s s' ∧ Inv path s' := by
  have hok := hi.producerOk
  unfold ProducerOk at hok
  unfold stepProducer at h
  cases hp : s.producer with
  | queued | running | wait _ | returned => simp [hp] at h
  | copying rest pos =>
      simp only [hp] at hok
      obtain ⟨⟨hreleased, hwritten⟩, hroom⟩ := hok
      simp only [cursor, hp] at hwritten
      cases rest with
      | nil =>
          simp only [hp, Option.some.injEq] at h
          subst h
          refine hi.of_producer ⟨rfl, rfl, rfl, rfl, rfl, rfl, rfl, rfl, fun _ => ⟨rfl, rfl⟩,
            fun _ => Or.inl rfl⟩ ?_ ?_
          · exact hroom
          · exact ⟨hreleased, hwritten⟩
      | cons byte rest =>
          simp only [hp, Option.some.injEq] at h
          subst h
          have hpos : pos < s.buffer.length := by
            rw [List.length_cons] at hroom
            omega
          have hstep : ProducerStep s { s with
              buffer := s.buffer.set pos byte
              written := s.written ++ [byte]
              producer := .copying rest (pos + 1) } :=
            ⟨rfl, rfl, rfl, rfl, rfl, rfl, rfl, rfl, fun hh => absurd hh hreleased.held, fun _ => Or.inl rfl⟩
          refine hi.of_producer hstep ?_ ⟨⟨hstep.released hreleased rfl, ?_⟩, ?_⟩
          · simpa using hi.stop_le
          · simp only [cursor]
            rw [take_set_succ _ _ hpos, hwritten, List.append_assoc]
          · simp only [List.length_set]
            rw [List.length_cons] at hroom
            omega
  | lock next =>
      simp only [hp] at h hok
      split at h
      · obtain rfl := Option.some.inj h
        refine hi.of_pc ⟨hok.1, ?_⟩
        simpa [cursor, hp] using hok.2
      · cases h
  | checkCanceled next =>
      simp only [hp] at h hok
      split at h <;> obtain rfl := Option.some.inj h
      · exact hi.of_pc hok.isOver
      · refine hi.of_pc ⟨hok.1, ?_⟩
        simpa [cursor, hp] using hok.2
  | checkEmpty next =>
      simp only [hp] at h hok
      have hwritten := hok.2
      simp only [cursor, hp] at hwritten
      split at h <;> obtain rfl := Option.some.inj h
      · rename_i hempty
        refine hi.of_pc ⟨⟨hok.1, ?_⟩, hempty⟩
        rw [hempty, List.take_zero, List.append_nil] at hwritten
        exact hwritten
      · exact hi.of_pc ⟨hok.1, hwritten⟩
  | setLength next =>
      simp only [hp, Option.some.injEq] at h hok
      subst h
      have hwritten := hok.2
      simp only [cursor, hp] at hwritten
      have hstep : ProducerStep s { s with publishedLen := s.stop, producer := .publish next } :=
        ⟨rfl, rfl, rfl, rfl, rfl, rfl, rfl, rfl, fun hh => absurd hh hok.1.held, fun _ => Or.inl rfl⟩
      exact hi.of_producer hstep hi.stop_le ⟨⟨hstep.released hok.1 rfl, hwritten⟩, rfl⟩
  | publish next =>
      simp only [hp, Option.some.injEq] at h hok
      subst h
      obtain ⟨hfilling, hlen⟩ := hok
      have hout : Outstanding s := by
        refine hfilling.outstanding ?_ (hlen ▸ hi.stop_le)
        simp [cursor, hp, hlen]
      exact hi.of_producer ⟨rfl, rfl, rfl, rfl, rfl, rfl, rfl, rfl, fun _ => ⟨rfl, rfl⟩,
        fun _ => Or.inr (Or.inl rfl)⟩ hi.stop_le (Or.inl ⟨rfl, hfilling.1.seen, hout⟩)
  | notify next =>
      simp only [hp] at h hok
      split at h <;> obtain rfl := Option.some.inj h
      · exact hi.of_pc hok
      · exact hi.of_pc hok.isOver
  | testReady next =>
      simp only [hp] at h hok
      split at h <;> obtain rfl := Option.some.inj h
      · exact hi.of_pc hok
      · rename_i hnot
        exact hi.of_pc (hok.drained hnot)
  | testCanceled next =>
      simp only [hp] at h hok
      split at h <;> obtain rfl := Option.some.inj h
      · exact hi.of_pc hok.isOver
      · exact hi.of_pc hok
  | relock next =>
      simp only [hp] at h hok
      split at h
      · obtain rfl := Option.some.inj h
        exact hi.of_pc hok
      · cases h
  | lastCanceled next =>
      simp only [hp] at h hok
      split at h <;> obtain rfl := Option.some.inj h
      · exact hi.of_pc hok.isOver
      · exact hi.of_pc hok
  | clear next =>
      simp only [hp, Option.some.injEq] at h hok
      subst h
      exact hi.of_producer ⟨rfl, rfl, rfl, rfl, rfl, rfl, rfl, rfl, fun _ => ⟨rfl, rfl⟩,
        fun _ => Or.inl rfl⟩ (Nat.zero_le _) ⟨hok, rfl⟩
  | unlock next ok =>
      cases ok with
      | true =>
          simp only [hp, Option.some.injEq] at h hok
          subst h
          obtain ⟨⟨hreleased, hwritten⟩, hempty⟩ := hok
          cases next with
          | flush => exact hi.of_pc ⟨hreleased, by simpa [cursor, resume, hempty] using hwritten⟩
          | drain bytes =>
              refine hi.of_pc ⟨⟨hreleased, by simpa [cursor, resume] using hwritten⟩, ?_⟩
              rw [List.length_take]
              simp only
              omega
          | finish => exact hi.of_pc ⟨hreleased, hwritten⟩
      | false =>
          simp only [hp, Option.some.injEq] at h hok
          subst h
          exact hi.of_pc hok
  | finish =>
      simp only [hp, Option.some.injEq] at h hok
      subst h
      refine hi.of_producer ⟨rfl, rfl, rfl, rfl, rfl, rfl, rfl, rfl, fun _ => ⟨rfl, rfl⟩,
        fun hh => absurd hh hok.1.held⟩ hi.stop_le ?_
      refine ⟨hok.2 ▸ List.prefix_refl _, ?_, fun _ => ⟨hok.2, hok.1.held, nofun⟩⟩
      rintro (hheld | hready)
      · exact absurd hheld hok.1.held
      · cases hready
  | notifyFinished =>
      simp only [hp] at h hok
      split at h <;> obtain rfl := Option.some.inj h
      · exact hi.of_pc hok
      · exact hi.of_pc hok
  | fail =>
      simp only [hp, Option.some.injEq] at h hok
      subst h
      obtain ⟨hacked, hout, hfin⟩ := hok
      refine hi.of_producer ⟨rfl, rfl, rfl, rfl, rfl, rfl, rfl, rfl, fun _ => ⟨rfl, rfl⟩,
        fun _ => Or.inr (Or.inr hp)⟩ hi.stop_le ?_
      refine ⟨hacked, ?_, ?_⟩
      · rintro (hheld | hready)
        · exact hout (Or.inl hheld)
        · cases hready
      · rintro (hfinished | hseen)
        · cases hfinished
        · exact ⟨(hfin (Or.inr hseen)).1, (hfin (Or.inr hseen)).2.1, nofun⟩
  | notifyFailed =>
      simp only [hp, Option.some.injEq] at h hok
      subst h
      exact hi.of_pc hok

theorem sent_step (hi : Inv .http1 s) (ht : s.transport = .idle) : Inv .http1 (sent s) := by
  have hprogress : progress s = if s.chunk then s.publishedLen else s.offset := by
    simp [progress, ht]
  unfold sent
  split
  · refine hi.of_frame ⟨rfl, rfl, rfl, rfl, rfl, rfl, rfl, rfl, Or.inl rfl, Or.inl⟩
      Or.inl rfl ?_ hi.pathOk
    exact hi.transportOk
  · split
    · refine hi.of_frame ⟨rfl, rfl, rfl, rfl, rfl, rfl, rfl, rfl, Or.inl rfl, Or.inl⟩
        ?_ ?_ trivial hi.pathOk
      · exact fun hh => Or.inl (by simpa [Held, ht, cancel] using hh)
      · rw [hprogress]
        rfl
    · split
      · rename_i hchunk
        refine hi.of_frame ⟨rfl, rfl, rfl, rfl, rfl, rfl, rfl, rfl, Or.inl rfl, Or.inl⟩
          ?_ ?_ ?_ hi.pathOk
        · exact fun _ => Or.inl (by simp [Held, ht, hchunk])
        · simp [progress, ht, hchunk]
        · exact ⟨rfl, hi.pathOk⟩
      · rename_i hchunk
        refine hi.of_frame ⟨rfl, rfl, rfl, rfl, rfl, rfl, rfl, rfl, Or.inl rfl, Or.inl⟩
          ?_ ?_ ?_ hi.pathOk
        · exact fun hh => Or.inl (by simpa [Held, ht] using hh)
        · simp [progress, ht]
        · exact ⟨by simpa using hchunk, fun _ => rfl⟩

/-- A call of the producer callback: nothing but the program counter moves. -/
theorem running_step (hi : Inv path s) (hp : s.producer = .running) {p : Producer}
    (hok : Filling s → ProducerOk { s with producer := p }) :
    ProducerStep s { s with producer := p } ∧ Inv path { s with producer := p } := by
  have hold := hi.producerOk
  simp only [ProducerOk, hp] at hold
  exact hi.of_pc (hok hold)

/-- The calls of the producer callback, and the start and the loss of its task. -/
theorem call_step (hi : Inv path s) {action : Action}
    (haction : action.isCall = true) (h : step path s action = some s') :
    ProducerStep s s' ∧ Inv path s' := by
  have hqueued : s.producer = .queued → Filling s := by
    intro hp
    have hold := hi.producerOk
    simpa only [ProducerOk, hp] using hold
  cases action with
  | start =>
      simp only [ResponseStream.step] at h
      split at h
      · rename_i hp
        obtain rfl := Option.some.inj h
        exact hi.of_pc ⟨(hqueued hp).1, by simpa [cursor, hp] using (hqueued hp).2⟩
      · cases h
  | expire =>
      simp only [ResponseStream.step] at h
      split at h
      · rename_i hp
        obtain rfl := Option.some.inj h
        exact hi.of_pc (hqueued hp).isOver
      · cases h
  | write data splat =>
      simp only [ResponseStream.step] at h
      split at h
      · rename_i hp
        obtain rfl := Option.some.inj h
        refine hi.running_step hp fun hfill => ?_
        have hwritten := hfill.2
        simp only [cursor, hp] at hwritten
        unfold ResponseStream.write
        split
        · rename_i hfits
          exact ⟨⟨hfill.1, hwritten⟩, hfits⟩
        · exact ⟨hfill.1, hwritten⟩
      · cases h
  | flush | succeed =>
      simp only [ResponseStream.step] at h
      split at h
      · rename_i hp
        obtain rfl := Option.some.inj h
        refine hi.running_step hp fun hfill => ⟨hfill.1, ?_⟩
        simpa [cursor, hp] using hfill.2
      · cases h
  | error =>
      simp only [ResponseStream.step] at h
      split at h
      · rename_i hp
        obtain rfl := Option.some.inj h
        exact hi.running_step hp fun hfill => hfill.isOver
      · cases h
  | _ => cases haction

theorem step (hi : Inv path s) {action : Action} (h : step path s action = some s') :
    Inv path s' := by
  cases action with
  | start | expire | write | flush | succeed | error => exact (hi.call_step rfl h).2
  | produce wake => exact (hi.producer_step h).2
  | spurious =>
      obtain rfl := Option.some.inj h
      exact hi.of_frame ⟨rfl, rfl, rfl, rfl, rfl, rfl, rfl, rfl, Or.inr rfl, Or.inl⟩ Or.inl rfl
        hi.transportOk hi.pathOk
  | transport ok count => exact hi.transport_step h
  | pump =>
      simp only [ResponseStream.step] at h
      split at h
      · rename_i hg
        obtain ⟨rfl, ht, -, -, hchunk⟩ := hg
        obtain rfl := Option.some.inj h
        refine hi.of_frame ⟨rfl, rfl, rfl, rfl, rfl, rfl, rfl, rfl, Or.inl rfl, Or.inl⟩
          ?_ ?_ ?_ hi.pathOk
        · exact fun hh => Or.inl (by simpa [Held, ht] using hh)
        · simp [progress, ht]
        · exact ⟨by simpa using hchunk, fun _ => rfl⟩
      · cases h
  | produceInto room =>
      simp only [ResponseStream.step] at h
      split at h
      · rename_i hg
        obtain ⟨rfl, ht, -⟩ := hg
        obtain rfl := Option.some.inj h
        refine hi.of_frame ⟨rfl, rfl, rfl, rfl, rfl, rfl, rfl, rfl, Or.inl rfl, Or.inl⟩
          ?_ ?_ ?_ hi.pathOk
        · exact fun hh => Or.inl (by simpa [Held, ht] using hh)
        · simp [progress, ht]
        · exact ⟨hi.pathOk, nofun⟩
      · cases h
  | sent =>
      simp only [ResponseStream.step] at h
      split at h
      · rename_i hg
        obtain ⟨rfl, ht, -⟩ := hg
        obtain rfl := Option.some.inj h
        exact hi.sent_step ht
      · cases h
  | timeout =>
      simp only [ResponseStream.step] at h
      split at h
      · rename_i hg
        obtain ⟨-, ht, -⟩ := hg
        obtain rfl := Option.some.inj h
        exact hi.of_rest (by simp [Held, ht]) (by simp [progress, ht]) (Or.inr (Or.inr ⟨false, rfl⟩))
      · cases h
  | close =>
      simp only [ResponseStream.step] at h
      split at h
      · rename_i ht
        obtain rfl := Option.some.inj h
        exact hi.of_rest (by simp [Held, ht]) (by simp [progress, ht]) (Or.inr (Or.inr ⟨true, rfl⟩))
      · cases h
  | complete =>
      simp only [ResponseStream.step] at h
      split at h
      · obtain rfl := Option.some.inj h
        exact hi.of_frame ⟨rfl, rfl, rfl, rfl, rfl, rfl, rfl, rfl, Or.inl rfl, Or.inl⟩ Or.inl rfl
          hi.transportOk hi.pathOk
      · cases h

/-- Whatever the producer is doing, what `Over` says of the transport holds. -/
theorem isOver (hi : Inv path s) : Over s := by
  have hok := hi.producerOk
  unfold ProducerOk at hok
  split at hok
  all_goals first
    | exact hok.isOver
    | exact hok.1.isOver
    | exact hok

theorem progress_le (hi : Inv path s) : progress s ≤ s.publishedLen := by
  have htok := hi.transportOk
  have hoffset := hi.offset_le
  unfold TransportOk at htok
  unfold progress
  cases ht : s.transport with
  | copying done goal len =>
      simp only [ht] at htok ⊢
      omega
  | consumeLock | consumeAssert | consumeStore | panicked => exact Nat.le_refl _
  | _ =>
      simp only
      split <;> omega

/-- What was copied is acknowledged, or is the copied part of the publication that stands. -/
theorem copied_isPrefix (hi : Inv path s) : s.copied <+: s.written := by
  obtain ⟨hacked, hout, -⟩ := hi.isOver
  rw [hi.copied_eq]
  by_cases hheld : Held s
  · rw [(hout (Or.inl hheld)).2, List.prefix_append_right_inj]
    exact List.take_prefix_take_left hi.progress_le
  · rw [progress_of_not_held hheld, List.take_zero, List.append_nil]
    exact hacked

theorem copied_of_finished (hi : Inv path s) (hseen : s.seenFinished = true) :
    s.acked = s.written ∧ s.copied = s.written := by
  obtain ⟨hall, hheld, -⟩ := hi.isOver.2.2 (Or.inr hseen)
  refine ⟨hall.symm, ?_⟩
  rw [hi.copied_eq, progress_of_not_held hheld, List.take_zero, List.append_nil, hall]

end Inv

/-- Along every interleaving the copied bytes are a prefix of the written ones, and once the
transport has loaded `finished` it has copied and acknowledged all of them. -/
theorem copied_prefix_written (path : Path) (buffer : Bytes) (actions : List Action) (s : State)
    (h : Lib.run (step path) (init buffer) actions = some s) :
    s.copied <+: s.written ∧
      (s.seenFinished = true → s.acked = s.written ∧ s.copied = s.written) := by
  have hi : Inv path s :=
    Lib.run_invariant (fun _ _ _ hi hstep => hi.step hstep) actions _ s (init_inv path buffer) h
  exact ⟨hi.copied_isPrefix, hi.copied_of_finished⟩

/-- One byte written, published by the final flush, copied and acknowledged. -/
def oneByte : List Action :=
  [Action.start, .write [[1]] 1] ++ List.replicate 2 (Action.produce true) ++
  [Action.succeed] ++ List.replicate 8 (Action.produce true) ++
  [Action.produceInto 5] ++ List.replicate 9 (Action.transport true 5) ++
  List.replicate 7 (Action.produce true) ++
  [Action.complete, .produceInto 5, .transport true 0]

theorem copied_prefix_written_oneByte :
    ∃ s, Lib.run (step .http2) (init [0]) oneByte = some s ∧
      s.written = [1] ∧ s.copied = s.written := by
  have hrun : (Lib.run (step .http2) (init [0]) oneByte).map
      (fun s => (s.seenFinished, s.written)) = some (true, [1]) := by
    decide +kernel
  obtain ⟨s, hs, hfields⟩ := Option.map_eq_some_iff.mp hrun
  obtain ⟨hseen, hwritten⟩ := Prod.mk.inj hfields
  exact ⟨s, hs, hwritten, ((copied_prefix_written .http2 [0] oneByte s hs).2 hseen).2⟩

end Zhtps.ResponseStream
