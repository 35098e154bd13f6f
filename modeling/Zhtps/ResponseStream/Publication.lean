import Zhtps.ResponseStream.Delivery

/-!
What a transport may rely on between two of its own steps: a publication that it holds does not
change, one that stands is not exhausted, and the producer only adds to what it has written.
-/

namespace Zhtps.ResponseStream

/-- A publication that stands, or is held, has bytes that are not copied. -/
structure Unspent (s : State) : Prop where
  filled : match s.producer with
    | .setLength _ => 0 < s.stop
    | .publish _ => 0 < s.publishedLen
    | _ => True
  offset : s.publication = .ready ∨ Held s → s.offset < s.publishedLen

theorem init_unspent (buffer : Bytes) : Unspent (init buffer) := by
  refine ⟨trivial, ?_⟩
  rintro (h | h)
  · cases h
  · simp [init, Held] at h

/-- The actions that a transport does not take itself. -/
def Action.outside : Action → Bool
  | .transport .. | .produceInto _ | .pump | .sent | .timeout => false
  | _ => true

/-- What they leave to the transport. -/
structure Outside (s s' : State) : Prop where
  transport : s'.transport = s.transport ∨
    s.transport = .idle ∧ ∃ close, s'.transport = .cancelLock close
  offset : s'.offset = s.offset
  chunk : s'.chunk = s.chunk
  copied : s'.copied = s.copied
  seen : s'.seenFinished = s.seenFinished
  busy : s.transport ≠ .idle → s'.busy = s.busy
  written : s.written <+: s'.written
  stable : Held s → s'.buffer = s.buffer ∧ s'.publishedLen = s.publishedLen

section Steps

variable {path : Path} {s s' : State}

theorem ProducerStep.outside (h : ProducerStep s s') (hbusy : s'.busy = s.busy)
    (hwritten : s.written <+: s'.written) : Outside s s' :=
  ⟨Or.inl h.transport, h.offset, h.chunk, h.copied, h.seen, fun _ => hbusy, hwritten, h.stable⟩

/-- What a step of the producer writes and publishes. -/
theorem stepProducer_frame {wake : Bool} (h : stepProducer s wake = some s') :
    s'.busy = s.busy ∧ s.written <+: s'.written := by
  unfold stepProducer at h
  split at h <;> try split at h
  all_goals first
    | cases h; done
    | (obtain rfl := Option.some.inj h; exact ⟨rfl, List.prefix_refl _⟩)
    | (obtain rfl := Option.some.inj h; exact ⟨rfl, List.prefix_append _ _⟩)

theorem stepTransport_frame {ok : Bool} {count : Nat} (h : stepTransport path s ok count = some s') :
    s'.written = s.written ∧ (s.seenFinished = true → s'.seenFinished = true) := by
  unfold stepTransport at h
  split at h <;> try split at h
  all_goals try split at h
  all_goals first
    | cases h; done
    | (obtain rfl := Option.some.inj h; exact ⟨rfl, id⟩)
    | (obtain rfl := Option.some.inj h; exact ⟨rfl, fun hseen => by simp [hseen]⟩)
    | (obtain rfl := Option.some.inj h; unfold copiedAll; split <;> try split)
  all_goals exact ⟨rfl, id⟩

theorem outside_step (hi : Inv path s) {action : Action} (haction : action.outside = true)
    (h : step path s action = some s') : Outside s s' := by
  cases action with
  | transport | produceInto | pump | sent | timeout => cases haction
  | produce wake =>
      obtain ⟨hbusy, hwritten⟩ := stepProducer_frame h
      exact (hi.producer_step h).1.outside hbusy hwritten
  | start | expire | write | flush | succeed | error =>
      have hstep := (hi.call_step rfl h).1
      simp only [step] at h
      split at h
      · obtain rfl := Option.some.inj h
        exact hstep.outside rfl (List.prefix_refl _)
      · cases h
  | spurious =>
      obtain rfl := Option.some.inj h
      exact ⟨Or.inl rfl, rfl, rfl, rfl, rfl, fun _ => rfl, List.prefix_refl _, fun _ => ⟨rfl, rfl⟩⟩
  | close =>
      simp only [step] at h
      split at h
      next hidle =>
        obtain rfl := Option.some.inj h
        exact ⟨Or.inr ⟨hidle, true, rfl⟩, rfl, rfl, rfl, rfl, fun _ => rfl, List.prefix_refl _,
          fun _ => ⟨rfl, rfl⟩⟩
      next => cases h
  | complete =>
      simp only [step] at h
      split at h
      next hguard =>
        obtain rfl := Option.some.inj h
        exact ⟨Or.inl rfl, rfl, rfl, rfl, rfl, fun hbusy => absurd hguard.1 hbusy,
          List.prefix_refl _, fun _ => ⟨rfl, rfl⟩⟩
      next => cases h

namespace Unspent

/-- A step after which no other publication stands or is held. -/
theorem of_same (h : Unspent s) (hfilled : match s'.producer with
      | .setLength _ => 0 < s'.stop
      | .publish _ => 0 < s'.publishedLen
      | _ => True)
    (hlen : s'.publishedLen = s.publishedLen) (hoffset : s'.offset = s.offset)
    (hready : s'.publication = .ready ∨ Held s' → s.publication = .ready ∨ Held s) :
    Unspent s' := by
  refine ⟨hfilled, fun hstands => ?_⟩
  rw [hoffset, hlen]
  exact h.offset (hready hstands)

/-- A step of the producer's program counter alone. -/
theorem of_pc (h : Unspent s) {p : Producer} {mutex : Option Thread} (hfilled : match p with
      | .setLength _ => 0 < s.stop
      | .publish _ => 0 < s.publishedLen
      | _ => True) :
    Unspent { s with producer := p, mutex := mutex } :=
  h.of_same hfilled rfl rfl id

theorem producer_step (hi : Inv path s) (h : Unspent s) {wake : Bool}
    (hstep : stepProducer s wake = some s') : Unspent s' := by
  have hheld := (hi.producer_step hstep).1.held_iff
  have hok := hi.producerOk
  have hfilled := h.filled
  unfold ProducerOk at hok
  unfold stepProducer at hstep
  cases hp : s.producer with
  | setLength next =>
      simp only [hp] at hstep hok hfilled
      obtain rfl := Option.some.inj hstep
      refine ⟨hfilled, ?_⟩
      rintro (hready | hheld')
      · exact absurd (hok.1.publication.symm.trans hready) nofun
      · exact absurd (hheld.mp hheld') hok.1.held
  | publish next =>
      simp only [hp] at hstep hok hfilled
      obtain rfl := Option.some.inj hstep
      refine ⟨trivial, fun _ => ?_⟩
      show s.offset < s.publishedLen
      rw [offset_of_not_held hok.1.1.held]
      exact hfilled
  | checkEmpty next =>
      simp only [hp] at hstep
      split at hstep <;> obtain rfl := Option.some.inj hstep
      · exact h.of_pc trivial
      next hempty => exact h.of_pc (Nat.pos_of_ne_zero hempty)
  | finish | fail =>
      simp only [hp] at hstep
      obtain rfl := Option.some.inj hstep
      exact h.of_same trivial rfl rfl (Or.imp nofun hheld.mp)
  | copying rest pos =>
      cases rest <;> simp only [hp] at hstep <;> obtain rfl := Option.some.inj hstep
      · exact h.of_same trivial rfl rfl id
      · exact h.of_same trivial rfl rfl (Or.imp id hheld.mp)
  | unlock next ok =>
      cases ok <;> simp only [hp] at hstep <;> obtain rfl := Option.some.inj hstep
      · exact h.of_pc trivial
      · refine h.of_pc ?_
        cases next <;> trivial
  | queued | running | wait _ | returned => simp [hp] at hstep
  | clear next | notifyFailed =>
      simp only [hp] at hstep
      obtain rfl := Option.some.inj hstep
      exact h.of_same trivial rfl rfl id
  | lock next | relock next =>
      simp only [hp] at hstep
      split at hstep
      · obtain rfl := Option.some.inj hstep
        exact h.of_pc trivial
      · cases hstep
  | _ =>
      simp only [hp] at hstep
      split at hstep <;> obtain rfl := Option.some.inj hstep <;> exact h.of_pc trivial

/-- A waiting producer has published already. -/
theorem filled_signal (h : Unspent s) : match signal s.producer with
    | .setLength _ => 0 < s.stop
    | .publish _ => 0 < s.publishedLen
    | _ => True := by
  have hfilled := h.filled
  cases hp : s.producer <;> simp only [hp] at hfilled <;> exact hfilled

theorem outside_step (hi : Inv path s) (h : Unspent s) {action : Action}
    (haction : action.outside = true) (hstep : step path s action = some s') : Unspent s' := by
  cases action with
  | transport | produceInto | pump | sent | timeout => cases haction
  | produce wake => exact h.producer_step hi hstep
  | start | expire | flush | succeed | error =>
      simp only [step] at hstep
      split at hstep
      · obtain rfl := Option.some.inj hstep
        exact h.of_pc trivial
      · cases hstep
  | write data splat =>
      simp only [step] at hstep
      split at hstep
      · obtain rfl := Option.some.inj hstep
        refine h.of_pc ?_
        by_cases hfits : s.stop + (splatBytes data splat).length ≤ s.buffer.length
        · rw [write, if_pos hfits]
          trivial
        · rw [write, if_neg hfits]
          trivial
      · cases hstep
  | spurious =>
      obtain rfl := Option.some.inj hstep
      exact h.of_same h.filled_signal rfl rfl id
  | close =>
      simp only [step] at hstep
      split at hstep
      next hidle =>
        obtain rfl := Option.some.inj hstep
        refine h.of_same h.filled rfl rfl (Or.imp id fun hheld => ?_)
        simpa [Held, hidle, cancel] using hheld
      next => cases hstep
  | complete =>
      simp only [step] at hstep
      split at hstep
      · obtain rfl := Option.some.inj hstep
        exact h.of_same h.filled rfl rfl id
      · cases hstep

theorem produceInto_step (h : Unspent s) {room : Nat}
    (hstep : step path s (.produceInto room) = some s') : Unspent s' := by
  simp only [step] at hstep
  split at hstep
  next hguard =>
    obtain rfl := Option.some.inj hstep
    exact h.of_same h.filled rfl rfl (Or.imp id fun hh => by simpa [Held, hguard.2.1] using hh)
  next => cases hstep

/-- A callback may go back to rest without looking further. -/
theorem loaded_idle (hi : Inv .http2 s) (h : Unspent s) {seen : Publication} {room : Option Nat}
    (ht : s.transport = .loaded seen room) :
    Inv .http2 { s with transport := .idle } ∧ Unspent { s with transport := .idle } := by
  have hrest : s.chunk = true ∨ 0 < s.offset → Held s := by cases seen <;> simp [Held, ht]
  have hprogress : progress s = if s.chunk then s.publishedLen else s.offset := by
    simp [progress, ht]
  exact ⟨hi.of_rest hrest hprogress (Or.inl rfl), h.of_same h.filled rfl rfl (Or.imp id hrest)⟩

theorem loaded_step (h : Unspent s) {seen : Publication} {room : Option Nat} {ok : Bool}
    {count : Nat} (ht : s.transport = .loaded seen room)
    (hstep : stepTransport .http2 s ok count = some s') : Unspent s' := by
  have hrest : s.chunk = true ∨ 0 < s.offset → Held s := by cases seen <;> simp [Held, ht]
  have hidle : ∀ {t : Transport}, t = .idle ∨ t = .ended → Unspent { s with transport := t } := by
    rintro t (rfl | rfl) <;> exact h.of_same h.filled rfl rfl (Or.imp id hrest)
  simp only [stepTransport, ht] at hstep
  cases seen with
  | writing => exact Option.some.inj hstep ▸ hidle (Or.inl rfl)
  | ready =>
      simp only [reduceCtorEq, if_false] at hstep
      split at hstep <;> obtain rfl := Option.some.inj hstep
      · exact h.of_same h.filled rfl rfl (Or.imp id fun _ => by simp [Held, ht])
      · exact hidle (Or.inl rfl)
  | finished =>
      simp only at hstep
      split at hstep <;> obtain rfl := Option.some.inj hstep
      · exact hidle (Or.inl rfl)
      · exact hidle (Or.inr rfl)
  | failed => exact Option.some.inj hstep ▸ hidle (Or.inl rfl)

theorem copying_step (hi : Inv .http2 s) (h : Unspent s) {done goal len : Nat} {ok : Bool}
    {count : Nat} (ht : s.transport = .copying done goal len)
    (hstep : stepTransport .http2 s ok count = some s') : Unspent s' := by
  have hheld : Held s := by simp [Held, ht]
  have htok := hi.transportOk
  simp only [TransportOk, ht] at htok
  have hroom := h.offset (Or.inr hheld)
  simp only [stepTransport, ht] at hstep
  split at hstep <;> obtain rfl := Option.some.inj hstep
  · exact h.of_same h.filled rfl rfl fun _ => Or.inr hheld
  · unfold copiedAll
    simp only
    split
    · exact ⟨h.filled, fun _ => Nat.zero_lt_of_lt hroom⟩
    next hmore =>
      refine ⟨h.filled, fun _ => ?_⟩
      show goal < s.publishedLen
      omega

theorem transport_step (hi : Inv .http2 s) (h : Unspent s) {ok : Bool} {count : Nat}
    (hstep : stepTransport .http2 s ok count = some s') : Unspent s' := by
  have htok := hi.transportOk
  unfold TransportOk at htok
  cases ht : s.transport with
  | idle | ended | panicked => simp [stepTransport, ht] at hstep
  | loaded seen room => exact h.loaded_step ht hstep
  | copying done goal len => exact h.copying_step hi ht hstep
  | load room =>
      simp only [stepTransport, ht] at hstep
      obtain rfl := Option.some.inj hstep
      refine h.of_same h.filled rfl rfl ?_
      cases hp : s.publication <;> simp [Held, ht]
  | consumeLock =>
      simp only [stepTransport, ht] at hstep
      split at hstep
      · obtain rfl := Option.some.inj hstep
        exact h.of_same h.filled rfl rfl (Or.imp id fun _ => by simp [Held, ht])
      · cases hstep
  | cancelLock close =>
      simp only [stepTransport, ht] at hstep
      split at hstep
      · obtain rfl := Option.some.inj hstep
        exact h.of_same h.filled rfl rfl (Or.imp id fun hh => by simpa [Held, ht] using hh)
      · cases hstep
  | consumeAssert =>
      simp only [stepTransport, ht] at hstep
      split at hstep <;> obtain rfl := Option.some.inj hstep <;>
        exact h.of_same h.filled rfl rfl (Or.imp id fun _ => by simp [Held, ht])
  | consumeStore =>
      simp only [stepTransport, ht] at hstep htok
      obtain rfl := Option.some.inj hstep
      exact ⟨h.filled, fun hstands => absurd hstands (by simp [Held, htok])⟩
  | consumeUnlock | cancelUnlock close =>
      simp only [stepTransport, ht] at hstep
      obtain rfl := Option.some.inj hstep
      exact h.of_same h.filled rfl rfl
        (Or.imp id fun hh => by simpa [Held, ht, afterConsume] using hh)
  | consumeSignal | cancelSignal close =>
      simp only [stepTransport, ht] at hstep
      obtain rfl := Option.some.inj hstep
      refine h.of_same ?_ rfl rfl (Or.imp id fun hh => by simpa [Held, ht] using hh)
      exact h.filled_signal

end Unspent

end Steps

end Zhtps.ResponseStream
