import Zhtps.ResponseStream.Delivery

/-!
The assertion in `consume`.  The transport acknowledges a publication because of an earlier load of
`ready`, while `fail` stores `failed` without the mutex.  Cancellation alone never opens that window:
only the transport cancels, and it looks at the flag (HTTP/1) or at `closed` (HTTP/2) before it goes
on to `consume`.  An eventfd write that fails inside `flush` does: the producer gives up a
publication that stands, `runStream` calls `fail`, and the assertion fires.
-/

namespace Zhtps.ResponseStream

/-- The transport goes on to `consume` without loading `publication` again. -/
def Committed (s : State) : Prop :=
  match s.transport with
  | .loaded .ready room => goal s room = s.publishedLen
  | .copying _ goal len => goal = len
  | .consumeLock | .consumeAssert => True
  | _ => s.chunk = true

/-- `fail` never stores while the transport is committed to an uncanceled publication. -/
def FailsReleased (s : State) (action : Action) : Prop :=
  s.producer = .fail → (∃ wake, action = .produce wake) → Committed s → s.canceled = true

/-- What the cancellation flag says at each step of the transport. -/
def CancelOk (path : Path) (s : State) : Prop :=
  match s.transport with
  | .idle => path = .http2 → s.canceled = true → s.closed = true
  | .load _ | .loaded .. | .copying .. => path = .http2 → s.canceled = false
  | .consumeLock | .consumeAssert | .consumeStore | .consumeSignal | .consumeUnlock =>
      s.canceled = false
  | .cancelLock close | .cancelSignal close | .cancelUnlock close => path = .http2 → close = true
  | .ended => True
  | .panicked => False

structure ConsumeInv (path : Path) (s : State) : Prop where
  inv : Inv path s
  ready : Committed s → s.canceled = false → s.publication = .ready
  cancelOk : CancelOk path s

theorem Committed.held {s : State} (h : Committed s) : Held s := by
  unfold Committed at h
  unfold Held
  cases ht : s.transport with
  | loaded seen room => cases seen <;> simp_all
  | _ => simp_all

theorem init_consumeInv (path : Path) (buffer : Bytes) : ConsumeInv path (init buffer) := by
  refine ⟨init_inv path buffer, ?_, ?_⟩
  · simp [init, Committed]
  · simp [init, CancelOk]

namespace ConsumeInv

variable {path : Path} {s s' : State}

theorem of_producer (hc : ConsumeInv path s) (hinv : Inv path s') (h : ProducerStep s s')
    (hfail : s.producer = .fail → Committed s → s.canceled = true) : ConsumeInv path s' := by
  refine ⟨hinv, ?_, ?_⟩
  · intro hcommitted hcanceled
    rw [h.canceled] at hcanceled
    have hheld : Held s := h.held_iff.mp hcommitted.held
    have hold : Committed s := by
      obtain ⟨-, hlen⟩ := h.stable hheld
      unfold Committed goal at hcommitted ⊢
      rw [h.transport, h.chunk, h.offset, hlen] at hcommitted
      exact hcommitted
    rcases h.publication hheld with hpub | hpub | hp
    · rw [hpub]
      exact hc.ready hold hcanceled
    · exact hpub
    · rw [hfail hp hold] at hcanceled
      cases hcanceled
  · have hold := hc.cancelOk
    unfold CancelOk at hold ⊢
    rw [h.transport, h.canceled, h.closed]
    exact hold

/-- Once the flag is stored nothing is owed: `cancel` leads back to a closed or canceled rest. -/
theorem of_cancel {close : Bool} (hinv : Inv path (cancel s close))
    (hclose : path = .http2 → close = true) : ConsumeInv path (cancel s close) :=
  ⟨hinv, nofun, hclose⟩

/-- Going to rest with nothing to acknowledge. -/
theorem of_idle (hinv : Inv path s) (ht : s.transport = .idle ∨ s.transport = .ended)
    (hchunk : s.chunk = false) (hcanceled : path = .http2 → s.canceled = false) :
    ConsumeInv path s := by
  refine ⟨hinv, ?_, ?_⟩
  · rcases ht with ht | ht <;> simp [Committed, ht, hchunk]
  · rcases ht with ht | ht
    · simp only [CancelOk, ht]
      intro hp hyes
      rw [hcanceled hp] at hyes
      cases hyes
    · simp [CancelOk, ht]

theorem loaded_step (hc : ConsumeInv path s) {seen : Publication} {room : Option Nat} {ok : Bool}
    {count : Nat} (ht : s.transport = .loaded seen room)
    (h : stepTransport path s ok count = some s') : ConsumeInv path s' := by
  have hinv := hc.inv.transport_step h
  have hready := hc.ready
  have hcancel := hc.cancelOk
  have htok := hc.inv.transportOk
  simp only [CancelOk, ht] at hcancel
  simp only [TransportOk, ht] at htok
  simp only [stepTransport, ht] at h
  cases seen with
  | writing =>
      obtain rfl := Option.some.inj h
      exact of_idle hinv (Or.inl rfl) htok.1 hcancel
  | ready =>
      simp only at h
      split at h
      · obtain rfl := Option.some.inj h
        refine ⟨hinv, ?_, hcancel⟩
        simpa [Committed, ht] using hready
      · split at h <;> obtain rfl := Option.some.inj h
        · exact of_cancel hinv fun _ => rfl
        · exact of_idle hinv (Or.inl rfl) htok.1 hcancel
  | finished =>
      simp only at h
      split at h <;> obtain rfl := Option.some.inj h
      · exact of_idle hinv (Or.inl rfl) htok.1 hcancel
      · exact of_idle hinv (Or.inr rfl) htok.1 hcancel
  | failed =>
      simp only at h
      split at h <;> obtain rfl := Option.some.inj h
      · exact of_cancel hinv fun _ => rfl
      · exact of_idle hinv (Or.inl rfl) htok.1 hcancel

theorem transport_step (hc : ConsumeInv path s) {ok : Bool} {count : Nat}
    (h : stepTransport path s ok count = some s') : ConsumeInv path s' := by
  have hinv := hc.inv.transport_step h
  have hready := hc.ready
  have hcancel := hc.cancelOk
  have htok := hc.inv.transportOk
  have hpath := hc.inv.pathOk
  unfold CancelOk at hcancel
  unfold Committed at hready
  unfold TransportOk at htok
  cases ht : s.transport with
  | idle | ended | panicked => simp [stepTransport, ht] at h
  | load room =>
      simp only [stepTransport, ht, Option.some.injEq] at h
      simp only [ht] at hcancel htok
      subst h
      refine ⟨hinv, ?_, hcancel⟩
      cases hp : s.publication <;> simp [Committed, htok.1]
  | loaded seen room => exact hc.loaded_step ht h
  | copying done goal len =>
      simp only [stepTransport, ht] at h
      simp only [ht] at hcancel htok hready
      obtain ⟨hchunk, -, -, -, hwhole⟩ := htok
      split at h <;> obtain rfl := Option.some.inj h
      · exact ⟨hinv, hready, hcancel⟩
      · cases path with
        | http1 =>
            refine ⟨hinv, ?_, ?_⟩
            · exact fun _ hcanceled => hready (hwhole rfl) hcanceled
            · simp [CancelOk, copiedAll]
        | http2 =>
            simp only [copiedAll] at hinv ⊢
            split
            · rename_i hexhausted
              refine ⟨?_, fun _ hcanceled => hready hexhausted hcanceled, hcancel rfl⟩
              rwa [if_pos hexhausted] at hinv
            · rename_i hmore
              refine ⟨?_, ?_, ?_⟩
              · rwa [if_neg hmore] at hinv
              · simp [Committed, hchunk]
              · simp [CancelOk, hcancel rfl]
  | consumeLock =>
      simp only [stepTransport, ht] at h
      simp only [ht] at hcancel hready
      split at h
      · obtain rfl := Option.some.inj h
        exact ⟨hinv, hready, hcancel⟩
      · cases h
  | consumeAssert =>
      simp only [stepTransport, ht] at h
      simp only [ht] at hcancel hready htok
      rw [if_pos (hready trivial hcancel)] at h
      obtain rfl := Option.some.inj h
      exact ⟨hinv, by simp [Committed, htok.1], hcancel⟩
  | consumeStore =>
      simp only [stepTransport, ht, Option.some.injEq] at h
      simp only [ht] at hcancel htok
      subst h
      exact ⟨hinv, by simp [Committed, htok.1], hcancel⟩
  | consumeSignal =>
      simp only [stepTransport, ht, Option.some.injEq] at h
      simp only [ht] at hcancel htok
      subst h
      exact ⟨hinv, by simp [Committed, htok.1], hcancel⟩
  | consumeUnlock =>
      simp only [stepTransport, ht, Option.some.injEq] at h
      simp only [ht] at hcancel htok
      subst h
      refine ⟨hinv, ?_, ?_⟩
      · cases path <;> simp [Committed, afterConsume, htok.1]
      · cases path <;> simp [CancelOk, afterConsume, hcancel]
  | cancelLock close =>
      simp only [stepTransport, ht] at h
      simp only [ht] at hcancel hready
      split at h
      · obtain rfl := Option.some.inj h
        exact ⟨hinv, hready, hcancel⟩
      · cases h
  | cancelSignal close =>
      simp only [stepTransport, ht, Option.some.injEq] at h
      simp only [ht] at hcancel hready
      subst h
      exact ⟨hinv, hready, hcancel⟩
  | cancelUnlock close =>
      simp only [stepTransport, ht, Option.some.injEq] at h
      simp only [ht] at hcancel hready
      subst h
      refine ⟨hinv, hready, ?_⟩
      intro hp _
      simp [hcancel hp]

theorem sent_step (hc : ConsumeInv .http1 s) (hinv : Inv .http1 (sent s))
    (ht : s.transport = .idle) : ConsumeInv .http1 (sent s) := by
  have hready := hc.ready
  simp only [Committed, ht] at hready
  unfold sent at hinv ⊢
  split
  · rename_i hclosed
    rw [if_pos hclosed] at hinv
    refine ⟨hinv, ?_, ?_⟩
    · simpa [Committed, ht] using hready
    · simp [CancelOk, ht]
  · rename_i hopen
    rw [if_neg hopen] at hinv
    split
    · rename_i hcanceled
      rw [if_pos hcanceled] at hinv
      exact of_cancel hinv nofun
    · rename_i hcanceled
      rw [if_neg hcanceled] at hinv
      split
      · rename_i hchunk
        rw [if_pos hchunk] at hinv
        exact ⟨hinv, fun _ => hready hchunk, (Bool.not_eq_true _).mp hcanceled⟩
      · rename_i hchunk
        rw [if_neg hchunk] at hinv
        exact ⟨hinv, fun hcommitted => absurd hcommitted hchunk, nofun⟩

theorem step (hc : ConsumeInv path s) {action : Action} (hguard : FailsReleased s action)
    (h : step path s action = some s') : ConsumeInv path s' := by
  have hinv := hc.inv.step h
  cases action with
  | start | expire | write | flush | succeed | error =>
      refine hc.of_producer hinv (hc.inv.call_step rfl h).1 ?_
      intro hp
      simp [ResponseStream.step, hp] at h
  | produce wake =>
      exact hc.of_producer hinv (hc.inv.producer_step h).1 fun hp => hguard hp ⟨wake, rfl⟩
  | spurious =>
      obtain rfl := Option.some.inj h
      exact ⟨hinv, hc.ready, hc.cancelOk⟩
  | transport ok count => exact hc.transport_step h
  | pump =>
      simp only [ResponseStream.step] at h
      split at h
      · rename_i hg
        obtain ⟨rfl, -, -, -, hchunk⟩ := hg
        obtain rfl := Option.some.inj h
        have hnone : s.chunk = false := by simpa using hchunk
        exact ⟨hinv, by simp [Committed, hnone], by rintro ⟨⟩⟩
      · cases h
  | produceInto room =>
      simp only [ResponseStream.step] at h
      split at h
      · rename_i hg
        obtain ⟨rfl, ht, hopen⟩ := hg
        obtain rfl := Option.some.inj h
        have hnone : s.chunk = false := hc.inv.pathOk
        have hcancel := hc.cancelOk
        simp only [CancelOk, ht] at hcancel
        refine ⟨hinv, by simp [Committed, hnone], fun _ => ?_⟩
        -- an HTTP/2 stream at rest is canceled only when it is closed
        rw [← Bool.not_eq_true]
        intro hcanceled
        rw [hcancel trivial hcanceled] at hopen
        cases hopen
      · cases h
  | sent =>
      simp only [ResponseStream.step] at h
      split at h
      · rename_i hg
        obtain ⟨rfl, ht, -⟩ := hg
        obtain rfl := Option.some.inj h
        exact hc.sent_step hinv ht
      · cases h
  | timeout =>
      simp only [ResponseStream.step] at h
      split at h
      · rename_i hg
        obtain ⟨rfl, -⟩ := hg
        obtain rfl := Option.some.inj h
        exact of_cancel hinv (by rintro ⟨⟩)
      · cases h
  | close =>
      simp only [ResponseStream.step] at h
      split at h
      · obtain rfl := Option.some.inj h
        exact of_cancel hinv fun _ => rfl
      · cases h
  | complete =>
      simp only [ResponseStream.step] at h
      split at h
      · obtain rfl := Option.some.inj h
        exact ⟨hinv, hc.ready, hc.cancelOk⟩
      · cases h

end ConsumeInv

/-- On both paths the assertion in `consume` holds along every run in which `fail` never stores
while the transport is committed to a publication that is not canceled. -/
theorem consume_ready (path : Path) (buffer : Bytes) (actions : List Action) (s : State)
    (hguard : Lib.Guarded (step path) FailsReleased (init buffer) actions)
    (h : Lib.run (step path) (init buffer) actions = some s) :
    (s.transport = .consumeAssert → s.publication = .ready) ∧ s.transport ≠ .panicked := by
  have hc : ConsumeInv path s :=
    Lib.run_invariant_of_guarded (fun _ _ _ hc hg hstep => hc.step hg hstep) actions _ s
      (init_consumeInv path buffer) hguard h
  have hcancel := hc.cancelOk
  refine ⟨?_, ?_⟩
  · intro ht
    simp only [CancelOk, ht] at hcancel
    exact hc.ready (by simp [Committed, ht]) hcancel
  · intro ht
    simp only [CancelOk, ht] at hcancel

/-- One byte written, flushed and copied, up to the assertion. -/
def oneFlush : List Action :=
  [Action.start, .write [[1]] 1, .produce true, .produce true, .flush] ++
  List.replicate 8 (Action.produce true) ++
  [Action.pump] ++ List.replicate 4 (Action.transport true 1) ++ [Action.sent, .transport true 0]

theorem consume_ready_oneFlush :
    ∃ s, Lib.run (step .http1) (init [0]) oneFlush = some s ∧
      s.transport = .consumeAssert ∧ s.publication = .ready := by
  have hrun : (Lib.run (step .http1) (init [0]) oneFlush).map (fun s => s.transport) =
      some .consumeAssert := by
    decide +kernel
  have hguard : Lib.Guarded (step .http1) FailsReleased (init [0]) oneFlush := by
    refine Lib.guarded_of_accepts (fun s _ => decide (s.producer ≠ .fail)) ?_ oneFlush _ ?_
    · intro s action hnot hp
      exact absurd hp (of_decide_eq_true hnot)
    · decide +kernel
  obtain ⟨s, hs, ht⟩ := Option.map_eq_some_iff.mp hrun
  exact ⟨s, hs, ht, (consume_ready .http1 [0] oneFlush s hguard hs).1 ht⟩

/-- The producer has stored `ready`, the transport has read it, and then the eventfd write fails. -/
def wakeUnavailable (path : Path) : List Action :=
  [Action.start, .write [[1]] 1, .produce true, .produce true, .flush] ++
  List.replicate 5 (Action.produce true) ++
  (match path with
    | .http1 => [Action.pump] ++ List.replicate 4 (Action.transport true 1) ++
        [Action.produce false, .produce true, .produce true, .sent]
    | .http2 => [Action.produceInto 1] ++ List.replicate 4 (Action.transport true 1) ++
        [Action.produce false, .produce true, .produce true]) ++
  [Action.transport true 0, .transport true 0]

theorem consume_fires_wakeUnavailable :
    (Lib.run (step .http1) (init [0]) (wakeUnavailable .http1)).map (fun s => s.transport) =
        some .panicked ∧
      (Lib.run (step .http2) (init [0]) (wakeUnavailable .http2)).map (fun s => s.transport) =
        some .panicked := by
  constructor <;> decide +kernel

end Zhtps.ResponseStream
