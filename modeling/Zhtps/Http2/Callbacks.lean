import Zhtps.Http2.Produce

/-!
The invariant of the callbacks of a response body: every one answers what the body is owed as it
finds it, and the payload so far begins the body's text.

It has a part for every kind of body.  A callback over a publication takes many steps, and its part
says at each of them what the destination holds.
-/

namespace Zhtps.Produce

open Lib
open ResponseStream (Held Inv Unspent Outside goal stepTransport)

variable {σ : Type}

/-! ### Answers -/

theorem delivered_snoc (calls : List Call) (call : Call) :
    delivered (calls ++ [call]) = delivered calls ++ call.answer.bytes := by
  simp [delivered]

theorem View.answer_broken {v : View} (hbroken : v.broken = true) (room : Nat) :
    v.answer room = .error := by
  rw [View.answer, if_pos hbroken]

theorem View.answer_end {v : View} (hbroken : v.broken = false) (hrest : v.rest = []) (room : Nat) :
    v.answer room = if !v.ended then .deferred
      else if v.declared.all (· == v.delivered) then .data [] true
      else .error := by
  rw [View.answer, hbroken, if_neg Bool.false_ne_true, if_pos hrest]

theorem View.answer_rest {v : View} (hbroken : v.broken = false) (hrest : v.rest ≠ [])
    (room : Nat) : v.answer room =
      if v.declared.any (· < v.delivered + min room v.rest.length) then .error
      else .data (v.rest.take room) (v.buffered && v.rest.length ≤ room) := by
  rw [View.answer, hbroken, if_neg Bool.false_ne_true, if_neg hrest, List.length_take]

/-- Whatever is owed stays within a declared length. -/
theorem View.answer_le {v : View} {len : Nat} (hdeclared : v.declared = some len)
    (hle : v.delivered ≤ len) (room : Nat) :
    v.delivered + (v.answer room).bytes.length ≤ len := by
  unfold View.answer
  split
  · exact hle
  · split
    · split <;> try split
      all_goals exact hle
    · split
      · exact hle
      next hfits =>
        rw [hdeclared, Option.any_some, decide_eq_true_eq, Nat.not_lt] at hfits
        exact hfits

/-- A callback after which the body is at its end: the whole of it is delivered, whether or not that
is an error. -/
def Call.concludes (call : Call) : Bool :=
  (match call.answer with
    | .data _ eof => eof
    | _ => false) ||
  (call.view.ended && call.view.rest.isEmpty && !call.view.broken)

/-- Each callback found the bytes behind those delivered, answered what the body was owed, and was
the last one if its answer was final. -/
def Answered (text : Bytes) (calls : List Call) : Prop :=
  ∀ before call after, calls = before ++ call :: after →
    call.view.delivered = (delivered before).length ∧
    delivered before ++ call.view.rest <+: text ∧
    call.answer = call.view.answer call.room ∧
    (call.answer.isFinal = true → after = [])

theorem answered_nil (text : Bytes) : Answered text [] := by
  intro before call after h
  exact absurd h (by simp)

theorem Answered.mono {text text' : Bytes} {calls : List Call} (h : Answered text calls)
    (htext : text <+: text') : Answered text' calls := fun before call after heq =>
  let ⟨hdelivered, hrest, hanswer, hfinal⟩ := h before call after heq
  ⟨hdelivered, hrest.trans htext, hanswer, hfinal⟩

theorem Answered.snoc {text : Bytes} {calls : List Call} (h : Answered text calls)
    (hopen : ∀ last, calls.getLast? = some last → last.answer.isFinal = false) {call : Call}
    (hdelivered : call.view.delivered = (delivered calls).length)
    (hrest : delivered calls ++ call.view.rest <+: text)
    (hanswer : call.answer = call.view.answer call.room) : Answered text (calls ++ [call]) := by
  intro before other after heq
  rcases List.eq_nil_or_concat after with rfl | ⟨after, last, rfl⟩
  · obtain ⟨rfl, hcall⟩ := List.append_inj' heq rfl
    obtain rfl : call = other := List.singleton_inj.mp hcall
    exact ⟨hdelivered, hrest, hanswer, fun _ => rfl⟩
  · rw [List.concat_eq_append, ← List.cons_append, ← List.append_assoc] at heq
    obtain ⟨hcalls, -⟩ := List.append_inj' heq rfl
    obtain ⟨hd, hr, ha, hfinal⟩ := h before other after hcalls
    refine ⟨hd, hr, ha, fun hother => ?_⟩
    have hlast : calls.getLast? = some other := by
      rw [hcalls, hfinal hother, List.getLast?_concat]
    rw [hopen other hlast] at hother
    cases hother

/-! ### The invariant -/

/-- The transport is inside a callback. -/
def InCall : ResponseStream.Transport → Prop
  | .load _ | .loaded .. | .copying .. | .consumeLock | .consumeAssert | .consumeStore
  | .consumeSignal | .consumeUnlock | .panicked => True
  | .idle | .cancelLock _ | .cancelSignal _ | .cancelUnlock _ | .ended => False

/-- What a view says of the response. -/
def View.Declares (v : View) (body : Body) : Prop :=
  ∀ length, body = .stream length → v.declared = length ∧ v.buffered = false

/-- What every callback keeps, whatever the body is. -/
structure Base (app : App σ) (s : Stream σ) : Prop where
  inv : Inv .http2 s.source
  unspent : Unspent s.source
  produced : s.produced = (delivered s.calls).length
  answered : Answered (s.text app) s.calls
  bound : ∀ len, s.body = .stream (some len) → s.produced ≤ len
  declared : ∀ call ∈ s.calls, call.view.broken = true ∨ call.view.Declares s.body

/-- A callback that found a publication, and copies it. -/
structure Copying (length : Option Nat) (s : Stream σ) : Prop where
  declared : s.view.declared = length
  delivered : s.view.delivered = s.produced
  unbuffered : s.view.buffered = false
  whole : s.view.broken = false
  rest : s.view.rest ≠ []
  room : 0 < s.room
  written : Produce.delivered s.calls ++ s.view.rest <+: s.source.written
  fits : ∀ len, length = some len → s.produced + min s.room s.view.rest.length ≤ len

/-- What a load of `publication` has shown. -/
structure Loaded (length : Option Nat) (s : Stream σ) (seen : ResponseStream.Publication) :
    Prop where
  declared : s.view.declared = length
  delivered : s.view.delivered = s.produced
  unbuffered : s.view.buffered = false
  broken : s.view.broken = decide (seen = .failed)
  ended : s.view.ended = decide (seen = .finished ∧ !s.source.busy)
  announced : seen = .finished → s.source.seenFinished = true
  room : 0 < s.room
  written : Produce.delivered s.calls ++ s.view.rest <+: s.source.written
  rest : if seen = .ready then
      s.view.rest.length = s.source.publishedLen - s.source.offset ∧ s.view.rest ≠ []
    else s.view.rest = []

/-- The transport of a published body, at each of its steps. -/
def Publishing (length : Option Nat) (s : Stream σ) : Prop :=
  match s.source.transport with
  | .load room =>
      room = some s.room ∧ 0 < s.room ∧ s.source.copied = delivered s.calls ∧ s.destination = []
  | .loaded seen room =>
      room = some s.room ∧ s.source.copied = delivered s.calls ∧ s.destination = [] ∧
        Loaded length s seen
  | .copying done goal _ =>
      s.source.copied = delivered s.calls ++ s.destination ∧ Copying length s ∧ done ≤ goal ∧
        s.destination.length + (goal - done) = min s.room s.view.rest.length
  | .consumeLock | .consumeAssert | .consumeStore | .consumeSignal | .consumeUnlock | .panicked =>
      s.source.copied = delivered s.calls ++ s.destination ∧ Copying length s ∧
        s.destination.length = min s.room s.view.rest.length
  | .idle | .cancelLock _ | .cancelSignal _ | .cancelUnlock _ | .ended =>
      s.source.copied = delivered s.calls

/-- How far a body has come. -/
def Progress (app : App σ) (s : Stream σ) : Prop :=
  match s.body with
  | .bytes bytes =>
      s.calling = false ∧ s.responseOffset ≤ bytes.length ∧
        delivered s.calls = bytes.take s.responseOffset
  | .stream length =>
      if app.hasResponseStreams then Publishing length s
      else s.calling = false ∧ delivered s.calls ++ s.memory.read s.fragment = s.fragments

theorem progress_bytes {app : App σ} {s : Stream σ} {bytes : Bytes}
    (hbody : s.body = .bytes bytes) :
    Progress app s ↔ s.calling = false ∧ s.responseOffset ≤ bytes.length ∧
      delivered s.calls = bytes.take s.responseOffset := by
  unfold Progress
  rw [hbody]

theorem progress_published {app : App σ} {s : Stream σ} {length : Option Nat}
    (hbody : s.body = .stream length) (hstreams : app.hasResponseStreams = true) :
    Progress app s ↔ Publishing length s := by
  unfold Progress
  rw [hbody]
  simp only [hstreams, if_true]

theorem progress_fragments {app : App σ} {s : Stream σ} {length : Option Nat}
    (hbody : s.body = .stream length) (hstreams : app.hasResponseStreams = false) :
    Progress app s ↔
      s.calling = false ∧ delivered s.calls ++ s.memory.read s.fragment = s.fragments := by
  unfold Progress
  rw [hbody]
  simp only [hstreams, Bool.false_eq_true, if_false]

/-- A step that leaves the other kinds of body alone. -/
structure Still (s s' : Stream σ) : Prop where
  body : s'.body = s.body
  calling : s'.calling = s.calling
  responseOffset : s'.responseOffset = s.responseOffset
  calls : s'.calls = s.calls
  memory : s'.memory = s.memory
  fragment : s'.fragment = s.fragment
  fragments : s'.fragments = s.fragments

theorem Progress.still {app : App σ} {s s' : Stream σ} (h : Progress app s) (hstill : Still s s')
    (hpublishing : ∀ length, app.hasResponseStreams = true → s.body = .stream length →
      Publishing length s → Publishing length s') : Progress app s' := by
  cases hbody : s.body with
  | bytes bytes =>
      rw [progress_bytes hbody] at h
      rw [progress_bytes (hstill.body.trans hbody), hstill.calling, hstill.responseOffset,
        hstill.calls]
      exact h
  | stream length =>
      cases hstreams : app.hasResponseStreams with
      | true =>
          rw [progress_published hbody hstreams] at h
          rw [progress_published (hstill.body.trans hbody) hstreams]
          exact hpublishing length hstreams hbody h
      | false =>
          rw [progress_fragments hbody hstreams] at h
          rw [progress_fragments (hstill.body.trans hbody) hstreams, hstill.calling, hstill.calls,
            hstill.memory, hstill.fragment, hstill.fragments]
          exact h

/-- The body is at its end. -/
def Whole (app : App σ) (s : Stream σ) : Prop :=
  match s.body with
  | .bytes bytes => s.responseOffset = bytes.length
  | .stream _ =>
      if app.hasResponseStreams then s.source.seenFinished = true else s.fragment.len = 0

structure Sound (app : App σ) (s : Stream σ) : Prop where
  base : Base app s
  calling : s.calling = true ↔ InCall s.source.transport
  unfinished : s.calling = true → ∀ last, s.calls.getLast? = some last →
    last.answer.isFinal = false
  whole : ∀ last, s.calls.getLast? = some last → last.concludes = true → Whole app s
  progress : Progress app s

theorem init_sound (app : App σ) (body : Body) (exchange : σ) (memory : Memory UInt8)
    (outputBytes : Slice) (buffer : Bytes) :
    Sound app (init body exchange memory outputBytes buffer) where
  base := {
    inv := ResponseStream.init_inv .http2 buffer
    unspent := ResponseStream.init_unspent buffer
    produced := rfl
    answered := answered_nil _
    bound := fun _ _ => Nat.zero_le _
    declared := nofun }
  calling := ⟨nofun, nofun⟩
  unfinished := nofun
  whole := nofun
  progress := by
    unfold Progress
    cases body with
    | bytes bytes => exact ⟨rfl, Nat.zero_le _, rfl⟩
    | stream length =>
        show if app.hasResponseStreams then _ else _
        split
        · exact rfl
        · exact ⟨rfl, rfl⟩

theorem Base.answer {app : App σ} {s : Stream σ} (h : Base app s)
    (hopen : ∀ last, s.calls.getLast? = some last → last.answer.isFinal = false)
    {view : View} {room : Nat} {result : Result} (hdelivered : view.delivered = s.produced)
    (hdeclared : view.broken = true ∨ view.Declares s.body)
    (hrest : delivered s.calls ++ view.rest <+: s.text app)
    (hreply : s.reply result = view.answer room) : Base app (s.answer view room result) where
  inv := h.inv
  unspent := h.unspent
  produced := by
    show s.produced + _ = (delivered (s.calls ++ [_])).length
    rw [delivered_snoc, List.length_append, h.produced]
  answered := h.answered.snoc hopen (hdelivered.trans h.produced) hrest hreply
  bound := by
    intro len hbody
    show s.produced + (s.reply result).bytes.length ≤ len
    rw [hreply]
    rcases hdeclared with hbroken | hdeclared
    · rw [View.answer, if_pos hbroken]
      exact h.bound len hbody
    · rw [← hdelivered]
      exact View.answer_le (hdeclared (some len) hbody).1 (hdelivered ▸ h.bound len hbody) room
  declared := by
    intro call hcall
    rcases List.mem_append.mp hcall with hold | hnew
    · exact h.declared call hold
    · rw [List.mem_singleton.mp hnew]
      exact hdeclared

section Steps

variable {app : App σ} {s s' : Stream σ} {length : Option Nat}

/-! ### Steps of the others -/

theorem Copying.congr (h : Copying length s) (hview : s'.view = s.view)
    (hproduced : s'.produced = s.produced) (hroom : s'.room = s.room) (hcalls : s'.calls = s.calls)
    (hwritten : s.source.written <+: s'.source.written) : Copying length s' where
  declared := hview ▸ h.declared
  delivered := by rw [hview, hproduced]; exact h.delivered
  unbuffered := hview ▸ h.unbuffered
  whole := hview ▸ h.whole
  rest := hview ▸ h.rest
  room := hroom ▸ h.room
  written := by rw [hcalls, hview]; exact h.written.trans hwritten
  fits := by rw [hproduced, hroom, hview]; exact h.fits

theorem Copying.outside {source : ResponseStream.State} (h : Copying length s)
    (ho : Outside s.source source) : Copying length { s with source } :=
  h.congr rfl rfl rfl rfl ho.written

theorem Loaded.outside {source : ResponseStream.State} {seen : ResponseStream.Publication}
    {room : Option Nat} (ht : s.source.transport = .loaded seen room) (h : Loaded length s seen)
    (ho : Outside s.source source) : Loaded length { s with source } seen where
  declared := h.declared
  delivered := h.delivered
  unbuffered := h.unbuffered
  broken := h.broken
  ended := by
    show s.view.ended = decide (seen = .finished ∧ !source.busy)
    rw [ho.busy (by rw [ht]; nofun)]
    exact h.ended
  announced := fun hfinished => ho.seen.trans (h.announced hfinished)
  room := h.room
  written := h.written.trans ho.written
  rest := by
    have hrest := h.rest
    show if seen = .ready then
        s.view.rest.length = source.publishedLen - source.offset ∧ s.view.rest ≠ []
      else s.view.rest = []
    split at hrest
    next hready =>
      have hheld : Held s.source := by simp [Held, ht, hready]
      rw [if_pos hready, (ho.stable hheld).2, ho.offset]
      exact hrest
    next hother =>
      rw [if_neg hother]
      exact hrest

theorem Publishing.outside {source : ResponseStream.State} (h : Publishing length s)
    (ho : Outside s.source source) : Publishing length { s with source } := by
  unfold Publishing at h ⊢
  simp only at h ⊢
  rcases ho.transport with heq | ⟨hidle, close, hcancel⟩
  · rw [heq, ho.copied]
    cases ht : s.source.transport <;> simp only [ht] at h ⊢
    case loaded seen room => exact ⟨h.1, h.2.1, h.2.2.1, h.2.2.2.outside ht ho⟩
    case copying done goal len => exact ⟨h.1, h.2.1.outside ho, h.2.2⟩
    case consumeLock | consumeAssert | consumeStore | consumeSignal | consumeUnlock | panicked =>
      exact ⟨h.1, h.2.1.outside ho, h.2.2⟩
    all_goals exact h
  · rw [hidle] at h
    rw [hcancel, ho.copied]
    exact h

theorem text_outside {source : ResponseStream.State} (ho : Outside s.source source) :
    s.text app <+: ({ s with source } : Stream σ).text app := by
  unfold Stream.text
  cases s.body with
  | bytes bytes => exact List.prefix_refl _
  | stream length =>
      simp only
      split
      · exact ho.written
      · exact List.prefix_refl _

theorem Sound.outside (h : Sound app s) {action : ResponseStream.Action}
    (haction : action.outside = true) {source : ResponseStream.State}
    (hstep : ResponseStream.step .http2 s.source action = some source) :
    Sound app { s with source } := by
  have ho := ResponseStream.outside_step h.base.inv haction hstep
  exact {
    base := {
      inv := h.base.inv.step hstep
      unspent := h.base.unspent.outside_step h.base.inv haction hstep
      produced := h.base.produced
      answered := h.base.answered.mono (text_outside ho)
      bound := h.base.bound
      declared := h.base.declared }
    calling := by
      refine h.calling.trans ?_
      show InCall s.source.transport ↔ InCall source.transport
      rcases ho.transport with heq | ⟨hidle, close, hcancel⟩
      · rw [heq]
      · rw [hidle, hcancel]
        exact Iff.rfl
    unfinished := h.unfinished
    whole := by
      intro last hlast hconcludes
      have hwhole := h.whole last hlast hconcludes
      unfold Whole at hwhole ⊢
      simp only
      rw [ho.seen]
      exact hwhole
    progress := h.progress.still ⟨rfl, rfl, rfl, rfl, rfl, rfl, rfl⟩
      fun _ _ _ hpublishing => hpublishing.outside ho }

theorem Sound.resume (h : Sound app s) (hstep : s.resume = some s') : Sound app s' := by
  unfold Stream.resume at hstep
  split at hstep
  next hguard =>
    obtain rfl := Option.some.inj hstep
    refine ⟨⟨h.base.inv, h.base.unspent, h.base.produced, h.base.answered, h.base.bound,
      h.base.declared⟩,
      h.calling, h.unfinished, h.whole, ?_⟩
    refine h.progress.still ⟨rfl, rfl, rfl, rfl, rfl, rfl, rfl⟩ fun length _ _ hpublishing => ?_
    -- No callback runs, so that nothing is said of one.
    unfold Publishing at hpublishing ⊢
    simp only [hguard.2.1] at hpublishing ⊢
    exact hpublishing
  next => cases hstep

/-! ### Callbacks -/

theorem Publishing.delivered (h : Publishing length s) : delivered s.calls <+: s.source.copied := by
  unfold Publishing at h
  cases ht : s.source.transport <;> simp only [ht] at h
  case load room => exact h.2.2.1 ▸ List.prefix_refl _
  case loaded seen room => exact h.2.1 ▸ List.prefix_refl _
  case copying | consumeLock | consumeAssert | consumeStore | consumeSignal | consumeUnlock
      | panicked => exact h.1 ▸ List.prefix_append _ _
  all_goals exact h ▸ List.prefix_refl _

theorem Sound.delivered (h : Sound app s) : delivered s.calls <+: s.text app := by
  have hprogress := h.progress
  unfold Stream.text
  cases hbody : s.body with
  | bytes bytes =>
      rw [progress_bytes hbody] at hprogress
      simp only
      rw [hprogress.2.2]
      exact List.take_prefix _ _
  | stream length =>
      cases hstreams : app.hasResponseStreams with
      | true =>
          rw [progress_published hbody hstreams] at hprogress
          simp only [if_true]
          exact hprogress.delivered.trans h.base.inv.copied_isPrefix
      | false =>
          rw [progress_fragments hbody hstreams] at hprogress
          simp only [Bool.false_eq_true, if_false]
          exact hprogress.2 ▸ List.prefix_append _ _

theorem getLast?_answer (view : View) (room : Nat) (result : Result) {last : Call}
    (hlast : (s.answer view room result).calls.getLast? = some last) :
    last = ⟨view, room, s.reply result⟩ := by
  have heq : (s.answer view room result).calls = s.calls ++ [⟨view, room, s.reply result⟩] := rfl
  rw [heq, List.getLast?_concat, Option.some.injEq] at hlast
  exact hlast.symm

theorem isOpen_spec (h : s.isOpen = true) :
    s.calling = false ∧ ∀ last, s.calls.getLast? = some last → last.answer.isFinal = false := by
  unfold Stream.isOpen at h
  simp only [Bool.and_eq_true, Bool.not_eq_true'] at h
  refine ⟨h.1.1, fun last hlast => ?_⟩
  have hfinal := h.2
  rw [hlast] at hfinal
  exact hfinal

/-- A callback that is one step. -/
theorem Base.sound (h : Base app s) (hquiet : ¬InCall s.source.transport)
    (hcalling : s.calling = false)
    (hwhole : ∀ last, s.calls.getLast? = some last → last.concludes = true → Whole app s)
    (hprogress : Progress app s) : Sound app s where
  base := h
  calling := by rw [hcalling]; exact ⟨nofun, fun hin => absurd hin hquiet⟩
  unfinished := by rw [hcalling]; nofun
  whole := hwhole
  progress := hprogress

theorem Base.moved (h : Base app s) (responseOffset : Nat) : Base app { s with responseOffset } :=
  ⟨h.inv, h.unspent, h.produced, h.answered, h.bound, h.declared⟩

theorem callBytes_sound (h : Sound app s) (hquiet : ¬InCall s.source.transport)
    (hopen : ∀ last, s.calls.getLast? = some last → last.answer.isFinal = false) {bytes : Bytes}
    (hbody : s.body = .bytes bytes) {room : Nat} (hroom : 0 < room) :
    Sound app (s.callBytes bytes room) := by
  obtain ⟨-, hle, hdelivered⟩ := (progress_bytes hbody).mp h.progress
  have hpayload : (bytes.drop s.responseOffset).take (min room (bytes.length - s.responseOffset)) =
      (bytes.drop s.responseOffset).take room := by
    rw [← List.length_drop]
    exact (List.take_eq_take_min ..).symm
  have hlength : ((bytes.drop s.responseOffset).take room).length =
      min room (bytes.length - s.responseOffset) := by
    rw [List.length_take, List.length_drop]
  have hend : ∀ n, (({ s with responseOffset := n } : Stream σ).producedEnd) =
      (n == bytes.length) := by
    intro n
    unfold Stream.producedEnd
    simp only [hbody]
  unfold Stream.callBytes
  simp only [hpayload]
  have hmoved := h.base.moved (s.responseOffset + min room (bytes.length - s.responseOffset))
  refine (hmoved.answer hopen ?_ (Or.inr ?_) ?_ ?_).sound hquiet rfl ?_ ?_
  · rfl
  · intro len hstream
    cases hbody.symm.trans hstream
  · have htext : s.text app = bytes := by
      unfold Stream.text
      rw [hbody]
    show Produce.delivered s.calls ++ bytes.drop s.responseOffset <+: s.text app
    rewrite [htext, hdelivered, List.take_append_drop]
    exact List.prefix_refl _
  · show Answer.data _ (_ || _) = _
    rw [hend, hlength]
    by_cases hrest : bytes.drop s.responseOffset = []
    · have hempty : min room (bytes.length - s.responseOffset) = 0 := by
        rw [List.drop_eq_nil_iff] at hrest
        omega
      have hended := View.answer_end (v := s.bytesView bytes) rfl hrest room
      rw [hended, hempty, hrest, List.take_nil]
      rfl
    · have hempty : min room (bytes.length - s.responseOffset) ≠ 0 := by
        rw [List.drop_eq_nil_iff] at hrest
        omega
      have heof : (s.responseOffset + min room (bytes.length - s.responseOffset) == bytes.length) =
          decide ((bytes.drop s.responseOffset).length ≤ room) := by
        rw [List.length_drop, Bool.eq_iff_iff, beq_iff_eq, decide_eq_true_eq]
        omega
      have hmore := View.answer_rest (v := s.bytesView bytes) rfl hrest room
      rw [hmore, heof, beq_false_of_ne hempty]
      rfl
  · intro last hlast hconcludes
    obtain rfl := getLast?_answer _ _ _ hlast
    unfold Call.concludes Stream.reply Stream.bytesView at hconcludes
    simp only [hend, hlength, Bool.or_eq_true, beq_iff_eq, Bool.and_eq_true, List.isEmpty_iff,
      List.drop_eq_nil_iff] at hconcludes
    unfold Whole
    simp only [Stream.answer, hbody]
    omega
  · refine (@progress_bytes σ app _ bytes ?_).mpr ⟨rfl, ?_, ?_⟩
    · exact hbody
    · show s.responseOffset + _ ≤ _
      omega
    · show Produce.delivered (s.calls ++ [_]) = bytes.take (s.responseOffset + _)
      rw [delivered_snoc, hdelivered, List.take_add, ← hpayload]
      rfl

/-- What `pull` leaves: a pending fragment, or a producer that is done. -/
structure Pulled (s s' : Stream σ) (broken : Bool) : Prop where
  body : s'.body = s.body
  source : s'.source = s.source
  produced : s'.produced = s.produced
  calls : s'.calls = s.calls
  fragments : s.fragments <+: s'.fragments
  kept : delivered s'.calls ++ s'.memory.read s'.fragment = s'.fragments
  ready : broken = false → s'.fragment.len = 0 → s'.producerDone = true

theorem pull_spec (app : App σ) (h : delivered s.calls ++ s.memory.read s.fragment = s.fragments) :
    Pulled s (s.pull app).1 (s.pull app).2 := by
  have hempty : ∀ {memory : Memory UInt8}, s.fragment.len = 0 →
      delivered s.calls ++ memory.read s.fragment = s.fragments := by
    intro memory hlen
    rw [← h, Memory.read_of_len hlen hlen]
  unfold Stream.pull
  split
  next hneeds =>
    split
    next exchange memory heq =>
      exact ⟨rfl, rfl, rfl, rfl, List.prefix_refl _, hempty hneeds.1, fun _ _ => rfl⟩
    next exchange memory fragment heq =>
      split
      · exact ⟨rfl, rfl, rfl, rfl, List.prefix_refl _, hempty hneeds.1, nofun⟩
      next hlen =>
        refine ⟨rfl, rfl, rfl, rfl, List.prefix_append _ _, ?_, fun _ hzero => absurd hzero hlen⟩
        -- The last fragment was exhausted, so that all of it is delivered.
        have hall : delivered s.calls = s.fragments := by
          rw [← h, List.eq_nil_of_length_eq_zero ((Memory.length_read _ _).trans hneeds.1),
            List.append_nil]
        show delivered s.calls ++ _ = _
        rw [hall]
  next hready =>
    refine ⟨rfl, rfl, rfl, rfl, List.prefix_refl _, h, fun _ hzero => ?_⟩
    have hdone : ¬(!s.producerDone) = true := fun hmore => hready ⟨hzero, hmore⟩
    simpa using hdone

theorem Pulled.base {broken : Bool} (hpulled : Pulled s s' broken) (h : Base app s) :
    Base app s' where
  inv := hpulled.source ▸ h.inv
  unspent := hpulled.source ▸ h.unspent
  produced := by rw [hpulled.produced, hpulled.calls]; exact h.produced
  answered := by
    rw [hpulled.calls]
    refine h.answered.mono ?_
    unfold Stream.text
    rw [hpulled.body, hpulled.source]
    cases s.body with
    | bytes bytes => exact List.prefix_refl _
    | stream length =>
        simp only
        split
        · exact List.prefix_refl _
        · exact hpulled.fragments
  bound := by rw [hpulled.body, hpulled.produced]; exact h.bound
  declared := by rw [hpulled.body, hpulled.calls]; exact h.declared

/-- The checks of `produce` are those that a fragment is owed. -/
theorem fragmentView_answer (hready : s.fragment.len = 0 → s.producerDone = true) {room : Nat}
    (hroom : 0 < room) (hbound : ∀ len, length = some len → s.produced ≤ len) :
    (s.fragmentView length false).answer room =
      if length.any fun len => len - s.produced < min room s.fragment.len ||
          (min room s.fragment.len == 0 && s.produced != len) then .error
      else .data (s.memory.read ⟨s.fragment.ptr, min room s.fragment.len⟩)
        (min room s.fragment.len == 0) := by
  have hlength : (s.memory.read s.fragment).length = s.fragment.len := Memory.length_read _ _
  by_cases hlen : s.fragment.len = 0
  · have hempty : s.memory.read s.fragment = [] :=
      List.eq_nil_of_length_eq_zero (hlength.trans hlen)
    have hended : (s.fragmentView length false).ended = true := hready hlen
    rw [View.answer_end (v := s.fragmentView length false) rfl hempty room, hended, hlen]
    cases length with
    | none => simp [Stream.fragmentView, Memory.read]
    | some len =>
        by_cases heq : s.produced = len
        · simp [Stream.fragmentView, Memory.read, heq]
        · simp [Stream.fragmentView, heq, Ne.symm heq]
  · have hmore : s.memory.read s.fragment ≠ [] := fun hempty => by
      rw [hempty] at hlength
      exact hlen hlength.symm
    have hcount : min room s.fragment.len ≠ 0 := by omega
    have htake : s.memory.read ⟨s.fragment.ptr, min room s.fragment.len⟩ =
        (s.memory.read s.fragment).take room := by
      have hpart := @Memory.read_part _ s.memory s.fragment 0
        (min room s.fragment.len) (by omega)
      rw [Nat.add_zero, List.drop_zero, ← hlength, ← List.take_eq_take_min, hlength] at hpart
      exact hpart
    rw [View.answer_rest (v := s.fragmentView length false) rfl hmore room, htake,
      beq_false_of_ne hcount]
    show (if length.any (· < s.produced + min room (s.memory.read s.fragment).length) then _
      else _) = _
    rw [hlength]
    cases length with
    | none => rfl
    | some len =>
        have := hbound len rfl
        have hiff : (len < s.produced + min room s.fragment.len) ↔
            (len - s.produced < min room s.fragment.len) := by omega
        simp [hiff, Stream.fragmentView]

theorem answer_fragments (hbody : s.body = .stream length)
    (hstreams : app.hasResponseStreams = false)
    {view : View} {room : Nat} {result : Result}
    (hkept : delivered s.calls ++ (s.reply result).bytes ++ s.memory.read s.fragment =
      s.fragments) : Progress app (s.answer view room result) := by
  refine (@progress_fragments σ app _ length ?_ hstreams).mpr ⟨rfl, ?_⟩
  · exact hbody
  · show delivered (s.calls ++ [_]) ++ _ = _
    rw [delivered_snoc]
    exact hkept

theorem whole_fragments (hbody : s.body = .stream length)
    (hstreams : app.hasResponseStreams = false)
    (hlen : s.fragment.len = 0) : Whole app s := by
  unfold Whole
  rw [hbody]
  simp only [hstreams, Bool.false_eq_true, if_false]
  exact hlen

theorem callFragment_sound (h : Sound app s) (hquiet : ¬InCall s.source.transport)
    (hopen : ∀ last, s.calls.getLast? = some last → last.answer.isFinal = false)
    (hbody : s.body = .stream length) (hstreams : app.hasResponseStreams = false) {room : Nat}
    (hroom : 0 < room) : Sound app (s.callFragment app length room) := by
  have hpulled := pull_spec app ((progress_fragments hbody hstreams).mp h.progress).2
  unfold Stream.callFragment
  generalize hpull : s.pull app = pulled at hpulled
  obtain ⟨s', broken⟩ := pulled
  simp only at hpulled ⊢
  have hbase := hpulled.base h.base
  have hbody' : s'.body = .stream length := hpulled.body.trans hbody
  have hquiet' : ¬InCall s'.source.transport := hpulled.source ▸ hquiet
  have hopen' : ∀ last, s'.calls.getLast? = some last → last.answer.isFinal = false :=
    hpulled.calls ▸ hopen
  have hdeclared : (s'.fragmentView length broken).broken = true ∨
      (s'.fragmentView length broken).Declares s'.body :=
    Or.inr fun len hlen => ⟨Body.stream.inj (hbody'.symm.trans hlen), rfl⟩
  have hrest : delivered s'.calls ++ (s'.fragmentView length broken).rest <+: s'.text app := by
    unfold Stream.text
    rw [hbody']
    simp only [hstreams, Bool.false_eq_true, if_false]
    exact hpulled.kept ▸ List.prefix_refl _
  have hkept : delivered s'.calls ++ [] ++ s'.memory.read s'.fragment = s'.fragments := by
    rw [List.append_nil]
    exact hpulled.kept
  have hlength : (s'.memory.read s'.fragment).length = s'.fragment.len := Memory.length_read _ _
  split
  next hbroken =>
    refine (hbase.answer hopen' rfl hdeclared hrest ?_).sound hquiet' rfl ?_
      (answer_fragments hbody' hstreams hkept)
    · exact (View.answer_broken hbroken room).symm
    · intro last hlast hconcludes
      obtain rfl := getLast?_answer _ _ _ hlast
      simp [Call.concludes, Stream.reply, Stream.fragmentView, hbroken] at hconcludes
  next hbroken =>
    obtain rfl : broken = false := by simpa using hbroken
    have hanswer := fragmentView_answer (hpulled.ready rfl) hroom fun len hlen =>
      hbase.bound len (hlen ▸ hbody')
    have hconcluded : (s'.fragmentView length false).rest.isEmpty = true → s'.fragment.len = 0 :=
      fun hempty => by
        rw [← hlength]
        exact List.length_eq_zero_iff.mpr (List.isEmpty_iff.mp hempty)
    split
    next hcheck =>
      rw [if_pos hcheck] at hanswer
      refine (hbase.answer hopen' rfl hdeclared hrest ?_).sound hquiet' rfl ?_
        (answer_fragments hbody' hstreams hkept)
      · exact hanswer.symm
      · intro last hlast hconcludes
        obtain rfl := getLast?_answer _ _ _ hlast
        refine whole_fragments hbody' hstreams (hconcluded ?_)
        simp only [Call.concludes, Stream.reply, Bool.false_or, Bool.and_eq_true] at hconcludes
        exact hconcludes.1.2
    next hcheck =>
      rw [if_neg hcheck] at hanswer
      have hcount : (s'.memory.read ⟨s'.fragment.ptr, min room s'.fragment.len⟩).length =
          min room s'.fragment.len := Memory.length_read _ _
      -- What is left of the fragment is pending.
      generalize hafter : ({ s' with fragment := ⟨s'.fragment.ptr + min room s'.fragment.len,
        s'.fragment.len - min room s'.fragment.len⟩ } : Stream σ) = after
      have hbody'' : after.body = .stream length := hafter ▸ hbody'
      have hbase' : Base app after :=
        hafter ▸ ⟨hbase.inv, hbase.unspent, hbase.produced, hbase.answered, hbase.bound,
          hbase.declared⟩
      have hreply :
          after.reply (.copied (s'.memory.read ⟨s'.fragment.ptr, min room s'.fragment.len⟩)) =
            (s'.fragmentView length false).answer room := by
        rw [hanswer, Stream.reply, hcount, Stream.producedEnd, hbody'', Bool.or_false]
      refine (hbase'.answer (hafter ▸ hopen') (hafter ▸ rfl) (hafter ▸ hdeclared) (hafter ▸ hrest)
        hreply).sound (hafter ▸ hquiet') rfl ?_ ?_
      · intro last hlast hconcludes
        obtain rfl := getLast?_answer _ _ _ hlast
        refine whole_fragments hbody'' hstreams ?_
        rw [hreply, hanswer] at hconcludes
        simp only [Call.concludes, Bool.or_eq_true, Bool.and_eq_true, beq_iff_eq] at hconcludes
        show after.fragment.len = 0
        rw [← hafter]
        show s'.fragment.len - min room s'.fragment.len = 0
        rcases hconcludes with hzero | ⟨⟨-, hempty⟩, -⟩
        · omega
        · rw [hconcluded hempty, Nat.zero_sub]
      · refine answer_fragments hbody'' hstreams ?_
        rw [hreply, hanswer, ← hafter]
        show _ ++ _ ++ s'.memory.read _ = s'.fragments
        rw [← hpulled.kept, List.append_assoc]
        show _ ++ (s'.memory.read _ ++ s'.memory.read _) = _
        rw [← Memory.read_append, Nat.add_sub_cancel' (Nat.min_le_right _ _)]

/-- A callback on a stream that is closed. -/
theorem callClosed_sound (h : Sound app s) (hidle : s.source.transport = .idle)
    (hopen : ∀ last, s.calls.getLast? = some last → last.answer.isFinal = false) (room : Nat) :
    Sound app (s.answer { delivered := s.produced, broken := true } room .failed) := by
  have hquiet : ¬InCall s.source.transport := by rw [hidle]; exact id
  have hrest : delivered s.calls ++ [] <+: s.text app := by
    rw [List.append_nil]
    exact h.delivered
  have hsame : delivered (s.answer { delivered := s.produced, broken := true } room .failed).calls =
      delivered s.calls := by
    show delivered (s.calls ++ [_]) = _
    rw [delivered_snoc]
    exact List.append_nil _
  refine (h.base.answer hopen rfl (Or.inl rfl) hrest rfl).sound hquiet rfl ?_ ?_
  · intro last hlast hconcludes
    obtain rfl := getLast?_answer _ _ _ hlast
    cases hconcludes
  · have hprogress := h.progress
    cases hbody : s.body with
    | bytes bytes =>
        rw [progress_bytes hbody] at hprogress
        refine (@progress_bytes σ app _ bytes ?_).mpr ⟨rfl, ?_, ?_⟩
        · exact hbody
        · exact hprogress.2.1
        · exact hsame.trans hprogress.2.2
    | stream length =>
        cases hstreams : app.hasResponseStreams with
        | true =>
            rw [progress_published hbody hstreams] at hprogress
            refine (@progress_published σ app _ length ?_ hstreams).mpr ?_
            · exact hbody
            unfold Publishing at hprogress ⊢
            rw [hidle] at hprogress
            simp only [Stream.answer, hidle]
            exact hprogress.trans hsame.symm
        | false =>
            rw [progress_fragments hbody hstreams] at hprogress
            refine (@progress_fragments σ app _ length ?_ hstreams).mpr ⟨rfl, ?_⟩
            · exact hbody
            · rw [hsame]
              exact hprogress.2

/-- A callback over a publication begins. -/
theorem callPublication_sound (h : Sound app s) (hidle : s.source.transport = .idle)
    (hopen : ∀ last, s.calls.getLast? = some last → last.answer.isFinal = false)
    (hbody : s.body = .stream length) (hstreams : app.hasResponseStreams = true) {room : Nat}
    (hroom : 0 < room) {source : ResponseStream.State}
    (hstep : ResponseStream.step .http2 s.source (.produceInto room) = some source) :
    Sound app { s with source, room, calling := true, destination := [] } := by
  have hinv := h.base.inv.step hstep
  have hunspent := h.base.unspent.produceInto_step hstep
  simp only [ResponseStream.step] at hstep
  split at hstep
  next =>
    obtain rfl := Option.some.inj hstep
    exact {
      base := ⟨hinv, hunspent, h.base.produced, h.base.answered, h.base.bound,
      h.base.declared⟩
      calling := ⟨fun _ => trivial, fun _ => rfl⟩
      unfinished := fun _ => hopen
      whole := h.whole
      progress := by
        have hprogress := h.progress
        rw [progress_published hbody hstreams] at hprogress
        refine (@progress_published σ app _ length ?_ hstreams).mpr ?_
        · exact hbody
        unfold Publishing at hprogress
        rw [hidle] at hprogress
        exact ⟨rfl, hroom, hprogress, rfl⟩ }
  next => cases hstep

theorem Sound.call (h : Sound app s) {room : Nat} (hstep : s.call app room = some s') :
    Sound app s' := by
  unfold Stream.call at hstep
  split at hstep
  · cases hstep
  next hguard =>
    rw [not_or, not_or, Bool.not_eq_true', Bool.not_eq_false, not_not] at hguard
    obtain ⟨hroom, hopen, hidle⟩ := hguard
    have hroom' : 0 < room := Nat.pos_of_ne_zero hroom
    obtain ⟨hcalling, hunfinished⟩ := isOpen_spec hopen
    have hquiet : ¬InCall s.source.transport := by rw [hidle]; exact id
    split at hstep
    · obtain rfl := Option.some.inj hstep
      exact callClosed_sound h hidle hunfinished room
    · split at hstep
      next bytes hbody =>
        obtain rfl := Option.some.inj hstep
        exact callBytes_sound h hquiet hunfinished hbody hroom'
      next length hbody =>
        split at hstep
        next hstreams =>
          obtain ⟨source, hsource, rfl⟩ := Option.map_eq_some_iff.mp hstep
          exact callPublication_sound h hidle hunfinished hbody hstreams hroom' hsource
        next hstreams =>
          obtain rfl := Option.some.inj hstep
          exact callFragment_sound h hquiet hunfinished hbody (by simpa using hstreams) hroom'

end Steps

end Zhtps.Produce
