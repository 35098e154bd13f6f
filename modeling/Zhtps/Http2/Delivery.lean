import Zhtps.Http2.Callbacks

/-!
What the callbacks of a response body deliver: a callback over a publication keeps the invariant at
each of its steps, and a body that ends is delivered whole.
-/

namespace Zhtps.Produce

open Lib
open ResponseStream (Held Inv Unspent Outside goal stepTransport)

variable {σ : Type}

section Steps

variable {app : App σ} {s s' : Stream σ} {length : Option Nat}

/-! ### Steps of a callback over a publication -/

theorem publishing_resting (hquiet : ¬InCall s.source.transport) :
    Publishing length s ↔ s.source.copied = delivered s.calls := by
  unfold Publishing
  cases ht : s.source.transport <;> simp only
  all_goals
    rw [ht] at hquiet
    exact absurd trivial hquiet

theorem whole_published (hbody : s.body = .stream length)
    (hstreams : app.hasResponseStreams = true) :
    Whole app s ↔ s.source.seenFinished = true := by
  unfold Whole
  rw [hbody]
  simp only [hstreams, if_true]

theorem text_published (hbody : s.body = .stream length)
    (hstreams : app.hasResponseStreams = true) :
    s.text app = s.source.written := by
  unfold Stream.text
  rw [hbody]
  simp only [hstreams, if_true]

/-- A callback runs over publications only. -/
theorem Sound.inCall (h : Sound app s) (hin : InCall s.source.transport) :
    ∃ length, s.body = .stream length ∧ app.hasResponseStreams = true ∧ Publishing length s := by
  have hcalling := h.calling.mpr hin
  have hprogress := h.progress
  cases hbody : s.body with
  | bytes bytes =>
      rw [progress_bytes hbody, hcalling] at hprogress
      cases hprogress.1
  | stream length =>
      cases hstreams : app.hasResponseStreams with
      | true => exact ⟨length, rfl, rfl, (progress_published hbody hstreams).mp hprogress⟩
      | false =>
          rw [progress_fragments hbody hstreams, hcalling] at hprogress
          cases hprogress.1

/-- A step of the transport that answers nothing. -/
theorem Sound.moved (h : Sound app s) {source : ResponseStream.State} {view : View}
    {destination : Bytes} {ok : Bool} {count : Nat}
    (hstep : stepTransport .http2 s.source ok count = some source)
    (hcall : InCall s.source.transport ↔ InCall source.transport)
    (hpublishing : ∀ length, s.body = .stream length → Publishing length s →
      Publishing length { s with source, view, destination }) :
    Sound app { s with source, view, destination } := by
  obtain ⟨hwritten, hseen⟩ := ResponseStream.stepTransport_frame hstep
  exact {
    base := {
      inv := h.base.inv.transport_step hstep
      unspent := h.base.unspent.transport_step h.base.inv hstep
      produced := h.base.produced
      answered := by
        refine h.base.answered.mono ?_
        unfold Stream.text
        simp only [hwritten]
        exact List.prefix_refl _
      bound := h.base.bound
      declared := h.base.declared }
    calling := h.calling.trans hcall
    unfinished := h.unfinished
    whole := by
      intro last hlast hconcludes
      have hwhole := h.whole last hlast hconcludes
      unfold Whole at hwhole ⊢
      cases hbody : s.body with
      | bytes bytes =>
          simp only [hbody] at hwhole ⊢
          exact hwhole
      | stream length =>
          simp only [hbody] at hwhole ⊢
          split at hwhole
          next hstreams =>
            rw [if_pos hstreams]
            exact hseen hwhole
          next hstreams =>
            rw [if_neg hstreams]
            exact hwhole
    progress := h.progress.still ⟨rfl, rfl, rfl, rfl, rfl, rfl, rfl⟩
      fun length _ hbody hp => hpublishing length hbody hp }

/-- The callback returns. -/
theorem finish_sound (hbase : Base app s)
    (hopen : ∀ last, s.calls.getLast? = some last → last.answer.isFinal = false)
    (hbody : s.body = .stream length) (hstreams : app.hasResponseStreams = true)
    (hquiet : ¬InCall s.source.transport) {result : Result}
    (hdelivered : s.view.delivered = s.produced) (hdeclared : s.view.declared = length)
    (hunbuffered : s.view.buffered = false)
    (hrest : delivered s.calls ++ s.view.rest <+: s.source.written)
    (hreply : s.reply result = s.view.answer s.room)
    (hcopied : s.source.copied = delivered s.calls ++ (s.reply result).bytes)
    (hwhole : (⟨s.view, s.room, s.reply result⟩ : Call).concludes = true →
      s.source.seenFinished = true) : Sound app (s.finish result) := by
  have hdeclared' : s.view.broken = true ∨ s.view.Declares s.body := by
    refine Or.inr fun len hlen => ⟨?_, hunbuffered⟩
    rw [hdeclared]
    exact Body.stream.inj (hbody.symm.trans hlen)
  rw [← text_published hbody hstreams] at hrest
  refine (hbase.answer hopen hdelivered hdeclared' hrest hreply).sound hquiet rfl ?_ ?_
  · intro last hlast hconcludes
    obtain rfl := getLast?_answer _ _ _ hlast
    exact (@whole_published σ app (s.answer s.view s.room result) length hbody hstreams).mpr
      (hwhole hconcludes)
  · refine (@progress_published σ app _ length ?_ hstreams).mpr ((publishing_resting ?_).mpr ?_)
    · exact hbody
    · exact hquiet
    · show s.source.copied = delivered (s.calls ++ [_])
      rw [delivered_snoc]
      exact hcopied

/-- What stands behind the copied bytes when `ready` is loaded. -/
theorem rest_ready (hi : Inv .http2 s.source) (hunspent : Unspent s.source) {room : Option Nat}
    (ht : s.source.transport = .load room) (hready : s.source.publication = .ready) :
    s.source.copied ++ (s.source.buffer.take s.source.publishedLen).drop s.source.offset =
        s.source.written ∧
      ((s.source.buffer.take s.source.publishedLen).drop s.source.offset).length =
        s.source.publishedLen - s.source.offset ∧
      s.source.offset < s.source.publishedLen := by
  obtain ⟨-, hout, -⟩ := hi.isOver
  obtain ⟨hle, hwritten⟩ := hout (Or.inr hready)
  have hroom := hunspent.offset (Or.inl hready)
  have hprogress : ResponseStream.progress s.source = s.source.offset := by
    have hchunk : s.source.chunk = false := hi.pathOk
    simp [ResponseStream.progress, ht, hchunk]
  refine ⟨?_, ?_, hroom⟩
  · have htake : s.source.buffer.take s.source.offset =
        (s.source.buffer.take s.source.publishedLen).take s.source.offset := by
      rw [List.take_take, Nat.min_eq_left hroom.le]
    rw [hi.copied_eq, hprogress, hwritten, List.append_assoc, htake, List.take_append_drop]
  · rw [List.length_drop, List.length_take, Nat.min_eq_left hle]

theorem transport_load (hbody : s.body = .stream length) {room : Option Nat}
    (ht : s.source.transport = .load room) (count : Nat) : s.transport count =
      (stepTransport .http2 s.source true count).map fun source =>
        { s with source, view := s.publicationView length } := by
  cases s
  cases hbody
  unfold Stream.transport
  simp only at ht ⊢
  rw [ht]

theorem load_sound (h : Sound app s) (hbody : s.body = .stream length) {room : Option Nat}
    (ht : s.source.transport = .load room) {count : Nat} {source : ResponseStream.State}
    (hstep : stepTransport .http2 s.source true count = some source) :
    Sound app { s with source, view := s.publicationView length } := by
  have hsource : source = { s.source with
      seenFinished := s.source.seenFinished || s.source.publication = .finished
      transport := .loaded s.source.publication room } := by
    simp only [stepTransport, ht] at hstep
    exact (Option.some.inj hstep).symm
  refine @Sound.moved σ app s h _ _ s.destination _ _ hstep ?_ fun length' hbody' hpublishing => ?_
  · rw [ht, hsource]
    exact Iff.rfl
  · obtain rfl : length = length' := Body.stream.inj (hbody.symm.trans hbody')
    unfold Publishing at hpublishing ⊢
    rw [ht] at hpublishing
    obtain ⟨hroom, hpos, hcopied, hdestination⟩ := hpublishing
    simp only [hsource]
    refine ⟨hroom, hcopied, hdestination, ?_⟩
    have hloaded : Loaded length { s with
        source := { s.source with
          seenFinished := s.source.seenFinished || s.source.publication = .finished
          transport := .loaded s.source.publication room }
        view := s.publicationView length } s.source.publication := {
      declared := rfl
      delivered := rfl
      unbuffered := rfl
      broken := rfl
      ended := rfl
      announced := fun hfinished => by simp [hfinished]
      room := hpos
      written := by
        show delivered s.calls ++ (if s.source.publication = .ready then _ else []) <+: _
        split
        next hready =>
          rewrite [← hcopied, (rest_ready h.base.inv h.base.unspent ht hready).1]
          exact List.prefix_refl _
        next =>
          rw [List.append_nil, ← hcopied]
          exact h.base.inv.copied_isPrefix
      rest := by
        unfold Stream.publicationView
        simp only
        split
        next hready =>
          obtain ⟨-, hlen, hlt⟩ := rest_ready h.base.inv h.base.unspent ht hready
          refine ⟨hlen, fun hempty => ?_⟩
          rw [hempty] at hlen
          exact absurd hlen (by simp only [List.length_nil]; omega)
        next => rfl }
    exact hloaded

/-- The check of a declared length is the one that the rest of a publication is owed. -/
theorem Loaded.answer_ready (h : Loaded length s .ready)
    (hbound : ∀ len, length = some len → s.produced ≤ len) :
    s.view.answer s.room =
      if length.any fun len =>
          len - s.produced < goal s.source (some s.room) - s.source.offset then .error
      else .data (s.view.rest.take s.room) false := by
  obtain ⟨hlen, hrest⟩ := (if_pos rfl).mp h.rest
  have hgoal : goal s.source (some s.room) - s.source.offset = min s.room s.view.rest.length := by
    show min (s.source.offset + s.room) s.source.publishedLen - s.source.offset = _
    omega
  have hunbroken : s.view.broken = false := h.broken
  rw [View.answer_rest hunbroken hrest, h.declared, h.delivered, h.unbuffered, hgoal,
    Bool.false_and]
  cases length with
  | none => rfl
  | some len =>
      have := hbound len rfl
      have hiff : (len < s.produced + min s.room s.view.rest.length) ↔
          (len - s.produced < min s.room s.view.rest.length) := by omega
      simp [hiff]

/-- A publication that fits is copied. -/
theorem copy_sound (h : Sound app s) (hbody : s.body = .stream length)
    (ht : s.source.transport = .loaded .ready (some s.room)) (hloaded : Loaded length s .ready)
    (hcopied : s.source.copied = delivered s.calls) (hdestination : s.destination = [])
    (hfits : ¬(length.any fun len =>
      len - s.produced < goal s.source (some s.room) - s.source.offset) = true)
    {source : ResponseStream.State}
    (hstep : stepTransport .http2 s.source true 0 = some source) :
    Sound app { s with source } := by
  obtain ⟨hlen, hrest⟩ := (if_pos rfl).mp hloaded.rest
  have hsource : source = { s.source with
      transport := .copying s.source.offset (goal s.source (some s.room))
        s.source.publishedLen } := by
    simp only [stepTransport, ht, if_true] at hstep
    exact (Option.some.inj hstep).symm
  have hgoal : goal s.source (some s.room) = min (s.source.offset + s.room) s.source.publishedLen :=
    rfl
  have hmore : 0 < s.view.rest.length := List.length_pos_of_ne_nil hrest
  refine @Sound.moved σ app s h _ s.view s.destination _ _ hstep ?_ fun length' hbody' _ => ?_
  · rw [ht, hsource]
    exact Iff.rfl
  · obtain rfl : length = length' := Body.stream.inj (hbody.symm.trans hbody')
    unfold Publishing
    simp only [hsource]
    refine ⟨by rw [hcopied, hdestination, List.append_nil], ?_, by omega, ?_⟩
    · refine ⟨hloaded.declared, hloaded.delivered, hloaded.unbuffered, hloaded.broken, hrest,
        hloaded.room, hloaded.written, ?_⟩
      rintro len rfl
      have hle := h.base.bound len hbody
      have hroom : ¬len - s.produced < goal s.source (some s.room) - s.source.offset := by
        simpa using hfits
      show s.produced + min s.room s.view.rest.length ≤ len
      omega
    · rw [hdestination, List.length_nil]
      omega

theorem loaded_sound (h : Sound app s) (hbody : s.body = .stream length)
    (hstreams : app.hasResponseStreams = true) {seen : ResponseStream.Publication}
    {room : Option Nat} (ht : s.source.transport = .loaded seen room)
    (hstep : s.loaded length seen room = some s') : Sound app s' := by
  have hprogress := h.progress
  rw [progress_published hbody hstreams] at hprogress
  unfold Publishing at hprogress
  rw [ht] at hprogress
  obtain ⟨rfl, hcopied, hdestination, hloaded⟩ := hprogress
  have hin : InCall s.source.transport := by rw [ht]; trivial
  have hopen := h.unfinished (h.calling.mpr hin)
  obtain ⟨hinv, hunspent⟩ := h.base.unspent.loaded_idle h.base.inv ht
  -- The callback returns, and the transport is at rest.
  have hfinish : ∀ (deferred : Bool) (result : Result),
      ({ s with source := { s.source with transport := .idle }
                responseDeferred := deferred } : Stream σ).reply result = s.view.answer s.room →
      (s.view.answer s.room).bytes = [] →
      ((⟨s.view, s.room, s.view.answer s.room⟩ : Call).concludes = true →
        s.source.seenFinished = true) →
      Sound app (({ s with source := { s.source with transport := .idle }
                           responseDeferred := deferred } : Stream σ).finish result) := by
    intro deferred result hreply hbytes hconcludes
    have hbase : Base app { s with
        source := { s.source with transport := .idle }
        responseDeferred := deferred } :=
      ⟨hinv, hunspent, h.base.produced, h.base.answered, h.base.bound,
      h.base.declared⟩
    refine finish_sound hbase hopen hbody hstreams id hloaded.delivered hloaded.declared
      hloaded.unbuffered hloaded.written hreply ?_ ?_
    · rw [hreply, hbytes, List.append_nil]
      exact hcopied
    · rw [hreply]
      exact hconcludes
  have hunbroken : seen ≠ .failed → s.view.broken = false := fun hother =>
    hloaded.broken.trans (decide_eq_false hother)
  have hempty : seen ≠ .ready → s.view.rest = [] := fun hother => by
    have hrest := hloaded.rest
    rwa [if_neg hother] at hrest
  unfold Stream.loaded at hstep
  cases seen with
  | writing =>
      have hanswer : s.view.answer s.room = .deferred := by
        rw [View.answer_end (hunbroken (by rintro ⟨⟩)) (hempty (by rintro ⟨⟩)), hloaded.ended]
        rfl
      simp only [stepTransport, ht, Option.map_some, Option.some.injEq] at hstep
      subst hstep
      refine hfinish true .deferred hanswer.symm (by rw [hanswer]; rfl) fun hconcludes => ?_
      simp [Call.concludes, hanswer, hloaded.ended] at hconcludes
  | ready =>
      have hanswer := hloaded.answer_ready fun len hlen => h.base.bound len (hlen ▸ hbody)
      simp only at hstep
      split at hstep
      next hexceeds =>
        rw [if_pos hexceeds] at hanswer
        simp only [stepTransport, ht, Bool.false_eq_true, if_false, reduceCtorEq, Option.map_some,
          Option.some.injEq] at hstep
        subst hstep
        refine hfinish s.responseDeferred .failed hanswer.symm (by rw [hanswer]; rfl)
          fun hconcludes => ?_
        simp [Call.concludes, hanswer, hloaded.ended] at hconcludes
      next hfits =>
        obtain ⟨source, hsource, rfl⟩ := Option.map_eq_some_iff.mp hstep
        exact copy_sound h hbody ht hloaded hcopied hdestination hfits hsource
  | finished =>
      simp only at hstep
      split at hstep
      next hbusy =>
        have hanswer : s.view.answer s.room = .deferred := by
          rw [View.answer_end (hunbroken (by rintro ⟨⟩)) (hempty (by rintro ⟨⟩)), hloaded.ended, hbusy]
          rfl
        have hidle : stepTransport .http2 s.source true 0 =
            some { s.source with transport := .idle } := by
          simp only [stepTransport, ht]
          rw [if_pos hbusy]
        rw [hidle, Option.map_some, Option.some.injEq] at hstep
        subst hstep
        exact hfinish true .deferred hanswer.symm (by rw [hanswer]; rfl)
          fun _ => hloaded.announced rfl
      next hbusy =>
        have hended : s.view.ended = true := by
          rw [hloaded.ended]
          simpa using hbusy
        have hanswer : s.view.answer s.room =
            if s.view.declared.all (· == s.view.delivered) then .data [] true else .error := by
          rw [View.answer_end (hunbroken (by rintro ⟨⟩)) (hempty (by rintro ⟨⟩)), hended]
          rfl
        rw [hloaded.declared, hloaded.delivered] at hanswer
        split at hstep
        next hshort =>
          obtain rfl := Option.some.inj hstep
          have herror : s.view.answer s.room = .error := by
            rw [hanswer, if_neg]
            cases length with
            | none => cases hshort
            | some len =>
                simp only [Option.any_some, bne_iff_ne] at hshort
                simpa using Ne.symm hshort
          exact hfinish s.responseDeferred .failed herror.symm (by rw [herror]; rfl)
            fun _ => hloaded.announced rfl
        next hwhole =>
          have hdata : s.view.answer s.room = .data [] true := by
            rw [hanswer, if_pos]
            cases length with
            | none => rfl
            | some len =>
                simp only [Option.any_some, bne_iff_ne, not_not] at hwhole
                simpa using hwhole.symm
          have hended : stepTransport .http2 s.source true 0 =
              some { s.source with transport := .ended } := by
            simp only [stepTransport, ht]
            rw [if_neg hbusy]
          have hbase : Base app { s with source := { s.source with transport := .ended } } :=
            ⟨h.base.inv.transport_step hended,
              h.base.unspent.transport_step h.base.inv hended, h.base.produced, h.base.answered,
              h.base.bound,
      h.base.declared⟩
          rw [hended, Option.map_some, Option.some.injEq] at hstep
          subst hstep
          refine finish_sound hbase hopen hbody hstreams id hloaded.delivered hloaded.declared
            hloaded.unbuffered hloaded.written hdata.symm ?_ fun _ => hloaded.announced rfl
          exact hcopied.trans (List.append_nil _).symm
  | failed =>
      have hbroken : s.view.broken = true := hloaded.broken
      have hanswer := View.answer_broken hbroken s.room
      simp only [stepTransport, ht, reduceCtorEq, if_false, Option.map_some, Option.some.injEq]
        at hstep
      subst hstep
      refine hfinish s.responseDeferred .failed hanswer.symm (by rw [hanswer]; rfl)
        fun hconcludes => ?_
      simp [Call.concludes, hanswer, hbroken] at hconcludes

theorem transport_copying {done goal len : Nat} (ht : s.source.transport = .copying done goal len)
    (count : Nat) : s.transport count =
      (stepTransport .http2 s.source true count).map fun source =>
        if done < goal then
          { s with
            source
            destination := s.destination ++
              (s.source.buffer.drop done).take (min count (goal - done)) }
        else if goal = len then { s with source }
        else ({ s with source } : Stream σ).finish (.copied s.destination) := by
  unfold Stream.transport
  rw [ht]
  cases s.body <;> rfl

/-- The destination holds the beginning of what was at hand. -/
theorem Copying.destination (h : Copying length s) (hi : Inv .http2 s.source)
    (hcopied : s.source.copied = Produce.delivered s.calls ++ s.destination)
    (hlen : s.destination.length = min s.room s.view.rest.length) :
    s.destination = s.view.rest.take s.room := by
  have hbefore : Produce.delivered s.calls ++ s.destination <+:
      Produce.delivered s.calls ++ s.view.rest := by
    refine List.prefix_of_prefix_length_le (hcopied ▸ hi.copied_isPrefix) h.written ?_
    rw [List.length_append, List.length_append]
    omega
  rw [List.prefix_append_right_inj, List.prefix_iff_eq_take, hlen,
    ← List.take_eq_take_min] at hbefore
  exact hbefore

/-- The callback returns what it has copied. -/
theorem copied_sound (h : Sound app s) (hbody : s.body = .stream length)
    (hstreams : app.hasResponseStreams = true) (hin : InCall s.source.transport)
    (hcopying : Copying length s)
    (hcopied : s.source.copied = delivered s.calls ++ s.destination)
    (hlen : s.destination.length = min s.room s.view.rest.length)
    {source : ResponseStream.State} {count : Nat}
    (hstep : stepTransport .http2 s.source true count = some source)
    (hquiet : ¬InCall source.transport) (hsame : source.copied = s.source.copied) :
    Sound app (({ s with source } : Stream σ).finish (.copied s.destination)) := by
  have hmore : 0 < s.view.rest.length := List.length_pos_of_ne_nil hcopying.rest
  have hdestination := hcopying.destination h.base.inv hcopied hlen
  have hroom := hcopying.room
  have hanswer : s.view.answer s.room = .data s.destination false := by
    rw [View.answer_rest hcopying.whole hcopying.rest, hcopying.unbuffered, Bool.false_and,
      if_neg, ← hdestination]
    rw [hcopying.declared, hcopying.delivered]
    cases length with
    | none => simp
    | some len => simpa using hcopying.fits len rfl
  obtain ⟨hwritten, -⟩ := ResponseStream.stepTransport_frame hstep
  have hbase : Base app { s with source } := {
    inv := h.base.inv.transport_step hstep
    unspent := h.base.unspent.transport_step h.base.inv hstep
    produced := h.base.produced
    answered := by
      have htext : ({ s with source } : Stream σ).text app = s.text app := by
        unfold Stream.text
        simp only [hwritten]
      rw [htext]
      exact h.base.answered
    bound := h.base.bound
    declared := h.base.declared }
  have hreply : ({ s with source } : Stream σ).reply (.copied s.destination) =
      s.view.answer s.room := by
    have hnonempty : (s.destination.length == 0) = false := beq_false_of_ne (by omega)
    have hend : ({ s with source } : Stream σ).producedEnd = false := by
      unfold Stream.producedEnd
      simp only [hbody]
    rw [hanswer, Stream.reply, hnonempty, hend]
    rfl
  refine finish_sound hbase (h.unfinished (h.calling.mpr hin)) hbody hstreams hquiet
    hcopying.delivered hcopying.declared hcopying.unbuffered ?_ hreply ?_ ?_
  · show delivered s.calls ++ s.view.rest <+: source.written
    rw [hwritten]
    exact hcopying.written
  · rw [hreply, hanswer]
    exact hsame.trans hcopied
  · intro hconcludes
    rw [hreply, hanswer] at hconcludes
    have hempty : s.view.rest.isEmpty = true := by
      simp only [Call.concludes, Bool.false_or, Bool.and_eq_true] at hconcludes
      exact hconcludes.1.2
    exact absurd (List.isEmpty_iff.mp hempty) hcopying.rest

theorem copying_sound (h : Sound app s) {done goal len : Nat}
    (ht : s.source.transport = .copying done goal len) {count : Nat}
    (hstep : s.transport count = some s') : Sound app s' := by
  have hin : InCall s.source.transport := by rw [ht]; trivial
  obtain ⟨length, hbody, hstreams, hpublishing⟩ := h.inCall hin
  unfold Publishing at hpublishing
  rw [ht] at hpublishing
  obtain ⟨hcopied, hcopying, hle, hroom⟩ := hpublishing
  have htok := h.base.inv.transportOk
  simp only [ResponseStream.TransportOk, ht] at htok
  have hheld : Held s.source := by simp [Held, ht]
  have hbuffer := (h.base.inv.isOver.2.1 (Or.inl hheld)).1
  rw [transport_copying ht] at hstep
  obtain ⟨source, hsource, rfl⟩ := Option.map_eq_some_iff.mp hstep
  have heq := hsource
  simp only [stepTransport, ht] at heq
  split
  next hmore =>
    rw [if_pos hmore] at heq
    refine @Sound.moved σ app s h _ s.view _ _ _ hsource ?_ fun length' hbody' _ => ?_
    · rw [ht, ← Option.some.inj heq]
      exact Iff.rfl
    · obtain rfl : length = length' := Body.stream.inj (hbody.symm.trans hbody')
      have hpiece : ((s.source.buffer.drop done).take (min count (goal - done))).length =
          min count (goal - done) := by
        rw [List.length_take, List.length_drop]
        omega
      rw [← Option.some.inj heq]
      unfold Publishing
      simp only
      refine ⟨by rw [hcopied, List.append_assoc], ?_, by omega, ?_⟩
      · exact hcopying.congr rfl rfl rfl rfl (List.prefix_refl _)
      · rw [List.length_append, hpiece]
        omega
  next hdone =>
    rw [if_neg hdone] at heq
    have hlen : s.destination.length = min s.room s.view.rest.length := by omega
    split
    next hall =>
      refine @Sound.moved σ app s h _ s.view s.destination _ _ hsource ?_ fun length' hbody' _ => ?_
      · rw [ht, ← Option.some.inj heq, ResponseStream.copiedAll]
        simp only [if_pos hall]
        exact Iff.rfl
      · obtain rfl : length = length' := Body.stream.inj (hbody.symm.trans hbody')
        rw [← Option.some.inj heq, ResponseStream.copiedAll]
        simp only [if_pos hall]
        exact ⟨hcopied, hcopying.congr rfl rfl rfl rfl (List.prefix_refl _), hlen⟩
    next hpart =>
      refine copied_sound h hbody hstreams hin hcopying hcopied hlen hsource ?_ ?_
      · rw [← Option.some.inj heq, ResponseStream.copiedAll]
        simp only [if_neg hpart]
        exact id
      · rw [← Option.some.inj heq, ResponseStream.copiedAll]
        simp only [if_neg hpart]

/-- The publication is exhausted, and is being acknowledged. -/
def Consuming : ResponseStream.Transport → Prop
  | .consumeLock | .consumeAssert | .consumeStore | .consumeSignal | .consumeUnlock | .panicked =>
      True
  | _ => False

theorem Consuming.inCall {t : ResponseStream.Transport} (h : Consuming t) : InCall t := by
  cases t <;> first | exact trivial | exact h.elim

theorem publishing_consuming (hconsuming : Consuming s.source.transport) :
    Publishing length s ↔ s.source.copied = delivered s.calls ++ s.destination ∧
      Copying length s ∧ s.destination.length = min s.room s.view.rest.length := by
  unfold Publishing
  cases ht : s.source.transport <;> simp only
  all_goals
    rw [ht] at hconsuming
    exact hconsuming.elim

theorem consume_sound (h : Sound app s) {source : ResponseStream.State} {count : Nat}
    (hstep : stepTransport .http2 s.source true count = some source)
    (hconsuming : Consuming s.source.transport) (hnext : Consuming source.transport)
    (hsame : source.copied = s.source.copied) : Sound app { s with source } := by
  refine @Sound.moved σ app s h _ s.view s.destination _ _ hstep ?_ fun length _ hpublishing => ?_
  · exact ⟨fun _ => hnext.inCall, fun _ => hconsuming.inCall⟩
  · obtain ⟨hcopied, hcopying, hlen⟩ := (publishing_consuming hconsuming).mp hpublishing
    have hwritten := (ResponseStream.stepTransport_frame hstep).1
    refine (@publishing_consuming σ { s with source } length hnext).mpr ⟨?_, ?_, hlen⟩
    · exact hsame.trans hcopied
    · exact hcopying.congr rfl rfl rfl rfl (hwritten ▸ List.prefix_refl _)

theorem rest_sound (h : Sound app s) {source : ResponseStream.State} {count : Nat}
    (hstep : stepTransport .http2 s.source true count = some source)
    (hquiet : ¬InCall s.source.transport) (hnext : ¬InCall source.transport)
    (hsame : source.copied = s.source.copied) : Sound app { s with source } := by
  refine @Sound.moved σ app s h _ s.view s.destination _ _ hstep ?_ fun length _ hpublishing => ?_
  · exact ⟨fun hin => absurd hin hquiet, fun hin => absurd hin hnext⟩
  · refine (@publishing_resting σ { s with source } length hnext).mpr ?_
    exact hsame.trans ((publishing_resting hquiet).mp hpublishing)

theorem Sound.transport (h : Sound app s) {count : Nat} (hstep : s.transport count = some s') :
    Sound app s' := by
  have hbodies : ∀ {f : Option (Stream σ)}, s.transport count = f → f = some s' := fun heq =>
    heq.symm.trans hstep
  cases ht : s.source.transport with
  | idle | ended | panicked =>
      have hnone : s.transport count = none := by
        unfold Stream.transport
        rw [ht]
        cases s.body <;> simp [stepTransport, ht]
      cases hbodies hnone
  | load room =>
      obtain ⟨length, hbody, -, -⟩ := h.inCall (by rw [ht]; trivial)
      rw [transport_load hbody ht] at hstep
      obtain ⟨source, hsource, rfl⟩ := Option.map_eq_some_iff.mp hstep
      exact load_sound h hbody ht hsource
  | loaded seen room =>
      obtain ⟨length, hbody, hstreams, -⟩ := h.inCall (by rw [ht]; trivial)
      unfold Stream.transport at hstep
      rw [hbody, ht] at hstep
      exact loaded_sound h hbody hstreams ht hstep
  | copying done goal len => exact copying_sound h ht hstep
  | consumeUnlock =>
      have hin : InCall s.source.transport := by rw [ht]; trivial
      obtain ⟨length, hbody, hstreams, hpublishing⟩ := h.inCall hin
      obtain ⟨hcopied, hcopying, hlen⟩ :=
        (publishing_consuming (by rw [ht]; trivial)).mp hpublishing
      have heq : s.transport count = (stepTransport .http2 s.source true count).map fun source =>
          ({ s with source } : Stream σ).finish (.copied s.destination) := by
        unfold Stream.transport
        rw [ht]
        cases s.body <;> rfl
      obtain ⟨source, hsource, rfl⟩ := Option.map_eq_some_iff.mp (hbodies heq)
      have hidle := hsource
      simp only [stepTransport, ht] at hidle
      obtain rfl := Option.some.inj hidle
      exact copied_sound h hbody hstreams hin hcopying hcopied hlen hsource id rfl
  | consumeLock | consumeAssert | consumeStore | consumeSignal =>
      have heq : s.transport count = (stepTransport .http2 s.source true count).map fun source =>
          { s with source } := by
        unfold Stream.transport
        rw [ht]
        cases s.body <;> rfl
      obtain ⟨source, hsource, rfl⟩ := Option.map_eq_some_iff.mp (hbodies heq)
      have hconsuming : Consuming s.source.transport := by rw [ht]; trivial
      refine consume_sound h hsource hconsuming ?_ ?_
      all_goals
        simp only [stepTransport, ht] at hsource
        try split at hsource
        all_goals first
          | cases hsource; done
          | (obtain rfl := Option.some.inj hsource; first | exact trivial | rfl)
  | cancelLock close | cancelSignal close | cancelUnlock close =>
      have heq : s.transport count = (stepTransport .http2 s.source true count).map fun source =>
          { s with source } := by
        unfold Stream.transport
        rw [ht]
        cases s.body <;> rfl
      obtain ⟨source, hsource, rfl⟩ := Option.map_eq_some_iff.mp (hbodies heq)
      have hquiet : ¬InCall s.source.transport := by rw [ht]; exact id
      refine rest_sound h hsource hquiet ?_ ?_
      all_goals
        simp only [stepTransport, ht] at hsource
        try split at hsource
        all_goals first
          | cases hsource; done
          | (obtain rfl := Option.some.inj hsource; first | exact id | rfl)

theorem Sound.step (h : Sound app s) {action : Action} (hstep : step app s action = some s') :
    Sound app s' := by
  cases action with
  | call room => exact h.call hstep
  | transport count => exact h.transport hstep
  | resume => exact h.resume hstep
  | outside action =>
      simp only [Produce.step] at hstep
      split at hstep
      next haction =>
        obtain ⟨source, hsource, rfl⟩ := Option.map_eq_some_iff.mp hstep
        exact h.outside haction hsource
      next => cases hstep

theorem Sound.isWhole (h : Sound app s) (hwhole : Whole app s) (hcalling : s.calling = false) :
    Produce.delivered s.calls = s.text app := by
  have hprogress := h.progress
  have hquiet : ¬InCall s.source.transport := fun hin => by
    rw [h.calling.mpr hin] at hcalling
    cases hcalling
  cases hbody : s.body with
  | bytes bytes =>
      have htext : s.text app = bytes := by
        unfold Stream.text
        rw [hbody]
      have hall : s.responseOffset = bytes.length := by
        unfold Whole at hwhole
        rw [hbody] at hwhole
        exact hwhole
      rw [htext, ((progress_bytes hbody).mp hprogress).2.2, hall, List.take_length]
  | stream length =>
      cases hstreams : app.hasResponseStreams with
      | true =>
          rw [progress_published hbody hstreams, publishing_resting hquiet] at hprogress
          rw [whole_published hbody hstreams] at hwhole
          rw [text_published hbody hstreams, ← hprogress]
          exact (h.base.inv.copied_of_finished hwhole).2
      | false =>
          have htext : s.text app = s.fragments := by
            unfold Stream.text
            rw [hbody]
            simp only [hstreams, Bool.false_eq_true, if_false]
          have hempty : s.fragment.len = 0 := by
            unfold Whole at hwhole
            rw [hbody] at hwhole
            simpa only [hstreams, Bool.false_eq_true, if_false] using hwhole
          rw [htext, ← ((progress_fragments hbody hstreams).mp hprogress).2,
            List.eq_nil_of_length_eq_zero ((Memory.length_read _ _).trans hempty),
            List.append_nil]

end Steps

theorem callFragment_body (app : App σ) (s : Stream σ) (length : Option Nat) (room : Nat) :
    (s.callFragment app length room).body = s.body := by
  have hpull : (s.pull app).1.body = s.body := by
    unfold Stream.pull
    split
    · split
      · rfl
      · split <;> rfl
    · rfl
  unfold Stream.callFragment
  simp only
  split
  · exact hpull
  · split <;> exact hpull

theorem loaded_body {s s' : Stream σ} {length : Option Nat} {seen : ResponseStream.Publication}
    {room : Option Nat} (h : s.loaded length seen room = some s') : s'.body = s.body := by
  unfold Stream.loaded at h
  cases seen with
  | writing | failed =>
      obtain ⟨source, -, rfl⟩ := Option.map_eq_some_iff.mp h
      rfl
  | ready =>
      simp only at h
      split at h <;> obtain ⟨source, -, rfl⟩ := Option.map_eq_some_iff.mp h <;> rfl
  | finished =>
      simp only at h
      split at h
      · obtain ⟨source, -, rfl⟩ := Option.map_eq_some_iff.mp h
        rfl
      · split at h
        · obtain rfl := Option.some.inj h
          rfl
        · obtain ⟨source, -, rfl⟩ := Option.map_eq_some_iff.mp h
          rfl

theorem transport_body {s s' : Stream σ} {count : Nat} (h : s.transport count = some s') :
    s'.body = s.body := by
  unfold Stream.transport at h
  split at h
  next =>
      obtain ⟨source, -, rfl⟩ := Option.map_eq_some_iff.mp h
      rfl
  next => exact loaded_body h
  next =>
      obtain ⟨source, -, rfl⟩ := Option.map_eq_some_iff.mp h
      split
      · rfl
      · split <;> rfl
  next =>
      obtain ⟨source, -, rfl⟩ := Option.map_eq_some_iff.mp h
      rfl
  next =>
      obtain ⟨source, -, rfl⟩ := Option.map_eq_some_iff.mp h
      rfl

theorem step_body {app : App σ} {s s' : Stream σ} {action : Action}
    (h : step app s action = some s') : s'.body = s.body := by
  cases action with
  | call room =>
      simp only [step, Stream.call] at h
      split at h
      · cases h
      · split at h
        · obtain rfl := Option.some.inj h
          rfl
        · split at h
          · obtain rfl := Option.some.inj h
            rfl
          · split at h
            · obtain ⟨source, -, rfl⟩ := Option.map_eq_some_iff.mp h
              rfl
            · obtain rfl := Option.some.inj h
              exact callFragment_body app s _ room
  | transport count => exact transport_body h
  | resume =>
      simp only [step, Stream.resume] at h
      split at h
      · obtain rfl := Option.some.inj h
        rfl
      · cases h
  | outside action =>
      simp only [step] at h
      split at h
      · obtain ⟨source, -, rfl⟩ := Option.map_eq_some_iff.mp h
        rfl
      · cases h

theorem View.final_of_concludes {v : View} {room : Nat}
    (hconcludes : (⟨v, room, v.answer room⟩ : Call).concludes = true) :
    (v.answer room).isFinal = true := by
  rcases Bool.or_eq_true_iff.mp hconcludes with heof | hend
  · cases hanswer : v.answer room with
    | data bytes eof =>
        simp only [hanswer] at heof
        exact heof
    | deferred | error =>
        simp only [hanswer] at heof
        cases heof
  · simp only [Bool.and_eq_true, List.isEmpty_iff, Bool.not_eq_true'] at hend
    rw [View.answer_end hend.2 hend.1.2, hend.1.1, Bool.not_true, if_neg Bool.false_ne_true]
    split <;> rfl

/-- A callback that finds a stream at its end fails exactly where the length is another one. -/
theorem View.answer_concludes {v : View} {room len : Nat} (hdeclared : v.declared = some len)
    (hunbuffered : v.buffered = false)
    (hconcludes : (⟨v, room, v.answer room⟩ : Call).concludes = true) :
    (v.answer room).bytes = [] ∧ (v.delivered = len ↔ v.answer room ≠ .error) := by
  unfold Call.concludes at hconcludes
  by_cases hbroken : v.broken = true
  · simp [View.answer_broken hbroken, hbroken] at hconcludes
  · rw [Bool.not_eq_true] at hbroken
    by_cases hrest : v.rest = []
    · have hanswer := View.answer_end hbroken hrest room
      by_cases hended : v.ended = true
      · rw [hanswer, hended, hdeclared]
        by_cases heq : v.delivered = len
        · simp [heq, Answer.bytes]
        · simp [heq, Ne.symm heq, Answer.bytes]
      · rw [hanswer] at hconcludes
        simp [hended] at hconcludes
    · -- More of a stream is at hand, so that this is not the end of it.
      have hanswer := View.answer_rest hbroken hrest room
      rw [hunbuffered, Bool.false_and] at hanswer
      by_cases hexceeds : v.declared.any (· < v.delivered + min room v.rest.length) = true
      · rw [hanswer, if_pos hexceeds] at hconcludes
        simp [hrest] at hconcludes
      · rw [hanswer, if_neg hexceeds] at hconcludes
        simp [hrest] at hconcludes

end Zhtps.Produce
