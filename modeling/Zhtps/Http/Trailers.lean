import Mathlib.Tactic.SplitIfs
import Zhtps.Http.Framing
import Zhtps.Http.Message

/-!
Trailers and the request that they belong to.

Once the head has been parsed, whatever the wire carries adds trailers to the request and changes nothing
else of it; and every trailer is one that the request permits.
-/

namespace Zhtps

/-- A name that may stand in a trailer of a request. -/
structure Request.Permits (request : Request) (name : Bytes) : Prop where
  token : Syntax.isToken name = true
  listed : ∀ forbidden ∈ forbiddenTrailers, Syntax.eql name forbidden = false
  connection : ∀ field ∈ request.headers, Syntax.eql field.name (ascii "connection") = true →
    ∀ token ∈ Mem.splitScalar 0x2c field.value, Syntax.eql name (Syntax.trim token) = false

theorem Request.permits_of {request : Request} {name : Bytes} (htoken : Syntax.isToken name = true)
    (h : request.forbidsTrailer name = false) : request.Permits name := by
  rw [forbidsTrailer, Bool.or_eq_false_iff] at h
  refine ⟨htoken, fun forbidden hmem => ?_, fun field hfield hconnection token hmem => ?_⟩
  · have hnone := List.any_eq_false.mp h.1 forbidden hmem
    simpa using hnone
  · have hnone := List.any_eq_false.mp h.2 field hfield
    rw [hconnection, Bool.true_and] at hnone
    have hother := List.any_eq_false.mp (by simpa using hnone) token hmem
    simpa using hother

theorem Request.Permits.of_headers {request other : Request} {name : Bytes}
    (h : request.Permits name) (hheaders : other.headers = request.headers) : other.Permits name :=
  ⟨h.token, h.listed, by rw [hheaders]; exact h.connection⟩

/-- The trailers that an event tells of. -/
def Event.trailers : Event → List Header
  | .trailer field => [field]
  | _ => []

namespace Parser

/-- What happens to a request once its head has been parsed. -/
structure Trailed (parser next : Parser) (emitted : List Header) : Prop where
  request : next.request =
    { parser.request with trailers := parser.request.trailers ++ emitted }
  fields : next.trailerFields = parser.trailerFields ++ emitted
  headStorage : next.headStorage = parser.headStorage
  trailerStorage : parser.trailerStorage.used <+: next.trailerStorage.used
  permitted : ∀ field ∈ emitted, parser.request.Permits field.name

theorem Trailed.trans {a b c : Parser} {xs ys : List Header} (h : Trailed a b xs)
    (h' : Trailed b c ys) : Trailed a c (xs ++ ys) where
  request := by rw [h'.request, h.request, List.append_assoc]
  fields := by rw [h'.fields, h.fields, List.append_assoc]
  headStorage := h'.headStorage.trans h.headStorage
  trailerStorage := h.trailerStorage.trans h'.trailerStorage
  permitted := by
    intro field hfield
    rcases List.mem_append.mp hfield with hfield | hfield
    · exact h.permitted field hfield
    · exact (h'.permitted field hfield).of_headers (by rw [h.request])

/-- A parser of which only the framing has changed. -/
theorem Trailed.same {parser next : Parser} (hrequest : next.request = parser.request)
    (hfields : next.trailerFields = parser.trailerFields)
    (hhead : next.headStorage = parser.headStorage)
    (htrailers : next.trailerStorage = parser.trailerStorage) : Trailed parser next [] where
  request := by rw [hrequest, List.append_nil]
  fields := by rw [hfields, List.append_nil]
  headStorage := hhead
  trailerStorage := by
    rewrite [htrailers]
    exact List.prefix_rfl
  permitted := nofun

/-- A turn outside the head phase. -/
def Turn.Trails (parser : Parser) : Turn → Prop
  | .again next _ => Trailed parser next []
  | .done _ _ (.head _) => False
  | .done next _ event => Trailed parser next event.trailers
  | .fail next _ => Trailed parser next []

theorem chunkSizeByte_trails (parser : Parser) (c : UInt8) (rest : Bytes) :
    ((chunkSizeByte parser c).turn rest).Trails parser := by
  unfold chunkSizeByte
  split
  · exact .same rfl rfl rfl rfl
  next next hnext =>
    rw [countChunkFramingByte_eq hnext]
    unfold storeChunkByte
    dsimp only
    split_ifs
    · exact .same rfl rfl rfl rfl
    · exact .same rfl rfl rfl rfl
    · exact .same rfl rfl rfl rfl
    · exact .same rfl rfl rfl rfl
    · unfold endChunkLine
      split
      · exact .same rfl rfl rfl rfl
      · dsimp only
        split_ifs
        · exact .same rfl rfl rfl rfl
        · exact .same rfl rfl rfl rfl

theorem chunkDelimiterByte_trails (parser : Parser) (c : UInt8) (rest : Bytes) :
    ((chunkDelimiterByte parser c).turn rest).Trails parser := by
  unfold chunkDelimiterByte
  split
  · exact .same rfl rfl rfl rfl
  next next hnext =>
    rw [countChunkFramingByte_eq hnext]
    split_ifs
    · exact .same rfl rfl rfl rfl
    · exact .same rfl rfl rfl rfl

theorem parseHeader_token {line : Bytes} {field : Header}
    (h : Request.parseHeader line = .ok field) : Syntax.isToken field.name = true := by
  unfold Request.parseHeader at h
  split at h
  · exact absurd h nofun
  · dsimp only at h
    split at h
    · exact absurd h nofun
    next hvalid =>
      rw [← Except.ok.inj h]
      simp only [Bool.or_eq_true, Bool.not_eq_true', not_or, Bool.not_eq_false] at hvalid
      exact hvalid.1

theorem trailerByte_trails {parser : Parser} (c : UInt8) (rest : Bytes)
    (h : parser.request.trailers = parser.trailerFields) :
    ((trailerByte parser c).turn rest).Trails parser := by
  unfold trailerByte
  dsimp only
  split_ifs
  · exact .same rfl rfl rfl rfl
  · exact .same rfl rfl rfl rfl
  all_goals
    have hpush : ∀ next : Parser, next.request = parser.request →
        next.trailerFields = parser.trailerFields → next.headStorage = parser.headStorage →
        next.trailerStorage = parser.trailerStorage.push c → Trailed parser next [] :=
      fun next hrequest hfields hhead htrailers =>
        { request := by rw [hrequest, List.append_nil]
          fields := by rw [hfields, List.append_nil]
          headStorage := hhead
          trailerStorage := by
            rw [htrailers, Lib.Buffer.used_push]
            exact List.prefix_append _ _
          permitted := nofun }
  · exact hpush _ rfl rfl rfl rfl
  · exact hpush _ rfl rfl rfl rfl
  · unfold endTrailerLine
    dsimp only
    split_ifs
    · exact hpush _ rfl rfl rfl rfl
    · exact hpush _ rfl rfl rfl rfl
    · split
      · exact hpush _ rfl rfl rfl rfl
      next field hparse =>
        split_ifs with hforbidden
        · exact hpush _ rfl rfl rfl rfl
        · have hpermits := Request.permits_of (parseHeader_token hparse)
            (by simpa using hforbidden)
          exact
            { request := by rw [h]; rfl
              fields := rfl
              headStorage := rfl
              trailerStorage := (hpush { parser with
                trailerStorage := parser.trailerStorage.push c } rfl rfl rfl rfl).trailerStorage
              permitted := fun other hother => by
                rw [List.mem_singleton.mp hother]
                exact hpermits }

theorem turn_trails {parser : Parser} (input : Bytes) (hphase : parser.phase ≠ .head)
    (h : parser.request.trailers = parser.trailerFields) : (turn parser input).Trails parser := by
  unfold turn
  split
  · exact .same rfl rfl rfl rfl
  · exact .same rfl rfl rfl rfl
  · exact .same rfl rfl rfl rfl
  · split
    · exact .same rfl rfl rfl rfl
    next c rest =>
      split
      next hhead => exact absurd hhead hphase
      · exact chunkSizeByte_trails parser c rest
      · exact chunkDelimiterByte_trails parser c rest
      · exact chunkDelimiterByte_trails parser c rest
      · exact trailerByte_trails c rest h
      · exact .same rfl rfl rfl rfl

theorem loop_trails (fuel : Nat) :
    ∀ {parser : Parser} (input : Bytes), parser.phase ≠ .head →
      parser.request.trailers = parser.trailerFields →
        (loop fuel parser input).Trails parser := by
  induction fuel with
  | zero => exact fun input hphase h => turn_trails input hphase h
  | succ fuel ih =>
      intro parser input hphase h
      have hturn := turn_trails input hphase h
      have hleaves := turn_leavesHead parser input
      unfold loop
      split
      next next rest hnext =>
        rw [hnext] at hturn hleaves
        have hnextTrailers : next.request.trailers = next.trailerFields := by
          rw [hturn.request, hturn.fields, ← h]
        have hrest := ih rest (hleaves hphase) hnextTrailers
        cases hloop : loop fuel next rest with
        | again last left =>
            rw [hloop] at hrest
            exact hturn.trans hrest
        | fail last err =>
            rw [hloop] at hrest
            exact hturn.trans hrest
        | done last left event =>
            rw [hloop] at hrest
            cases event with
            | head request => exact hrest
            | needInput => exact hturn.trans hrest
            | body bytes => exact hturn.trans hrest
            | trailer field => exact hturn.trans hrest
            | «end» => exact hturn.trans hrest
      · exact hturn

/-! ### Whole messages -/

/-- The event of one call of `feed`, if it had one. -/
def fed : Except Error Step → List Event
  | .ok step => [step.event]
  | .error _ => []

/-- Feeds pieces of the wire, whatever they are. -/
def feedAll : Parser → List Bytes → Parser × List Event
  | parser, [] => (parser, [])
  | parser, input :: inputs =>
      let (next, result) := feed parser input
      let (last, events) := feedAll next inputs
      (last, fed result ++ events)

theorem feed_trails {parser : Parser} (input : Bytes) (hphase : parser.phase ≠ .head)
    (h : parser.request.trailers = parser.trailerFields) :
    Trailed parser (feed parser input).1
      ((fed (feed parser input).2).flatMap Event.trailers) := by
  have hloop := loop_trails input.length input hphase h
  unfold feed
  split
  next next rest hnext =>
    rw [hnext] at hloop
    exact hloop
  next next rest event hnext =>
    rw [hnext] at hloop
    rw [fed, List.flatMap_cons, List.flatMap_nil, List.append_nil]
    cases event with
    | head request => exact hloop.elim
    | needInput => exact hloop
    | body bytes => exact hloop
    | trailer field => exact hloop
    | «end» => exact hloop
  next next err hnext =>
    rw [hnext] at hloop
    exact hloop.trans (.same rfl rfl rfl rfl)

theorem feedAll_trails (inputs : List Bytes) :
    ∀ {parser : Parser}, parser.phase ≠ .head → parser.request.trailers = parser.trailerFields →
      Trailed parser (feedAll parser inputs).1
        ((feedAll parser inputs).2.flatMap Event.trailers) := by
  induction inputs with
  | nil => exact fun _ _ => .same rfl rfl rfl rfl
  | cons input inputs ih =>
      intro parser hphase h
      have htrailed := feed_trails input hphase h
      have hnext : (feed parser input).1.phase ≠ .head := feed_phase_ne_head rfl hphase
      have hrest := @ih (feed parser input).1 hnext
        (by rw [htrailed.request, htrailed.fields, ← h])
      rw [feedAll, List.flatMap_append]
      exact htrailed.trans hrest

theorem feedAll_phase (inputs : List Bytes) :
    ∀ {parser : Parser}, parser.phase ≠ .head → (feedAll parser inputs).1.phase ≠ .head ∧
      ∀ request, .head request ∉ (feedAll parser inputs).2 := by
  induction inputs with
  | nil => exact fun h => ⟨h, by rintro _ ⟨⟩⟩
  | cons input inputs ih =>
      intro parser h
      have hnext : (feed parser input).1.phase ≠ .head := feed_phase_ne_head rfl h
      obtain ⟨hphase, hnone⟩ := @ih (feed parser input).1 hnext
      refine ⟨hphase, fun request hmem => ?_⟩
      have hmem : .head request ∈
          fed (feed parser input).2 ++ (feedAll (feed parser input).1 inputs).2 := hmem
      rcases List.mem_append.mp hmem with hmem | hmem
      · cases hfeed : feed parser input with
        | mk next result =>
            rw [hfeed] at hmem
            cases result with
            | error err => cases hmem
            | ok step =>
                obtain ⟨consumed, event⟩ := step
                rw [fed, List.mem_singleton] at hmem
                subst hmem
                exact h (feed_head hfeed).1
      · exact hnone request hmem

end Parser

/-! ### A head has no trailers -/

namespace Request

theorem addField_trailers {fields result : Fields} {header : Header}
    (h : addField fields header = .ok result) :
    result.request.trailers = fields.request.trailers := by
  unfold addField at h
  dsimp only at h
  split_ifs at h
  · rw [← Except.ok.inj h]
  · split at h
    · exact absurd h nofun
    · rw [← Except.ok.inj h]
  · split at h
    · exact absurd h nofun
    · rw [← Except.ok.inj h]
  · rw [(Framing.parseConnection_same h).2.1]
  · split at h
    · exact absurd h nofun
    · rw [← Except.ok.inj h]
  · rw [← Except.ok.inj h]

theorem parseFields_trailers {slots : Nat} (lines : List Bytes) :
    ∀ {fields result : Fields}, parseFields slots fields lines = .ok result →
      result.request.trailers = fields.request.trailers := by
  induction lines with
  | nil => exact fun h => absurd h nofun
  | cons line lines ih =>
      intro fields result h
      unfold parseFields at h
      split_ifs at h
      · rw [← Except.ok.inj h]
      · split at h
        · exact absurd h nofun
        · split at h
          · exact absurd h nofun
          next next hadd => rw [ih h, addField_trailers hadd]

theorem parse_trailers {bytes : Bytes} {slots : Nat} {request : Request}
    (h : parse bytes slots = .ok request) : request.trailers = [] := by
  unfold parse at h
  split at h
  · exact absurd h nofun
  · split at h
    · exact absurd h nofun
    next line hline =>
      split at h
      · exact absurd h nofun
      next target htarget =>
        split at h
        · exact absurd h nofun
        next fields hfields =>
          have hnone : line.trailers = [] := by
            unfold parseRequestLine at hline
            split at hline
            · exact absurd hline nofun
            · dsimp only at hline
              split_ifs at hline
              split at hline
              · exact absurd hline nofun
              · split_ifs at hline <;> rw [← Except.ok.inj hline]
          have hkept : request.trailers = fields.request.trailers := by
            unfold conclude at h
            dsimp only at h
            split_ifs at h <;> rw [← Except.ok.inj h]
          rw [hkept, parseFields_trailers _ hfields, (Framing.parseTarget_same htarget).2.2, hnone]

end Request

namespace Parser

/-- Before the head there are no trailers. -/
structure Opening (parser : Parser) : Prop where
  phase : parser.phase = .head
  fields : parser.trailerFields = []

/-- A turn in the head phase. -/
def Turn.Opens : Turn → Prop
  | .again next _ => Opening next
  | .done next _ (.head request) =>
      next.phase ≠ .head ∧ next.request = request ∧ request.trailers = [] ∧ next.trailerFields = []
  | .done next _ event => Opening next ∧ event.trailers = []
  | .fail _ _ => True

theorem finishHead_opens {parser : Parser} (rest : Bytes) (h : parser.trailerFields = []) :
    ((finishHead parser).turn rest).Opens := by
  unfold finishHead
  split
  · trivial
  next request hparse =>
    have hnone := Request.parse_trailers hparse
    dsimp only
    split_ifs
    · exact ⟨by rintro ⟨⟩, rfl, hnone, h⟩
    · trivial
    · refine ⟨?_, rfl, hnone, h⟩
      simp only [afterHead]
      split <;> rintro ⟨⟩

theorem countTarget_opening {parser : Parser} (c : UInt8) (h : Opening parser) :
    Opening (countTarget parser c) := by
  unfold countTarget
  split_ifs
  · exact ⟨h.phase, h.fields⟩
  · exact ⟨h.phase, h.fields⟩
  · exact h

theorem storeHeadByte_opens {parser : Parser} (c : UInt8) (rest : Bytes) (h : Opening parser) :
    ((storeHeadByte parser c).turn rest).Opens := by
  have hstored := @countTarget_opening { parser with headStorage := parser.headStorage.push c } c
    ⟨h.phase, h.fields⟩
  unfold storeHeadByte
  dsimp only
  split_ifs
  · trivial
  · exact hstored
  · unfold endHeadLine
    dsimp only
    split_ifs
    · trivial
    · exact ⟨hstored.phase, hstored.fields⟩
    · exact finishHead_opens rest hstored.fields
    · exact ⟨hstored.phase, hstored.fields⟩

theorem turn_opens {parser : Parser} (input : Bytes) (h : Opening parser) :
    (turn parser input).Opens := by
  unfold turn
  rw [h.phase]
  dsimp only
  split
  · exact ⟨h, rfl⟩
  next c rest =>
    unfold headTurn
    split
    · trivial
    · dsimp only
      split_ifs
      · exact ⟨h.phase, h.fields⟩
      · exact ⟨h.phase, h.fields⟩
      · exact storeHeadByte_opens c rest h
      · exact storeHeadByte_opens c rest h

theorem loop_opens (fuel : Nat) :
    ∀ {parser : Parser} (input : Bytes), Opening parser → (loop fuel parser input).Opens := by
  induction fuel with
  | zero => exact fun input h => turn_opens input h
  | succ fuel ih =>
      intro parser input h
      have hturn := turn_opens input h
      unfold loop
      split
      next next rest hnext =>
        rw [hnext] at hturn
        exact ih rest hturn
      · exact hturn

/-- A call of `feed` before the head is there: it brings the head, or nothing, or fails. -/
theorem feed_opens {parser : Parser} (input : Bytes) (h : Opening parser) :
    (∃ request, fed (feed parser input).2 = [.head request] ∧
      (feed parser input).1.phase ≠ .head ∧ (feed parser input).1.request = request ∧
        request.trailers = [] ∧ (feed parser input).1.trailerFields = []) ∨
    (Opening (feed parser input).1 ∧ (fed (feed parser input).2).flatMap Event.trailers = [] ∧
      ∀ request, .head request ∉ fed (feed parser input).2) ∨
    ((feed parser input).1.phase ≠ .head ∧ fed (feed parser input).2 = []) := by
  have hloop := loop_opens input.length input h
  unfold feed
  split
  next next rest hnext =>
    rw [hnext] at hloop
    exact Or.inr (Or.inl ⟨hloop, rfl, by simp [fed]⟩)
  next next rest event hnext =>
    rw [hnext] at hloop
    cases event with
    | head request => exact Or.inl ⟨request, rfl, hloop⟩
    | needInput => exact Or.inr (Or.inl ⟨hloop.1, rfl, by simp [fed]⟩)
    | body bytes => exact Or.inr (Or.inl ⟨hloop.1, rfl, by simp [fed]⟩)
    | trailer field => exact absurd hloop.2 nofun
    | «end» => exact Or.inr (Or.inl ⟨hloop.1, rfl, by simp [fed]⟩)
  · exact Or.inr (Or.inr ⟨nofun, rfl⟩)

/-- Pieces of the wire from the beginning on: the head, once there, is the request that all trailers
are added to. -/
theorem feedAll_keeps (before after : List Bytes) {request : Request} :
    ∀ {parser : Parser}, Opening parser → .head request ∈ (feedAll parser before).2 →
      Trailed
        { (feedAll parser before).1 with request := request, trailerFields := [] }
        (feedAll (feedAll parser before).1 after).1
        (((feedAll parser before).2 ++ (feedAll (feedAll parser before).1 after).2).flatMap
          Event.trailers) ∧ request.trailers = [] := by
  induction before with
  | nil => exact fun _ hmem => absurd hmem nofun
  | cons input inputs ih =>
      intro parser h hmem
      change .head request ∈
        fed (feed parser input).2 ++ (feedAll (feed parser input).1 inputs).2 at hmem
      show Trailed { (feedAll (feed parser input).1 inputs).1 with
            request := request, trailerFields := [] }
          (feedAll (feedAll (feed parser input).1 inputs).1 after).1
          (((fed (feed parser input).2 ++ (feedAll (feed parser input).1 inputs).2) ++
            (feedAll (feedAll (feed parser input).1 inputs).1 after).2).flatMap Event.trailers) ∧ _
      rcases feed_opens input h with
        ⟨found, hfound, hphase, hrequest, hnone, hfields⟩ | ⟨hopening, hnone, hhead⟩ |
          ⟨hphase, hnone⟩
      · generalize (feed parser input).1 = next at hphase hrequest hfields hmem ⊢
        obtain ⟨hmiddlePhase, hnoHead⟩ := feedAll_phase inputs hphase
        have htrailers : next.request.trailers = next.trailerFields := by
          rw [hrequest, hnone, hfields]
        have hmiddle := feedAll_trails inputs hphase htrailers
        have hlast := feedAll_trails after hmiddlePhase
          (by rw [hmiddle.request, hmiddle.fields, ← htrailers])
        have hwhole := hmiddle.trans hlast
        rw [hfound] at hmem ⊢
        obtain rfl : request = found := by
          rcases List.mem_append.mp hmem with hmem | hmem
          · exact Event.head.inj (List.mem_singleton.mp hmem)
          · exact absurd hmem (hnoHead request)
        refine ⟨?_, hnone⟩
        have hevents : ([Event.head request] ++ (feedAll next inputs).2 ++
            (feedAll (feedAll next inputs).1 after).2).flatMap Event.trailers =
              (feedAll next inputs).2.flatMap Event.trailers ++
                (feedAll (feedAll next inputs).1 after).2.flatMap Event.trailers := by
          rw [List.flatMap_append, List.flatMap_append]
          rfl
        rw [hevents]
        exact
          { request := by rw [hwhole.request, hrequest]
            fields := by rw [hwhole.fields, hfields]
            headStorage := hlast.headStorage
            trailerStorage := hlast.trailerStorage
            permitted := by
              rw [← hrequest]
              exact hwhole.permitted }
      · have hrest := (List.mem_append.mp hmem).resolve_left (hhead request)
        rw [List.append_assoc, List.flatMap_append, hnone, List.nil_append]
        exact ih hopening hrest
      · rw [hnone, List.nil_append] at hmem
        exact absurd hmem ((feedAll_phase inputs hphase).2 request)

theorem opening_init (headStorage trailerStorage : Bytes) (limits : Limits) :
    Opening (init headStorage trailerStorage limits) := ⟨rfl, rfl⟩

end Parser

end Zhtps
