import Zhtps.Http.Fragmentation
import Zhtps.Lib.Transition

/-!
The resources of `Parser.feed`.

Every counter of the parser is compared with a limit or with the end of a buffer at one place and
used at another.  The invariant `Bounded` is what holds between the two, in every state the loop of
`feed` passes through; `Safe` lists what one turn of the loop computes unchecked, that is its
subtractions, its stores and its slices.  Runs are taken turn by turn, so that the states inside a
call are among the reachable ones.
-/

namespace Zhtps

open Lib

/-- The phases whose bytes are charged to the framing budget: size lines with their extensions, and
the delimiters behind the chunks. -/
def Phase.isFraming : Phase → Bool
  | .chunkSize | .chunkCr | .chunkLf => true
  | _ => false

/-- The body bytes an event carries. -/
def Event.payload : Event → Bytes
  | .body bytes => bytes
  | _ => []

namespace Parser

/-- The counters stay within the limits and the storage. -/
structure Bounded (parser : Parser) : Prop where
  head : parser.phase = .head → parser.bodyBytes = 0
  outstanding : parser.phase ≠ .invalid →
    parser.bodyBytes + parser.remaining ≤ parser.limits.maxBodyBytes
  body : parser.bodyBytes ≤ parser.limits.maxBodyBytes
  framing : parser.chunkFramingBytes ≤ parser.limits.maxChunkFramingBytes
  line : parser.chunkLine.capacity = maxChunkLine
  trailerStart : parser.trailerStart ≤ parser.trailerStorage.len
  trailerCount : parser.trailerFields.length ≤ parser.limits.maxTrailerCount

/-- The turn fails and has stored nothing. -/
def Turn.Refuses (parser : Parser) : Turn → Prop
  | .fail next _ =>
      next.headStorage = parser.headStorage ∧ next.chunkLine = parser.chunkLine ∧
        next.trailerStorage = parser.trailerStorage
  | _ => False

def Turn.Fails : Turn → Prop
  | .fail _ _ => True
  | _ => False

/-- What one turn relies on, in the order of the source: the cell a byte is stored in lies inside the
storage unless the turn refuses the byte, a block fits the room and the input, no difference is
negative, and the line that a turn does not reject is a slice of its buffer. -/
def Safe (parser : Parser) (input : Bytes) : Prop :=
  match parser.phase, input with
  | .head, c :: rest =>
      parser.headStorage.len ≤ parser.headStorage.storage.length ∧
        ((turn parser (c :: rest)).Refuses parser ∨
          (turn parser (c :: rest) = (storeHeadByte parser c).turn rest ∧
            parser.headStorage.len < parser.headStorage.storage.length) ∨
          ∃ width, turn parser (c :: rest) = copyBlock parser width (c :: rest) ∧
            width ≤ (c :: rest).length ∧
            parser.headStorage.len + width ≤ parser.headStorage.storage.length)
  | .fixedBody, c :: rest | .chunkBody, c :: rest =>
      min parser.remaining (rest.length + 1) ≤ parser.remaining ∧
        min parser.remaining (rest.length + 1) ≤ (c :: rest).length ∧
        parser.bodyBytes + min parser.remaining (rest.length + 1) ≤ parser.limits.maxBodyBytes
  | .chunkSize, c :: rest =>
      parser.chunkLine.storage.length = maxChunkLine ∧
        ((turn parser (c :: rest)).Refuses parser ∨
          parser.chunkLine.len < parser.chunkLine.storage.length) ∧
        ((turn parser (c :: rest)).Fails ∨ (c = Ascii.lf → 1 ≤ parser.chunkLine.len)) ∧
        parser.bodyBytes ≤ parser.limits.maxBodyBytes
  | .trailers, c :: rest =>
      ((turn parser (c :: rest)).Refuses parser ∨
          parser.trailerStorage.len < parser.trailerStorage.storage.length) ∧
        ((turn parser (c :: rest)).Fails ∨
          (c = Ascii.lf → parser.trailerStart ≤ parser.trailerStorage.len - 1 ∧
            1 ≤ parser.trailerStorage.len)) ∧
        ∀ next left field, turn parser (c :: rest) = .done next left (.trailer field) →
          parser.trailerFields.length < maxFields
  | _, _ => True

theorem bounded_init (headStorage trailerStorage : Bytes) (limits : Limits) :
    (init headStorage trailerStorage limits).Bounded := by
  constructor <;> simp [init, Buffer.capacity, Buffer.ofStorage]

theorem blockLength_le (width : Nat) (rest : Bytes) :
    blockLength width rest ≤ width ∧ blockLength width rest ≤ rest.length := by
  have h : blockLength width rest ≤ (rest.take width).length := List.findIdx_le_length
  rw [List.length_take] at h
  omega

/-- A byte that passes the checks has room. -/
theorem headCheck_room {parser : Parser} {c : UInt8} (h : headCheck parser c = none) :
    parser.headStorage.len < parser.headStorage.capacity := by
  unfold headCheck at h
  split at h
  · cases h
  · rename_i hfull
    exact Nat.lt_of_le_of_ne parser.headStorage.len_le hfull

/-- The head turn refuses the byte, stores it, or copies a block; it does the last two with room for
them only. -/
theorem headTurn_room (parser : Parser) (c : UInt8) (rest : Bytes) :
    (headTurn parser c rest).Refuses parser ∨
      (headTurn parser c rest = (storeHeadByte parser c).turn rest ∧
        parser.headStorage.len < parser.headStorage.storage.length) ∨
      ∃ width, headTurn parser c rest = copyBlock parser width (c :: rest) ∧
        width ≤ (c :: rest).length ∧
        parser.headStorage.len + width ≤ parser.headStorage.storage.length := by
  have hle := parser.headStorage.len_le
  unfold headTurn
  cases hcheck : headCheck parser c with
  | some err => exact .inl ⟨rfl, rfl, rfl⟩
  | none =>
      have hlt : parser.headStorage.len < parser.headStorage.storage.length :=
        headCheck_room hcheck
      -- a block of a width that is available
      have hblock (width : Nat) (h : width ≤ min (rest.length + 1) parser.headStorage.room) :
          width ≤ (c :: rest).length ∧
            parser.headStorage.len + width ≤ parser.headStorage.storage.length := by
        simp only [Buffer.room, Buffer.capacity] at h
        rw [List.length_cons]
        omega
      dsimp only
      split_ifs with hplain hwide hnarrow
      · exact .inr (.inr ⟨64, rfl, hblock 64 hwide⟩)
      · exact .inr (.inr ⟨16, rfl, hblock 16 hnarrow⟩)
      · exact .inr (.inl ⟨rfl, hlt⟩)
      · exact .inr (.inl ⟨rfl, hlt⟩)

theorem chunkSizeByte_room (parser : Parser) (c : UInt8) (rest : Bytes) :
    (((chunkSizeByte parser c).turn rest).Refuses parser ∨
        parser.chunkLine.len < parser.chunkLine.storage.length) ∧
      (((chunkSizeByte parser c).turn rest).Fails ∨
        (c = Ascii.lf → 1 ≤ parser.chunkLine.len)) := by
  have hle := parser.chunkLine.len_le
  unfold chunkSizeByte countChunkFramingByte
  split_ifs with hspent
  · exact ⟨.inl ⟨rfl, rfl, rfl⟩, .inl trivial⟩
  · dsimp only
    unfold storeChunkByte
    dsimp only
    split_ifs with hfull hcr hlf hlast
    · exact ⟨.inl ⟨rfl, rfl, rfl⟩, .inl trivial⟩
    all_goals
      have hroom : parser.chunkLine.len < parser.chunkLine.storage.length := by
        simp only [Buffer.capacity] at hfull
        omega
    · exact ⟨.inr hroom, .inl trivial⟩
    · exact ⟨.inr hroom, .inr fun h => absurd h hlf⟩
    · exact ⟨.inr hroom, .inl trivial⟩
    · refine ⟨.inr hroom, .inr fun _ => ?_⟩
      by_contra hzero
      simp [Buffer.last?, show parser.chunkLine.len = 0 by omega] at hlast

theorem trailerByte_room (parser : Parser) (c : UInt8) (rest : Bytes) :
    (((trailerByte parser c).turn rest).Refuses parser ∨
        parser.trailerStorage.len < parser.trailerStorage.storage.length) ∧
      (((trailerByte parser c).turn rest).Fails ∨
        (c = Ascii.lf → parser.trailerStart ≤ parser.trailerStorage.len - 1 ∧
          1 ≤ parser.trailerStorage.len)) := by
  have hle := parser.trailerStorage.len_le
  unfold trailerByte
  dsimp only
  split_ifs with hfull hcr hlf hlast
  · exact ⟨.inl ⟨rfl, rfl, rfl⟩, .inl trivial⟩
  all_goals
    have hroom : parser.trailerStorage.len < parser.trailerStorage.storage.length := by
      simp only [Buffer.capacity] at hfull
      omega
  · exact ⟨.inr hroom, .inl trivial⟩
  · exact ⟨.inr hroom, .inr fun h => absurd h hlf⟩
  · exact ⟨.inr hroom, .inl trivial⟩
  · refine ⟨.inr hroom, .inr fun _ => ?_⟩
    rw [not_not] at hlast
    unfold trailerLast at hlast
    split at hlast
    · omega
    · cases hlast

/-- A trailer is taken only while there is room among the fields. -/
theorem trailerByte_fields {parser next : Parser} {c : UInt8} {rest left : Bytes} {field : Header}
    (hcount : parser.trailerFields.length ≤ parser.limits.maxTrailerCount)
    (h : (trailerByte parser c).turn rest = .done next left (.trailer field)) :
    parser.trailerFields.length < maxFields := by
  have hlimit := parser.limits.trailer_le
  unfold trailerByte at h
  dsimp only at h
  split_ifs at h
  · cases h
  · cases h
  · cases h
  · cases h
  · unfold endTrailerLine at h
    dsimp only at h
    split_ifs at h with hempty hfull
    · cases h
    · cases h
    · exact Nat.lt_of_lt_of_le (Nat.lt_of_le_of_ne hcount hfull) hlimit

theorem Bounded.safe {parser : Parser} (h : parser.Bounded) (input : Bytes) :
    parser.Safe input := by
  unfold Safe
  split
  · rename_i c rest hphase
    have hturn : turn parser (c :: rest) = headTurn parser c rest := by
      simp only [turn, hphase]
    rw [hturn]
    exact ⟨parser.headStorage.len_le, headTurn_room parser c rest⟩
  · rename_i c rest hphase
    have houtstanding := h.outstanding (by simp [hphase])
    exact ⟨Nat.min_le_left _ _, Nat.min_le_right _ _, by omega⟩
  · rename_i c rest hphase
    have houtstanding := h.outstanding (by simp [hphase])
    exact ⟨Nat.min_le_left _ _, Nat.min_le_right _ _, by omega⟩
  · rename_i c rest hphase
    have hturn : turn parser (c :: rest) = (chunkSizeByte parser c).turn rest := by
      simp only [turn, hphase]
    obtain ⟨hroom, hline⟩ := chunkSizeByte_room parser c rest
    rw [hturn]
    exact ⟨h.line, hroom, hline, h.body⟩
  · rename_i c rest hphase
    have hturn : turn parser (c :: rest) = (trailerByte parser c).turn rest := by
      simp only [turn, hphase]
    obtain ⟨hroom, hline⟩ := trailerByte_room parser c rest
    rw [hturn]
    exact ⟨hroom, hline, fun next left field => trailerByte_fields h.trailerCount⟩
  · trivial

/-! ### One byte -/

/-- The limits and the sizes of the storage are those of an earlier parser. -/
def Keeps (next parser : Parser) : Prop :=
  next.limits = parser.limits ∧ next.headStorage.capacity = parser.headStorage.capacity ∧
    next.trailerStorage.capacity = parser.trailerStorage.capacity

theorem Keeps.refl (parser : Parser) : parser.Keeps parser := ⟨rfl, rfl, rfl⟩

theorem Keeps.trans {last next parser : Parser} (h : last.Keeps next) (h' : next.Keeps parser) :
    last.Keeps parser :=
  ⟨h.1.trans h'.1, h.2.1.trans h'.2.1, h.2.2.trans h'.2.2⟩

/-- A byte function keeps the bounds and reads no body byte; what it charges to the framing budget is
given.  The byte that the budget refuses is not charged. -/
def Outcome.Charges (parser : Parser) (charge : Nat) : Outcome → Prop
  | .go next =>
      next.Bounded ∧ next.Keeps parser ∧ next.bodyBytes = parser.bodyBytes ∧
        next.chunkFramingBytes = parser.chunkFramingBytes + charge
  | .emit next event =>
      next.Bounded ∧ next.Keeps parser ∧ next.bodyBytes = parser.bodyBytes ∧
        next.chunkFramingBytes = parser.chunkFramingBytes + charge ∧ ∀ bytes, event ≠ .body bytes
  | .fail next err =>
      Bounded { next with phase := .invalid } ∧ next.Keeps parser ∧
        next.bodyBytes = parser.bodyBytes ∧
        next.chunkFramingBytes =
          parser.chunkFramingBytes + if err = .chunkFramingTooLarge then 0 else charge

theorem Bounded.invalid {parser : Parser} (h : parser.Bounded) :
    Bounded { parser with phase := .invalid } :=
  ⟨by simp, by simp, h.body, h.framing, h.line, h.trailerStart, h.trailerCount⟩

/-- The head arm touches the head storage and the counters of the first line only. -/
theorem Bounded.headFields {parser : Parser} (h : parser.Bounded) (storage : Buffer UInt8)
    (leading spaces target : Nat) (first : Bool) :
    Bounded { parser with
      headStorage := storage, leadingLines := leading, spaces := spaces, targetLen := target,
      firstLine := first } :=
  ⟨h.head, h.outstanding, h.body, h.framing, h.line, h.trailerStart, h.trailerCount⟩

theorem finishHead_charges {parser before : Parser} (h : parser.Bounded)
    (hphase : parser.phase = .head) (hkeeps : parser.Keeps before)
    (hbody : parser.bodyBytes = before.bodyBytes)
    (hframing : parser.chunkFramingBytes = before.chunkFramingBytes) :
    (finishHead parser).Charges before 0 := by
  have hzero := h.head hphase
  unfold finishHead
  split
  · exact ⟨h.invalid, hkeeps, hbody, by simpa using hframing⟩
  · rename_i request _
    dsimp only
    split
    · exact ⟨⟨by simp, fun _ => h.outstanding (by simp [hphase]), h.body, h.framing, h.line,
        h.trailerStart, h.trailerCount⟩, hkeeps, hbody, hframing, by simp⟩
    · split
      · exact ⟨⟨by simp, by simp, h.body, h.framing, h.line, h.trailerStart, h.trailerCount⟩,
          hkeeps, hbody, by simpa using hframing⟩
      · rename_i hfits
        refine ⟨⟨fun _ => hzero, fun _ => ?_, h.body, h.framing, h.line, h.trailerStart,
          h.trailerCount⟩, hkeeps, hbody, hframing, by simp⟩
        dsimp only at hfits ⊢
        omega

theorem storeHeadByte_charges {parser : Parser} (c : UInt8) (h : parser.Bounded)
    (hphase : parser.phase = .head)
    (hroom : parser.headStorage.len < parser.headStorage.capacity) :
    (storeHeadByte parser c).Charges parser 0 := by
  obtain ⟨spaces, target, hcount⟩ : ∃ spaces target,
      countTarget { parser with headStorage := parser.headStorage.push c } c = { parser with
        headStorage := parser.headStorage.push c, spaces := spaces, targetLen := target } := by
    unfold countTarget
    split
    · exact ⟨_, _, rfl⟩
    · split
      · exact ⟨_, _, rfl⟩
      · exact ⟨_, _, rfl⟩
  have hcap : (parser.headStorage.push c).capacity = parser.headStorage.capacity :=
    Buffer.capacity_push c hroom
  unfold storeHeadByte
  rw [hcount]
  dsimp only
  split
  · exact ⟨(h.headFields _ _ _ _ _).invalid, ⟨rfl, hcap, rfl⟩, rfl, by simp⟩
  · split
    · exact ⟨h.headFields _ _ _ _ _, ⟨rfl, hcap, rfl⟩, rfl, rfl⟩
    · unfold endHeadLine
      dsimp only
      split
      · split
        · exact ⟨(h.headFields _ _ _ _ _).invalid, ⟨rfl, hcap, rfl⟩, rfl, by simp⟩
        · exact ⟨h.headFields _ _ _ _ _, ⟨rfl, hcap, rfl⟩, rfl, rfl⟩
      · split
        · exact finishHead_charges (h.headFields _ _ _ _ _) hphase ⟨rfl, hcap, rfl⟩ rfl rfl
        · exact ⟨h.headFields _ _ _ _ _, ⟨rfl, hcap, rfl⟩, rfl, rfl⟩

/-- Counting a framing byte, or refusing it because the budget is spent. -/
theorem countChunkFramingByte_cases (parser : Parser) (h : parser.Bounded) :
    countChunkFramingByte parser = none ∨
      parser.chunkFramingBytes < parser.limits.maxChunkFramingBytes ∧
        countChunkFramingByte parser =
          some { parser with chunkFramingBytes := parser.chunkFramingBytes + 1 } := by
  have hle := h.framing
  unfold countChunkFramingByte
  split
  · exact .inl rfl
  · exact .inr ⟨by omega, rfl⟩

/-- A size line fails with one error only. -/
theorem parseChunkSize_error {line : Bytes} {err : Error} (h : parseChunkSize line = .error err) :
    err = .invalidChunk := by
  unfold parseChunkSize at h
  dsimp only at h
  split at h
  · cases h
    rfl
  · split at h
    · cases h
      rfl
    · split at h
      · cases h
      · cases h
        rfl

theorem chunkSizeByte_charges {parser : Parser} (c : UInt8) (h : parser.Bounded)
    (hphase : parser.phase = .chunkSize) : (chunkSizeByte parser c).Charges parser 1 := by
  have houtstanding := h.outstanding (by simp [hphase])
  unfold chunkSizeByte
  rcases countChunkFramingByte_cases parser h with hnone | ⟨hlt, hsome⟩
  · rw [hnone]
    exact ⟨h.invalid, .refl _, rfl, by simp⟩
  · rw [hsome]
    -- The counted parser, with any size line of the same capacity.
    have hstored (line : Buffer UInt8) (hline : line.capacity = maxChunkLine) :
        Bounded { parser with
          chunkFramingBytes := parser.chunkFramingBytes + 1, chunkLine := line } :=
      ⟨h.head, h.outstanding, h.body, hlt, hline, h.trailerStart, h.trailerCount⟩
    unfold storeChunkByte
    dsimp only
    split
    · exact ⟨(hstored _ h.line).invalid, .refl _, rfl, rfl⟩
    · rename_i hfull
      have hpush : (parser.chunkLine.push c).capacity = maxChunkLine := by
        rw [Buffer.capacity_push c (Nat.lt_of_le_of_ne parser.chunkLine.len_le hfull), h.line]
      split
      · exact ⟨(hstored _ h.line).invalid, .refl _, rfl, rfl⟩
      · split
        · exact ⟨hstored _ hpush, .refl _, rfl, rfl⟩
        · split
          · exact ⟨(hstored _ hpush).invalid, .refl _, rfl, rfl⟩
          · unfold endChunkLine
            split
            · rename_i err herr
              refine ⟨(hstored _ hpush).invalid, .refl _, rfl, ?_⟩
              rw [parseChunkSize_error herr, if_neg (by simp)]
            · dsimp only
              split
              · exact ⟨⟨by simp, by simp, h.body, hlt, by simpa using hpush, h.trailerStart,
                  h.trailerCount⟩, .refl _, rfl, rfl⟩
              · rename_i hfits
                refine ⟨⟨fun hhead => ?_, fun _ => ?_, h.body, hlt, by simpa using hpush,
                  h.trailerStart, h.trailerCount⟩, .refl _, rfl, rfl⟩
                · simp only [afterChunkSize] at hhead
                  split at hhead <;> cases hhead
                · dsimp only at hfits ⊢
                  omega

theorem chunkDelimiterByte_charges {parser : Parser} (c : UInt8) (h : parser.Bounded)
    (hphase : parser.phase = .chunkCr ∨ parser.phase = .chunkLf) :
    (chunkDelimiterByte parser c).Charges parser 1 := by
  have houtstanding := h.outstanding (by rcases hphase with hphase | hphase <;> simp [hphase])
  unfold chunkDelimiterByte
  rcases countChunkFramingByte_cases parser h with hnone | ⟨hlt, hsome⟩
  · rw [hnone]
    exact ⟨h.invalid, .refl _, rfl, by simp⟩
  · rw [hsome]
    dsimp only
    split
    · exact ⟨⟨by simp, by simp, h.body, hlt, h.line, h.trailerStart, h.trailerCount⟩, .refl _, rfl,
        by simp⟩
    · refine ⟨⟨fun hhead => ?_, fun _ => houtstanding, h.body, hlt, h.line, h.trailerStart,
        h.trailerCount⟩, .refl _, rfl, rfl⟩
      rcases hphase with hphase | hphase <;> simp [hphase, delimiter] at hhead

theorem trailerByte_charges {parser : Parser} (c : UInt8) (h : parser.Bounded)
    (hphase : parser.phase = .trailers) : (trailerByte parser c).Charges parser 0 := by
  have houtstanding := h.outstanding (by simp [hphase])
  have hcount := h.trailerCount
  have hgrow : parser.trailerStorage.len ≤ (parser.trailerStorage.push c).len := by
    rw [Buffer.len_push]
    exact Nat.le_succ _
  have hstart := Nat.le_trans h.trailerStart hgrow
  -- The byte stored, with a line start that is not behind the write position.
  have hstored (start : Nat) (hle : start ≤ (parser.trailerStorage.push c).len) :
      Bounded { parser with
        trailerStorage := parser.trailerStorage.push c, trailerStart := start } :=
    ⟨h.head, h.outstanding, h.body, h.framing, h.line, hle, hcount⟩
  unfold trailerByte
  dsimp only
  split
  · exact ⟨h.invalid, .refl _, rfl, by simp⟩
  · rename_i hfull
    have hkeeps : Keeps { parser with trailerStorage := parser.trailerStorage.push c } parser :=
      ⟨rfl, rfl,
        Buffer.capacity_push c (Nat.lt_of_le_of_ne parser.trailerStorage.len_le hfull)⟩
    split
    · exact ⟨h.invalid, .refl _, rfl, by simp⟩
    · split
      · exact ⟨hstored _ hstart, hkeeps, rfl, rfl⟩
      · split
        · exact ⟨(hstored _ hstart).invalid, hkeeps, rfl, by simp⟩
        · unfold endTrailerLine
          dsimp only
          split
          · exact ⟨⟨by simp, fun _ => houtstanding, h.body, h.framing, h.line, Nat.le_refl _,
              hcount⟩, hkeeps, rfl, rfl⟩
          · split
            · exact ⟨(hstored _ (Nat.le_refl _)).invalid, hkeeps, rfl, by simp⟩
            · rename_i hroom
              split
              · exact ⟨(hstored _ (Nat.le_refl _)).invalid, hkeeps, rfl, by simp⟩
              · split
                · exact ⟨(hstored _ (Nat.le_refl _)).invalid, hkeeps, rfl, by simp⟩
                · refine ⟨⟨h.head, h.outstanding, h.body, h.framing, h.line, Nat.le_refl _, ?_⟩,
                    hkeeps, rfl, rfl, by simp⟩
                  rw [List.length_append, List.length_singleton]
                  exact Nat.lt_of_le_of_ne hcount hroom

/-! ### One turn, and every run of turns -/

/-- A parser and what its caller can observe. -/
structure Feeding where
  parser : Parser
  /-- The unconsumed input of the call under way; `none` between two calls. -/
  input : Option Bytes := none
  /-- Size-line, extension and delimiter bytes consumed so far.  The byte at which a call fails is
  one of them unless the budget refuses it. -/
  framing : Nat := 0
  /-- The body emitted so far. -/
  body : Bytes := []

inductive Action
  | call (input : Bytes)
  | turn

/-- What the caller observes of one turn over this input. -/
def Feeding.observe (feeding : Feeding) (input : Bytes) : Turn → Feeding
  | .again next rest =>
      { feeding with
        parser := next
        input := some rest
        framing := feeding.framing +
          if feeding.parser.phase.isFraming then input.length - rest.length else 0 }
  | .done next rest event =>
      { parser := next
        framing := feeding.framing +
          if feeding.parser.phase.isFraming then input.length - rest.length else 0
        body := feeding.body ++ event.payload }
  | .fail next err =>
      { parser := { next with phase := .invalid }
        framing := feeding.framing +
          if feeding.parser.phase.isFraming ∧ err ≠ .chunkFramingTooLarge then 1 else 0
        body := feeding.body }

/-- `feed` is called on a parser that is neither complete nor invalid, and runs turn by turn. -/
def Feeding.step (feeding : Feeding) : Action → Option Feeding
  | .call input =>
      if feeding.input.isNone ∧ feeding.parser.phase ≠ .complete ∧
          feeding.parser.phase ≠ .invalid then
        some { feeding with input := some input }
      else none
  | .turn => feeding.input.map fun input => feeding.observe input (turn feeding.parser input)

/-- The bounds, and the counters as counts of what was consumed and emitted. -/
structure Feeding.Accounted (feeding : Feeding) (start : Parser) : Prop where
  bounded : feeding.parser.Bounded
  keeps : feeding.parser.Keeps start
  framing : feeding.parser.chunkFramingBytes = feeding.framing
  body : feeding.parser.bodyBytes = feeding.body.length

theorem Outcome.turn_accounted {feeding : Feeding} {start : Parser} {outcome : Outcome}
    (c : UInt8) (rest : Bytes) (h : feeding.Accounted start)
    (hcharges : outcome.Charges feeding.parser
      (if feeding.parser.phase.isFraming then 1 else 0)) :
    (feeding.observe (c :: rest) (outcome.turn rest)).Accounted start := by
  have hone : (c :: rest).length - rest.length = 1 := by
    rw [List.length_cons]
    omega
  cases outcome with
  | go next =>
      obtain ⟨hbounded, hkeeps, hbody, hframing⟩ := hcharges
      refine ⟨hbounded, hkeeps.trans h.keeps, ?_, hbody.trans h.body⟩
      rw [Outcome.turn, Feeding.observe, hone, ← h.framing]
      exact hframing
  | emit next event =>
      obtain ⟨hbounded, hkeeps, hbody, hframing, hevent⟩ := hcharges
      refine ⟨hbounded, hkeeps.trans h.keeps, ?_, ?_⟩
      · rw [Outcome.turn, Feeding.observe, hone, ← h.framing]
        exact hframing
      · have hpayload : event.payload = [] := by
          cases event with
          | body bytes => exact absurd rfl (hevent bytes)
          | _ => rfl
        rw [Outcome.turn, Feeding.observe, hpayload, List.append_nil]
        exact hbody.trans h.body
  | fail next err =>
      obtain ⟨hbounded, hkeeps, hbody, hframing⟩ := hcharges
      refine ⟨hbounded, hkeeps.trans h.keeps, ?_, hbody.trans h.body⟩
      rw [Outcome.turn, Feeding.observe, ← h.framing]
      refine hframing.trans ?_
      by_cases herr : err = .chunkFramingTooLarge
      · simp [herr]
      · simp [herr]

theorem headTurn_accounted {feeding : Feeding} {start : Parser} (c : UInt8) (rest : Bytes)
    (h : feeding.Accounted start) (hphase : feeding.parser.phase = .head) :
    (feeding.observe (c :: rest) (headTurn feeding.parser c rest)).Accounted start := by
  have hcharge : (if feeding.parser.phase.isFraming then 1 else 0) = 0 := by
    simp [hphase, Phase.isFraming]
  -- A block that fits goes into the head storage and nowhere else.
  have hblock (width : Nat) (hwidth : width ≤ min (rest.length + 1) feeding.parser.headStorage.room) :
      (feeding.observe (c :: rest) (copyBlock feeding.parser width (c :: rest))).Accounted
        start := by
    have hfits : feeding.parser.headStorage.len +
        ((c :: rest).take (blockLength width (c :: rest))).length ≤
          feeding.parser.headStorage.capacity := by
      have hle := feeding.parser.headStorage.len_le_capacity
      have hlength := (blockLength_le width (c :: rest)).1
      rw [List.length_take]
      simp only [Buffer.room] at hwidth
      omega
    refine ⟨h.bounded.headFields _ _ _ _ _,
      ⟨h.keeps.1, (Buffer.capacity_append hfits).trans h.keeps.2.1, h.keeps.2.2⟩, ?_, h.body⟩
    simp [copyBlock, Feeding.observe, hphase, Phase.isFraming, h.framing]
  unfold headTurn
  cases hcheck : headCheck feeding.parser c with
  | some err =>
      exact ⟨h.bounded.invalid, h.keeps,
        by simp [Feeding.observe, hphase, Phase.isFraming, h.framing], h.body⟩
  | none =>
      have hscalar := Outcome.turn_accounted c rest h
        (by rw [hcharge]; exact storeHeadByte_charges c h.bounded hphase (headCheck_room hcheck))
      dsimp only
      split_ifs with hplain hwide hnarrow
      · exact hblock 64 hwide
      · exact hblock 16 hnarrow
      · exact hscalar
      · exact hscalar

theorem bodyTurn_accounted {feeding : Feeding} {start : Parser} (c : UInt8) (rest : Bytes)
    (h : feeding.Accounted start)
    (hphase : feeding.parser.phase = .fixedBody ∨ feeding.parser.phase = .chunkBody) :
    (feeding.observe (c :: rest) (.done
      (takeBody feeding.parser ((c :: rest).take (min feeding.parser.remaining (rest.length + 1))))
      ((c :: rest).drop (min feeding.parser.remaining (rest.length + 1)))
      (.body ((c :: rest).take (min feeding.parser.remaining (rest.length + 1)))))).Accounted
      start := by
  have hlength : ((c :: rest).take (min feeding.parser.remaining (rest.length + 1))).length =
      min feeding.parser.remaining (rest.length + 1) := by
    rw [List.length_take, List.length_cons, Nat.min_assoc, Nat.min_self]
  have houtstanding := h.bounded.outstanding
    (by rcases hphase with hphase | hphase <;> simp [hphase])
  have hnotFraming : feeding.parser.phase.isFraming = false := by
    rcases hphase with hphase | hphase <;> simp [hphase, Phase.isFraming]
  refine ⟨⟨fun hhead => ?_, fun _ => ?_, ?_, h.bounded.framing, h.bounded.line,
    h.bounded.trailerStart, h.bounded.trailerCount⟩, h.keeps, ?_, ?_⟩
  · simp only [Feeding.observe, takeBody, afterBody] at hhead
    split at hhead
    · split at hhead <;> cases hhead
    · rcases hphase with hphase | hphase <;> simp [hphase] at hhead
  · simp only [Feeding.observe, takeBody, hlength]
    omega
  · simp only [Feeding.observe, takeBody, hlength]
    omega
  · simp [Feeding.observe, hnotFraming, takeBody, h.framing]
  · simp only [Feeding.observe, takeBody, Event.payload, List.length_append, h.body]

theorem turn_accounted {feeding : Feeding} {start : Parser} (input : Bytes)
    (h : feeding.Accounted start) :
    (feeding.observe input (turn feeding.parser input)).Accounted start := by
  -- Waiting for input changes nothing, and charges nothing.
  have hwait (rest : Bytes) (phase : Phase) (event : Event) (hevent : event.payload = [])
      (hhead : phase = .head → feeding.parser.phase = .head)
      (hinvalid : phase ≠ .invalid → feeding.parser.phase ≠ .invalid) :
      (feeding.observe rest (.done { feeding.parser with phase := phase } rest event)).Accounted
        start := by
    refine ⟨⟨fun h' => h.bounded.head (hhead h'), fun h' => h.bounded.outstanding (hinvalid h'),
      h.bounded.body, h.bounded.framing, h.bounded.line, h.bounded.trailerStart,
      h.bounded.trailerCount⟩, h.keeps, ?_, ?_⟩
    · simp [Feeding.observe, h.framing]
    · simp [Feeding.observe, hevent, h.body]
  have hneed (rest : Bytes) :
      (feeding.observe rest (.done feeding.parser rest .needInput)).Accounted start :=
    hwait rest feeding.parser.phase .needInput rfl id id
  unfold turn
  cases hphase : feeding.parser.phase with
  | ending => exact hwait input .complete .end rfl (by simp) (by simp [hphase])
  | complete => exact hneed input
  | invalid => exact hneed input
  | head =>
      cases input with
      | nil => exact hneed []
      | cons c rest => exact headTurn_accounted c rest h hphase
  | fixedBody =>
      cases input with
      | nil => exact hneed []
      | cons c rest => exact bodyTurn_accounted c rest h (.inl hphase)
  | chunkBody =>
      cases input with
      | nil => exact hneed []
      | cons c rest => exact bodyTurn_accounted c rest h (.inr hphase)
  | chunkSize =>
      cases input with
      | nil => exact hneed []
      | cons c rest =>
          refine Outcome.turn_accounted c rest h ?_
          simpa [hphase, Phase.isFraming] using chunkSizeByte_charges c h.bounded hphase
  | chunkCr =>
      cases input with
      | nil => exact hneed []
      | cons c rest =>
          refine Outcome.turn_accounted c rest h ?_
          simpa [hphase, Phase.isFraming] using
            chunkDelimiterByte_charges c h.bounded (.inl hphase)
  | chunkLf =>
      cases input with
      | nil => exact hneed []
      | cons c rest =>
          refine Outcome.turn_accounted c rest h ?_
          simpa [hphase, Phase.isFraming] using
            chunkDelimiterByte_charges c h.bounded (.inr hphase)
  | trailers =>
      cases input with
      | nil => exact hneed []
      | cons c rest =>
          refine Outcome.turn_accounted c rest h ?_
          simpa [hphase, Phase.isFraming] using trailerByte_charges c h.bounded hphase

theorem step_accounted {start : Parser} (feeding : Feeding) (action : Action) (next : Feeding)
    (h : feeding.Accounted start) (hstep : feeding.step action = some next) :
    next.Accounted start := by
  cases action with
  | call input =>
      rw [Feeding.step] at hstep
      split at hstep
      · cases hstep
        exact ⟨h.bounded, h.keeps, h.framing, h.body⟩
      · cases hstep
  | turn =>
      rw [Feeding.step, Option.map_eq_some_iff] at hstep
      obtain ⟨input, _, rfl⟩ := hstep
      exact turn_accounted input h

/-! ### A call is a run of turns -/

theorem run_turns (fuel : Nat) (feeding : Feeding) (input : Bytes)
    (hinput : feeding.input = some input)
    (hstop : ∀ next rest, loop fuel feeding.parser input ≠ .again next rest) :
    ∃ turns last, run Feeding.step feeding (List.replicate turns .turn) = some last ∧
      last.input = none ∧
      match loop fuel feeding.parser input with
      | .again _ _ => False
      | .done next _ _ => last.parser = next
      | .fail next _ => last.parser = { next with phase := .invalid } := by
  induction fuel generalizing feeding input with
  | zero =>
      have hstep : feeding.step .turn =
          some (feeding.observe input (turn feeding.parser input)) := by
        simp [Feeding.step, hinput]
      refine ⟨1, _, by simp only [List.replicate, run, hstep, Option.bind_some]; rfl, ?_⟩
      rw [loop] at hstop ⊢
      cases hturn : turn feeding.parser input with
      | again next rest => exact absurd hturn (hstop next rest)
      | done next rest event => exact ⟨rfl, rfl⟩
      | fail next err => exact ⟨rfl, rfl⟩
  | succ fuel ih =>
      have hstep : feeding.step .turn =
          some (feeding.observe input (turn feeding.parser input)) := by
        simp [Feeding.step, hinput]
      rw [loop] at hstop ⊢
      cases hturn : turn feeding.parser input with
      | again next rest =>
          rw [hturn] at hstop hstep
          obtain ⟨turns, last, hrun, hlast⟩ := ih (feeding.observe input (.again next rest)) rest rfl
            hstop
          refine ⟨turns + 1, last, ?_, hlast⟩
          rw [List.replicate_succ, run, hstep, Option.bind_some]
          exact hrun
      | done next rest event =>
          rw [hturn] at hstep
          exact ⟨1, _, by simp only [List.replicate, run, hstep, Option.bind_some]; rfl, rfl, rfl⟩
      | fail next err =>
          rw [hturn] at hstep
          exact ⟨1, _, by simp only [List.replicate, run, hstep, Option.bind_some]; rfl, rfl, rfl⟩

/-- A call of `feed` is a run of turns that ends between two calls, with the parser that the call
leaves behind. -/
theorem feed_run {feeding : Feeding} (input : Bytes) (hidle : feeding.input = none)
    (hready : feeding.parser.Ready) :
    ∃ turns last, run Feeding.step feeding (.call input :: List.replicate turns .turn) = some last ∧
      last.input = none ∧ last.parser = (feeding.parser.feed input).1 := by
  obtain ⟨_, hstop⟩ := loop_walks input.length input hready (Nat.le_refl _)
  have hcall : feeding.step (.call input) = some { feeding with input := some input } := by
    simp [Feeding.step, hidle, hready.notComplete, hready.notInvalid]
  obtain ⟨turns, last, hrun, hinput, hlast⟩ :=
    run_turns input.length { feeding with input := some input } input rfl hstop
  refine ⟨turns, last, by rw [run, hcall, Option.bind_some, hrun], hinput, ?_⟩
  unfold feed
  dsimp only at hlast
  cases hloop : loop input.length feeding.parser input with
  | again next rest => exact absurd hloop (hstop next rest)
  | done next rest event =>
      rw [hloop] at hlast
      exact hlast
  | fail next err =>
      rw [hloop] at hlast
      exact hlast

/-- A chunked head in one call, a chunk of three bytes in two more, and a last call that is left in
front of the next size line. -/
def sampleActions : List Action :=
  .call (ascii "POST / HTTP/1.1\r\nHost: a\r\nTransfer-Encoding: chunked\r\n\r\n") ::
    (List.replicate 35 .turn ++ .call (ascii "3\r\nab") :: List.replicate 4 .turn ++
      [.call (ascii "c"), .turn, .call (ascii "\r\n0\r"), .turn, .turn])

end Parser

end Zhtps
