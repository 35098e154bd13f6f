import Zhtps.Http.Parser

/-!
Fragmentation invariance of `Parser.feed`.

A transport hands the parser its input in windows of its own choosing, and
the parser copies and scans in blocks of its own choosing. Neither choice
may show. Both are compared with one reference, `scan`, which walks the
bytes one at a time: every turn of the loop is a walk over the bytes it
consumed (`turn_scan`), hence so is every call (`feed_scan`), hence so is
every sequence of calls (`transcribe_scan`).
-/

namespace Zhtps

open Lib

/-- What a sequence of calls produced, after the `Transcript` of the
source's fuzz test, with the bytes themselves in place of their hashes. -/
structure Transcript where
  head : Option (Bytes × Request) := none
  body : Bytes := []
  trailers : List Header := []
  boundary : Option Nat := none
  failure : Option Error := none
  deriving DecidableEq, Repr

/-- Adds one event. The head is recorded as stored and as parsed. -/
def Transcript.record (t : Transcript) (parser : Parser) : Event → Transcript
  | .head request => { t with head := some (parser.headStorage.used, request) }
  | .body bytes => { t with body := t.body ++ bytes }
  | .trailer field => { t with trailers := t.trailers ++ [field] }
  | .needInput | .end => t

/-- The verdict of `eof` on a stream that has ended. -/
def Transcript.atEof (t : Transcript) (parser : Parser) : Transcript :=
  match parser.eof with
  | .ok _ => t
  | .error err => { t with failure := some err }

namespace Parser

/-- `parseTranscript`: feed the rest of the wire through windows whose
lengths are chosen call by call. The unconsumed part of a window is
presented again, in front of whatever the next window adds. `none` means
that the allowed number of calls was used up before the message ended. -/
def transcribe (window : Nat → Nat) :
    Nat → Nat → Parser → Bytes → Nat → Transcript → Option Transcript
  | 0, _, _, _, _, _ => none
  | calls + 1, index, parser, wire, offset, t =>
      match parser.feed (wire.take (window index)) with
      | (_, .error err) => some { t with failure := some err }
      | (_, .ok ⟨consumed, .end⟩) => some { t with boundary := some (offset + consumed) }
      | (next, .ok ⟨consumed, .needInput⟩) =>
          if consumed = wire.length then some (t.atEof next)
          else
            transcribe window calls (index + 1) next (wire.drop consumed) (offset + consumed) t
      | (next, .ok ⟨consumed, event⟩) =>
          transcribe window calls (index + 1) next (wire.drop consumed) (offset + consumed)
            (t.record next event)

/-- The transcript of a whole wire under one choice of windows, over at
most `calls` calls of `feed`. -/
def transcript (parser : Parser) (wire : Bytes) (window : Nat → Nat) (calls : Nat) :
    Option Transcript :=
  transcribe window calls 0 parser wire 0 {}

/-- One byte in each phase, without blocks. -/
def advance (parser : Parser) (c : UInt8) : Outcome :=
  match parser.phase with
  | .head =>
      match headCheck parser c with
      | some err => .fail parser err
      | none => storeHeadByte parser c
  | .chunkSize => chunkSizeByte parser c
  | .chunkCr | .chunkLf => chunkDelimiterByte parser c
  | .trailers => trailerByte parser c
  | .fixedBody | .chunkBody => .emit (takeBody parser [c]) (.body [c])
  | .ending | .complete | .invalid => .go parser

/-- The reference: one byte at a time until the message ends, fails, or the
wire does. -/
def scan (parser : Parser) : Bytes → Nat → Transcript → Transcript
  | [], offset, t =>
      if parser.phase = .ending then { t with boundary := some offset } else t.atEof parser
  | c :: rest, offset, t =>
      if parser.phase = .ending then { t with boundary := some offset }
      else match advance parser c with
        | .go next => scan next rest (offset + 1) t
        | .emit next event => scan next rest (offset + 1) (t.record next event)
        | .fail _ err => { t with failure := some err }

/-- A parser that `feed` accepts: not finished, and with body bytes
outstanding whenever it is in a body. -/
structure Ready (parser : Parser) : Prop where
  notComplete : parser.phase ≠ .complete
  notInvalid : parser.phase ≠ .invalid
  outstanding : parser.phase = .fixedBody ∨ parser.phase = .chunkBody → 0 < parser.remaining

theorem ready_init (head trailers : Bytes) (limits : Limits) :
    (init head trailers limits).Ready := by
  constructor <;> simp [init]

/-! ### What the byte functions leave behind -/

/-- A byte function keeps the parser ready unless it fails. -/
def Outcome.KeepsReady : Outcome → Prop
  | .go next => next.Ready
  | .emit next event => next.Ready ∧ event ≠ .needInput ∧ event ≠ .end
  | .fail _ _ => True

theorem Ready.of_phase {parser : Parser} (hc : parser.phase ≠ .complete)
    (hi : parser.phase ≠ .invalid) (hf : parser.phase ≠ .fixedBody)
    (hb : parser.phase ≠ .chunkBody) : parser.Ready :=
  ⟨hc, hi, fun h => by rcases h with h | h <;> contradiction⟩

theorem finishHead_ready (parser : Parser) : (finishHead parser).KeepsReady := by
  unfold finishHead
  split
  · trivial
  · rename_i request _
    dsimp only
    split
    · exact ⟨Ready.of_phase (by simp) (by simp) (by simp) (by simp), by simp, by simp⟩
    · split
      · trivial
      · refine ⟨⟨?_, ?_, ?_⟩, by simp, by simp⟩
        · simp only [afterHead]; split <;> simp
        · simp only [afterHead]; split <;> simp
        · dsimp only [afterHead]
          intro h
          by_cases hz : request.contentLength.getD 0 = 0
          · simp [hz] at h
          · omega

@[simp] theorem countTarget_phase (parser : Parser) (c : UInt8) :
    (countTarget parser c).phase = parser.phase := by
  unfold countTarget
  split
  · rfl
  · split <;> rfl

theorem storeHeadByte_ready {parser : Parser} (c : UInt8) (h : parser.phase = .head) :
    (storeHeadByte parser c).KeepsReady := by
  have hready (p : Parser) (hp : p.phase = .head) : p.Ready :=
    Ready.of_phase (by simp [hp]) (by simp [hp]) (by simp [hp]) (by simp [hp])
  unfold storeHeadByte
  dsimp only
  split
  · trivial
  · split
    · exact hready _ (by simpa using h)
    · unfold endHeadLine
      dsimp only
      split
      · split
        · trivial
        · exact hready _ (by simpa using h)
      · split
        · exact finishHead_ready _
        · exact hready _ (by simpa using h)

theorem countChunkFramingByte_phase {parser next : Parser}
    (h : countChunkFramingByte parser = some next) : next.phase = parser.phase := by
  unfold countChunkFramingByte at h
  split at h
  · cases h
  · cases h; rfl

theorem chunkSizeByte_ready {parser : Parser} (c : UInt8) (h : parser.phase = .chunkSize) :
    (chunkSizeByte parser c).KeepsReady := by
  unfold chunkSizeByte
  split
  · trivial
  · rename_i next hnext
    have hphase : next.phase = .chunkSize := (countChunkFramingByte_phase hnext).trans h
    unfold storeChunkByte
    dsimp only
    split
    · trivial
    · split
      · trivial
      · split
        · exact Ready.of_phase (by simp [hphase]) (by simp [hphase]) (by simp [hphase])
            (by simp [hphase])
        · split
          · trivial
          · unfold endChunkLine
            split
            · trivial
            · rename_i size _
              dsimp only
              split
              · trivial
              · refine ⟨?_, ?_, ?_⟩
                · simp only [afterChunkSize]; split <;> simp
                · simp only [afterChunkSize]; split <;> simp
                · dsimp only [afterChunkSize]
                  intro hbody
                  by_cases hz : size = 0
                  · simp [hz] at hbody
                  · omega

theorem chunkDelimiterByte_ready (parser : Parser) (c : UInt8) :
    (chunkDelimiterByte parser c).KeepsReady := by
  unfold chunkDelimiterByte
  split
  · trivial
  · split
    · trivial
    · refine Ready.of_phase ?_ ?_ ?_ ?_ <;> dsimp only [delimiter] <;> split <;> simp

theorem trailerByte_ready {parser : Parser} (c : UInt8) (h : parser.phase = .trailers) :
    (trailerByte parser c).KeepsReady := by
  have hready (p : Parser) (hp : p.phase = .trailers) : p.Ready :=
    Ready.of_phase (by simp [hp]) (by simp [hp]) (by simp [hp]) (by simp [hp])
  unfold trailerByte
  dsimp only
  split
  · trivial
  · split
    · trivial
    · split
      · exact hready _ h
      · split
        · trivial
        · unfold endTrailerLine
          dsimp only
          split
          · exact Ready.of_phase (by simp) (by simp) (by simp) (by simp)
          · split
            · trivial
            · split
              · trivial
              · split
                · trivial
                · exact ⟨hready _ h, by simp, by simp⟩

theorem takeBody_ready {parser : Parser} (bytes : Bytes)
    (h : parser.phase = .fixedBody ∨ parser.phase = .chunkBody) :
    (takeBody parser bytes).Ready := by
  have hphase : parser.phase ≠ .complete ∧ parser.phase ≠ .invalid := by
    rcases h with h | h <;> simp [h]
  by_cases hz : parser.remaining - bytes.length = 0
  · refine Ready.of_phase ?_ ?_ ?_ ?_ <;> simp only [takeBody, afterBody, hz, if_true] <;>
      split <;> simp
  · refine ⟨?_, ?_, ?_⟩
    · simpa [takeBody, afterBody, hz] using hphase.1
    · simpa [takeBody, afterBody, hz] using hphase.2
    · intro _
      simp only [takeBody]
      omega

theorem advance_ready {parser : Parser} (c : UInt8) (h : parser.Ready) :
    (advance parser c).KeepsReady := by
  unfold advance
  cases hphase : parser.phase with
  | head =>
      dsimp only
      split
      · trivial
      · exact storeHeadByte_ready c hphase
  | chunkSize => exact chunkSizeByte_ready c hphase
  | chunkCr => exact chunkDelimiterByte_ready parser c
  | chunkLf => exact chunkDelimiterByte_ready parser c
  | trailers => exact trailerByte_ready c hphase
  | fixedBody => exact ⟨takeBody_ready [c] (.inl hphase), by simp, by simp⟩
  | chunkBody => exact ⟨takeBody_ready [c] (.inr hphase), by simp, by simp⟩
  | ending => exact h
  | complete => exact h
  | invalid => exact h

/-! ### One turn is a walk over the bytes it consumed -/

theorem scan_ending {parser : Parser} (bytes : Bytes) (offset : Nat) (t : Transcript)
    (h : parser.phase = .ending) :
    scan parser bytes offset t = { t with boundary := some offset } := by
  cases bytes <;> simp [scan, h]

/-- What the reference does with the first byte of a message that is still
running. -/
def Outcome.resume (rest : Bytes) (offset : Nat) (t : Transcript) : Outcome → Transcript
  | .go next => scan next rest (offset + 1) t
  | .emit next event => scan next rest (offset + 1) (t.record next event)
  | .fail _ err => { t with failure := some err }

theorem scan_cons {parser : Parser} (c : UInt8) (rest : Bytes) (offset : Nat) (t : Transcript)
    (h : parser.phase ≠ .ending) :
    scan parser (c :: rest) offset t = (advance parser c).resume rest offset t := by
  rw [scan, if_neg h]
  cases advance parser c <;> rfl

/-- Behind the first line, a byte that is no line ending is just stored. -/
theorem advance_plain {parser : Parser} {c : UInt8} (hphase : parser.phase = .head)
    (hline : parser.firstLine = false) (hroom : parser.headStorage.len < parser.headStorage.capacity)
    (hlast : parser.headStorage.last? ≠ some Ascii.cr) (hc : isDelimiter c = false) :
    advance parser c = .go { parser with headStorage := parser.headStorage.push c } := by
  have hlf : c ≠ Ascii.lf := by
    rintro rfl
    simp [isDelimiter] at hc
  have hcheck : headCheck parser c = none := by
    simp only [headCheck, Nat.ne_of_lt hroom, hlast, hlf, false_and, if_false]
  simp [advance, hphase, hcheck, storeHeadByte, inTarget, countTarget, hline, hlf]

theorem scan_block {parser : Parser} (xs tail : Bytes) (offset : Nat) (t : Transcript)
    (hphase : parser.phase = .head) (hline : parser.firstLine = false)
    (hroom : parser.headStorage.len + xs.length ≤ parser.headStorage.capacity)
    (hlast : parser.headStorage.last? ≠ some Ascii.cr) (hxs : ∀ c ∈ xs, isDelimiter c = false) :
    scan parser (xs ++ tail) offset t =
      scan { parser with headStorage := parser.headStorage.append xs } tail
        (offset + xs.length) t := by
  induction xs generalizing parser offset with
  | nil => simp
  | cons c xs ih =>
      rw [List.length_cons] at hroom
      have hc : isDelimiter c = false := hxs c (by simp)
      have hlt : parser.headStorage.len < parser.headStorage.capacity := by omega
      have hcr : c ≠ Ascii.cr := by
        rintro rfl
        simp [isDelimiter] at hc
      rw [List.cons_append, scan_cons c _ _ _ (by simp [hphase]),
        advance_plain hphase hline hlt hlast hc, Outcome.resume, ih]
      · rw [Buffer.append_cons, List.length_cons, Nat.add_assoc,
          Nat.add_comm 1]
      · exact hphase
      · exact hline
      · simp only [Buffer.len_push, Buffer.capacity_push c hlt]
        omega
      · simpa [Buffer.last?_push] using hcr
      · intro x hx
        exact hxs x (by simp [hx])

theorem takeBody_append {parser : Parser} (xs ys : Bytes) (hlt : xs.length < parser.remaining) :
    takeBody (takeBody parser xs) ys = takeBody parser (xs ++ ys) := by
  have hz : parser.remaining - xs.length ≠ 0 := by omega
  have hsub : parser.remaining - xs.length - ys.length =
      parser.remaining - (xs.length + ys.length) := by omega
  simp [takeBody, afterBody, hz, hsub, Nat.add_assoc]

theorem scan_body {parser : Parser} (xs tail : Bytes) (offset : Nat) (t : Transcript)
    (h : parser.phase = .fixedBody ∨ parser.phase = .chunkBody) (hne : xs ≠ [])
    (hle : xs.length ≤ parser.remaining) :
    scan parser (xs ++ tail) offset t =
      scan (takeBody parser xs) tail (offset + xs.length) { t with body := t.body ++ xs } := by
  induction xs generalizing parser offset t with
  | nil => exact absurd rfl hne
  | cons c xs ih =>
      have hending : parser.phase ≠ .ending := by rcases h with h | h <;> simp [h]
      have hadvance : advance parser c = .emit (takeBody parser [c]) (.body [c]) := by
        rcases h with h | h <;> simp [advance, h]
      rw [List.cons_append, scan_cons c _ _ _ hending, hadvance, Outcome.resume]
      simp only [Transcript.record]
      cases xs with
      | nil => simp
      | cons x xs =>
          have hlt : ([c] : Bytes).length < parser.remaining := by
            simp only [List.length_cons, List.length_nil] at hle ⊢
            omega
          have hphase : (takeBody parser [c]).phase = parser.phase := by
            have hz : parser.remaining - ([c] : Bytes).length ≠ 0 := by omega
            simp only [takeBody, afterBody, hz, if_false]
          rw [ih (offset + 1) { t with body := t.body ++ [c] } (by rwa [hphase]) (by simp)
            (by simp [takeBody] at hle ⊢; omega)]
          rw [takeBody_append [c] (x :: xs) hlt]
          simp only [List.append_assoc, List.singleton_append, List.length_cons]
          congr 1
          omega

/-- What the reference does behind an event: the end of the message settles
the transcript, any other event is recorded and the walk goes on. -/
def follow (next : Parser) (event : Event) (bytes : Bytes) (offset : Nat) (t : Transcript) :
    Transcript :=
  if event = .end then { t with boundary := some offset }
  else scan next bytes offset (t.record next event)

/-- The walk that a turn, or a whole call, stands for. The unconsumed input
is a suffix of the input, and `tail` is the part of the wire behind the
window. -/
def Turn.Walks (parser : Parser) (input : Bytes) : Turn → Prop
  | .again next rest =>
      next.Ready ∧ ∃ taken, taken ≠ [] ∧ input = taken ++ rest ∧ ∀ tail offset t,
        scan parser (input ++ tail) offset t = scan next (rest ++ tail) (offset + taken.length) t
  | .done next rest event =>
      (event ≠ .end → next.Ready) ∧ (event = .needInput → rest = [] ∧ next.phase ≠ .ending) ∧
      ∃ taken, (event ≠ .needInput → event ≠ .end → taken ≠ []) ∧ input = taken ++ rest ∧
        ∀ tail offset t, scan parser (input ++ tail) offset t =
          follow next event (rest ++ tail) (offset + taken.length) t
  | .fail _ err => ∀ tail offset t,
        scan parser (input ++ tail) offset t = { t with failure := some err }

theorem Outcome.turn_walks {parser : Parser} (c : UInt8) (rest : Bytes)
    (hready : parser.Ready) (hending : parser.phase ≠ .ending) :
    ((advance parser c).turn rest).Walks parser (c :: rest) := by
  have hkeeps := advance_ready c hready
  have hscan (tail : Bytes) (offset : Nat) (t : Transcript) :=
    scan_cons c (rest ++ tail) offset t hending
  cases hadvance : advance parser c with
  | go next =>
      rw [hadvance] at hkeeps hscan
      exact ⟨hkeeps, [c], by simp, rfl, hscan⟩
  | emit next event =>
      rw [hadvance] at hkeeps hscan
      obtain ⟨hnext, hneed, hend⟩ := hkeeps
      refine ⟨fun _ => hnext, fun h => absurd h hneed, [c], by simp, rfl, fun tail offset t => ?_⟩
      rw [follow, if_neg hend]
      exact hscan tail offset t
  | fail next err =>
      rw [hadvance] at hscan
      exact hscan

/-- Waiting for input is a walk over nothing. -/
theorem needInput_walks {parser : Parser} (hready : parser.Ready) (h : parser.phase ≠ .ending) :
    (Turn.done parser [] .needInput).Walks parser [] :=
  ⟨fun _ => hready, fun _ => ⟨rfl, h⟩, [], by simp, rfl, fun _ _ _ => rfl⟩

theorem mem_take_findIdx (xs : Bytes) (f : UInt8 → Bool) {c : UInt8}
    (h : c ∈ xs.take (xs.findIdx f)) : f c = false := by
  obtain ⟨i, hi, rfl⟩ := List.getElem_of_mem h
  rw [List.length_take] at hi
  rw [List.getElem_take]
  have hlt : i < xs.findIdx f := by omega
  simpa using List.not_of_lt_findIdx hlt

theorem blockLength_pos {width : Nat} {c : UInt8} (rest : Bytes) (hw : 0 < width)
    (hc : isDelimiter c = false) : 0 < blockLength width (c :: rest) := by
  obtain ⟨n, rfl⟩ : ∃ n, width = n + 1 := ⟨width - 1, by omega⟩
  simp [blockLength, List.findIdx_cons, hc]

/-- A block stays within its width and holds no line ending. -/
theorem blockLength_plain (width : Nat) (rest : Bytes) :
    blockLength width rest ≤ width ∧
      ∀ x ∈ rest.take (blockLength width rest), isDelimiter x = false := by
  have hle : blockLength width rest ≤ width := by
    refine Nat.le_trans List.findIdx_le_length ?_
    simp only [List.length_take]
    omega
  refine ⟨hle, fun x hx => ?_⟩
  apply mem_take_findIdx (rest.take width) isDelimiter
  rw [List.take_take]
  change x ∈ List.take (min (blockLength width rest) width) rest
  rw [Nat.min_eq_left hle]
  exact hx

/-- A byte that may start a block stands behind the first line, and no CR is waiting for it. -/
theorem headCheck_plain {parser : Parser} {c : UInt8} (hcheck : headCheck parser c = none)
    (hplain : (!parser.firstLine && !isDelimiter c) = true) :
    parser.firstLine = false ∧ isDelimiter c = false ∧
      parser.headStorage.last? ≠ some Ascii.cr := by
  have hline : parser.firstLine = false := by simp at hplain; exact hplain.1
  have hc : isDelimiter c = false := by simp at hplain; exact hplain.2
  refine ⟨hline, hc, fun hcr => ?_⟩
  have hlf : c ≠ Ascii.lf := by
    rintro rfl
    simp [isDelimiter] at hc
  simp only [headCheck, hcr, hlf, ne_eq, not_false_eq_true, and_self, if_true] at hcheck
  split at hcheck <;> cases hcheck

theorem copyBlock_walks {parser : Parser} {width : Nat} {c : UInt8} {rest : Bytes}
    (hready : parser.Ready) (hphase : parser.phase = .head) (hline : parser.firstLine = false)
    (hw : 0 < width) (hroom : width ≤ parser.headStorage.room)
    (hlast : parser.headStorage.last? ≠ some Ascii.cr) (hc : isDelimiter c = false) :
    (copyBlock parser width (c :: rest)).Walks parser (c :: rest) := by
  have hpos := blockLength_pos rest hw hc
  obtain ⟨hle, hplain⟩ := blockLength_plain width (c :: rest)
  have hlen := parser.headStorage.len_le_capacity
  refine ⟨⟨hready.1, hready.2, hready.3⟩,
    (c :: rest).take (blockLength width (c :: rest)), ?_,
    (List.take_append_drop _ _).symm, ?_⟩
  · intro hnil
    have := congrArg List.length hnil
    simp only [List.length_take, List.length_cons, List.length_nil] at this
    omega
  · intro tail offset t
    have hsplit : c :: rest ++ tail =
        (c :: rest).take (blockLength width (c :: rest)) ++
          ((c :: rest).drop (blockLength width (c :: rest)) ++ tail) := by
      rw [← List.append_assoc, List.take_append_drop]
    rw [hsplit]
    refine scan_block _ _ offset t hphase hline ?_ hlast hplain
    simp only [List.length_take, Buffer.room] at hroom ⊢
    omega

theorem headTurn_walks {parser : Parser} (c : UInt8) (rest : Bytes)
    (hready : parser.Ready) (hphase : parser.phase = .head) :
    (headTurn parser c rest).Walks parser (c :: rest) := by
  have hending : parser.phase ≠ .ending := by simp [hphase]
  have hscalar := Outcome.turn_walks c rest hready hending
  have hadvance : advance parser c =
      match headCheck parser c with
      | some err => .fail parser err
      | none => storeHeadByte parser c := by
    simp [advance, hphase]
  rw [hadvance] at hscalar
  unfold headTurn
  cases hcheck : headCheck parser c with
  | some err =>
      rw [hcheck] at hscalar
      exact hscalar
  | none =>
      rw [hcheck] at hscalar
      dsimp only at hscalar ⊢
      by_cases hplain : (!parser.firstLine && !isDelimiter c) = true
      · rw [if_pos hplain]
        obtain ⟨hline, hc, hlast⟩ := headCheck_plain hcheck hplain
        split
        · exact copyBlock_walks hready hphase hline (by omega) (by omega) hlast hc
        · split
          · exact copyBlock_walks hready hphase hline (by omega) (by omega) hlast hc
          · exact hscalar
      · rw [if_neg hplain]
        exact hscalar

theorem bodyTurn_walks {parser : Parser} (c : UInt8) (rest : Bytes) (hready : parser.Ready)
    (h : parser.phase = .fixedBody ∨ parser.phase = .chunkBody) :
    (Turn.done (takeBody parser ((c :: rest).take (min parser.remaining (rest.length + 1))))
      ((c :: rest).drop (min parser.remaining (rest.length + 1)))
      (.body ((c :: rest).take (min parser.remaining (rest.length + 1))))).Walks
      parser (c :: rest) := by
  have hpos := hready.outstanding h
  have hne : (c :: rest).take (min parser.remaining (rest.length + 1)) ≠ [] := by
    intro hnil
    have := congrArg List.length hnil
    simp only [List.length_take, List.length_cons, List.length_nil] at this
    omega
  refine ⟨fun _ => takeBody_ready _ h, by simp, _, fun _ _ => hne,
    (List.take_append_drop _ _).symm, ?_⟩
  intro tail offset t
  have hsplit : c :: rest ++ tail =
      (c :: rest).take (min parser.remaining (rest.length + 1)) ++
        ((c :: rest).drop (min parser.remaining (rest.length + 1)) ++ tail) := by
    rw [← List.append_assoc, List.take_append_drop]
  rw [hsplit]
  refine scan_body _ _ offset t h hne ?_
  simp only [List.length_take]
  omega

theorem turn_walks {parser : Parser} (input : Bytes) (hready : parser.Ready) :
    (turn parser input).Walks parser input := by
  unfold turn
  cases hphase : parser.phase with
  | ending =>
      refine ⟨by simp, by simp, [], by simp, rfl, fun tail offset t => ?_⟩
      simpa [follow] using scan_ending (input ++ tail) offset t hphase
  | complete => exact absurd hphase hready.notComplete
  | invalid => exact absurd hphase hready.notInvalid
  | head =>
      cases input with
      | nil => exact needInput_walks hready (by simp [hphase])
      | cons c rest => exact headTurn_walks c rest hready hphase
  | fixedBody =>
      cases input with
      | nil => exact needInput_walks hready (by simp [hphase])
      | cons c rest => exact bodyTurn_walks c rest hready (.inl hphase)
  | chunkBody =>
      cases input with
      | nil => exact needInput_walks hready (by simp [hphase])
      | cons c rest => exact bodyTurn_walks c rest hready (.inr hphase)
  | chunkSize =>
      cases input with
      | nil => exact needInput_walks hready (by simp [hphase])
      | cons c rest =>
          simpa [advance, hphase] using Outcome.turn_walks c rest hready (by simp [hphase])
  | chunkCr =>
      cases input with
      | nil => exact needInput_walks hready (by simp [hphase])
      | cons c rest =>
          simpa [advance, hphase] using Outcome.turn_walks c rest hready (by simp [hphase])
  | chunkLf =>
      cases input with
      | nil => exact needInput_walks hready (by simp [hphase])
      | cons c rest =>
          simpa [advance, hphase] using Outcome.turn_walks c rest hready (by simp [hphase])
  | trailers =>
      cases input with
      | nil => exact needInput_walks hready (by simp [hphase])
      | cons c rest =>
          simpa [advance, hphase] using Outcome.turn_walks c rest hready (by simp [hphase])

/-! ### A call is a walk, and so is a sequence of calls -/

/-- A walk in front of a walk. -/
theorem Turn.Walks.after {parser next : Parser} {taken rest : Bytes} {result : Turn}
    (hwalks : result.Walks next rest) (hne : taken ≠ [])
    (hscan : ∀ tail offset t, scan parser (taken ++ rest ++ tail) offset t =
      scan next (rest ++ tail) (offset + taken.length) t) :
    result.Walks parser (taken ++ rest) := by
  cases result with
  | again last left =>
      obtain ⟨hlast, more, _, rfl, hnext⟩ := hwalks
      refine ⟨hlast, taken ++ more, by simp [hne], by rw [List.append_assoc], ?_⟩
      intro tail offset t
      rw [hscan, hnext, List.length_append, Nat.add_assoc]
  | done last left event =>
      obtain ⟨hlast, hneed, more, _, rfl, hnext⟩ := hwalks
      refine ⟨hlast, hneed, taken ++ more, by simp [hne], by rw [List.append_assoc], ?_⟩
      intro tail offset t
      rw [hscan, hnext, List.length_append, Nat.add_assoc]
  | fail last err =>
      intro tail offset t
      rw [hscan]
      exact hwalks tail _ t

/-- The loop walks, and is left within as many turns as there is input. -/
theorem loop_walks (fuel : Nat) {parser : Parser} (input : Bytes) (hready : parser.Ready)
    (hfuel : input.length ≤ fuel) :
    (loop fuel parser input).Walks parser input ∧
      ∀ next rest, loop fuel parser input ≠ .again next rest := by
  induction fuel generalizing parser input with
  | zero =>
      have hnil : input = [] := List.length_eq_zero_iff.mp (by omega)
      subst hnil
      have hwalks := turn_walks [] hready
      refine ⟨hwalks, fun next rest hagain => ?_⟩
      rw [show parser.turn [] = .again next rest from hagain] at hwalks
      obtain ⟨_, taken, hne, hsplit, _⟩ := hwalks
      exact hne (List.append_eq_nil_iff.mp hsplit.symm).1
  | succ fuel ih =>
      have hwalks := turn_walks input hready
      rw [loop]
      cases hturn : turn parser input with
      | again next rest =>
          rw [hturn] at hwalks
          obtain ⟨hnext, taken, hne, rfl, hscan⟩ := hwalks
          have hpos : 0 < taken.length := List.length_pos_iff.mpr hne
          rw [List.length_append] at hfuel
          obtain ⟨hrest, hstop⟩ := ih rest hnext (by omega)
          exact ⟨hrest.after hne hscan, hstop⟩
      | done next rest event =>
          rw [hturn] at hwalks
          exact ⟨hwalks, by simp⟩
      | fail next err =>
          rw [hturn] at hwalks
          exact ⟨hwalks, by simp⟩

theorem feed_error {parser next : Parser} {input : Bytes} {err : Error} (hready : parser.Ready)
    (h : parser.feed input = (next, .error err)) (tail : Bytes) (offset : Nat) (t : Transcript) :
    scan parser (input ++ tail) offset t = { t with failure := some err } := by
  obtain ⟨hwalks, hstop⟩ := loop_walks input.length input hready (Nat.le_refl _)
  unfold feed at h
  cases hloop : loop input.length parser input with
  | again next rest => exact absurd hloop (hstop next rest)
  | done next rest event => simp [hloop] at h
  | fail last reason =>
      rw [hloop] at hwalks
      simp only [hloop, Prod.mk.injEq, Except.error.injEq] at h
      rw [← h.2]
      exact hwalks tail offset t

/-- What a call of `feed` that returns an event has done. -/
theorem feed_ok {parser next : Parser} {input : Bytes} {consumed : Nat} {event : Event}
    (hready : parser.Ready) (h : parser.feed input = (next, .ok ⟨consumed, event⟩)) :
    consumed ≤ input.length ∧ (event ≠ .end → next.Ready) ∧
      (event = .needInput → consumed = input.length ∧ next.phase ≠ .ending) ∧
      (event ≠ .needInput → event ≠ .end → 0 < consumed) ∧
      ∀ tail offset t, scan parser (input ++ tail) offset t =
        follow next event (input.drop consumed ++ tail) (offset + consumed) t := by
  obtain ⟨hwalks, hstop⟩ := loop_walks input.length input hready (Nat.le_refl _)
  unfold feed at h
  cases hloop : loop input.length parser input with
  | again next rest => exact absurd hloop (hstop next rest)
  | fail last reason => simp [hloop] at h
  | done last rest last_event =>
      rw [hloop] at hwalks
      simp only [hloop, Prod.mk.injEq, Except.ok.injEq, Step.mk.injEq] at h
      obtain ⟨rfl, rfl, rfl⟩ := h
      obtain ⟨hnext, hneed, taken, hne, rfl, hscan⟩ := hwalks
      have hlen : (taken ++ rest).length - rest.length = taken.length := by simp
      rw [hlen, List.drop_left]
      refine ⟨by simp, hnext, fun h => ?_, fun h h' => List.length_pos_iff.mpr (hne h h'), hscan⟩
      obtain ⟨rfl, hphase⟩ := hneed h
      exact ⟨by simp, hphase⟩

theorem scan_nil {parser : Parser} (offset : Nat) (t : Transcript) (h : parser.phase ≠ .ending) :
    scan parser [] offset t = t.atEof parser := by
  simp [scan, h]

/-- Whatever the windows, a transcript that is reached is the reference's. -/
theorem transcribe_scan (window : Nat → Nat) (calls index : Nat) {parser : Parser} (wire : Bytes)
    (offset : Nat) (t result : Transcript) (hready : parser.Ready)
    (h : transcribe window calls index parser wire offset t = some result) :
    result = scan parser wire offset t := by
  induction calls generalizing index parser wire offset t with
  | zero => simp [transcribe] at h
  | succ calls ih =>
      have hwire : wire.take (window index) ++ wire.drop (window index) = wire :=
        List.take_append_drop _ _
      rw [transcribe] at h
      split at h
      next next err hfeed =>
          have hscan := feed_error hready hfeed (wire.drop (window index)) offset t
          rw [hwire] at hscan
          rw [hscan]
          exact (Option.some.inj h).symm
      next next consumed hfeed =>
          obtain ⟨_, _, _, _, hscan⟩ := feed_ok hready hfeed
          have hscan := hscan (wire.drop (window index)) offset t
          rw [hwire] at hscan
          rw [hscan]
          simpa [follow] using (Option.some.inj h).symm
      next next consumed hfeed =>
          obtain ⟨hle, hnext, hneed, _, hscan⟩ := feed_ok hready hfeed
          obtain ⟨hconsumed, hending⟩ := hneed rfl
          have hscan := hscan (wire.drop (window index)) offset t
          have hdrop : (wire.take (window index)).drop consumed ++ wire.drop (window index) =
              wire.drop consumed := by
            conv => rhs; rw [← hwire]
            rw [List.drop_append_of_le_length hle]
          rw [hwire, hdrop] at hscan
          rw [hscan]
          simp only [follow, Transcript.record, reduceCtorEq, if_false]
          split at h
          next hlast =>
              rw [hlast, List.drop_length, scan_nil _ _ hending]
              exact (Option.some.inj h).symm
          next => exact ih (index + 1) _ _ t (hnext (by simp)) h
      next next consumed event hend hneed hfeed =>
          obtain ⟨hle, hnext, _, _, hscan⟩ := feed_ok hready hfeed
          have hend' : event ≠ .end := fun he => hend (by rw [he])
          have hscan := hscan (wire.drop (window index)) offset t
          have hdrop : (wire.take (window index)).drop consumed ++ wire.drop (window index) =
              wire.drop consumed := by
            conv => rhs; rw [← hwire]
            rw [List.drop_append_of_le_length hle]
          rw [hwire, hdrop] at hscan
          rw [hscan]
          simp only [follow, hend', if_false]
          exact ih (index + 1) _ _ _ (hnext hend') h

/-- With windows that are never empty, every call consumes input or ends the
transcript, so as many calls as there are bytes, and one more, are enough. -/
theorem transcribe_isSome (window : Nat → Nat) (hwindow : ∀ i, 0 < window i) (calls index : Nat)
    {parser : Parser} (wire : Bytes) (offset : Nat) (t : Transcript) (hready : parser.Ready)
    (hcalls : wire.length < calls) :
    (transcribe window calls index parser wire offset t).isSome := by
  induction calls generalizing index parser wire offset t with
  | zero => omega
  | succ calls ih =>
      have hpos := hwindow index
      rw [transcribe]
      split
      next => rfl
      next => rfl
      next next consumed hfeed =>
          obtain ⟨_, hnext, hneed, _, _⟩ := feed_ok hready hfeed
          have hconsumed := (hneed rfl).1
          rw [List.length_take] at hconsumed
          split
          next => rfl
          next =>
              refine ih (index + 1) _ _ t (hnext (by simp)) ?_
              rw [List.length_drop]
              omega
      next next consumed event hend hneed hfeed =>
          obtain ⟨hle, hnext, _, hprogress, _⟩ := feed_ok hready hfeed
          have hend' : event ≠ .end := fun he => hend (by rw [he])
          have hneed' : event ≠ .needInput := fun he => hneed (by rw [he])
          have := hprogress hneed' hend'
          rw [List.length_take] at hle
          refine ih (index + 1) _ _ _ (hnext hend') ?_
          rw [List.length_drop]
          omega

/-- **Fragmentation invariance.** Over any storage and limits, and however a
wire is cut into windows, a transcript that is reached is the one reached
by feeding the whole wire at once: the same head, body and trailers, and the
same boundary or the same error. Windows that are never empty reach it. -/
theorem transcript_fragmentation (headStorage trailerStorage : Bytes) (limits : Limits)
    (wire : Bytes) (window : Nat → Nat) :
    (∀ calls result,
      (init headStorage trailerStorage limits).transcript wire window calls = some result →
      (init headStorage trailerStorage limits).transcript wire (fun _ => max wire.length 1)
        (wire.length + 1) = some result) ∧
    ((∀ i, 0 < window i) →
      ((init headStorage trailerStorage limits).transcript wire window
        (wire.length + 1)).isSome) := by
  have hready := ready_init headStorage trailerStorage limits
  refine ⟨fun calls result h => ?_, fun hwindow =>
    transcribe_isSome window hwindow _ 0 wire 0 {} hready (Nat.lt_succ_self _)⟩
  have hwhole := transcribe_isSome (fun _ => max wire.length 1) (fun _ => by omega)
    (wire.length + 1) 0 wire 0 {} hready (Nat.lt_succ_self _)
  obtain ⟨whole, hwhole⟩ := Option.isSome_iff_exists.mp hwhole
  have hleft := transcribe_scan window calls 0 wire 0 {} result hready h
  have hright := transcribe_scan _ _ 0 wire 0 {} whole hready hwhole
  rw [transcript, hwhole, hleft, hright]

/-- A message with a fixed body and one pipelined byte behind it. -/
def sampleWire : Bytes := ascii "POST / HTTP/1.1\r\nHost: a\r\nContent-Length: 2\r\n\r\nabX"

/-- Fed byte by byte, the sample reaches the transcript of the whole. -/
theorem transcript_fragmentation_bytewise :
    (∀ i : Nat, 0 < (fun _ => 1) i) ∧
      ((init (List.replicate 64 0) (List.replicate 8 0) {}).transcript sampleWire (fun _ => 1)
        (sampleWire.length + 1)).isSome :=
  ⟨fun _ => Nat.one_pos,
    (transcript_fragmentation (List.replicate 64 0) (List.replicate 8 0) {} sampleWire
      (fun _ => 1)).2 (fun _ => Nat.one_pos)⟩

example : ((init (List.replicate 64 0) (List.replicate 8 0) {}).transcript sampleWire
    (fun _ => 17) 51).map (fun t => (t.body, t.boundary, t.failure)) =
      some (ascii "ab", some 49, none) := by
  decide +kernel

end Parser

end Zhtps
