import Mathlib.Data.List.TakeWhile
import Zhtps.Http.Fragmentation
import Zhtps.Http.Response

/-!
The chunked transfer coding: what `Response.Encoder` writes, `Parser` reads back.

The encoder turns each fragment into one chunk and skips the empty ones, which would read as the
terminator.  The decoder sees the bytes in windows that have nothing to do with the chunks, so the
round trip is proved for the byte walk `scan` and carried to every choice of windows by
`transcribe_scan`.
-/

namespace Zhtps

open Lib

namespace Response

/-- The encoder in a loop: one `write` for each fragment, then `end`. -/
def Encoder.encode (encoder : Encoder) : List Bytes → Except Failure Bytes
  | [] =>
      match encoder.finish with
      | .error failure => .error failure
      | .ok (_, bytes) => .ok bytes
  | fragment :: fragments =>
      match encoder.write fragment with
      | .error failure => .error failure
      | .ok (encoder, bytes) =>
          match encoder.encode fragments with
          | .error failure => .error failure
          | .ok rest => .ok (bytes ++ rest)

/-- One chunk: nothing for an empty fragment. -/
def chunk (fragment : Bytes) : Bytes :=
  if fragment = [] then [] else digits 16 fragment.length ++ crlf ++ fragment ++ crlf

theorem encode_chunked {encoder : Encoder} (fragments : List Bytes)
    (h : encoder.mode = .chunked) :
    encoder.encode fragments = .ok (fragments.flatMap chunk ++ ascii "0\r\n\r\n") := by
  induction fragments with
  | nil => simp [Encoder.encode, Encoder.finish, h]
  | cons fragment fragments ih =>
      by_cases hempty : fragment = []
      · simp [Encoder.encode, Encoder.write, h, ih, hempty, chunk]
      · simp [Encoder.encode, Encoder.write, h, ih, hempty, chunk]

/-! ### Digits read back -/

theorem charToDigit_digitByte {base d : Nat} (hbase : base ≤ 16) (h : d < base) :
    Fmt.charToDigit (digitByte d) base = some d ∧ digitByte d ≠ 95 ∧ digitByte d ≠ 43 ∧
      digitByte d ≠ 45 := by
  have hall : ∀ base : Fin 17, ∀ d : Fin 16, d.val < base.val →
      Fmt.charToDigit (digitByte d) base = some d.val ∧ digitByte d ≠ 95 ∧ digitByte d ≠ 43 ∧
        digitByte d ≠ 45 := by decide
  exact hall ⟨base, by omega⟩ ⟨d, by omega⟩ h

theorem isHex_digitByte {d : Nat} (h : d < 16) : Syntax.isHex (digitByte d) = true := by
  have hall : ∀ d : Fin 16, Syntax.isHex (digitByte d) = true := by decide
  exact hall ⟨d, h⟩

theorem digits_length_le {n : Nat} (h : n < 2 ^ 64) : (digits 16 n).length ≤ 16 := by
  rw [digits, List.length_map]
  exact (Nat.length_toDigits_le_iff (by decide) (by decide)).mpr h

theorem accumulate_append (base acc : Nat) (xs : Bytes) (c : UInt8) :
    Fmt.accumulate base acc (xs ++ [c]) =
      (Fmt.accumulate base acc xs).bind fun acc => Fmt.accumulate base acc [c] := by
  induction xs generalizing acc with
  | nil => simp [Fmt.accumulate]
  | cons x xs ih =>
      rw [List.cons_append]
      simp only [Fmt.accumulate]
      split
      · exact ih acc
      · split
        · rfl
        · split
          · exact ih _
          · rfl

theorem accumulate_digits {base n : Nat} (hone : 1 < base) (hbase : base ≤ 16) (h : n < 2 ^ 64) :
    Fmt.accumulate base 0 (digits base n) = some n := by
  induction n using Nat.strongRecOn with
  | ind n ih =>
      have hstep (acc d : Nat) (hd : d < base) (hlt : acc * base + d < 2 ^ 64) :
          Fmt.accumulate base acc [digitByte d] = some (acc * base + d) := by
        obtain ⟨hdigit, hunder, _, _⟩ := charToDigit_digitByte hbase hd
        simp only [Fmt.accumulate, hdigit, beq_iff_eq, hunder, if_false, if_pos hlt]
      by_cases hlt : n < base
      · rw [digits_of_lt hlt, hstep 0 n hlt (by omega)]
        simp
      · have hdiv : n / base < n := Nat.div_lt_self (by omega) hone
        have hback : n / base * base + n % base = n := Nat.div_add_mod' n base
        rw [digits_of_le hone (by omega), accumulate_append, ih (n / base) hdiv (by omega),
          Option.bind_some, hstep _ _ (Nat.mod_lt _ (by omega)) (by omega), hback]

theorem parseInt_digits {base n : Nat} (hone : 1 < base) (hbase : base ≤ 16) (h : n < 2 ^ 64) :
    Fmt.parseInt (digits base n) base = some n := by
  have hplain (c : UInt8) (hc : c ∈ digits base n) : c ≠ 95 ∧ c ≠ 43 ∧ c ≠ 45 := by
    obtain ⟨d, hd, rfl⟩ := mem_digits hone hc
    exact (charToDigit_digitByte hbase hd).2
  have hacc := accumulate_digits hone hbase h
  cases hdigits : digits base n with
  | nil => exact absurd hdigits (digits_ne_nil base n)
  | cons c rest =>
      rw [hdigits] at hplain hacc
      have hhead := hplain c (by simp)
      have hlast : (c :: rest).getLast? ≠ some 95 := by
        intro hlast
        exact (hplain 95 (List.mem_of_getLast? hlast)).1 rfl
      simp [Fmt.parseInt, hhead.2.1, hhead.2.2, hhead.1, hlast, hacc]

end Response

namespace Parser

open Response

/-- A size line without extensions reads as its number. -/
theorem parseChunkSize_digits {n : Nat} (h : n < 2 ^ 64) :
    parseChunkSize (digits 16 n) = .ok n := by
  have hhex : (digits 16 n).takeWhile Syntax.isHex = digits 16 n := by
    rw [List.takeWhile_eq_self_iff]
    intro c hc
    obtain ⟨d, hd, rfl⟩ := mem_digits (by decide) hc
    exact isHex_digitByte hd
  have hint : Fmt.parseInt (digits 16 n) 16 = some n := parseInt_digits (by decide) (by decide) h
  simp [parseChunkSize, hhex, digits_ne_nil, hint, chunkExtensions]

/-! ### Reading one chunk -/

/-- Between two chunks: a size line is expected, nothing of it has been read, and the trailer section
has not begun. -/
structure BetweenChunks (parser : Parser) : Prop where
  phase : parser.phase = .chunkSize
  line : parser.chunkLine.len = 0
  capacity : parser.chunkLine.capacity = maxChunkLine
  trailerStart : parser.trailerStart = parser.trailerStorage.len

theorem BetweenChunks.ready {parser : Parser} (h : parser.BetweenChunks) : parser.Ready :=
  Ready.of_phase (by simp [h.phase]) (by simp [h.phase]) (by simp [h.phase]) (by simp [h.phase])

theorem countChunkFramingByte_of_lt {parser : Parser}
    (h : parser.chunkFramingBytes < parser.limits.maxChunkFramingBytes) :
    countChunkFramingByte parser =
      some { parser with chunkFramingBytes := parser.chunkFramingBytes + 1 } := by
  simp [countChunkFramingByte, Nat.ne_of_lt h]

/-- Inside a size line a byte other than LF is counted and stored. -/
theorem advance_sizeByte {parser : Parser} {c : UInt8} (hphase : parser.phase = .chunkSize)
    (hbudget : parser.chunkFramingBytes < parser.limits.maxChunkFramingBytes)
    (hroom : parser.chunkLine.len < parser.chunkLine.capacity)
    (hlast : parser.chunkLine.last? ≠ some Ascii.cr) (hc : c ≠ Ascii.lf) :
    advance parser c = .go { parser with
      chunkFramingBytes := parser.chunkFramingBytes + 1
      chunkLine := parser.chunkLine.push c } := by
  simp [advance, hphase, chunkSizeByte, countChunkFramingByte_of_lt hbudget, storeChunkByte,
    Nat.ne_of_lt hroom, hlast, hc]

/-- The digits of a size line, none of them a line ending. -/
theorem scan_sizeLine {parser : Parser} (xs tail : Bytes) (offset : Nat) (t : Transcript)
    (hphase : parser.phase = .chunkSize)
    (hbudget : parser.chunkFramingBytes + xs.length ≤ parser.limits.maxChunkFramingBytes)
    (hroom : parser.chunkLine.len + xs.length ≤ parser.chunkLine.capacity)
    (hlast : parser.chunkLine.last? ≠ some Ascii.cr) (hxs : ∀ c ∈ xs, isDelimiter c = false) :
    scan parser (xs ++ tail) offset t =
      scan { parser with
        chunkFramingBytes := parser.chunkFramingBytes + xs.length
        chunkLine := parser.chunkLine.append xs } tail (offset + xs.length) t := by
  induction xs generalizing parser offset with
  | nil => simp
  | cons c xs ih =>
      rw [List.length_cons] at hroom hbudget
      have hc : isDelimiter c = false := hxs c (by simp)
      have hlt : parser.chunkLine.len < parser.chunkLine.capacity := by omega
      have hcr : c ≠ Ascii.cr := by
        rintro rfl
        simp [isDelimiter] at hc
      have hlf : c ≠ Ascii.lf := by
        rintro rfl
        simp [isDelimiter] at hc
      rw [List.cons_append, scan_cons c _ _ _ (by simp [hphase]),
        advance_sizeByte hphase (by omega) hlt hlast hlf, Outcome.resume, ih]
      · rw [Buffer.append_cons, List.length_cons, Nat.add_assoc offset,
          Nat.add_comm 1, Nat.add_assoc parser.chunkFramingBytes, Nat.add_comm 1]
      · exact hphase
      · dsimp only
        omega
      · simp only [Buffer.len_push, Buffer.capacity_push c hlt]
        omega
      · simpa [Buffer.last?_push] using hcr
      · intro x hx
        exact hxs x (by simp [hx])

/-- The LF that ends a size line: the line in front of its CRLF is parsed. -/
theorem advance_sizeEnd {parser : Parser} {line : Bytes} {size : Nat}
    (hphase : parser.phase = .chunkSize)
    (hbudget : parser.chunkFramingBytes < parser.limits.maxChunkFramingBytes)
    (hroom : parser.chunkLine.len < parser.chunkLine.capacity)
    (hused : parser.chunkLine.used = line ++ [Ascii.cr]) (hsize : parseChunkSize line = .ok size)
    (hbody : size ≤ parser.limits.maxBodyBytes - parser.bodyBytes) :
    advance parser Ascii.lf = .go { parser with
      chunkFramingBytes := parser.chunkFramingBytes + 1
      chunkLine := (parser.chunkLine.push Ascii.lf).clear
      remaining := size
      phase := afterChunkSize size } := by
  have hlast : parser.chunkLine.last? = some Ascii.cr := by
    rw [Buffer.last?_eq, hused]
    simp
  simp [advance, hphase, chunkSizeByte, countChunkFramingByte_of_lt hbudget, storeChunkByte,
    Nat.ne_of_lt hroom, hlast, endChunkLine, hused, hsize, Nat.not_lt.mpr hbody]

/-- The CRLF of a size line. -/
theorem scan_sizeEnd {parser : Parser} {line : Bytes} {size : Nat} (tail : Bytes) (offset : Nat)
    (t : Transcript) (hphase : parser.phase = .chunkSize)
    (hbudget : parser.chunkFramingBytes + 2 ≤ parser.limits.maxChunkFramingBytes)
    (hroom : parser.chunkLine.len + 2 ≤ parser.chunkLine.capacity)
    (hused : parser.chunkLine.used = line) (hline : ∀ c ∈ line, isDelimiter c = false)
    (hsize : parseChunkSize line = .ok size)
    (hbody : size ≤ parser.limits.maxBodyBytes - parser.bodyBytes) :
    scan parser (crlf ++ tail) offset t =
      scan { parser with
        chunkFramingBytes := parser.chunkFramingBytes + 2
        chunkLine := ((parser.chunkLine.push Ascii.cr).push Ascii.lf).clear
        remaining := size
        phase := afterChunkSize size } tail (offset + 2) t := by
  have hlt : parser.chunkLine.len < parser.chunkLine.capacity := by omega
  have hlast : parser.chunkLine.last? ≠ some Ascii.cr := by
    rw [Buffer.last?_eq, hused]
    intro hlast
    simpa [isDelimiter] using hline _ (List.mem_of_getLast? hlast)
  rw [crlf, List.cons_append, scan_cons _ _ _ _ (by simp [hphase]),
    advance_sizeByte hphase (by omega) hlt hlast (by decide), Outcome.resume, List.cons_append,
    scan_cons _ _ _ _ (by simp [hphase]),
    advance_sizeEnd (by exact hphase) (by dsimp only; omega)
      (by simp only [Buffer.len_push, Buffer.capacity_push _ hlt]; omega)
      (by rw [Buffer.used_push, hused]) hsize (by exact hbody), Outcome.resume]
  simp only [Nat.add_assoc, List.nil_append]

theorem scan_size {parser : Parser} {n : Nat} (tail : Bytes) (offset : Nat) (t : Transcript)
    (h : parser.BetweenChunks) (hn : n < 2 ^ 64)
    (hbudget : parser.chunkFramingBytes + ((digits 16 n).length + 2) ≤
      parser.limits.maxChunkFramingBytes)
    (hbody : parser.bodyBytes + n ≤ parser.limits.maxBodyBytes) :
    ∃ line : Buffer UInt8, line.len = 0 ∧ line.capacity = maxChunkLine ∧
      scan parser (digits 16 n ++ crlf ++ tail) offset t =
        scan { parser with
          chunkFramingBytes := parser.chunkFramingBytes + ((digits 16 n).length + 2)
          chunkLine := line
          remaining := n
          phase := afterChunkSize n } tail (offset + ((digits 16 n).length + 2)) t := by
  have hlength := digits_length_le hn
  have hcap : parser.chunkLine.capacity = 4096 := h.capacity
  have hlen := h.line
  have hempty : parser.chunkLine.used = [] := List.length_eq_zero_iff.mp (by simpa using hlen)
  have hplain (c : UInt8) (hc : c ∈ digits 16 n) : isDelimiter c = false := by
    obtain ⟨d, hd, rfl⟩ := mem_digits (by decide) hc
    have hall : ∀ d : Fin 16, isDelimiter (digitByte d) = false := by decide
    exact hall ⟨d, hd⟩
  have hline : (parser.chunkLine.append (digits 16 n)).used = digits 16 n := by
    rw [Buffer.used_append, hempty, List.nil_append]
  have hlenLine : (parser.chunkLine.append (digits 16 n)).len = (digits 16 n).length := by
    rw [← Buffer.used_length, hline]
  have hcapLine : (parser.chunkLine.append (digits 16 n)).capacity = 4096 := by
    rw [Buffer.capacity_append (by omega), hcap]
  have hcapCr : ((parser.chunkLine.append (digits 16 n)).push Ascii.cr).capacity = 4096 := by
    rw [Buffer.capacity_push _ (by omega), hcapLine]
  refine ⟨(((parser.chunkLine.append (digits 16 n)).push Ascii.cr).push Ascii.lf).clear, by simp,
    ?_, ?_⟩
  · rw [Buffer.capacity_clear, Buffer.capacity_push _ (by rw [Buffer.len_push]; omega), hcapCr]
    rfl
  rw [List.append_assoc, scan_sizeLine (digits 16 n) _ offset t h.phase (by omega) (by omega)
    (by rw [Buffer.last?_eq, hempty]; simp) hplain]
  rw [scan_sizeEnd tail _ t (by exact h.phase) (by dsimp only; omega)
    (by dsimp only; omega) hline hplain
    (parseChunkSize_digits hn) (by dsimp only; omega)]
  simp only [Nat.add_assoc]

/-- The delimiter behind the body of a chunk. -/
theorem scan_delimiter {parser : Parser} (tail : Bytes) (offset : Nat) (t : Transcript)
    (hphase : parser.phase = .chunkCr)
    (hbudget : parser.chunkFramingBytes + 2 ≤ parser.limits.maxChunkFramingBytes) :
    scan parser (crlf ++ tail) offset t =
      scan { parser with
        chunkFramingBytes := parser.chunkFramingBytes + 2
        phase := .chunkSize } tail (offset + 2) t := by
  have hstep (p : Parser) (c : UInt8) (next : Phase) (hp : p.phase = .chunkCr ∨ p.phase = .chunkLf)
      (hc : delimiter p.phase = (c, next))
      (hlt : p.chunkFramingBytes < p.limits.maxChunkFramingBytes) :
      advance p c = .go { p with
        chunkFramingBytes := p.chunkFramingBytes + 1
        phase := next } := by
    rcases hp with hp | hp <;> simp only [hp] at hc <;>
      simp [advance, hp, chunkDelimiterByte, countChunkFramingByte_of_lt hlt, hc]
  rw [crlf, List.cons_append, scan_cons _ _ _ _ (by simp [hphase]),
    hstep parser Ascii.cr .chunkLf (.inl hphase) (by rw [hphase]; rfl) (by omega), Outcome.resume,
    List.cons_append, scan_cons _ _ _ _ (by simp),
    hstep _ Ascii.lf .chunkSize (.inr rfl) rfl (by dsimp only; omega), Outcome.resume]
  simp only [Nat.add_assoc, List.nil_append]

/-- One chunk, read from its size line to its delimiter. -/
theorem scan_chunk {parser : Parser} (fragment tail : Bytes) (offset : Nat) (t : Transcript)
    (h : parser.BetweenChunks) (hne : fragment ≠ []) (hword : fragment.length < 2 ^ 64)
    (hbudget : parser.chunkFramingBytes + ((digits 16 fragment.length).length + 4) ≤
      parser.limits.maxChunkFramingBytes)
    (hbody : parser.bodyBytes + fragment.length ≤ parser.limits.maxBodyBytes) :
    ∃ next : Parser, next.BetweenChunks ∧ next.limits = parser.limits ∧
      next.trailerStorage = parser.trailerStorage ∧
      next.chunkFramingBytes =
        parser.chunkFramingBytes + ((digits 16 fragment.length).length + 4) ∧
      next.bodyBytes = parser.bodyBytes + fragment.length ∧
      scan parser (chunk fragment ++ tail) offset t =
        scan next tail (offset + (chunk fragment).length)
          { t with body := t.body ++ fragment } := by
  have hpos : fragment.length ≠ 0 := fun hzero => hne (List.length_eq_zero_iff.mp hzero)
  obtain ⟨line, hline, hcap, hsize⟩ := scan_size (fragment ++ (crlf ++ tail)) offset t h hword
    (by omega) hbody
  refine ⟨{ parser with
    chunkFramingBytes := parser.chunkFramingBytes + ((digits 16 fragment.length).length + 2) + 2
    chunkLine := line
    remaining := fragment.length - fragment.length
    bodyBytes := parser.bodyBytes + fragment.length
    phase := .chunkSize }, ⟨rfl, hline, hcap, h.trailerStart⟩, rfl, rfl, ?_, rfl, ?_⟩
  · dsimp only
    omega
  · rw [chunk, if_neg hne, List.append_assoc, List.append_assoc, hsize]
    rw [scan_body fragment (crlf ++ tail) _ _ (.inr (by simp [afterChunkSize, hpos])) hne
      (Nat.le_refl _)]
    rw [scan_delimiter tail _ _ (by simp [takeBody, afterBody, afterChunkSize, hpos])
      (by dsimp only [takeBody]; omega)]
    simp only [takeBody, List.length_append, crlf, List.length_cons, List.length_nil]
    congr 1
    omega

/-! ### Reading all of them -/

/-- The LF of the empty line that ends the trailer section, its CR already stored. -/
theorem advance_emptyTrailer {parser : Parser} (hphase : parser.phase = .trailers)
    (hlen : parser.trailerStorage.len = parser.trailerStart + 1)
    (hroom : parser.trailerStorage.len < parser.trailerStorage.capacity)
    (hlast : parser.trailerStorage.last? = some Ascii.cr) :
    advance parser Ascii.lf = .go { parser with
      trailerStorage := parser.trailerStorage.push Ascii.lf
      trailerStart := (parser.trailerStorage.push Ascii.lf).len
      phase := .ending } := by
  have hcr : parser.trailerLast = some Ascii.cr := by simp [trailerLast, hlen, hlast]
  have hline : parser.trailerStorage.used.dropLast.drop parser.trailerStart = [] := by
    rw [List.drop_eq_nil_iff, List.length_dropLast, Buffer.used_length]
    omega
  simp [advance, hphase, trailerByte, hcr, Nat.ne_of_lt hroom, endTrailerLine, hline]

/-- The empty line that ends the trailer section. -/
theorem scan_noTrailers {parser : Parser} (tail : Bytes) (offset : Nat) (t : Transcript)
    (hphase : parser.phase = .trailers)
    (hstart : parser.trailerStart = parser.trailerStorage.len)
    (hroom : parser.trailerStorage.len + 2 ≤ parser.trailerStorage.capacity) :
    scan parser (crlf ++ tail) offset t = { t with boundary := some (offset + 2) } := by
  have hlt : parser.trailerStorage.len < parser.trailerStorage.capacity := by omega
  have hcr : advance parser Ascii.cr =
      .go { parser with trailerStorage := parser.trailerStorage.push Ascii.cr } := by
    have hlast : parser.trailerLast = none := by simp [trailerLast, hstart]
    simp [advance, hphase, trailerByte, hlast, Nat.ne_of_lt hlt,
      show Ascii.cr ≠ Ascii.lf by decide]
  rw [crlf, List.cons_append, scan_cons _ _ _ _ (by simp [hphase]), hcr, Outcome.resume,
    List.cons_append, scan_cons _ _ _ _ (by simp [hphase]),
    advance_emptyTrailer (by exact hphase) (by simp only [Buffer.len_push, hstart])
      (by simp only [Buffer.len_push, Buffer.capacity_push _ hlt]; omega)
      (Buffer.last?_push ..), Outcome.resume, scan_ending _ _ _ rfl]

/-- The terminator: a size line of zero and the empty trailer section. -/
theorem scan_terminator {parser : Parser} (tail : Bytes) (offset : Nat) (t : Transcript)
    (h : parser.BetweenChunks)
    (hbudget : parser.chunkFramingBytes + 3 ≤ parser.limits.maxChunkFramingBytes)
    (hbody : parser.bodyBytes ≤ parser.limits.maxBodyBytes)
    (hroom : parser.trailerStorage.len + 2 ≤ parser.trailerStorage.capacity) :
    scan parser (ascii "0\r\n\r\n" ++ tail) offset t =
      { t with boundary := some (offset + 5) } := by
  have hdigits : digits 16 0 = [48] := by decide
  have hsplit : ascii "0\r\n\r\n" ++ tail = digits 16 0 ++ crlf ++ (crlf ++ tail) := by
    rw [hdigits]
    rfl
  obtain ⟨line, _, _, hsize⟩ := scan_size (n := 0) (crlf ++ tail) offset t h (by decide)
    (by rw [hdigits]; exact hbudget) (by omega)
  rw [hsplit, hsize, scan_noTrailers tail _ t (by simp [afterChunkSize])
    (by exact h.trailerStart) (by exact hroom), hdigits]
  rfl

/-- The size lines and delimiters of the chunks, without the terminator. -/
def framingLength (fragments : List Bytes) : Nat :=
  (fragments.map fun fragment =>
    if fragment = [] then 0 else (digits 16 fragment.length).length + 4).sum

/-- What the encoder writes reads back as the fragments, and ends behind the terminator. -/
theorem scan_encoded (fragments : List Bytes) {parser : Parser} (tail : Bytes) (offset : Nat)
    (t : Transcript) (h : parser.BetweenChunks)
    (hword : ∀ fragment ∈ fragments, fragment.length < 2 ^ 64)
    (hbudget : parser.chunkFramingBytes + framingLength fragments + 3 ≤
      parser.limits.maxChunkFramingBytes)
    (hbody : parser.bodyBytes + fragments.flatten.length ≤ parser.limits.maxBodyBytes)
    (hroom : parser.trailerStorage.len + 2 ≤ parser.trailerStorage.capacity) :
    scan parser (fragments.flatMap chunk ++ ascii "0\r\n\r\n" ++ tail) offset t =
      { t with
        body := t.body ++ fragments.flatten
        boundary := some (offset + (fragments.flatMap chunk ++ ascii "0\r\n\r\n").length) } := by
  induction fragments generalizing parser offset t with
  | nil =>
      rw [List.flatMap_nil, List.nil_append, scan_terminator tail offset t h
        (by simpa [framingLength] using hbudget) (by simpa using hbody) hroom]
      simp only [List.flatten_nil, List.append_nil]
      rfl
  | cons fragment fragments ih =>
      have hrest : ∀ fragment ∈ fragments, fragment.length < 2 ^ 64 :=
        fun other hother => hword other (List.mem_cons_of_mem _ hother)
      simp only [framingLength, List.map_cons, List.sum_cons] at hbudget
      rw [List.flatten_cons, List.length_append] at hbody
      by_cases hempty : fragment = []
      · have hchunk : chunk fragment = [] := by simp [chunk, hempty]
        rw [List.flatMap_cons, hchunk, List.nil_append, ih offset t h hrest
          (by rw [if_pos hempty] at hbudget; simp only [framingLength]; omega) (by omega) hroom]
        simp [hempty]
      · rw [if_neg hempty] at hbudget
        obtain ⟨next, hnext, hlimits, htrailers, hframing, hread, hscan⟩ :=
          scan_chunk fragment (fragments.flatMap chunk ++ ascii "0\r\n\r\n" ++ tail) offset t h
            hempty (hword fragment (List.mem_cons_self ..)) (by omega) (by omega)
        have hsplit : (fragment :: fragments).flatMap chunk ++ ascii "0\r\n\r\n" ++ tail =
            chunk fragment ++ (fragments.flatMap chunk ++ ascii "0\r\n\r\n" ++ tail) := by
          simp only [List.flatMap_cons, List.append_assoc]
        rw [hsplit, hscan, ih _ _ hnext hrest
          (by rw [hlimits, hframing]; simp only [framingLength]; omega)
          (by rw [hlimits, hread]; omega) (by rw [htrailers]; exact hroom)]
        simp only [List.flatten_cons, List.append_assoc, List.flatMap_cons, List.length_append,
          Nat.add_assoc]

/-- **Chunked round trip.**  A parser between two chunks, with limits that admit the message, reads
what the encoder wrote for any fragments as their concatenation, without trailers, and ends exactly
behind the last byte written, whatever follows on the wire and however the wire is cut. -/
theorem transcript_encoded (encoder : Encoder) (fragments : List Bytes) (encoded : Bytes)
    (parser : Parser) (tail : Bytes) (window : Nat → Nat) (hmode : encoder.mode = .chunked)
    (hencoded : encoder.encode fragments = .ok encoded) (hparser : parser.BetweenChunks)
    (hword : ∀ fragment ∈ fragments, fragment.length < 2 ^ 64)
    (hbudget : parser.chunkFramingBytes + framingLength fragments + 3 ≤
      parser.limits.maxChunkFramingBytes)
    (hbody : parser.bodyBytes + fragments.flatten.length ≤ parser.limits.maxBodyBytes)
    (hroom : parser.trailerStorage.len + 2 ≤ parser.trailerStorage.capacity) :
    (∀ calls result, parser.transcript (encoded ++ tail) window calls = some result →
      result = { body := fragments.flatten, boundary := some encoded.length }) ∧
    ((∀ i, 0 < window i) →
      parser.transcript (encoded ++ tail) window ((encoded ++ tail).length + 1) =
        some { body := fragments.flatten, boundary := some encoded.length }) := by
  have heq := encode_chunked fragments hmode
  rw [hencoded, Except.ok.injEq] at heq
  have hscan : scan parser (encoded ++ tail) 0 {} =
      { body := fragments.flatten, boundary := some encoded.length } := by
    rw [heq, scan_encoded fragments tail 0 {} hparser hword hbudget hbody hroom]
    simp only [List.nil_append, Nat.zero_add]
  refine ⟨fun calls result h => ?_, fun hwindow => ?_⟩
  · rw [transcribe_scan window calls 0 _ 0 {} result hparser.ready h, hscan]
  · have hsome := transcribe_isSome window hwindow ((encoded ++ tail).length + 1) 0
      (encoded ++ tail) 0 {} hparser.ready (Nat.lt_succ_self _)
    obtain ⟨result, hresult⟩ := Option.isSome_iff_exists.mp hsome
    rw [transcript, hresult, transcribe_scan window _ 0 _ 0 {} result hparser.ready hresult, hscan]

/-- A parser behind the head of a chunked request, over fresh storage. -/
def sampleChunked : Parser :=
  { init (List.replicate 4 0) (List.replicate 8 0) {} with phase := .chunkSize }

/-- Three fragments, one of them empty, read back byte by byte in front of a pipelined request. -/
theorem transcript_encoded_bytewise :
    sampleChunked.transcript (ascii "2\r\nab\r\n1\r\nc\r\n0\r\n\r\n" ++ ascii "GET") (fun _ => 1)
        ((ascii "2\r\nab\r\n1\r\nc\r\n0\r\n\r\n" ++ ascii "GET").length + 1) =
      some { body := ascii "abc", boundary := some 18 } :=
  (transcript_encoded ⟨.chunked, false⟩ [ascii "ab", [], ascii "c"]
    (ascii "2\r\nab\r\n1\r\nc\r\n0\r\n\r\n") sampleChunked (ascii "GET") (fun _ => 1) rfl
    (by decide) ⟨rfl, rfl, List.length_replicate, rfl⟩ (by decide) (by decide)
    (by decide) (by decide)).2 (fun _ => Nat.one_pos)

end Parser

end Zhtps
