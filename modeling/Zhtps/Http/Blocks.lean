import Zhtps.Http.Fragmentation

/-!
The block copies of the head scan against the loop without them.  Behind the first line the source
copies up to 64 or 16 bytes at once, in front of the next CR or LF; the parser that stores every
byte by itself goes through the same states, and stops in the same one.
-/

namespace Zhtps

open Lib

namespace Parser

/-- A turn of the loop whose head arm has no block copies. -/
def scalarTurn (parser : Parser) (input : Bytes) : Turn :=
  match parser.phase, input with
  | .head, c :: rest => (advance parser c).turn rest
  | _, _ => turn parser input

def scalarLoop : Nat → Parser → Bytes → Turn
  | 0, parser, input => scalarTurn parser input
  | fuel + 1, parser, input =>
      match scalarTurn parser input with
      | .again parser rest => scalarLoop fuel parser rest
      | result => result

/-- `feed` one byte at a time. -/
def scalarFeed (parser : Parser) (input : Bytes) : Parser × Except Error Step :=
  match scalarLoop input.length parser input with
  | .again parser _ => (parser, .ok ⟨input.length, .needInput⟩)
  | .done parser rest event => (parser, .ok ⟨input.length - rest.length, event⟩)
  | .fail parser err => ({ parser with phase := .invalid }, .error err)

/-- How many bytes a turn of the head arm puts into the head storage, before it looks whether a
line has ended. -/
def headWrites (parser : Parser) (c : UInt8) (rest : Bytes) : Nat :=
  match headCheck parser c with
  | some _ => 0
  | none =>
      if !parser.firstLine && !isDelimiter c then
        let available := min (rest.length + 1) parser.headStorage.room
        if 64 ≤ available then blockLength 64 (c :: rest)
        else if 16 ≤ available then blockLength 16 (c :: rest)
        else 1
      else 1

/-- No turn of the loop writes behind the head storage. -/
def StaysInside : Nat → Parser → Bytes → Prop
  | 0, _, _ => True
  | fuel + 1, parser, input =>
      (∀ c rest, parser.phase = .head → input = c :: rest →
        parser.headStorage.len + headWrites parser c rest ≤ parser.headStorage.capacity) ∧
      match turn parser input with
      | .again next rest => StaysInside fuel next rest
      | _ => True

theorem scalarTurn_head {parser : Parser} (hphase : parser.phase = .head) (c : UInt8)
    (rest : Bytes) : scalarTurn parser (c :: rest) = (advance parser c).turn rest := by
  simp only [scalarTurn, hphase]

theorem scalarTurn_other {parser : Parser} {input : Bytes}
    (h : parser.phase ≠ .head ∨ input = []) : scalarTurn parser input = turn parser input := by
  unfold scalarTurn
  split
  · rename_i hphase
    rcases h with h | h
    · exact absurd hphase h
    · exact absurd h nofun
  · rfl

theorem Outcome.turn_again {outcome : Outcome} {next : Parser} {rest rest' : Bytes}
    (h : outcome.turn rest = .again next rest') : rest' = rest := by
  cases outcome with
  | go parser => exact (Turn.again.inj h).2.symm
  | emit parser event => exact absurd h nofun
  | fail parser err => exact absurd h nofun

theorem copyBlock_again {parser next : Parser} {width : Nat} {c : UInt8} {rest rest' : Bytes}
    (hw : 0 < width) (hc : isDelimiter c = false)
    (h : copyBlock parser width (c :: rest) = .again next rest') :
    rest'.length < (c :: rest).length := by
  have hpos := blockLength_pos rest hw hc
  rw [← (Turn.again.inj h).2, List.length_drop, List.length_cons]
  omega

theorem headTurn_again {parser next : Parser} {c : UInt8} {rest rest' : Bytes}
    (h : headTurn parser c rest = .again next rest') : rest'.length < (c :: rest).length := by
  unfold headTurn at h
  cases hcheck : headCheck parser c with
  | some err =>
      rw [hcheck] at h
      exact absurd h nofun
  | none =>
      rw [hcheck] at h
      simp only at h
      have hscalar : (storeHeadByte parser c).turn rest = .again next rest' →
          rest'.length < (c :: rest).length := by
        intro h
        rw [Outcome.turn_again h]
        exact Nat.lt_succ_self _
      split at h
      · rename_i hplain
        obtain ⟨-, hc, -⟩ := headCheck_plain hcheck hplain
        split at h
        · exact copyBlock_again (by decide) hc h
        · split at h
          · exact copyBlock_again (by decide) hc h
          · exact hscalar h
      · exact hscalar h

/-- A turn that continues has consumed input. -/
theorem turn_again {parser next : Parser} {input rest : Bytes}
    (h : turn parser input = .again next rest) : rest.length < input.length := by
  have hbyte : ∀ {outcome : Outcome} {c : UInt8} {tail : Bytes},
      outcome.turn tail = .again next rest → rest.length < (c :: tail).length := by
    intro outcome c tail h
    rw [Outcome.turn_again h]
    exact Nat.lt_succ_self _
  unfold turn at h
  cases hphase : parser.phase with
  | ending | complete | invalid =>
      rw [hphase] at h
      exact absurd h nofun
  | head | chunkSize | chunkCr | chunkLf | trailers | fixedBody | chunkBody =>
      rw [hphase] at h
      cases input with
      | nil => exact absurd h nofun
      | cons c tail =>
          first
          | exact headTurn_again h
          | exact hbyte h
          | exact absurd h nofun

/-- Storing the bytes of a block one by one. -/
theorem scalarLoop_block {parser : Parser} (fuel : Nat) (xs tail : Bytes)
    (hphase : parser.phase = .head) (hline : parser.firstLine = false)
    (hroom : parser.headStorage.len + xs.length ≤ parser.headStorage.capacity)
    (hlast : parser.headStorage.last? ≠ some Ascii.cr) (hxs : ∀ c ∈ xs, isDelimiter c = false)
    (hfuel : xs.length ≤ fuel) :
    scalarLoop fuel parser (xs ++ tail) =
      scalarLoop (fuel - xs.length) { parser with headStorage := parser.headStorage.append xs }
        tail := by
  induction xs generalizing parser fuel with
  | nil => simp
  | cons c xs ih =>
      rw [List.length_cons] at hroom hfuel
      obtain ⟨fuel, rfl⟩ : ∃ n, fuel = n + 1 := ⟨fuel - 1, by omega⟩
      have hc : isDelimiter c = false := hxs c List.mem_cons_self
      have hlt : parser.headStorage.len < parser.headStorage.capacity := by omega
      have hcr : c ≠ Ascii.cr := by
        rintro rfl
        exact absurd hc (by decide)
      have hstep : scalarTurn parser (c :: (xs ++ tail)) =
          .again { parser with headStorage := parser.headStorage.push c } (xs ++ tail) := by
        rw [scalarTurn_head hphase, advance_plain hphase hline hlt hlast hc]
        rfl
      rw [List.cons_append, scalarLoop, hstep]
      simp only
      rw [ih]
      · rw [Buffer.append_cons, List.length_cons, Nat.add_sub_add_right]
      · exact hphase
      · exact hline
      · rw [Buffer.len_push, Buffer.capacity_push c hlt]
        omega
      · rw [Buffer.last?_push]
        exact fun h => hcr (Option.some.inj h)
      · exact fun x hx => hxs x (List.mem_cons_of_mem _ hx)
      · omega

/-- A block fits the storage. -/
theorem block_room {parser : Parser} {width : Nat} {c : UInt8} {rest : Bytes}
    (hwidth : width ≤ min (rest.length + 1) parser.headStorage.room) :
    ((c :: rest).take (blockLength width (c :: rest))).length = blockLength width (c :: rest) ∧
      parser.headStorage.len + blockLength width (c :: rest) ≤ parser.headStorage.capacity := by
  have hle := (blockLength_plain width (c :: rest)).1
  have hlen := parser.headStorage.len_le_capacity
  rw [Buffer.room] at hwidth
  refine ⟨List.length_take_of_le ?_, by omega⟩
  rw [List.length_cons]
  omega

theorem headWrites_fit (parser : Parser) (c : UInt8) (rest : Bytes) :
    parser.headStorage.len + headWrites parser c rest ≤ parser.headStorage.capacity := by
  have hlen := parser.headStorage.len_le_capacity
  unfold headWrites
  cases hcheck : headCheck parser c with
  | some err => exact hlen
  | none =>
      have hroom : parser.headStorage.len ≠ parser.headStorage.capacity := by
        intro hfull
        rw [headCheck, if_pos hfull] at hcheck
        exact absurd hcheck (by rintro ⟨⟩)
      simp only
      split
      · split
        · exact (block_room (c := c) ‹_›).2
        · split
          · exact (block_room (c := c) ‹_›).2
          · omega
      · omega

theorem staysInside (fuel : Nat) (parser : Parser) (input : Bytes) :
    StaysInside fuel parser input := by
  induction fuel generalizing parser input with
  | zero => trivial
  | succ fuel ih =>
      refine ⟨fun c rest _ _ => headWrites_fit parser c rest, ?_⟩
      split
      · exact ih _ _
      · trivial

/-- What one turn does in a phase without blocks both loops do, and they stay together. -/
theorem loop_same {parser : Parser} {input : Bytes} {n m : Nat}
    (hsame : scalarTurn parser input = turn parser input) (hn : input.length ≤ n)
    (hm : input.length ≤ m)
    (ih : ∀ (next : Parser) (rest : Bytes) (n m : Nat), rest.length < input.length →
      rest.length ≤ n → rest.length ≤ m → loop n next rest = scalarLoop m next rest) :
    loop n parser input = scalarLoop m parser input := by
  cases hturn : turn parser input with
  | again next rest =>
      have hless := turn_again hturn
      obtain ⟨n, rfl⟩ : ∃ k, n = k + 1 := ⟨n - 1, by omega⟩
      obtain ⟨m, rfl⟩ : ∃ k, m = k + 1 := ⟨m - 1, by omega⟩
      rw [loop, scalarLoop, hsame, hturn]
      exact ih next rest n m hless (by omega) (by omega)
  | done next rest event =>
      cases n <;> cases m <;> simp only [loop, scalarLoop, hsame, hturn]
  | fail next err =>
      cases n <;> cases m <;> simp only [loop, scalarLoop, hsame, hturn]

/-- A block copy is a run of the loop without blocks. -/
theorem copyBlock_same {parser : Parser} {width : Nat} {c : UInt8} {rest : Bytes} {n m : Nat}
    (hphase : parser.phase = .head) (hcheck : headCheck parser c = none)
    (hplain : (!parser.firstLine && !isDelimiter c) = true) (hw : 0 < width)
    (hwidth : width ≤ min (rest.length + 1) parser.headStorage.room)
    (hturn : turn parser (c :: rest) = copyBlock parser width (c :: rest))
    (hn : (c :: rest).length ≤ n) (hm : (c :: rest).length ≤ m)
    (ih : ∀ (next : Parser) (tail : Bytes) (n m : Nat), tail.length < (c :: rest).length →
      tail.length ≤ n → tail.length ≤ m → loop n next tail = scalarLoop m next tail) :
    loop n parser (c :: rest) = scalarLoop m parser (c :: rest) := by
  obtain ⟨hline, hc, hlast⟩ := headCheck_plain hcheck hplain
  obtain ⟨hlength, hroom⟩ := block_room (c := c) hwidth
  have hpos := blockLength_pos rest hw hc
  have hless := copyBlock_again hw hc (rfl : copyBlock parser width (c :: rest) = _)
  obtain ⟨n, rfl⟩ : ∃ k, n = k + 1 := ⟨n - 1, by rw [List.length_cons] at hn; omega⟩
  have hsplit := List.take_append_drop (blockLength width (c :: rest)) (c :: rest)
  have hscalar := scalarLoop_block m ((c :: rest).take (blockLength width (c :: rest)))
    ((c :: rest).drop (blockLength width (c :: rest))) hphase hline (by rwa [hlength]) hlast
    (blockLength_plain width (c :: rest)).2 (by rw [List.length_take]; omega)
  rw [hsplit, hlength] at hscalar
  rw [loop, hturn, hscalar, copyBlock]
  refine ih _ _ n _ hless (by omega) ?_
  rw [List.length_drop]
  omega

theorem loop_scalar (parser : Parser) (input : Bytes) :
    ∀ n m, input.length ≤ n → input.length ≤ m →
      loop n parser input = scalarLoop m parser input := by
  induction hlength : input.length using Nat.strongRecOn generalizing parser input with
  | ind length ih =>
      subst hlength
      intro n m hn hm
      have hrest : ∀ (next : Parser) (rest : Bytes) (n m : Nat), rest.length < input.length →
          rest.length ≤ n → rest.length ≤ m → loop n next rest = scalarLoop m next rest :=
        fun next rest n m hless => ih rest.length hless next rest rfl n m
      by_cases hphase : parser.phase = .head
      · cases input with
        | nil => exact loop_same (scalarTurn_other (Or.inr rfl)) hn hm hrest
        | cons c rest =>
            have hturn : turn parser (c :: rest) = headTurn parser c rest := by
              simp only [turn, hphase]
            have hadvance : scalarTurn parser (c :: rest) =
                match headCheck parser c with
                | some err => .fail parser err
                | none => (storeHeadByte parser c).turn rest := by
              rw [scalarTurn_head hphase]
              simp only [advance, hphase]
              cases headCheck parser c <;> rfl
            cases hcheck : headCheck parser c with
            | some err =>
                refine loop_same ?_ hn hm hrest
                rw [hadvance, hturn, headTurn, hcheck]
            | none =>
                rw [hcheck] at hadvance
                simp only [headTurn, hcheck] at hturn
                split at hturn
                · rename_i hplain
                  split at hturn
                  · exact copyBlock_same hphase hcheck hplain (by decide) ‹_› hturn hn hm hrest
                  · split at hturn
                    · exact copyBlock_same hphase hcheck hplain (by decide) ‹_› hturn hn hm hrest
                    · exact loop_same (hadvance.trans hturn.symm) hn hm hrest
                · exact loop_same (hadvance.trans hturn.symm) hn hm hrest
      · exact loop_same (scalarTurn_other (Or.inl hphase)) hn hm hrest

/-- The block copies do not show: a call leaves the same parser, storage included, and gives the
same answer as one that handles every byte by itself; and they stay inside the storage. -/
theorem feed_scalar (parser : Parser) (input : Bytes) :
    parser.feed input = parser.scalarFeed input ∧
      StaysInside (input.length + 1) parser input := by
  refine ⟨?_, staysInside _ _ _⟩
  have hloop := loop_scalar parser input input.length input.length (Nat.le_refl _) (Nat.le_refl _)
  cases hscalar : scalarLoop input.length parser input with
  | again => simp only [feed, scalarFeed, hloop, hscalar]
  | done => simp only [feed, scalarFeed, hloop, hscalar]
  | fail => simp only [feed, scalarFeed, hloop, hscalar]

end Parser

end Zhtps
