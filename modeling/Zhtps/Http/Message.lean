import Zhtps.Http.Parser

/-!
What `feed` does to the phase of a parser.
-/

namespace Zhtps

namespace Parser

/-! ### The head phase is left for good -/

/-- The head phase is not entered again, and a head event is its end. -/
def Turn.LeavesHead (parser : Parser) : Turn → Prop
  | .again next _ => parser.phase ≠ .head → next.phase ≠ .head
  | .done next _ (.head _) => parser.phase = .head ∧ next.phase ≠ .head
  | .done next _ _ => parser.phase ≠ .head → next.phase ≠ .head
  | .fail _ _ => True

theorem finishHead_leavesHead {parser before : Parser} (rest : Bytes) (h : before.phase = .head) :
    ((finishHead parser).turn rest).LeavesHead before := by
  unfold finishHead
  split
  · trivial
  · dsimp only
    split
    · exact ⟨h, by simp⟩
    · split
      · trivial
      · refine ⟨h, ?_⟩
        simp only [afterHead]
        split <;> simp

theorem headTurn_leavesHead {parser : Parser} (c : UInt8) (rest : Bytes)
    (h : parser.phase = .head) : (headTurn parser c rest).LeavesHead parser := by
  have hscalar : ((storeHeadByte parser c).turn rest).LeavesHead parser := by
    unfold storeHeadByte
    dsimp only
    split
    · trivial
    · split
      · exact fun hne => absurd h hne
      · unfold endHeadLine
        split
        · dsimp only
          split
          · trivial
          · exact fun hne => absurd h hne
        · dsimp only
          split
          · exact finishHead_leavesHead rest h
          · exact fun hne => absurd h hne
  unfold headTurn
  split
  · trivial
  · dsimp only
    split
    · split
      · exact fun hne => absurd h hne
      · split
        · exact fun hne => absurd h hne
        · exact hscalar
    · exact hscalar

theorem countChunkFramingByte_eq {parser next : Parser}
    (h : countChunkFramingByte parser = some next) :
    next = { parser with chunkFramingBytes := parser.chunkFramingBytes + 1 } := by
  unfold countChunkFramingByte at h
  split at h
  · cases h
  · exact (Option.some.inj h).symm

theorem chunkSizeByte_leavesHead (parser : Parser) (c : UInt8) (rest : Bytes) :
    ((chunkSizeByte parser c).turn rest).LeavesHead parser := by
  unfold chunkSizeByte
  split
  · trivial
  · rename_i next hnext
    rw [countChunkFramingByte_eq hnext]
    unfold storeChunkByte
    dsimp only
    split
    · trivial
    · split
      · trivial
      · split
        · exact id
        · split
          · trivial
          · unfold endChunkLine
            split
            · trivial
            · dsimp only
              split
              · trivial
              · intro _
                simp only [afterChunkSize]
                split <;> simp

theorem chunkDelimiterByte_leavesHead (parser : Parser) (c : UInt8) (rest : Bytes) :
    ((chunkDelimiterByte parser c).turn rest).LeavesHead parser := by
  unfold chunkDelimiterByte
  split
  · trivial
  · split
    · trivial
    · intro _
      simp only [delimiter]
      split <;> simp

theorem trailerByte_leavesHead {parser : Parser} (c : UInt8) (rest : Bytes)
    (h : parser.phase = .trailers) : ((trailerByte parser c).turn rest).LeavesHead parser := by
  have hne : parser.phase ≠ .head := by simp [h]
  unfold trailerByte
  dsimp only
  split
  · trivial
  · split
    · trivial
    · split
      · exact id
      · split
        · trivial
        · unfold endTrailerLine
          dsimp only
          split
          · simp [Outcome.turn, Turn.LeavesHead]
          · split
            · trivial
            · split
              · trivial
              · split
                · trivial
                · exact id

theorem turn_leavesHead (parser : Parser) (input : Bytes) :
    (turn parser input).LeavesHead parser := by
  unfold turn
  split
  · simp [Turn.LeavesHead]
  · exact id
  · exact id
  · rename_i hending hcomplete hinvalid
    split
    · exact id
    · rename_i c rest
      split
      · rename_i h
        exact headTurn_leavesHead c rest h
      · exact chunkSizeByte_leavesHead parser c rest
      · exact chunkDelimiterByte_leavesHead parser c rest
      · exact chunkDelimiterByte_leavesHead parser c rest
      · rename_i h
        exact trailerByte_leavesHead c rest h
      · intro h
        simp only [takeBody, afterBody]
        split
        · split <;> simp
        · exact h

theorem loop_leavesHead (fuel : Nat) (parser : Parser) (input : Bytes) :
    (loop fuel parser input).LeavesHead parser := by
  induction fuel generalizing parser input with
  | zero => exact turn_leavesHead parser input
  | succ fuel ih =>
      have hturn := turn_leavesHead parser input
      unfold loop
      split
      · rename_i next rest hnext
        rw [hnext] at hturn
        have hrest := ih next rest
        -- Entering the rest of the loop outside the head phase is enough.
        cases hloop : loop fuel next rest with
        | again after left =>
            rw [hloop] at hrest
            exact fun h => hrest (hturn h)
        | fail => trivial
        | done after left event =>
            rw [hloop] at hrest
            cases event with
            | head request =>
                refine ⟨?_, hrest.2⟩
                by_cases h : parser.phase = .head
                · exact h
                · exact absurd hrest.1 (hturn h)
            | needInput => exact fun h => hrest (hturn h)
            | body => exact fun h => hrest (hturn h)
            | trailer => exact fun h => hrest (hturn h)
            | «end» => exact fun h => hrest (hturn h)
      · exact hturn

/-- A parser that has left the head phase stays out of it. -/
theorem feed_phase_ne_head {parser next : Parser} {input : Bytes} {result : Except Error Step}
    (hfeed : parser.feed input = (next, result)) (h : parser.phase ≠ .head) :
    next.phase ≠ .head := by
  have hloop := loop_leavesHead input.length parser input
  have hnext : (parser.feed input).1 = next := by rw [hfeed]
  rw [← hnext]
  unfold feed
  split
  · rename_i next rest hnext
    rw [hnext] at hloop
    exact hloop h
  · rename_i next rest event hnext
    rw [hnext] at hloop
    cases event with
    | head request => exact hloop.2
    | needInput => exact hloop h
    | body => exact hloop h
    | trailer => exact hloop h
    | «end» => exact hloop h
  · simp

/-- A head event comes from the head phase and ends it. -/
theorem feed_head {parser next : Parser} {input : Bytes} {consumed : Nat} {request : Request}
    (h : parser.feed input = (next, .ok ⟨consumed, .head request⟩)) :
    parser.phase = .head ∧ next.phase ≠ .head := by
  have hloop := loop_leavesHead input.length parser input
  unfold feed at h
  split at h
  · simp at h
  · rename_i after rest event hnext
    simp only [Prod.mk.injEq, Except.ok.injEq, Step.mk.injEq] at h
    obtain ⟨rfl, -, rfl⟩ := h
    rw [hnext] at hloop
    exact hloop
  · simp at h

end Parser

end Zhtps
