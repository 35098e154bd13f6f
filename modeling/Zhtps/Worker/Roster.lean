import Zhtps.Worker.Frame.Streams

/-!
Who is on the list of active slots.  No call adds a slot, and one that takes a slot off takes its own:
only `finishClose` does, as the last thing of a visit.
-/

namespace Zhtps.Worker

/-- The roster after a slot has left. -/
def without (index : Nat) (roster : List Nat × (Nat → Nat)) : List Nat × (Nat → Nat) :=
  ((roster.1.set (roster.2 index) (roster.1.getLastD 0)).dropLast,
    fun j => if j = roster.1.getLastD 0 then roster.2 index else roster.2 j)

theorem Shared.roster_of_frame {shared next : Shared} (h : next.frame = shared.frame) :
    next.roster = shared.roster :=
  congrArg Prod.fst h

namespace Cell

variable {config : Config} {choice : Choice} {index : Nat} {cell : Cell}

def roster (cell : Cell) : List Nat × (Nat → Nat) := cell.shared.roster

theorem roster_of_frame {next : Cell} (h : next.frame = cell.frame) : next.roster = cell.roster :=
  Shared.roster_of_frame (congrArg Prod.fst h)

theorem finishClose_roster (index : Nat) (cell : Cell) :
    (cell.finishClose index).roster = cell.roster ∨
      (cell.finishClose index).roster = without index cell.roster := by
  rcases finishClose_leaves index cell with hsame | ⟨released, hreleased, -, hleaves⟩
  · exact Or.inl (by rw [hsame])
  · refine Or.inr ?_
    rw [hleaves, roster, roster, ← Shared.roster_of_frame hreleased]
    rfl

theorem forceClose_roster (index : Nat) (cell : Cell) :
    (cell.forceClose index).roster = cell.roster ∨
      (cell.forceClose index).roster = without index cell.roster := by
  obtain ⟨canceled, hframe, -, hfinishes⟩ := forceClose_finishes index cell
  rw [hfinishes, roster, roster, ← Shared.roster_of_frame hframe]
  exact finishClose_roster index canceled

/-- What a call does to the roster: nothing, or at its end the slot leaves. -/
def Departs (index : Nat) (cell : Cell) (result : Cell × Next) : Prop :=
  result.1.roster = cell.roster ∨ result.2 = .done ∧ result.1.roster = without index cell.roster

theorem Departs.same {result : Cell × Next} (h : result.1.roster = cell.roster) :
    Departs index cell result := Or.inl h

/-- After changes that do not concern the roster. -/
theorem forceClose_departs_of {middle : Cell} (h : middle.roster = cell.roster) :
    Departs index cell (middle.forceClose index, .done) := by
  rcases forceClose_roster index middle with hroster | hroster
  · exact Or.inl (hroster.trans h)
  · exact Or.inr ⟨rfl, hroster.trans (h ▸ rfl)⟩

theorem forceClose_departs (index : Nat) (cell : Cell) :
    Departs index cell (cell.forceClose index, .done) := forceClose_departs_of rfl

theorem Closes.departs {result : Cell × Next} (h : Closes index cell result) :
    Departs index cell result := by
  rcases h with ⟨hshared, -⟩ | ⟨middle, hframe, rfl⟩
  · exact .same (Shared.roster_of_frame hshared)
  · exact forceClose_departs_of (roster_of_frame hframe)

theorem pumpHttp2_departs : Departs index cell (cell.pumpHttp2 config choice index) := by
  unfold pumpHttp2
  split
  · exact .same rfl
  · rename_i session hsession
    split
    · exact forceClose_departs index cell
    · exact .same (roster_of_frame (submitHttp2Io_frame _ _))
    · split <;> exact .same rfl
    · split
      · exact .same rfl
      · have hrounds := Shared.roster_of_frame
          (@http2Step_rounds config index cell session choice.http2 hsession).1
        dsimp only
        split
        · exact .same hrounds
        · exact forceClose_departs_of hrounds

/-! ### Calls and visits -/

theorem dispatch_departs (call : Call) : Departs index cell (cell.dispatch config choice index call) := by
  by_cases hpump : call = .pumpHttp2
  · subst hpump
    exact pumpHttp2_departs
  · exact (dispatch_closes call hpump).departs

theorem pumpApplication_departs : Departs index cell (cell.pumpApplication config) := by
  unfold pumpApplication
  split_ifs <;> exact .same rfl

theorem timeout_departs (clock : Clock) : Departs index cell (cell.timeout config clock index) := by
  unfold timeout
  dsimp only
  split_ifs
  · exact forceClose_departs index cell
  · exact .same rfl
  · exact forceClose_departs index cell
  · exact .same (roster_of_frame (timeoutApplication_frame cell))
  · exact forceClose_departs_of (roster_of_frame (timeoutApplication_frame cell))
  · exact .same (roster_of_frame (cancelReceive_frame cell))
  · exact forceClose_departs index cell

theorem tick_departs (clock : Clock) : Departs index cell (cell.tick config clock index) := by
  unfold tick
  dsimp only
  split_ifs
  · exact .same rfl
  · exact forceClose_departs index cell
  · exact forceClose_departs index cell
  · exact .same rfl
  · exact timeout_departs clock

end Cell

end Zhtps.Worker
