import Mathlib.Data.List.Pairwise
import Mathlib.Data.Nat.Bitwise
import Mathlib.Tactic.SplitIfs
import Zhtps.Lib.Memory

/-!
The request allocator, after `src/endpoint/Scratch.zig`: a cursor into a borrowed buffer.

Only the last block gives its bytes back, and whether a block is the last one is judged by where it
ends.  Lengths and addresses are words of 64 bits; arithmetic that leaves them traps, and so does a
failed assertion.
-/

namespace Zhtps

/-- The slice of a buffer, and how much of it is allocated. -/
structure Scratch where
  base : Nat
  length : Nat
  endIndex : Nat := 0
  deriving DecidableEq, Repr

namespace Scratch

open Lib

inductive Trap
  | overflow
  | assertion
  deriving DecidableEq, Repr

abbrev Checked := Except Trap

def sub (a b : Nat) : Checked Nat := if b ≤ a then .ok (a - b) else .error .overflow

def add (a b : Nat) : Checked Nat := if a + b < 2 ^ 64 then .ok (a + b) else .error .overflow

def assert (p : Prop) [Decidable p] : Checked Unit := if p then .ok () else .error .assertion

/-- A block that was handed out; the alignment is a power of two. -/
structure Block extends Slice where
  alignment : Fin 64
  deriving DecidableEq, Repr

/-- `(0 -% address) & mask`. -/
def padding (address mask : Nat) : Nat := (2 ^ 64 - address) % 2 ^ 64 &&& mask

/-- The cursor behind a new block, and its address. -/
def alloc (scratch : Scratch) (len : Nat) (alignment : Fin 64) : Checked (Scratch × Option Nat) :=
  let address := scratch.base + scratch.endIndex
  if 2 ^ 64 ≤ address then .ok (scratch, none)
  else do
    let mask ← sub (2 ^ alignment.val) 1
    let left ← sub scratch.length scratch.endIndex
    if left < padding address mask then return (scratch, none)
    else do
      let start ← add scratch.endIndex (padding address mask)
      let left ← sub scratch.length start
      if left < len then return (scratch, none)
      else do
        let endIndex ← add start len
        let pointer ← add scratch.base start
        return ({ scratch with endIndex }, some pointer)

def offset (scratch : Scratch) (block : Block) : Checked Nat := do
  assert (scratch.base ≤ block.ptr)
  let start ← sub block.ptr scratch.base
  assert (start ≤ scratch.endIndex)
  let left ← sub scratch.endIndex start
  assert (block.len ≤ left)
  return start

def resize (scratch : Scratch) (block : Block) (newLen : Nat) : Checked (Scratch × Bool) := do
  let start ← scratch.offset block
  let left ← sub scratch.endIndex start
  if block.len ≠ left then return (scratch, newLen ≤ block.len)
  else do
    let room ← sub scratch.length start
    if room < newLen then return (scratch, false)
    else do
      let endIndex ← add start newLen
      return ({ scratch with endIndex }, true)

def remap (scratch : Scratch) (block : Block) (newLen : Nat) : Checked (Scratch × Option Nat) := do
  let (scratch, resized) ← scratch.resize block newLen
  return (scratch, if resized then some block.ptr else none)

def free (scratch : Scratch) (block : Block) : Checked Scratch := do
  let start ← scratch.offset block
  let left ← sub scratch.endIndex start
  return if block.len = left then { scratch with endIndex := start } else scratch

/-! ### Runs -/

/-- The allocator and the blocks that live. -/
structure State where
  scratch : Scratch
  live : List Block := []
  deriving DecidableEq, Repr

/-- The calls of the allocator; a live block is named by its place. -/
inductive Op
  | alloc (len : Nat) (alignment : Fin 64)
  | resize (index newLen : Nat)
  | remap (index newLen : Nat)
  | free (index : Nat)
  deriving DecidableEq, Repr

/-- The block that a call is about. -/
def Op.block? (op : Op) (live : List Block) : Option Block :=
  match op with
  | .alloc _ _ => none
  | .resize index _ | .remap index _ | .free index => live[index]?

/-- The length that a call asks for. -/
def Op.request? : Op → Option Nat
  | .alloc len _ => some len
  | .resize _ newLen | .remap _ newLen => some newLen
  | .free _ => none

/-- A call that asks for no empty block.  `std.mem.Allocator` serves the others itself. -/
def Op.Positive (op : Op) : Prop := op.request? ≠ some 0

/-- One call, and whether it succeeded; a call for a block that does not live does nothing. -/
def step (state : State) : Op → Checked (State × Bool)
  | .alloc len alignment => do
      match ← state.scratch.alloc len alignment with
      | (scratch, none) => return ({ state with scratch }, false)
      | (scratch, some ptr) =>
          return ({ scratch, live := state.live ++ [{ ptr, len, alignment }] }, true)
  | .resize index newLen =>
      match state.live[index]? with
      | none => .ok (state, false)
      | some block => do
          let (scratch, resized) ← state.scratch.resize block newLen
          if resized then
            return ({ scratch, live := state.live.set index { block with len := newLen } }, true)
          else return ({ state with scratch }, false)
  | .remap index newLen =>
      match state.live[index]? with
      | none => .ok (state, false)
      | some block => do
          match ← state.scratch.remap block newLen with
          | (scratch, none) => return ({ state with scratch }, false)
          | (scratch, some ptr) =>
              return ({ scratch, live := state.live.set index { block with ptr, len := newLen } }, true)
  | .free index =>
      match state.live[index]? with
      | none => .ok (state, false)
      | some block => do
          let scratch ← state.scratch.free block
          return ({ scratch, live := state.live.eraseIdx index }, true)

def run (state : State) : List Op → Checked State
  | [] => .ok state
  | op :: ops => do
      let (next, _) ← step state op
      run next ops

/-! ### What a call does -/

theorem sub_of_le {a b : Nat} (h : b ≤ a) : sub a b = .ok (a - b) := if_pos h

theorem add_of_lt {a b : Nat} (h : a + b < 2 ^ 64) : add a b = .ok (a + b) := if_pos h

theorem assert_of {p : Prop} [Decidable p] (h : p) : assert p = .ok () := if_pos h

/-- The cursor is within the buffer, and the buffer among the addresses. -/
structure Valid (scratch : Scratch) : Prop where
  end_le : scratch.endIndex ≤ scratch.length
  addressable : scratch.base + scratch.length < 2 ^ 64

variable {scratch : Scratch} {block : Block}

/-- The padding brings an address to a multiple of the alignment. -/
theorem dvd_add_padding {address : Nat} (alignment : Fin 64) (h : address < 2 ^ 64) :
    2 ^ alignment.val ∣ address + padding address (2 ^ alignment.val - 1) := by
  have hword : 2 ^ alignment.val ∣ 2 ^ 64 := Nat.pow_dvd_pow 2 (Nat.le_of_lt alignment.isLt)
  have hpadding : padding address (2 ^ alignment.val - 1) =
      (2 ^ 64 - address) % 2 ^ alignment.val := by
    rw [padding, Nat.and_two_pow_sub_one_eq_mod, Nat.mod_mod_of_dvd _ hword]
  have hdiv := Nat.div_add_mod (2 ^ 64 - address) (2 ^ alignment.val)
  have hsum : address + padding address (2 ^ alignment.val - 1) =
      2 ^ 64 - 2 ^ alignment.val * ((2 ^ 64 - address) / 2 ^ alignment.val) := by
    rw [hpadding]
    omega
  rw [hsum]
  exact Nat.dvd_sub hword (Nat.dvd_mul_right _ _)

/-- An allocation fails without effect, or gives a place between the cursor and the end of the
buffer. -/
theorem alloc_spec (h : scratch.Valid) (len : Nat) (alignment : Fin 64) :
    scratch.alloc len alignment = .ok (scratch, none) ∨
    ∃ start, scratch.endIndex ≤ start ∧ start + len ≤ scratch.length ∧
      2 ^ alignment.val ∣ scratch.base + start ∧ scratch.alloc len alignment =
        .ok ({ scratch with endIndex := start + len }, some (scratch.base + start)) := by
  obtain ⟨hend, haddress⟩ := h
  have hless : ¬2 ^ 64 ≤ scratch.base + scratch.endIndex := by omega
  have hpow : 1 ≤ 2 ^ alignment.val := Nat.one_le_two_pow
  unfold alloc
  dsimp only
  rw [if_neg hless, sub_of_le hpow, sub_of_le hend]
  simp only [bind, Except.bind]
  have haligned := dvd_add_padding alignment (Nat.not_le.mp hless)
  generalize padding (scratch.base + scratch.endIndex) (2 ^ alignment.val - 1) = gap at haligned ⊢
  split_ifs with hgap
  · exact Or.inl rfl
  · have hstart : scratch.endIndex + gap ≤ scratch.length := by omega
    rw [add_of_lt (by omega)]
    dsimp only
    rw [sub_of_le hstart]
    dsimp only
    split_ifs with hlen
    · exact Or.inl rfl
    · rw [add_of_lt (by omega), add_of_lt (by omega)]
      exact Or.inr ⟨scratch.endIndex + gap, Nat.le_add_right _ _, by omega,
        Nat.add_assoc .. ▸ haligned, rfl⟩

/-- A block ends at or before the cursor. -/
abbrev Below (scratch : Scratch) (block : Block) : Prop :=
  block.ptr + block.len ≤ scratch.base + scratch.endIndex

/-- A block ends at the cursor. -/
abbrev Last (scratch : Scratch) (block : Block) : Prop :=
  block.ptr + block.len = scratch.base + scratch.endIndex

theorem offset_spec (hbase : scratch.base ≤ block.ptr) :
    scratch.offset block =
      if scratch.Below block then .ok (block.ptr - scratch.base) else .error .assertion := by
  unfold offset
  rw [assert_of hbase, sub_of_le hbase]
  simp only [bind, Except.bind]
  by_cases hstart : block.ptr - scratch.base ≤ scratch.endIndex
  · rw [assert_of hstart]
    dsimp only
    rw [sub_of_le hstart]
    dsimp only
    by_cases hlen : block.len ≤ scratch.endIndex - (block.ptr - scratch.base)
    · rw [assert_of hlen, if_pos (by omega)]
      rfl
    · rw [if_neg (by omega)]
      simp only [assert, if_neg hlen]
  · rw [if_neg (by omega)]
    simp only [assert, if_neg hstart]

theorem resize_spec (h : scratch.Valid) (hbase : scratch.base ≤ block.ptr) (newLen : Nat) :
    scratch.resize block newLen =
      if scratch.Below block then
        if scratch.Last block then
          if block.ptr + newLen ≤ scratch.base + scratch.length then
            .ok ({ scratch with endIndex := block.ptr - scratch.base + newLen }, true)
          else .ok (scratch, false)
        else .ok (scratch, newLen ≤ block.len)
      else .error .assertion := by
  obtain ⟨hend, haddress⟩ := h
  unfold resize
  rw [offset_spec hbase]
  by_cases hbelow : scratch.Below block
  · have hstart : block.ptr - scratch.base ≤ scratch.endIndex := by
      omega
    rw [if_pos hbelow, if_pos hbelow]
    simp only [bind, Except.bind]
    rw [sub_of_le hstart]
    dsimp only
    by_cases hlast : scratch.Last block
    · have hlen : ¬block.len ≠ scratch.endIndex - (block.ptr - scratch.base) := by
        omega
      rw [if_pos hlast, if_neg hlen, sub_of_le (hstart.trans hend)]
      dsimp only
      by_cases hroom : block.ptr + newLen ≤ scratch.base + scratch.length
      · rw [if_pos hroom, if_neg (by omega), add_of_lt (by omega)]
        rfl
      · rw [if_neg hroom, if_pos (by omega)]
        rfl
    · have hlen : block.len ≠ scratch.endIndex - (block.ptr - scratch.base) := by
        omega
      rw [if_neg hlast, if_pos hlen]
      rfl
  · rw [if_neg hbelow, if_neg hbelow]
    rfl

theorem free_spec (hbase : scratch.base ≤ block.ptr) :
    scratch.free block =
      if scratch.Below block then
        .ok (if scratch.Last block then { scratch with endIndex := block.ptr - scratch.base }
          else scratch)
      else .error .assertion := by
  unfold free
  rw [offset_spec hbase]
  by_cases hbelow : scratch.Below block
  · have hstart : block.ptr - scratch.base ≤ scratch.endIndex := by
      omega
    rw [if_pos hbelow, if_pos hbelow]
    simp only [bind, Except.bind]
    rw [sub_of_le hstart]
    have hiff : scratch.Last block ↔ block.len = scratch.endIndex - (block.ptr - scratch.base) := by
      omega
    simp only [hiff]
    rfl
  · rw [if_neg hbelow, if_neg hbelow]
    rfl

/-! ### What every run keeps -/

/-- Blocks with bytes do not overlap. -/
def Disjoint (a b : Block) : Prop := 0 < a.len → 0 < b.len → a.toSlice.Apart b.toSlice

theorem Disjoint.symm {a b : Block} (h : Disjoint a b) : Disjoint b a :=
  fun ha hb => (h hb ha).symm

structure Inv (state : State) : Prop where
  valid : state.scratch.Valid
  inside : ∀ block ∈ state.live, state.scratch.base ≤ block.ptr
  aligned : ∀ block ∈ state.live, 2 ^ block.alignment.val ∣ block.ptr
  below : ∀ block ∈ state.live, 0 < block.len → state.scratch.Below block
  disjoint : state.live.Pairwise Disjoint

/-- A block that replaces another is apart from the rest. -/
theorem pairwise_set {live : List Block} (h : live.Pairwise Disjoint) {index : Nat} {block : Block}
    (hothers : ∀ other i, i ≠ index → live[i]? = some other → Disjoint other block) :
    (live.set index block).Pairwise Disjoint := by
  rw [List.pairwise_iff_getElem] at h ⊢
  intro i j hi hj hij
  rw [List.length_set] at hi hj
  rw [List.getElem_set, List.getElem_set]
  split_ifs with hfirst hsecond hsecond
  · omega
  · exact (hothers _ j (by omega) (List.getElem?_eq_getElem hj)).symm
  · exact hothers _ i (by omega) (List.getElem?_eq_getElem hi)
  · exact h i j hi hj hij

section steps

variable {state : State} {index : Nat}

/-- What lives beside the last block ends where that one starts. -/
theorem Inv.before_last (h : Inv state) (hblock : state.live[index]? = some block)
    (hlast : state.scratch.Last block) {other : Block} {i : Nat} (hne : i ≠ index)
    (hother : state.live[i]? = some other) (hpos : 0 < other.len) :
    other.ptr + other.len ≤ block.ptr := by
  have hbelow := h.below other (List.mem_of_getElem? hother) hpos
  rcases Nat.eq_zero_or_pos block.len with hzero | hblockPos
  · omega
  · have hapart : Disjoint other block := by
      have hpairwise := List.pairwise_iff_getElem.mp h.disjoint
      obtain ⟨hi, rfl⟩ := List.getElem?_eq_some_iff.mp hother
      obtain ⟨hindex, rfl⟩ := List.getElem?_eq_some_iff.mp hblock
      rcases Nat.lt_or_gt_of_ne hne with hlt | hgt
      · exact hpairwise i index hi hindex hlt
      · exact (hpairwise index i hindex hi hgt).symm
    rcases hapart hpos hblockPos with hbefore | hbehind
    · exact hbefore
    · omega

/-- The last block takes another length that the buffer holds. -/
theorem Inv.resize_last (h : Inv state) (hblock : state.live[index]? = some block)
    (hlast : state.scratch.Last block) {newLen : Nat}
    (hroom : block.ptr + newLen ≤ state.scratch.base + state.scratch.length) :
    Inv {
      scratch := { state.scratch with endIndex := block.ptr - state.scratch.base + newLen }
      live := state.live.set index { block with len := newLen } } := by
  have hmem := List.mem_of_getElem? hblock
  have hbase := h.inside block hmem
  refine ⟨⟨by dsimp only; omega, h.valid.addressable⟩, ?_, ?_, ?_, pairwise_set h.disjoint ?_⟩
  · intro other hother
    rcases List.mem_or_eq_of_mem_set hother with hother | rfl
    · exact h.inside other hother
    · exact hbase
  · intro other hother
    rcases List.mem_or_eq_of_mem_set hother with hother | rfl
    · exact h.aligned other hother
    · exact h.aligned block hmem
  · intro other hother hpos
    obtain ⟨i, hi, hget⟩ := List.getElem_of_mem hother
    rw [List.getElem_set] at hget
    rw [List.length_set] at hi
    split_ifs at hget with hindex
    · subst hget
      unfold Below
      dsimp only
      omega
    · subst hget
      have hbefore := h.before_last hblock hlast (Ne.symm hindex) (List.getElem?_eq_getElem hi) hpos
      unfold Below
      dsimp only
      omega
  · intro other i hne hother hpos _
    exact Or.inl (h.before_last hblock hlast hne hother hpos)

/-- A block gives up bytes at its end without being the last. -/
theorem Inv.shrink (h : Inv state) (hblock : state.live[index]? = some block) {newLen : Nat}
    (hless : newLen ≤ block.len) :
    Inv { state with live := state.live.set index { block with len := newLen } } := by
  have hmem := List.mem_of_getElem? hblock
  refine ⟨h.valid, ?_, ?_, ?_, pairwise_set h.disjoint ?_⟩
  · intro other hother
    rcases List.mem_or_eq_of_mem_set hother with hother | rfl
    · exact h.inside other hother
    · exact h.inside block hmem
  · intro other hother
    rcases List.mem_or_eq_of_mem_set hother with hother | rfl
    · exact h.aligned other hother
    · exact h.aligned block hmem
  · intro other hother hpos
    rcases List.mem_or_eq_of_mem_set hother with hother | rfl
    · exact h.below other hother hpos
    · have hbelow := h.below block hmem (Nat.lt_of_lt_of_le hpos hless)
      unfold Below
      dsimp only
      omega
  · intro other i hne hother hpos hposNew
    have hpairwise := List.pairwise_iff_getElem.mp h.disjoint
    obtain ⟨hi, rfl⟩ := List.getElem?_eq_some_iff.mp hother
    obtain ⟨hindex, rfl⟩ := List.getElem?_eq_some_iff.mp hblock
    have hposOld : 0 < state.live[index].len := Nat.lt_of_lt_of_le hposNew hless
    have hapart : state.live[i].toSlice.Apart state.live[index].toSlice := by
      rcases Nat.lt_or_gt_of_ne hne with hlt | hgt
      · exact hpairwise i index hi hindex hlt hpos hposOld
      · exact (hpairwise index i hindex hi hgt hposOld hpos).symm
    rcases hapart with hbefore | hbehind
    · exact Or.inl hbefore
    · refine Or.inr ?_
      dsimp only
      omega

/-- A block that is freed leaves the others; the last one takes the cursor back with it. -/
theorem Inv.free (h : Inv state) (hblock : state.live[index]? = some block) :
    Inv {
      scratch := if state.scratch.Last block then
          { state.scratch with endIndex := block.ptr - state.scratch.base }
        else state.scratch
      live := state.live.eraseIdx index } := by
  have hmem {other : Block} (hother : other ∈ state.live.eraseIdx index) : other ∈ state.live :=
    List.mem_of_mem_eraseIdx hother
  have hdisjoint := h.disjoint.sublist (List.eraseIdx_sublist state.live index)
  split_ifs with hlast
  · have hbase := h.inside block (List.mem_of_getElem? hblock)
    have hend := h.valid.end_le
    refine ⟨⟨by dsimp only; omega, h.valid.addressable⟩, fun other hother => h.inside other (hmem hother),
      fun other hother => h.aligned other (hmem hother), ?_, hdisjoint⟩
    intro other hother hpos
    obtain ⟨i, hne, hget⟩ := List.mem_eraseIdx_iff_getElem?.mp hother
    have hbefore := h.before_last hblock hlast hne hget hpos
    unfold Below
    dsimp only
    omega
  · exact ⟨h.valid, fun other hother => h.inside other (hmem hother),
      fun other hother => h.aligned other (hmem hother),
      fun other hother => h.below other (hmem hother), hdisjoint⟩

/-- A new block stands behind the cursor. -/
theorem Inv.alloc (h : Inv state) {start len : Nat} {alignment : Fin 64}
    (hstart : state.scratch.endIndex ≤ start) (hroom : start + len ≤ state.scratch.length)
    (haligned : 2 ^ alignment.val ∣ state.scratch.base + start) :
    Inv {
      scratch := { state.scratch with endIndex := start + len }
      live := state.live ++ [{ ptr := state.scratch.base + start, len, alignment }] } := by
  refine ⟨⟨hroom, h.valid.addressable⟩, ?_, ?_, ?_, ?_⟩
  · intro other hother
    rcases List.mem_append.mp hother with hother | hlast
    · exact h.inside other hother
    · rw [List.mem_singleton.mp hlast]
      exact Nat.le_add_right _ _
  · intro other hother
    rcases List.mem_append.mp hother with hother | hlast
    · exact h.aligned other hother
    · rw [List.mem_singleton.mp hlast]
      exact haligned
  · intro other hother hpos
    rcases List.mem_append.mp hother with hother | hlast
    · have hbelow := h.below other hother hpos
      unfold Below
      dsimp only
      omega
    · rw [List.mem_singleton.mp hlast]
      unfold Below
      dsimp only
      omega
  · refine List.pairwise_append.mpr ⟨h.disjoint, List.pairwise_singleton _ _, ?_⟩
    intro other hother last hlast hpos _
    rw [List.mem_singleton.mp hlast]
    have hbelow := h.below other hother hpos
    refine Or.inl ?_
    dsimp only
    omega

/-- A block that lives and is not at or before the cursor has no bytes. -/
theorem Inv.empty_of_not_below (h : Inv state) (hblock : state.live[index]? = some block)
    (hbelow : ¬state.scratch.Below block) : block.len = 0 :=
  Nat.eq_zero_of_not_pos fun hpos => hbelow (h.below block (List.mem_of_getElem? hblock) hpos)

/-- Resizing a live block fails without effect or keeps the invariant; it trips over an empty block
behind the cursor only. -/
theorem Inv.resize (h : Inv state) (hblock : state.live[index]? = some block) (newLen : Nat) :
    ¬state.scratch.Below block ∧ state.scratch.resize block newLen = .error .assertion ∨
    state.scratch.resize block newLen = .ok (state.scratch, false) ∨
    ∃ endIndex, state.scratch.resize block newLen = .ok ({ state.scratch with endIndex }, true) ∧
      Inv {
        scratch := { state.scratch with endIndex }
        live := state.live.set index { block with len := newLen } } := by
  rw [resize_spec h.valid (h.inside block (List.mem_of_getElem? hblock))]
  split_ifs with hbelow hlast hroom
  · exact Or.inr (Or.inr ⟨_, rfl, h.resize_last hblock hlast hroom⟩)
  · exact Or.inr (Or.inl rfl)
  · by_cases hless : newLen ≤ block.len
    · rw [decide_eq_true hless]
      exact Or.inr (Or.inr ⟨state.scratch.endIndex, rfl, h.shrink hblock hless⟩)
    · rw [decide_eq_false hless]
      exact Or.inr (Or.inl rfl)
  · exact Or.inl ⟨hbelow, rfl⟩

/-- The buffer is the same. -/
def SameBuffer (a b : State) : Prop :=
  a.scratch.base = b.scratch.base ∧ a.scratch.length = b.scratch.length

/-- What a call of a state that keeps the invariant can do. -/
theorem Inv.step (h : Inv state) (op : Op) :
    (∃ block, op.block? state.live = some block ∧ ¬state.scratch.Below block ∧
      block.len = 0 ∧ Scratch.step state op = .error .assertion) ∨
    Scratch.step state op = .ok (state, false) ∨
    ∃ next, Scratch.step state op = .ok (next, true) ∧ Inv next ∧ SameBuffer state next ∧
      ∀ block ∈ next.live, block ∈ state.live ∨ op.request? = some block.len := by
  cases op with
  | alloc len alignment =>
      rcases alloc_spec h.valid len alignment with hnone | ⟨start, hstart, hroom, haligned, hsome⟩
      · simp only [Scratch.step, hnone]
        exact Or.inr (Or.inl rfl)
      · simp only [Scratch.step, hsome]
        refine Or.inr (Or.inr ⟨_, rfl, h.alloc hstart hroom haligned, ⟨rfl, rfl⟩, ?_⟩)
        intro other hother
        refine (List.mem_append.mp hother).imp_right fun hlast => ?_
        rw [List.mem_singleton.mp hlast]
        rfl
  | resize index newLen =>
      cases hblock : state.live[index]? with
      | none => exact Or.inr (Or.inl (by simp only [Scratch.step, hblock]))
      | some block =>
          simp only [Scratch.step, hblock, Op.block?]
          rcases h.resize hblock newLen with ⟨hbelow, htrap⟩ | hfail | ⟨endIndex, hdone, hinv⟩
          · rw [htrap]
            exact Or.inl ⟨block, rfl, hbelow, h.empty_of_not_below hblock hbelow, rfl⟩
          · rw [hfail]
            exact Or.inr (Or.inl rfl)
          · rw [hdone]
            refine Or.inr (Or.inr ⟨_, rfl, hinv, ⟨rfl, rfl⟩, ?_⟩)
            intro other hother
            refine (List.mem_or_eq_of_mem_set hother).imp_right fun hset => ?_
            rw [hset]
            rfl
  | remap index newLen =>
      cases hblock : state.live[index]? with
      | none => exact Or.inr (Or.inl (by simp only [Scratch.step, hblock]))
      | some block =>
          simp only [Scratch.step, hblock, Op.block?, Scratch.remap]
          rcases h.resize hblock newLen with ⟨hbelow, htrap⟩ | hfail | ⟨endIndex, hdone, hinv⟩
          · rw [htrap]
            exact Or.inl ⟨block, rfl, hbelow, h.empty_of_not_below hblock hbelow, rfl⟩
          · rw [hfail]
            exact Or.inr (Or.inl rfl)
          · rw [hdone]
            refine Or.inr (Or.inr ⟨_, rfl, hinv, ⟨rfl, rfl⟩, ?_⟩)
            intro other hother
            refine (List.mem_or_eq_of_mem_set hother).imp_right fun hset => ?_
            rw [hset]
            rfl
  | free index =>
      cases hblock : state.live[index]? with
      | none => exact Or.inr (Or.inl (by simp only [Scratch.step, hblock]))
      | some block =>
          simp only [Scratch.step, hblock, Op.block?]
          rw [free_spec (h.inside block (List.mem_of_getElem? hblock))]
          by_cases hbelow : state.scratch.Below block
          · rw [if_pos hbelow]
            refine Or.inr (Or.inr ⟨_, rfl, h.free hblock, ?_, fun other hother =>
              Or.inl (List.mem_of_mem_eraseIdx hother)⟩)
            unfold SameBuffer
            split_ifs
            · exact ⟨rfl, rfl⟩
            · exact ⟨rfl, rfl⟩
          · rw [if_neg hbelow]
            exact Or.inl ⟨block, rfl, hbelow, h.empty_of_not_below hblock hbelow, rfl⟩

end steps

def start (base length : Nat) : State := { scratch := { base, length } }

theorem start_inv {base length : Nat} (h : base + length < 2 ^ 64) : Inv (start base length) :=
  ⟨⟨Nat.zero_le _, h⟩, nofun, nofun, nofun, List.Pairwise.nil⟩

theorem run_inv {ops : List Op} {state last : State} (h : Inv state) (hrun : run state ops = .ok last) :
    Inv last ∧ SameBuffer state last := by
  induction ops generalizing state with
  | nil =>
      obtain rfl := Except.ok.inj hrun
      exact ⟨h, rfl, rfl⟩
  | cons op ops ih =>
      rw [run] at hrun
      rcases h.step op with ⟨block, -, -, -, htrap⟩ | hfail | ⟨next, hdone, hnext, hsame, -⟩
      · rw [htrap] at hrun
        cases hrun
      · rw [hfail] at hrun
        exact ih h hrun
      · rw [hdone] at hrun
        obtain ⟨hlast, hbase, hlength⟩ := ih hnext hrun
        exact ⟨hlast, hsame.1.trans hbase, hsame.2.trans hlength⟩

/-- Where no call asks for an empty block, every block has bytes and no assertion fails. -/
theorem run_positive {ops : List Op} {state : State} (h : Inv state)
    (hnonempty : ∀ block ∈ state.live, 0 < block.len) (hops : ∀ op ∈ ops, op.Positive) :
    ∃ last, run state ops = .ok last := by
  induction ops generalizing state with
  | nil => exact ⟨state, rfl⟩
  | cons op ops ih =>
      have hrest : ∀ op ∈ ops, op.Positive := fun other hother => hops other (List.mem_cons_of_mem _ hother)
      rw [run]
      rcases h.step op with ⟨block, hblock, -, hzero, -⟩ | hfail | ⟨next, hdone, hnext, -, hlive⟩
      · have hmem : block ∈ state.live := by
          cases op with
          | alloc len alignment => cases hblock
          | resize index newLen => exact List.mem_of_getElem? hblock
          | remap index newLen => exact List.mem_of_getElem? hblock
          | free index => exact List.mem_of_getElem? hblock
        exact absurd hzero (Nat.ne_of_gt (hnonempty block hmem))
      · rw [hfail]
        exact ih h hnonempty hrest
      · rw [hdone]
        refine ih hnext (fun block hblock => ?_) hrest
        rcases hlive block hblock with hold | hnew
        · exact hnonempty block hold
        · refine Nat.pos_of_ne_zero fun hzero => hops op List.mem_cons_self ?_
          rw [hnew, hzero]

/-- Whatever calls were made of the allocator of a buffer, the blocks that live are in place and
apart, the next call changes nothing when it fails, and no arithmetic leaves its words.  An assertion
fails only for an empty block that the cursor went back behind, and so never where no empty block is
asked for. -/
theorem calls_safe {base length : Nat} (haddress : base + length < 2 ^ 64) {ops : List Op}
    {state : State} (h : run (start base length) ops = .ok state) :
    state.scratch.base = base ∧ state.scratch.length = length ∧ Inv state ∧
    (∀ op, step state op ≠ .error .overflow ∧
      (step state op = .error .assertion → ∃ block, op.block? state.live = some block ∧
        block.len = 0 ∧ state.scratch.base + state.scratch.endIndex < block.ptr) ∧
      (∀ next, step state op = .ok (next, false) → next = state) ∧
      ∀ next, step state op = .ok (next, true) → Inv next) ∧
    ∀ ops, (∀ op ∈ ops, op.Positive) → ∃ last, run (start base length) ops = .ok last := by
  have hstart := start_inv haddress
  obtain ⟨hinv, hsame⟩ := run_inv hstart h
  refine ⟨hsame.1.symm, hsame.2.symm, hinv, fun op => ?_, fun ops => run_positive hstart nofun⟩
  rcases hinv.step op with ⟨block, hblock, hbelow, hzero, htrap⟩ | hfail | ⟨last, hdone, hlast, -⟩
  · rw [htrap]
    refine ⟨nofun, fun _ => ⟨block, hblock, hzero, ?_⟩, nofun, nofun⟩
    omega
  · rw [hfail]
    exact ⟨nofun, nofun, fun next hnext => ((Prod.mk.inj (Except.ok.inj hnext)).1).symm, nofun⟩
  · rw [hdone]
    refine ⟨nofun, nofun, nofun, fun next hnext => ?_⟩
    obtain ⟨rfl, -⟩ := Prod.mk.inj (Except.ok.inj hnext)
    exact hlast

/-- The second of two blocks is aligned behind the first, grows, and gives its bytes back. -/
theorem calls_safe_aligned :
    ∃ state, run (start 1 63) [.alloc 5 0, .alloc 16 4, .resize 1 32, .resize 0 3, .free 1] =
      .ok state ∧ state.scratch.endIndex = 15 ∧ Inv state := by
  have hrun : run (start 1 63) [.alloc 5 0, .alloc 16 4, .resize 1 32, .resize 0 3, .free 1] =
      .ok { scratch := { base := 1, length := 63, endIndex := 15 }
            live := [{ ptr := 1, len := 3, alignment := 0 }] } := by decide +kernel
  exact ⟨_, hrun, rfl, (calls_safe (by decide) hrun).2.2.1⟩

end Scratch

end Zhtps
