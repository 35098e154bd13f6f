import Mathlib

/-!
A flat memory with allocated blocks, and slices of it.

A slice is an address and a length, so that nothing but its place ties it to a block; what it shows is
what the cells hold.  Blocks do not overlap, and an allocation comes with the proof that it overlaps
none of those that exist.
-/

namespace Lib

/-- Cells in a row. -/
structure Slice where
  ptr : Nat
  len : Nat
  deriving DecidableEq, Repr

namespace Slice

def Inside (s block : Slice) : Prop := block.ptr ≤ s.ptr ∧ s.ptr + s.len ≤ block.ptr + block.len

def Apart (a b : Slice) : Prop := a.ptr + a.len ≤ b.ptr ∨ b.ptr + b.len ≤ a.ptr

/-- Inside a block, or empty, wherever that is. -/
def Within (s block : Slice) : Prop := s.len = 0 ∨ s.Inside block

theorem Apart.symm {a b : Slice} (h : a.Apart b) : b.Apart a := Or.symm h

instance : Std.Symm Apart := ⟨fun _ _ h => h.symm⟩

theorem Within.trans {s block outer : Slice} (h : s.Within block) (hblock : block.Inside outer) :
    s.Within outer := by
  unfold Within Inside at *
  omega

end Slice

structure Memory (α : Type) where
  cells : Nat → α
  blocks : List Slice
  apart : blocks.Pairwise Slice.Apart

namespace Memory

variable {α : Type}

/-- What a slice shows. -/
def read (m : Memory α) (s : Slice) : List α := (List.range' s.ptr s.len).map m.cells

/-- Copies cells to an address. -/
def write (m : Memory α) (ptr : Nat) (xs : List α) : Memory α :=
  { m with cells := fun a => if ptr ≤ a then (xs[a - ptr]?).getD (m.cells a) else m.cells a }

/-- A place for so many cells. -/
def Place (m : Memory α) (n : Nat) : Type :=
  { ptr : Nat // ∀ block ∈ m.blocks, Slice.Apart ⟨ptr, n⟩ block }

/-- An allocator, which may refuse. -/
def Allocator (α : Type) : Type := (m : Memory α) → (n : Nat) → Option (m.Place n)

def alloc (m : Memory α) (n : Nat) (place : m.Place n) : Memory α :=
  { m with
    blocks := ⟨place.val, n⟩ :: m.blocks
    apart := List.pairwise_cons.mpr ⟨place.property, m.apart⟩ }

/-- Frees a block; there is nothing to free of an empty one. -/
def free (m : Memory α) (block : Slice) : Memory α :=
  if block.len = 0 then m
  else { m with
    blocks := m.blocks.erase block
    apart := m.apart.sublist (List.erase_sublist) }

/-- A slice that does not reach out of an allocated block. -/
def Live (m : Memory α) (s : Slice) : Prop := ∃ block ∈ m.blocks, s.Inside block

@[simp] theorem length_read (m : Memory α) (s : Slice) : (m.read s).length = s.len := by
  rw [read, List.length_map, List.length_range']

theorem getElem?_read (m : Memory α) (s : Slice) (i : Nat) :
    (m.read s)[i]? = if i < s.len then some (m.cells (s.ptr + i)) else none := by
  rw [read, List.getElem?_map]
  split
  next hlt => rw [List.getElem?_range' hlt, Nat.one_mul, Option.map_some]
  next hge => rw [List.getElem?_eq_none (by rw [List.length_range']; omega), Option.map_none]

theorem read_eq {m m' : Memory α} {s s' : Slice} (hlen : s.len = s'.len)
    (h : ∀ i, i < s.len → m.cells (s.ptr + i) = m'.cells (s'.ptr + i)) :
    m.read s = m'.read s' := by
  apply List.ext_getElem?
  intro i
  rw [getElem?_read, getElem?_read, ← hlen]
  split
  · rw [h i (by assumption)]
  · rfl

theorem read_of_len {m m' : Memory α} {s s' : Slice} (h : s.len = 0) (h' : s'.len = 0) :
    m.read s = m'.read s' := read_eq (h.trans h'.symm) fun i hi => by omega

@[simp] theorem read_alloc (m : Memory α) (n : Nat) (place : m.Place n) (s : Slice) :
    (m.alloc n place).read s = m.read s := rfl

@[simp] theorem read_free (m : Memory α) (block s : Slice) : (m.free block).read s = m.read s := by
  unfold free
  split <;> rfl

@[simp] theorem blocks_write (m : Memory α) (ptr : Nat) (xs : List α) :
    (m.write ptr xs).blocks = m.blocks := rfl

theorem read_write_self (m : Memory α) (ptr : Nat) (xs : List α) :
    (m.write ptr xs).read ⟨ptr, xs.length⟩ = xs := by
  apply List.ext_getElem?
  intro i
  rw [getElem?_read]
  by_cases hi : i < xs.length
  · rw [if_pos hi, write]
    simp [hi]
  · rw [if_neg hi, List.getElem?_eq_none (by omega)]

/-- A copy leaves alone what does not overlap it. -/
theorem read_write_apart (m : Memory α) {ptr : Nat} {xs : List α} {s : Slice}
    (h : s.len = 0 ∨ s.Apart ⟨ptr, xs.length⟩) : (m.write ptr xs).read s = m.read s := by
  refine read_eq rfl fun i hi => ?_
  show (if ptr ≤ s.ptr + i then (xs[s.ptr + i - ptr]?).getD _ else _) = _
  split
  · have hout : xs.length ≤ s.ptr + i - ptr := by
      rcases h with h | h | h
      · omega
      · exact absurd h (by simp only; omega)
      · have hle : ptr + xs.length ≤ s.ptr := h
        omega
    rw [List.getElem?_eq_none hout]
    rfl
  · rfl

@[simp] theorem write_nil (m : Memory α) (ptr : Nat) : m.write ptr [] = m := by
  unfold write
  simp

/-- Two ranges that show the same show the same at every place in them. -/
theorem read_shift {m m' : Memory α} {p q n : Nat} (h : m.read ⟨p, n⟩ = m'.read ⟨q, n⟩) {s : Slice}
    (hs : s.Inside ⟨p, n⟩) : m'.read ⟨q + (s.ptr - p), s.len⟩ = m.read s := by
  unfold Slice.Inside at hs
  simp only at hs
  refine read_eq rfl fun i hi => ?_
  simp only at hi ⊢
  have hcell := congrArg (fun l => l[s.ptr - p + i]?) h
  simp only [getElem?_read] at hcell
  rw [if_pos (by omega), if_pos (by omega), Option.some.injEq] at hcell
  rw [show s.ptr + i = p + (s.ptr - p + i) by omega, hcell,
    show q + (s.ptr - p) + i = q + (s.ptr - p + i) by omega]

theorem read_append (m : Memory α) (ptr n k : Nat) :
    m.read ⟨ptr, n + k⟩ = m.read ⟨ptr, n⟩ ++ m.read ⟨ptr + n, k⟩ := by
  rw [read, read, read, ← List.map_append, List.range'_append_1]

/-- A copy behind some cells appends to what they show. -/
theorem read_write_append (m : Memory α) (ptr n : Nat) (xs : List α) :
    (m.write (ptr + n) xs).read ⟨ptr, n + xs.length⟩ = m.read ⟨ptr, n⟩ ++ xs := by
  rw [read_append, read_write_self]
  exact congrArg (· ++ xs) (read_write_apart m (Or.inr (Or.inl (le_refl _))))

/-- A part of a slice shows that part of its text. -/
theorem read_part (m : Memory α) (s : Slice) {start n : Nat} (h : start + n ≤ s.len) :
    m.read ⟨s.ptr + start, n⟩ = ((m.read s).drop start).take n := by
  apply List.ext_getElem?
  intro i
  rw [getElem?_read, List.getElem?_take, List.getElem?_drop, getElem?_read]
  simp only
  split
  · rw [if_pos (by omega), Nat.add_assoc]
  · rfl

theorem Live.of_within {m : Memory α} {s block : Slice} (hblock : block ∈ m.blocks)
    (h : s.Within block) : s.len = 0 ∨ m.Live s := h.imp id fun hinside => ⟨block, hblock, hinside⟩

theorem apart_of_mem {m : Memory α} {a b : Slice} (ha : a ∈ m.blocks) (hb : b ∈ m.blocks)
    (hne : a ≠ b) : a.Apart b :=
  m.apart.forall ha hb hne

theorem mem_free {m : Memory α} {block other : Slice} (h : other ∈ m.blocks)
    (hne : other ≠ block) : other ∈ (m.free block).blocks := by
  unfold free
  split
  · exact h
  · exact (List.mem_erase_of_ne hne).mpr h

end Memory

end Lib
