import Mathlib

/-!
A bounded buffer: caller-owned storage of which a prefix is in use.

The storage is kept whole, stale cells included, because code that owns
such a buffer can only be said to stay inside it if the cells behind the
used prefix are there to be left alone. A write behind the last cell is
not prevented: it lengthens the storage, so that code which overruns its
buffer does not keep the capacity. Everything an algorithm can observe
through the interface is the used prefix and the capacity; the lemmas
below express each operation on those two.
-/

namespace Lib

variable {α : Type}

/-- Fixed storage and the length of the prefix in use. -/
structure Buffer (α : Type) where
  storage : List α
  len : Nat
  len_le : len ≤ storage.length
  deriving DecidableEq

namespace Buffer

/-- A buffer over given storage, with nothing in use. -/
def ofStorage (storage : List α) : Buffer α := ⟨storage, 0, Nat.zero_le _⟩

def capacity (b : Buffer α) : Nat := b.storage.length

/-- The bytes written so far. -/
def used (b : Buffer α) : List α := b.storage.take b.len

def room (b : Buffer α) : Nat := b.capacity - b.len

/-- The cell just before the write position. -/
def last? (b : Buffer α) : Option α :=
  if b.len = 0 then none else b.storage[b.len - 1]?

/-- Write one cell. A full buffer overruns. -/
def push (b : Buffer α) (c : α) : Buffer α :=
  ⟨b.storage.take b.len ++ c :: b.storage.drop (b.len + 1), b.len + 1, by
    have := b.len_le
    simp only [List.length_append, List.length_take, List.length_cons]
    omega⟩

/-- Copy a block behind the used prefix. A block that does not fit overruns. -/
def append (b : Buffer α) (xs : List α) : Buffer α :=
  ⟨b.storage.take b.len ++ xs ++ b.storage.drop (b.len + xs.length), b.len + xs.length, by
    have := b.len_le
    simp only [List.length_append, List.length_take]
    omega⟩

/-- Forget the used prefix, keeping the storage. -/
def clear (b : Buffer α) : Buffer α := ⟨b.storage, 0, Nat.zero_le _⟩

/-- Move the used prefix into storage of `n` cells, or keep its length when that is larger. -/
def grow (b : Buffer α) (n : Nat) (fill : α) : Buffer α :=
  ⟨b.used ++ List.replicate (n - b.len) fill, b.len, by simp [used, b.len_le]⟩

@[ext] theorem ext {b c : Buffer α} (hs : b.storage = c.storage) (hl : b.len = c.len) :
    b = c := by
  cases b; cases c; simp_all

@[simp] theorem used_length (b : Buffer α) : b.used.length = b.len := by
  simp [used, b.len_le]

@[simp] theorem used_ofStorage (s : List α) : (ofStorage s).used = [] := rfl

@[simp] theorem capacity_ofStorage (s : List α) : (ofStorage s).capacity = s.length := rfl

@[simp] theorem len_ofStorage (s : List α) : (ofStorage s).len = 0 := rfl

@[simp] theorem len_grow (b : Buffer α) (n : Nat) (fill : α) : (b.grow n fill).len = b.len := rfl

@[simp] theorem used_grow (b : Buffer α) (n : Nat) (fill : α) : (b.grow n fill).used = b.used := by
  have h : b.used.length = b.len := by simp [used, b.len_le]
  exact List.take_left' h

theorem capacity_grow {b : Buffer α} {n : Nat} {fill : α} (h : b.len ≤ n) :
    (b.grow n fill).capacity = n := by
  simp only [capacity, grow, List.length_append, List.length_replicate, used, List.length_take]
  have := b.len_le
  omega

@[simp] theorem len_clear (b : Buffer α) : b.clear.len = 0 := rfl

@[simp] theorem capacity_clear (b : Buffer α) : b.clear.capacity = b.capacity := rfl

theorem len_le_capacity (b : Buffer α) : b.len ≤ b.capacity := b.len_le

/-- The capacity tells whether a write stayed inside. -/
theorem capacity_push {b : Buffer α} (c : α) (h : b.len < b.capacity) :
    (b.push c).capacity = b.capacity := by
  simp only [capacity] at h
  simp only [capacity, push, List.length_append, List.length_take, List.length_cons, List.length_drop]
  omega

@[simp] theorem len_push (b : Buffer α) (c : α) : (b.push c).len = b.len + 1 := rfl

@[simp] theorem used_push (b : Buffer α) (c : α) : (b.push c).used = b.used ++ [c] := by
  have hlen : (b.storage.take b.len ++ [c]).length = b.len + 1 := by
    simp [b.len_le]
  show (b.storage.take b.len ++ c :: b.storage.drop (b.len + 1)).take (b.len + 1) = _
  rw [List.append_cons, List.take_left' hlen]
  rfl

theorem capacity_append {b : Buffer α} {xs : List α} (h : b.len + xs.length ≤ b.capacity) :
    (b.append xs).capacity = b.capacity := by
  simp only [capacity] at h
  simp only [capacity, append, List.length_append, List.length_take, List.length_drop]
  omega

@[simp] theorem len_append (b : Buffer α) (xs : List α) : (b.append xs).len = b.len + xs.length :=
  rfl

@[simp] theorem used_append (b : Buffer α) (xs : List α) : (b.append xs).used = b.used ++ xs := by
  have hlen : (b.storage.take b.len ++ xs).length = b.len + xs.length := by
    simp [b.len_le]
  exact List.take_left' hlen

theorem last?_eq (b : Buffer α) : b.last? = b.used.getLast? := by
  by_cases h : b.len = 0
  · simp [last?, used, h]
  · have hle := b.len_le
    rw [List.getLast?_eq_getElem?, used_length]
    simp only [last?, h, if_false, used]
    rw [List.getElem?_take_of_lt (by omega)]

theorem last?_push (b : Buffer α) (c : α) : (b.push c).last? = some c := by
  rw [last?_eq, used_push, List.getLast?_append]
  rfl

@[simp] theorem append_nil (b : Buffer α) : b.append [] = b := by
  ext1 <;> simp [append]

/-- Copying a block is writing its cells one at a time, which is what
makes a wide copy and a byte loop interchangeable. -/
theorem append_cons (b : Buffer α) (x : α) (xs : List α) :
    b.append (x :: xs) = (b.push x).append xs := by
  have htake : (b.storage.take b.len ++ x :: b.storage.drop (b.len + 1)).take (b.len + 1) =
      b.storage.take b.len ++ [x] := used_push b x
  have hdrop : (b.storage.take b.len ++ x :: b.storage.drop (b.len + 1)).drop
      (b.len + 1 + xs.length) = b.storage.drop (b.len + (x :: xs).length) := by
    have hlen : (b.storage.take b.len ++ [x]).length = b.len + 1 := by
      simp [b.len_le]
    rw [List.append_cons, ← List.drop_drop, List.drop_left' hlen, List.drop_drop, List.length_cons]
    congr 1
    omega
  ext1
  · simp only [append, push]
    rw [htake, hdrop, List.append_assoc _ [x], List.singleton_append]
  · simp only [append, push, List.length_cons]
    omega

/-- Two blocks are one block. -/
theorem append_append (b : Buffer α) (xs ys : List α) :
    (b.append xs).append ys = b.append (xs ++ ys) := by
  induction xs generalizing b with
  | nil => rw [append_nil, List.nil_append]
  | cons x xs ih => rw [append_cons, List.cons_append, append_cons, ih]

end Buffer

end Lib
