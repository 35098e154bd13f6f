import Mathlib

/-!
A bounded queue of records that are taken from the front byte by byte.  A record leaves the queue
with its last byte, or is dropped with what is left of it.
-/

namespace Lib

variable {α : Type*}

structure Fifo (α : Type*) where
  capacity : Nat
  records : List (List α) := []
  /-- What is already taken of the oldest record. -/
  sent : Nat := 0

namespace Fifo

/-- The bytes that are still to be taken. -/
def unsent (fifo : Fifo α) : List α := fifo.records.flatten.drop fifo.sent

/-- A new record goes to the end, where there is room. -/
def push (fifo : Fifo α) (record : List α) : Fifo α :=
  if fifo.records.length < fifo.capacity then { fifo with records := fifo.records ++ [record] }
  else fifo

/-- A record and what is taken of it, by its offset from the oldest. -/
def peekAt (fifo : Fifo α) (offset : Nat) : Option (List α × Nat) :=
  fifo.records[offset]?.map fun record => (record, if offset = 0 then fifo.sent else 0)

/-- The oldest record goes, whatever is taken of it. -/
def drop (fifo : Fifo α) : Fifo α := { fifo with records := fifo.records.tail, sent := 0 }

/-- The records that end within the first bytes. -/
def finished (records : List (List α)) (bytes : Nat) : Nat :=
  (List.range records.length).countP fun i => (records.take (i + 1)).flatten.length ≤ bytes

/-- Some bytes are taken, and with them the records that they finish. -/
def advance (fifo : Fifo α) (bytes : Nat) : Fifo α :=
  { fifo with
    records := fifo.records.drop (finished fifo.records (fifo.sent + bytes))
    sent := fifo.sent + bytes -
      (fifo.records.take (finished fifo.records (fifo.sent + bytes))).flatten.length }

/-- Something is left of the oldest record. -/
def Open (fifo : Fifo α) : Prop :=
  (∀ record ∈ fifo.records, record ≠ []) ∧ ∀ record ∈ fifo.records.head?, fifo.sent < record.length

variable {fifo : Fifo α} {records : List (List α)} {record : List α} {bytes : Nat}

theorem finished_cons (record : List α) (records : List (List α)) (bytes : Nat) :
    finished (record :: records) bytes =
      if record.length ≤ bytes then finished records (bytes - record.length) + 1 else 0 := by
  have hlength (i : Nat) : ((record :: records).take (i + 1)).flatten.length =
      record.length + (records.take i).flatten.length := by
    rw [List.take_succ_cons, List.flatten_cons, List.length_append]
  unfold finished
  split
  · rename_i hle
    rw [List.length_cons, List.range_succ_eq_map, List.countP_cons, List.countP_map]
    have hfirst : decide (((record :: records).take (0 + 1)).flatten.length ≤ bytes) = true := by
      rw [hlength, List.take_zero, List.flatten_nil, List.length_nil, Nat.add_zero]
      exact decide_eq_true hle
    rw [if_pos hfirst]
    congr 1
    refine List.countP_congr fun i _ => ?_
    show decide _ = true ↔ decide _ = true
    rw [decide_eq_true_iff, decide_eq_true_iff, Nat.succ_eq_add_one, hlength]
    omega
  · rename_i hlt
    refine List.countP_eq_zero.mpr fun i _ => ?_
    rw [decide_eq_true_iff, hlength]
    omega

/-- The finished records lie within the bytes. -/
theorem length_finished (records : List (List α)) (bytes : Nat) :
    (records.take (finished records bytes)).flatten.length ≤ bytes := by
  induction records generalizing bytes with
  | nil => exact Nat.zero_le _
  | cons record records ih =>
      rw [finished_cons]
      split
      · rename_i hle
        have h := ih (bytes - record.length)
        rw [List.take_succ_cons, List.flatten_cons, List.length_append]
        omega
      · exact Nat.zero_le _

/-- The oldest record is finished and the rest advanced, or the oldest is taken further. -/
theorem advance_cons (capacity sent : Nat) (record : List α) (records : List (List α)) (bytes : Nat) :
    (Fifo.mk capacity (record :: records) sent).advance bytes =
      if record.length ≤ sent + bytes then
        (Fifo.mk capacity records 0).advance (sent + bytes - record.length)
      else Fifo.mk capacity (record :: records) (sent + bytes) := by
  unfold advance
  dsimp only
  rw [finished_cons]
  split
  · rw [List.drop_succ_cons, List.take_succ_cons, List.flatten_cons, List.length_append,
      Nat.zero_add, Nat.sub_add_eq]
  · rfl

/-- The bytes that are taken are the first ones that were to be taken. -/
theorem advance_unsent (fifo : Fifo α) (bytes : Nat) :
    fifo.unsent.take bytes ++ (fifo.advance bytes).unsent = fifo.unsent := by
  have hlength := length_finished fifo.records (fifo.sent + bytes)
  have hsplit : fifo.records.flatten =
      (fifo.records.take (finished fifo.records (fifo.sent + bytes))).flatten ++
        (fifo.records.drop (finished fifo.records (fifo.sent + bytes))).flatten := by
    rw [← List.flatten_append, List.take_append_drop]
  have hrest : (fifo.advance bytes).unsent = fifo.records.flatten.drop (fifo.sent + bytes) := by
    conv_rhs => rw [hsplit]
    rw [List.drop_append, List.drop_of_length_le hlength, List.nil_append]
    rfl
  rw [hrest, unsent, ← List.drop_drop, List.take_append_drop]

theorem push_unsent (h : fifo.Open) (hsent : fifo.records = [] → fifo.sent = 0)
    (hroom : fifo.records.length < fifo.capacity) (record : List α) :
    (fifo.push record).unsent = fifo.unsent ++ record := by
  rw [push, if_pos hroom, unsent, unsent, List.flatten_append, List.flatten_singleton]
  cases hrecords : fifo.records with
  | nil =>
      rw [hsent hrecords]
      rfl
  | cons first rest =>
      have hlt := h.2 first (by rw [hrecords]; rfl)
      have hle : fifo.sent ≤ (first :: rest).flatten.length := by
        rw [List.flatten_cons, List.length_append]
        omega
      exact List.drop_append_of_le_length hle

theorem drop_unsent (h : fifo.Open) :
    (fifo.records.head?.getD []).drop fifo.sent ++ fifo.drop.unsent = fifo.unsent := by
  unfold unsent drop
  cases hrecords : fifo.records with
  | nil => simp
  | cons first rest =>
      have hlt := h.2 first (by rw [hrecords]; rfl)
      rw [List.flatten_cons, List.drop_append_of_le_length (by omega)]
      rfl

end Fifo

end Lib
