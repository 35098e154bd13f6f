import Mathlib.Algebra.BigOperators.Group.List.Basic
import Mathlib.Logic.Function.Basic
import Mathlib.Tactic.SplitIfs
import Zhtps.Lib.Memory

/-!
The two budgets of HTTP/2 memory: that of a session, after `Memory` of `src/http2.zig`, within that
of its worker, after `src/server/Http2Allocator.zig`.

A session hands pointers to C, which gives them back without their sizes; the size of a block stands
in front of it in memory.  Subtractions that would go below zero trap.
-/

namespace Zhtps.Budget

open Lib

inductive Trap
  | overflow
  deriving DecidableEq, Repr

abbrev Checked := Except Trap

def sub (a b : Nat) : Checked Nat := if b ≤ a then .ok (a - b) else .error .overflow

theorem sub_of_le {a b : Nat} (h : b ≤ a) : sub a b = .ok (a - b) := if_pos h

/-! ### Sizes in memory -/

/-- The lowest bytes of a number, the least significant one first. -/
def encode : Nat → Nat → List UInt8
  | 0, _ => []
  | bytes + 1, n => UInt8.ofNat n :: encode bytes (n / 256)

def decode : List UInt8 → Nat
  | [] => 0
  | byte :: bytes => byte.toNat + 256 * decode bytes

@[simp] theorem length_encode (bytes n : Nat) : (encode bytes n).length = bytes := by
  induction bytes generalizing n with
  | zero => rfl
  | succ bytes ih => rw [encode, List.length_cons, ih]

theorem decode_encode {bytes n : Nat} (h : n < 256 ^ bytes) : decode (encode bytes n) = n := by
  induction bytes generalizing n with
  | zero =>
      rw [Nat.pow_zero] at h
      rw [encode, decode]
      omega
  | succ bytes ih =>
      have hdiv : n / 256 < 256 ^ bytes := by
        rw [Nat.pow_succ'] at h
        exact Nat.div_lt_of_lt_mul h
      have hbyte : (UInt8.ofNat n).toNat = n % 256 := UInt8.toNat_ofNat'
      rw [encode, decode, ih hdiv, hbyte]
      omega

/-- `@sizeOf(Prefix)`. -/
def prefixSize : Nat := 16

/-- The bytes of a `Prefix`: the length of the block, and padding. -/
def prefixBytes (len : Nat) : List UInt8 := encode 8 len ++ encode 8 0

@[simp] theorem length_prefixBytes (len : Nat) : (prefixBytes len).length = prefixSize := by
  simp [prefixBytes, prefixSize]

/-! ### The worker's budget -/

structure Account where
  limit : Nat
  used : Nat := 0
  deriving DecidableEq, Repr

/-- The memory behind the allocator of a worker with the blocks it holds, the budget of the worker
and those of its sessions.  The code has no use for the owners of the blocks. -/
structure World where
  backing : Memory UInt8
  owner : Slice → Option Nat := fun _ => none
  allocator : Account
  sessions : Nat → Account

namespace World

/-- `Http2Allocator.alloc`; the backing allocator gives a place or refuses. -/
def alloc (world : World) (id : Option Nat) (len : Nat) (choose : Memory.Allocator UInt8) :
    Checked (World × Option Nat) := do
  let left ← sub world.allocator.limit world.allocator.used
  if left < len then return (world, none)
  else match choose world.backing len with
    | none => return (world, none)
    | some place => return ({ world with
        backing := world.backing.alloc len place
        owner := Function.update world.owner ⟨place.val, len⟩ id
        allocator := { world.allocator with used := world.allocator.used + len } }, some place.val)

/-- `Http2Allocator.free`. -/
def free (world : World) (block : Slice) : Checked World := do
  let used ← sub world.allocator.used block.len
  return { world with
    backing := world.backing.free block
    allocator := { world.allocator with used } }

/-! ### The budget of a session -/

def setUsed (world : World) (id used : Nat) : World :=
  { world with
    sessions := Function.update world.sessions id { world.sessions id with used } }

/-- The block behind a pointer that was handed out, by the size in front of it. -/
def allocation (world : World) (pointer : Nat) : Checked Slice := do
  let ptr ← sub pointer prefixSize
  return ⟨ptr, decode (world.backing.read ⟨ptr, 8⟩)⟩

/-- The size of a new block is written in front of it, and charged. -/
def charge (world : World) (id ptr len : Nat) : World :=
  { world with backing := world.backing.write ptr (prefixBytes len) }.setUsed id
    ((world.sessions id).used + len)

def allocate (world : World) (id size : Nat) (choose : Memory.Allocator UInt8) :
    Checked (World × Option Nat) :=
  if 2 ^ 64 ≤ size + prefixSize then .ok (world, none)
  else do
    let left ← sub (world.sessions id).limit (world.sessions id).used
    if left < size + prefixSize then return (world, none)
    else match ← world.alloc (some id) (size + prefixSize) choose with
      | (world, none) => return (world, none)
      | (world, some ptr) =>
          return (world.charge id ptr (size + prefixSize), some (ptr + prefixSize))

def release (world : World) (id : Nat) : Option Nat → Checked World
  | none => .ok world
  | some pointer => do
      let block ← world.allocation pointer
      let used ← sub (world.sessions id).used block.len
      (world.setUsed id used).free block

/-- Bytes written to memory. -/
def stored (world : World) (ptr : Nat) (bytes : List UInt8) : World :=
  { world with backing := world.backing.write ptr bytes }

def zeroed (world : World) (id count size : Nat) (choose : Memory.Allocator UInt8) :
    Checked (World × Option Nat) :=
  if 2 ^ 64 ≤ count * size then .ok (world, none)
  else do
    match ← world.allocate id (count * size) choose with
    | (world, none) => return (world, none)
    | (world, some pointer) =>
        return (world.stored pointer (List.replicate (count * size) 0), some pointer)

def resize (world : World) (id : Nat) (pointer : Option Nat) (size : Nat)
    (choose : Memory.Allocator UInt8) : Checked (World × Option Nat) :=
  match pointer with
  | none => world.allocate id size choose
  | some pointer => do
      let old ← world.allocation pointer
      match ← world.allocate id size choose with
      | (world, none) => return (world, none)
      | (world, some next) => do
          let payload ← sub old.len prefixSize
          let copied := world.backing.read ⟨old.ptr + prefixSize, min size payload⟩
          let world ← (world.stored next copied).release id pointer
          return (world, some next)

/-! ### The invariant -/

def total (blocks : List Slice) : Nat := (blocks.map Slice.len).sum

/-- The blocks of a session. -/
def owned (world : World) (id : Nat) : List Slice :=
  world.backing.blocks.filter fun block => world.owner block = some id

/-- Both budgets are charged with what lives, and the sizes of the blocks that were handed out stand
in front of them. -/
structure Inv (world : World) : Prop where
  total : world.allocator.used = total world.backing.blocks
  within : world.allocator.used ≤ world.allocator.limit
  owned : ∀ id, (world.sessions id).used = World.total (world.owned id)
  owned_within : ∀ id, (world.sessions id).used ≤ (world.sessions id).limit
  positive : ∀ block ∈ world.backing.blocks, 0 < block.len
  sized : ∀ block ∈ world.backing.blocks, ∀ id, world.owner block = some id →
    prefixSize ≤ block.len ∧ block.len < 2 ^ 64 ∧
      world.backing.read ⟨block.ptr, prefixSize⟩ = prefixBytes block.len

/-- A pointer that a session handed out, and the size that was asked for. -/
def Live (world : World) (id pointer size : Nat) : Prop :=
  ∃ block ∈ world.backing.blocks, world.owner block = some id ∧
    pointer = block.ptr + prefixSize ∧ block.len = size + prefixSize

theorem total_cons (block : Slice) (blocks : List Slice) :
    total (block :: blocks) = block.len + total blocks := by
  simp [total]

theorem total_erase {block : Slice} {blocks : List Slice} (h : block ∈ blocks) :
    total blocks = block.len + total (blocks.erase block) := by
  rw [← total_cons]
  exact ((List.perm_cons_erase h).map Slice.len).sum_eq

theorem len_le_total {block : Slice} {blocks : List Slice} (h : block ∈ blocks) :
    block.len ≤ total blocks := by
  rw [total_erase h]
  exact Nat.le_add_right _ _

/-- A place for a new block is none of the blocks. -/
theorem not_mem_of_place {backing : Memory UInt8} {len : Nat} (hpos : 0 < len)
    (place : backing.Place len) : ⟨place.val, len⟩ ∉ backing.blocks := by
  intro hmem
  rcases place.property _ hmem with hbefore | hbehind
  · dsimp only at hbefore
    omega
  · dsimp only at hbehind
    omega

/-- The world after a successful allocation for a session. -/
def granted (world : World) (id size : Nat) (place : world.backing.Place (size + prefixSize)) :
    World where
  backing := (world.backing.alloc _ place).write place.val (prefixBytes (size + prefixSize))
  owner := Function.update world.owner ⟨place.val, size + prefixSize⟩ (some id)
  allocator := { world.allocator with used := world.allocator.used + (size + prefixSize) }
  sessions := Function.update world.sessions id
    { world.sessions id with used := (world.sessions id).used + (size + prefixSize) }

variable {world : World} {id : Nat}

/-- What the allocator of a worker does where its budget was kept. -/
theorem alloc_spec (h : Inv world) (id : Option Nat) (len : Nat) (choose : Memory.Allocator UInt8) :
    world.alloc id len choose = .ok (world, none) ∨
    ∃ place : world.backing.Place len, world.allocator.used + len ≤ world.allocator.limit ∧
      world.alloc id len choose = .ok ({ world with
        backing := world.backing.alloc len place
        owner := Function.update world.owner ⟨place.val, len⟩ id
        allocator := { world.allocator with used := world.allocator.used + len } },
        some place.val) := by
  have hwithin := h.within
  unfold alloc
  rw [sub_of_le hwithin]
  simp only [bind, Except.bind]
  split_ifs with hfull
  · exact Or.inl rfl
  · cases choose world.backing len with
    | none => exact Or.inl rfl
    | some place => exact Or.inr ⟨place, by omega, rfl⟩

theorem allocate_spec (h : Inv world) (id size : Nat) (choose : Memory.Allocator UInt8) :
    world.allocate id size choose = .ok (world, none) ∨
    ∃ place : world.backing.Place (size + prefixSize), size + prefixSize < 2 ^ 64 ∧
      (world.sessions id).used + (size + prefixSize) ≤ (world.sessions id).limit ∧
      world.allocator.used + (size + prefixSize) ≤ world.allocator.limit ∧
      world.allocate id size choose =
        .ok (world.granted id size place, some (place.val + prefixSize)) := by
  have hwithin := h.owned_within id
  unfold allocate
  split_ifs with hword
  · exact Or.inl rfl
  · rw [sub_of_le hwithin]
    simp only [bind, Except.bind]
    split_ifs with hfull
    · exact Or.inl rfl
    · rcases alloc_spec h (some id) (size + prefixSize) choose with hnone | ⟨place, hroom, hsome⟩
      · rw [hnone]
        exact Or.inl rfl
      · rw [hsome]
        exact Or.inr ⟨place, by omega, by omega, hroom, rfl⟩

/-- Cells apart from a block that a write leaves alone. -/
theorem read_block_write {backing : Memory UInt8} {block : Slice} {ptr : Nat} {bytes : List UInt8}
    (h : block.Apart ⟨ptr, bytes.length⟩) {s : Slice} (hs : s.Inside block) :
    (backing.write ptr bytes).read s = backing.read s := by
  refine Memory.read_write_apart backing ?_
  obtain ⟨hfirst, hlast⟩ := hs
  rcases h with hbefore | hbehind
  · exact Or.inr (Or.inl (by dsimp only at hbefore ⊢; omega))
  · exact Or.inr (Or.inr (by dsimp only at hbehind ⊢; omega))

/-- What a session owns besides a block that it was just granted. -/
theorem owned_granted (size : Nat) (place : world.backing.Place (size + prefixSize)) (other : Nat) :
    (world.granted id size place).owned other =
      if other = id then ⟨place.val, size + prefixSize⟩ :: world.owned other
      else world.owned other := by
  have hnew := not_mem_of_place (Nat.add_pos_right size (by decide)) place
  have hold : world.backing.blocks.filter (fun block =>
      Function.update world.owner ⟨place.val, size + prefixSize⟩ (some id) block = some other) =
      world.owned other := by
    refine List.filter_congr fun block hblock => ?_
    have hne : block ≠ ⟨place.val, size + prefixSize⟩ := by
      rintro rfl
      exact hnew hblock
    rw [Function.update_of_ne hne]
  have hblocks : (world.granted id size place).backing.blocks =
      ⟨place.val, size + prefixSize⟩ :: world.backing.blocks := rfl
  rw [owned, hblocks, List.filter_cons]
  change (if decide (Function.update world.owner ⟨place.val, size + prefixSize⟩ (some id)
    ⟨place.val, size + prefixSize⟩ = some other) = true then _ :: _ else _) = _
  rw [Function.update_self]
  change (if _ then _ :: world.backing.blocks.filter (fun block =>
      Function.update world.owner ⟨place.val, size + prefixSize⟩ (some id) block = some other)
    else world.backing.blocks.filter (fun block =>
      Function.update world.owner ⟨place.val, size + prefixSize⟩ (some id) block = some other)) = _
  rw [hold]
  by_cases heq : other = id
  · simp [heq]
  · have hne : id ≠ other := Ne.symm heq
    simp [heq, hne]

theorem Inv.granted (h : Inv world) {size : Nat} (place : world.backing.Place (size + prefixSize))
    (hword : size + prefixSize < 2 ^ 64)
    (hsession : (world.sessions id).used + (size + prefixSize) ≤ (world.sessions id).limit)
    (hworker : world.allocator.used + (size + prefixSize) ≤ world.allocator.limit) :
    Inv (world.granted id size place) := by
  have hnew := not_mem_of_place (Nat.add_pos_right size (by decide)) place
  have hblocks : (world.granted id size place).backing.blocks =
      ⟨place.val, size + prefixSize⟩ :: world.backing.blocks := rfl
  refine ⟨?_, hworker, ?_, ?_, ?_, ?_⟩
  · rw [hblocks, total_cons, ← h.total]
    exact Nat.add_comm _ _
  · intro other
    rw [owned_granted]
    by_cases heq : other = id
    · subst heq
      rw [if_pos rfl, total_cons, ← h.owned other]
      simp [World.granted, Nat.add_comm]
    · rw [if_neg heq, ← h.owned other]
      simp [World.granted, heq]
  · intro other
    by_cases heq : other = id
    · subst heq
      simpa [World.granted] using hsession
    · simpa [World.granted, heq] using h.owned_within other
  · rw [hblocks]
    exact List.forall_mem_cons.mpr ⟨Nat.add_pos_right size (by decide), h.positive⟩
  · rw [hblocks]
    refine List.forall_mem_cons.mpr ⟨fun _ _ => ⟨Nat.le_add_left _ _, hword, ?_⟩, ?_⟩
    · have hself := Memory.read_write_self (world.backing.alloc _ place) place.val
        (prefixBytes (size + prefixSize))
      rw [length_prefixBytes] at hself
      exact hself
    · intro block hblock other howner
      have hne : block ≠ ⟨place.val, size + prefixSize⟩ := fun heq => hnew (heq ▸ hblock)
      have howner' : world.owner block = some other := by
        simpa [World.granted, Function.update_of_ne hne] using howner
      obtain ⟨hsize, hlen, hread⟩ := h.sized block hblock other howner'
      refine ⟨hsize, hlen, ?_⟩
      have hapart : block.Apart ⟨place.val, (prefixBytes (size + prefixSize)).length⟩ := by
        rw [length_prefixBytes]
        rcases place.property block hblock with hbefore | hbehind
        · exact Or.inr (by dsimp only at hbefore ⊢; omega)
        · exact Or.inl hbehind
      have hinside : Slice.Inside ⟨block.ptr, prefixSize⟩ block := by
        refine ⟨Nat.le_refl _, ?_⟩
        dsimp only
        omega
      exact (@read_block_write (world.backing.alloc _ place) block _ _ hapart _ hinside).trans hread

/-- The size in front of a block finds the block again. -/
theorem allocation_spec (h : Inv world) {block : Slice} (hblock : block ∈ world.backing.blocks)
    (howner : world.owner block = some id) :
    world.allocation (block.ptr + prefixSize) = .ok block := by
  obtain ⟨-, hlen, hread⟩ := h.sized block hblock id howner
  have hfront : world.backing.read ⟨block.ptr, 8⟩ = encode 8 block.len := by
    rw [show prefixSize = 8 + 8 from rfl, Memory.read_append, prefixBytes] at hread
    exact (List.append_inj hread (by simp)).1
  unfold allocation
  rw [sub_of_le (Nat.le_add_left _ _), Nat.add_sub_cancel]
  simp only [bind, Except.bind, hfront]
  rw [decode_encode (by omega)]
  rfl

/-- The world after a block of a session was freed. -/
def released (world : World) (id : Nat) (block : Slice) : World where
  backing := world.backing.free block
  owner := world.owner
  allocator := { world.allocator with used := world.allocator.used - block.len }
  sessions := Function.update world.sessions id
    { world.sessions id with used := (world.sessions id).used - block.len }

theorem mem_owned {block : Slice} : block ∈ world.owned id ↔
    block ∈ world.backing.blocks ∧ world.owner block = some id := by
  simp [owned]

theorem release_spec (h : Inv world) {block : Slice} (hblock : block ∈ world.backing.blocks)
    (howner : world.owner block = some id) :
    world.release id (some (block.ptr + prefixSize)) = .ok (world.released id block) := by
  have hsession : block.len ≤ (world.sessions id).used := by
    rw [h.owned]
    exact len_le_total (mem_owned.mpr ⟨hblock, howner⟩)
  have hworker : block.len ≤ world.allocator.used := by
    rw [h.total]
    exact len_le_total hblock
  simp only [release, allocation_spec h hblock howner, bind, Except.bind]
  rw [sub_of_le hsession]
  dsimp only
  change (sub world.allocator.used block.len >>= _) = _
  rw [sub_of_le hworker]
  rfl

theorem blocks_free {backing : Memory UInt8} {block : Slice} (hpos : 0 < block.len) :
    (backing.free block).blocks = backing.blocks.erase block := by
  rw [Memory.free, if_neg (Nat.ne_of_gt hpos)]

/-- What the owners have besides a block of one of them. -/
theorem total_owned {block : Slice} (hblock : block ∈ world.backing.blocks) (other : Nat) :
    total (world.owned other) = (if world.owner block = some other then block.len else 0) +
      total ((world.backing.blocks.erase block).filter fun block => world.owner block = some other) := by
  have hperm := (List.perm_cons_erase hblock).filter fun block => world.owner block = some other
  have hsum : total (world.owned other) = _ := (hperm.map Slice.len).sum_eq
  rw [hsum, List.filter_cons]
  by_cases howner : world.owner block = some other
  · rw [if_pos (by simpa using howner), if_pos howner]
    exact total_cons _ _
  · rw [if_neg (by simpa using howner), if_neg howner, Nat.zero_add]
    rfl

theorem Inv.released (h : Inv world) {block : Slice} (hblock : block ∈ world.backing.blocks)
    (howner : world.owner block = some id) : Inv (world.released id block) := by
  have hpos := h.positive block hblock
  have hblocks : (world.released id block).backing.blocks = world.backing.blocks.erase block :=
    blocks_free hpos
  have hmem {other : Slice} (hother : other ∈ world.backing.blocks.erase block) :
      other ∈ world.backing.blocks := List.mem_of_mem_erase hother
  have hwithin := h.within
  refine ⟨?_, ?_, ?_, ?_, ?_, ?_⟩
  · have htotal := h.total
    rw [total_erase hblock] at htotal
    rw [hblocks]
    change world.allocator.used - block.len = _
    omega
  · change world.allocator.used - block.len ≤ world.allocator.limit
    omega
  · intro other
    have howned := h.owned other
    rw [total_owned hblock] at howned
    have howned' : World.total ((world.released id block).owned other) = World.total
        ((world.backing.blocks.erase block).filter fun block => world.owner block = some other) := by
      rw [World.owned, hblocks]
      rfl
    rw [howned']
    by_cases heq : other = id
    · subst heq
      rw [if_pos howner] at howned
      simp only [World.released, Function.update_self]
      omega
    · have hne : ¬world.owner block = some other := by
        rw [howner, Option.some.injEq]
        exact Ne.symm heq
      rw [if_neg hne, Nat.zero_add] at howned
      simpa [World.released, heq] using howned
  · intro other
    have hother := h.owned_within other
    by_cases heq : other = id
    · subst heq
      simp only [World.released, Function.update_self]
      omega
    · simpa [World.released, heq] using hother
  · rw [hblocks]
    exact fun other hother => h.positive other (hmem hother)
  · rw [hblocks]
    intro other hother who hwho
    obtain ⟨hsize, hlen, hread⟩ := h.sized other (hmem hother) who hwho
    exact ⟨hsize, hlen, (Memory.read_free ..).trans hread⟩

/-- Cells of a block that its owner may write: those behind the size. -/
def Writable (world : World) (s : Slice) : Prop :=
  ∃ block ∈ world.backing.blocks, s.Inside block ∧
    ∀ id, world.owner block = some id → block.ptr + prefixSize ≤ s.ptr

theorem Inv.stored (h : Inv world) {ptr : Nat} {bytes : List UInt8}
    (hwritable : world.Writable ⟨ptr, bytes.length⟩) : Inv (world.stored ptr bytes) := by
  obtain ⟨block, hblock, hinside, hbehind⟩ := hwritable
  refine ⟨h.total, h.within, h.owned, h.owned_within, h.positive, ?_⟩
  intro other hother id howner
  obtain ⟨hsize, hlen, hread⟩ := h.sized other hother id howner
  refine ⟨hsize, hlen, Eq.trans (Memory.read_write_apart world.backing ?_) hread⟩
  by_cases heq : other = block
  · subst heq
    exact Or.inr (Or.inl (hbehind id howner))
  · have hapart : other.Apart block := world.backing.apart.forall hother hblock heq
    obtain ⟨hfirst, hlast⟩ := hinside
    rcases hapart with hbefore | hbefore
    · exact Or.inr (Or.inl (by dsimp only at *; omega))
    · exact Or.inr (Or.inr (by dsimp only at *; omega))

/-! ### What the calls do -/

theorem Live.granted {size : Nat} (place : world.backing.Place (size + prefixSize)) :
    Live (world.granted id size place) id (place.val + prefixSize) size :=
  ⟨⟨place.val, size + prefixSize⟩, List.mem_cons_self, Function.update_self .., rfl, rfl⟩

/-- A pointer stands for one block. -/
theorem Live.unique (h : Inv world) {pointer size size' : Nat} (hlive : Live world id pointer size)
    (hlive' : Live world id pointer size') : size = size' := by
  obtain ⟨block, hblock, -, rfl, hlen⟩ := hlive
  obtain ⟨block', hblock', -, hptr, hlen'⟩ := hlive'
  have heq : block = block' := by
    by_contra hne
    have hapart : block.Apart block' := world.backing.apart.forall hblock hblock' hne
    have hpos := h.positive block hblock
    have hpos' := h.positive block' hblock'
    rcases hapart with hbefore | hbefore
    · omega
    · omega
  subst heq
  omega

/-- The bytes behind a pointer may be written. -/
theorem Live.writable {pointer size : Nat} (h : Live world id pointer size) {n : Nat} (hn : n ≤ size) :
    world.Writable ⟨pointer, n⟩ := by
  obtain ⟨block, hblock, howner, rfl, hlen⟩ := h
  refine ⟨block, hblock, ⟨Nat.le_add_right _ _, ?_⟩, fun _ _ => Nat.le_refl _⟩
  dsimp only
  omega

/-- What was not written over reads as before. -/
theorem read_granted {size : Nat} (place : world.backing.Place (size + prefixSize)) {block s : Slice}
    (hblock : block ∈ world.backing.blocks) (hs : s.Inside block) :
    (world.granted id size place).backing.read s = world.backing.read s := by
  have hapart : block.Apart ⟨place.val, (prefixBytes (size + prefixSize)).length⟩ := by
    rw [length_prefixBytes]
    rcases place.property block hblock with hbefore | hbehind
    · exact Or.inr (by dsimp only at hbefore ⊢; omega)
    · exact Or.inl hbehind
  exact @read_block_write (world.backing.alloc _ place) block _ _ hapart s hs

theorem zeroed_spec (h : Inv world) (id count size : Nat) (choose : Memory.Allocator UInt8) :
    world.zeroed id count size choose = .ok (world, none) ∨
    ∃ next pointer, world.zeroed id count size choose = .ok (next, some pointer) ∧ Inv next ∧
      next.Live id pointer (count * size) ∧
      next.backing.read ⟨pointer, count * size⟩ = List.replicate (count * size) 0 := by
  unfold zeroed
  split_ifs with hword
  · exact Or.inl rfl
  · rcases allocate_spec h id (count * size) choose with
      hnone | ⟨place, hfits, hsession, hworker, hsome⟩
    · rw [hnone]
      exact Or.inl rfl
    · rw [hsome]
      have hlive := @Live.granted world id _ place
      have hlength : (List.replicate (count * size) (0 : UInt8)).length = count * size :=
        List.length_replicate
      refine Or.inr ⟨_, _, rfl, (h.granted place hfits hsession hworker).stored ?_, hlive, ?_⟩
      · rw [hlength]
        exact hlive.writable (Nat.le_refl _)
      · have hself := Memory.read_write_self (world.granted id (count * size) place).backing
          (place.val + prefixSize) (List.replicate (count * size) 0)
        rw [hlength] at hself
        exact hself

/-- A block is exchanged for one of another size; what both have room for moves. -/
theorem resize_spec (h : Inv world) {pointer old : Nat} (hold : world.Live id pointer old)
    (size : Nat) (choose : Memory.Allocator UInt8) :
    world.resize id (some pointer) size choose = .ok (world, none) ∨
    ∃ next moved, world.resize id (some pointer) size choose = .ok (next, some moved) ∧ Inv next ∧
      next.Live id moved size ∧ next.backing.read ⟨moved, min size old⟩ =
        world.backing.read ⟨pointer, min size old⟩ := by
  obtain ⟨block, hblock, howner, rfl, hlen⟩ := hold
  simp only [resize, allocation_spec h hblock howner, bind, Except.bind]
  rcases allocate_spec h id size choose with hnone | ⟨place, hfits, hsession, hworker, hsome⟩
  · rw [hnone]
    exact Or.inl rfl
  · have hpayload : block.len - prefixSize = old := by omega
    have hinv := h.granted place hfits hsession hworker
    have hlive := @Live.granted world id _ place
    have hlength (s : Slice) : ((world.granted id size place).backing.read s).length = s.len :=
      Memory.length_read _ s
    rw [hsome]
    dsimp only
    rw [sub_of_le (by omega), hpayload]
    dsimp only
    -- The copy is made within the new block, and the old one is freed with its size untouched.
    have hstored : Inv ((world.granted id size place).stored (place.val + prefixSize)
        ((world.granted id size place).backing.read ⟨block.ptr + prefixSize, min size old⟩)) :=
      hinv.stored (hlive.writable (by rw [hlength]; exact Nat.min_le_left _ _))
    have hne : block ≠ ⟨place.val, size + prefixSize⟩ := by
      rintro rfl
      exact not_mem_of_place (Nat.add_pos_right size (by decide)) place hblock
    have hmem : block ∈ (world.granted id size place).backing.blocks :=
      List.mem_cons_of_mem _ hblock
    have howner' : (world.granted id size place).owner block = some id :=
      (Function.update_of_ne hne ..).trans howner
    rw [release_spec hstored hmem howner']
    refine Or.inr ⟨_, _, rfl, hstored.released hmem howner', ?_, ?_⟩
    · refine ⟨⟨place.val, size + prefixSize⟩, ?_, Function.update_self .., rfl, rfl⟩
      change _ ∈ (Memory.free _ block).blocks
      rw [blocks_free (h.positive block hblock)]
      exact (List.mem_erase_of_ne (Ne.symm hne)).mpr List.mem_cons_self
    · have hself := Memory.read_write_self (world.granted id size place).backing
        (place.val + prefixSize)
        ((world.granted id size place).backing.read ⟨block.ptr + prefixSize, min size old⟩)
      rw [hlength] at hself
      refine (Memory.read_free ..).trans (hself.trans (read_granted place hblock ?_))
      refine ⟨Nat.le_add_right _ _, ?_⟩
      dsimp only
      have := Nat.min_le_right size old
      omega

/-! ### Objects of the worker itself -/

theorem Inv.created (h : Inv world) {len : Nat} (hpos : 0 < len) (place : world.backing.Place len)
    (hroom : world.allocator.used + len ≤ world.allocator.limit) :
    Inv { world with
      backing := world.backing.alloc len place
      owner := Function.update world.owner ⟨place.val, len⟩ none
      allocator := { world.allocator with used := world.allocator.used + len } } := by
  have hnew := not_mem_of_place hpos place
  have hne {block : Slice} (hblock : block ∈ world.backing.blocks) : block ≠ ⟨place.val, len⟩ := by
    rintro rfl
    exact hnew hblock
  refine ⟨?_, hroom, fun id => ?_, h.owned_within, ?_, ?_⟩
  · change world.allocator.used + len = World.total (⟨place.val, len⟩ :: world.backing.blocks)
    rw [total_cons, ← h.total]
    exact Nat.add_comm _ _
  · refine (h.owned id).trans (congrArg World.total ?_)
    change world.owned id = (⟨place.val, len⟩ :: world.backing.blocks).filter (fun block =>
      Function.update world.owner ⟨place.val, len⟩ none block = some id)
    rw [List.filter_cons_of_neg (by simp)]
    refine (List.filter_congr fun block hblock => ?_).symm
    rw [Function.update_of_ne (hne hblock)]
  · exact List.forall_mem_cons.mpr ⟨hpos, h.positive⟩
  · refine List.forall_mem_cons.mpr ⟨fun id howner => ?_, fun block hblock id howner => ?_⟩
    · change Function.update world.owner ⟨place.val, len⟩ none ⟨place.val, len⟩ = some id at howner
      rw [Function.update_self] at howner
      cases howner
    · change Function.update world.owner ⟨place.val, len⟩ none block = some id at howner
      rw [Function.update_of_ne (hne hblock)] at howner
      exact h.sized block hblock id howner

/-- The world after an object of the worker was freed. -/
def destroyed (world : World) (block : Slice) : World :=
  { world with
    backing := world.backing.free block
    allocator := { world.allocator with used := world.allocator.used - block.len } }

theorem free_spec (h : Inv world) {block : Slice} (hblock : block ∈ world.backing.blocks) :
    world.free block = .ok (world.destroyed block) := by
  have hworker : block.len ≤ world.allocator.used := by
    rw [h.total]
    exact len_le_total hblock
  unfold free
  rw [sub_of_le hworker]
  rfl

theorem Inv.destroyed (h : Inv world) {block : Slice} (hblock : block ∈ world.backing.blocks)
    (howner : world.owner block = none) : Inv (world.destroyed block) := by
  have hblocks : (world.destroyed block).backing.blocks = world.backing.blocks.erase block :=
    blocks_free (h.positive block hblock)
  have hmem {other : Slice} (hother : other ∈ world.backing.blocks.erase block) :
      other ∈ world.backing.blocks := List.mem_of_mem_erase hother
  have hwithin := h.within
  refine ⟨?_, ?_, fun id => ?_, h.owned_within, ?_, ?_⟩
  · have htotal := h.total
    rw [total_erase hblock] at htotal
    rw [hblocks]
    change world.allocator.used - block.len = _
    omega
  · change world.allocator.used - block.len ≤ world.allocator.limit
    omega
  · have howned := h.owned id
    rw [total_owned hblock, howner, if_neg nofun, Nat.zero_add] at howned
    rw [World.owned, hblocks]
    exact howned
  · rw [hblocks]
    exact fun other hother => h.positive other (hmem hother)
  · rw [hblocks]
    intro other hother id hid
    obtain ⟨hsize, hlen, hread⟩ := h.sized other (hmem hother) id hid
    exact ⟨hsize, hlen, (Memory.read_free ..).trans hread⟩

end World

/-! ### Runs -/

/-- What the sessions of a worker and the worker itself ask for, with the answers of the backing
allocator, and the writes to the blocks they hold. -/
inductive Op
  | malloc (id size : Nat) (choose : Memory.Allocator UInt8)
  | calloc (id count size : Nat) (choose : Memory.Allocator UInt8)
  | realloc (id : Nat) (pointer : Option Nat) (size : Nat) (choose : Memory.Allocator UInt8)
  | free (id : Nat) (pointer : Option Nat)
  | create (len : Nat) (choose : Memory.Allocator UInt8)
  | destroy (block : Slice)
  | store (ptr : Nat) (bytes : List UInt8)

def step (world : World) : Op → Checked (World × Option Nat)
  | .malloc id size choose => world.allocate id size choose
  | .calloc id count size choose => world.zeroed id count size choose
  | .realloc id pointer size choose => world.resize id pointer size choose
  | .free id pointer => do return (← world.release id pointer, none)
  | .create len choose => world.alloc none len choose
  | .destroy block => do return (← world.free block, none)
  | .store ptr bytes => .ok (world.stored ptr bytes, none)

/-- Only pointers that live are given back, and only what is held is written. -/
def Op.Allowed (world : World) : Op → Prop
  | .malloc _ _ _ | .calloc _ _ _ _ => True
  | .realloc id pointer _ _ | .free id pointer =>
      ∀ held ∈ pointer, ∃ size, world.Live id held size
  | .create len _ => 0 < len
  | .destroy block => block ∈ world.backing.blocks ∧ world.owner block = none
  | .store ptr bytes => world.Writable ⟨ptr, bytes.length⟩

/-- What a call leaves behind besides the budgets. -/
def Op.Effect (world next : World) : Op → Option Nat → Prop
  | .malloc _ _ _, none | .calloc _ _ _ _, none | .realloc _ _ _ _, none => next = world
  | .malloc id size _, some pointer => next.Live id pointer size
  | .calloc id count size _, some pointer => next.Live id pointer (count * size) ∧
      next.backing.read ⟨pointer, count * size⟩ = List.replicate (count * size) 0
  | .realloc id held size _, some pointer => next.Live id pointer size ∧
      ∀ old ∈ held, ∀ oldSize, world.Live id old oldSize →
        next.backing.read ⟨pointer, min size oldSize⟩ =
          world.backing.read ⟨old, min size oldSize⟩
  | _, _ => True

/-- An allowed call succeeds or is refused without effect, and both budgets stay true. -/
theorem step_spec {world : World} (h : world.Inv) {op : Op} (hop : op.Allowed world) :
    ∃ next result, step world op = .ok (next, result) ∧ next.Inv ∧ op.Effect world next result := by
  have hmalloc (id size : Nat) (choose : Memory.Allocator UInt8) :
      world.allocate id size choose = .ok (world, none) ∨ ∃ next pointer,
        world.allocate id size choose = .ok (next, some pointer) ∧ next.Inv ∧
        next.Live id pointer size := by
    rcases World.allocate_spec h id size choose with
      hnone | ⟨place, hfits, hsession, hworker, hsome⟩
    · exact Or.inl hnone
    · exact Or.inr ⟨_, _, hsome, h.granted place hfits hsession hworker, World.Live.granted place⟩
  cases op with
  | malloc id size choose =>
      rcases hmalloc id size choose with hnone | ⟨next, pointer, hsome, hnext, hlive⟩
      · exact ⟨world, none, hnone, h, rfl⟩
      · exact ⟨next, some pointer, hsome, hnext, hlive⟩
  | calloc id count size choose =>
      rcases World.zeroed_spec h id count size choose with
        hnone | ⟨next, pointer, hsome, hnext, hlive, hread⟩
      · exact ⟨world, none, hnone, h, rfl⟩
      · exact ⟨next, some pointer, hsome, hnext, hlive, hread⟩
  | realloc id pointer size choose =>
      cases pointer with
      | none =>
          rcases hmalloc id size choose with hnone | ⟨next, pointer, hsome, hnext, hlive⟩
          · exact ⟨world, none, hnone, h, rfl⟩
          · exact ⟨next, some pointer, hsome, hnext, hlive, nofun⟩
      | some held =>
          obtain ⟨old, hold⟩ := hop held rfl
          rcases World.resize_spec h hold size choose with
            hnone | ⟨next, moved, hsome, hnext, hlive, hread⟩
          · exact ⟨world, none, hnone, h, rfl⟩
          · refine ⟨next, some moved, hsome, hnext, hlive, ?_⟩
            rintro other hother oldSize hsize
            obtain rfl := Option.some.inj hother
            rw [hsize.unique h hold]
            exact hread
  | free id pointer =>
      cases pointer with
      | none => exact ⟨world, none, rfl, h, trivial⟩
      | some held =>
          obtain ⟨size, block, hblock, howner, rfl, -⟩ := hop held rfl
          refine ⟨_, none, ?_, h.released hblock howner, trivial⟩
          simp only [step, World.release_spec h hblock howner]
          rfl
  | create len choose =>
      rcases World.alloc_spec h none len choose with hnone | ⟨place, hroom, hsome⟩
      · exact ⟨world, none, hnone, h, trivial⟩
      · exact ⟨_, _, hsome, h.created hop place hroom, trivial⟩
  | destroy block =>
      refine ⟨_, none, ?_, h.destroyed hop.1 hop.2, trivial⟩
      simp only [step, World.free_spec h hop.1]
      rfl
  | store ptr bytes => exact ⟨_, none, rfl, h.stored hop, trivial⟩

/-- A worker that starts: nothing is charged. -/
structure Starts (world : World) : Prop where
  blocks : world.backing.blocks = []
  allocator : world.allocator.used = 0
  sessions : ∀ id, (world.sessions id).used = 0

theorem Starts.inv {world : World} (h : Starts world) : world.Inv := by
  have howned (id : Nat) : world.owned id = [] := by
    rw [World.owned, h.blocks, List.filter_nil]
  refine ⟨?_, ?_, fun id => ?_, fun id => ?_, ?_, ?_⟩
  · rw [h.allocator, h.blocks]
    rfl
  · rw [h.allocator]
    exact Nat.zero_le _
  · rw [h.sessions, howned]
    rfl
  · rw [h.sessions]
    exact Nat.zero_le _
  · rw [h.blocks]
    exact nofun
  · rw [h.blocks]
    exact nofun

/-- Allowed calls, one after the other. -/
inductive Run (start : World) : World → Prop
  | start : Run start start
  | step {world next : World} {op : Op} {result : Option Nat} (h : Run start world)
      (hop : op.Allowed world) (hstep : step world op = .ok (next, result)) : Run start next

theorem Run.inv {start world : World} (hstart : Starts start) (h : Run start world) : world.Inv := by
  induction h with
  | start => exact hstart.inv
  | step _ hop hstep ih =>
      obtain ⟨next, result, hdone, hnext, -⟩ := step_spec ih hop
      obtain ⟨rfl, rfl⟩ := Prod.mk.inj (Except.ok.inj (hdone.symm.trans hstep))
      exact hnext

/-- A backing allocator with room for one block. -/
def onlyBlock : Memory.Allocator UInt8 := fun backing _ =>
  if h : backing.blocks = [] then some ⟨0, by rw [h]; exact nofun⟩ else none

def smallWorld : World where
  backing := { cells := fun _ => 0, blocks := [], apart := List.Pairwise.nil }
  allocator := { limit := 100 }
  sessions _ := { limit := 50 }

def firstPlace : smallWorld.backing.Place (0 + prefixSize) := ⟨0, nofun⟩

end Zhtps.Budget
