import Mathlib

/-!
Reuse of fixed-size buffers, after `src/server/BufferPool.zig`.  A block is named by its address.
-/

namespace Zhtps

structure BufferPool where
  size : Nat := 0
  /-- The cached blocks, the last one returned first. -/
  free : List Nat := []
  cached : Nat := 0
  borrowed : Nat := 0
  deriving DecidableEq, Repr

namespace BufferPool

def cacheLimit : Nat := 64

def cacheBytes : Nat := 4 * 1024 * 1024

def largeCacheLimit : Nat := 8

/-- Transfers a cached block to the caller, if there is one. -/
def take (pool : BufferPool) : BufferPool × Option Nat :=
  match pool.free with
  | [] => (pool, none)
  | block :: rest =>
      ({ pool with
          free := rest
          cached := pool.cached - 1
          borrowed := pool.borrowed + 1 }, some block)

/-- Allocates a borrowed block, if the allocator grants one. -/
def create (granted : Bool) (address : Nat) (pool : BufferPool) : BufferPool × Option Nat :=
  if granted then ({ pool with borrowed := pool.borrowed + 1 }, some address) else (pool, none)

/-- What the callers do: a cached block is taken, and without one a block is allocated. -/
def lend (granted : Bool) (address : Nat) (pool : BufferPool) : BufferPool × Option Nat :=
  match pool.take with
  | (pool, some block) => (pool, some block)
  | (pool, none) => pool.create granted address

/-- The cache has no room for one more block. -/
def full (pool : BufferPool) : Bool :=
  pool.cached = cacheLimit ∨
    (largeCacheLimit ≤ pool.cached ∧ cacheBytes / (pool.cached + 1) < pool.size)

/-- Takes a block back; one that the cache has no room for is destroyed. -/
def put (pool : BufferPool) (block : Nat) : BufferPool :=
  if pool.full then { pool with borrowed := pool.borrowed - 1 }
  else
    { pool with
      free := block :: pool.free
      cached := pool.cached + 1
      borrowed := pool.borrowed - 1 }

/-- The counts are those of the cached blocks and of the blocks lent, and the cache is bounded: 64
blocks within 4 MiB, or eight blocks where that is more. -/
def Valid (pool : BufferPool) (lent : Nat) : Prop :=
  pool.cached = pool.free.length ∧ pool.borrowed = lent ∧ pool.cached ≤ cacheLimit ∧
    (pool.cached ≤ largeCacheLimit ∨ pool.cached * pool.size ≤ cacheBytes)

variable {pool : BufferPool} {lent : Nat}

theorem valid_empty (size : Nat) : Valid { size := size } 0 :=
  ⟨rfl, rfl, Nat.zero_le _, Or.inl (Nat.zero_le _)⟩

theorem Valid.take (h : pool.Valid lent) {block : Nat} {next : BufferPool}
    (hnext : pool.take = (next, some block)) :
    next.Valid (lent + 1) ∧ next.size = pool.size := by
  obtain ⟨hcached, hborrowed, hlimit, hbytes⟩ := h
  unfold BufferPool.take at hnext
  split at hnext
  · cases hnext
  · rename_i first rest hfree
    cases hnext
    rw [hfree, List.length_cons] at hcached
    refine ⟨⟨?_, ?_, ?_, ?_⟩, rfl⟩
    · show pool.cached - 1 = rest.length
      omega
    · show pool.borrowed + 1 = lent + 1
      rw [hborrowed]
    · show pool.cached - 1 ≤ cacheLimit
      omega
    · show pool.cached - 1 ≤ largeCacheLimit ∨ (pool.cached - 1) * pool.size ≤ cacheBytes
      rcases hbytes with hfew | hbytes
      · exact Or.inl (by omega)
      · exact Or.inr (Nat.le_trans (Nat.mul_le_mul_right _ (Nat.sub_le _ _)) hbytes)

theorem take_none {next : BufferPool} (h : pool.take = (next, none)) : next = pool := by
  unfold BufferPool.take at h
  split at h
  · cases h
    rfl
  · cases h

/-- A pool that lends nothing stays as it is. -/
theorem lend_none {granted : Bool} {address : Nat} {next : BufferPool}
    (h : pool.lend granted address = (next, none)) : next = pool := by
  unfold lend at h
  split at h
  · cases h
  · rename_i kept hkept
    obtain rfl := take_none hkept
    unfold create at h
    split at h
    · cases h
    · cases h
      rfl

/-- A block that is lent, from the cache or the allocator, is counted. -/
theorem Valid.lend (h : pool.Valid lent) {granted : Bool} {address block : Nat}
    {next : BufferPool} (hnext : pool.lend granted address = (next, some block)) :
    next.Valid (lent + 1) ∧ next.size = pool.size := by
  unfold BufferPool.lend at hnext
  split at hnext
  · rename_i taken first htake
    cases hnext
    exact h.take htake
  · rename_i kept hkept
    obtain rfl := take_none hkept
    unfold BufferPool.create at hnext
    split at hnext
    · cases hnext
      exact ⟨⟨h.1, congrArg (· + 1) h.2.1, h.2.2⟩, rfl⟩
    · cases hnext

@[simp]
theorem put_size (pool : BufferPool) (block : Nat) : (pool.put block).size = pool.size := by
  unfold put
  split <;> rfl

/-- A block that is cached again fits the bounds. -/
theorem Valid.put (h : pool.Valid (lent + 1)) (block : Nat) : (pool.put block).Valid lent := by
  obtain ⟨hcached, hborrowed, hlimit, hbytes⟩ := h
  have hone : pool.borrowed - 1 = lent := by omega
  unfold BufferPool.put
  split
  · exact ⟨hcached, hone, hlimit, hbytes⟩
  · rename_i hroom
    simp only [full, decide_eq_true_eq, not_or, not_and, Nat.not_lt] at hroom
    obtain ⟨hne, hfits⟩ := hroom
    refine ⟨by simp [hcached], hone, ?_, ?_⟩
    · show pool.cached + 1 ≤ cacheLimit
      omega
    · show pool.cached + 1 ≤ largeCacheLimit ∨ (pool.cached + 1) * pool.size ≤ cacheBytes
      by_cases hlarge : largeCacheLimit ≤ pool.cached
      · refine Or.inr ?_
        calc (pool.cached + 1) * pool.size
            ≤ (pool.cached + 1) * (cacheBytes / (pool.cached + 1)) :=
              Nat.mul_le_mul_left _ (hfits hlarge)
          _ ≤ cacheBytes := Nat.mul_div_le _ _
      · exact Or.inl (by omega)

end BufferPool

end Zhtps
