import Zhtps.Lib.Gather
import Zhtps.Worker.Ledger.Accepting

/-!
The accounts of a whole worker.  What the shared state owes to the slots adds up over all of them:
for every slot that is its own ledger, and a slot that keeps its ledger keeps the sum.
-/

namespace Zhtps

namespace Worker

variable {n : Nat}

/-- No call is under way for the slot. -/
def resting (w : Worker n) (i : Fin n) : Bool :=
  match w.current with
  | none => true
  | some (j, _) => decide (j ≠ i)

/-- Permits and requests are held by connections, batches and streams. -/
def Accounted (w : Worker n) : Prop :=
  w.shared.admission.active = ∑ i, (w.slots i).admits ∧
    w.shared.admission.rejecting = ∑ i, (w.slots i).rejects ∧
    w.shared.requestsTotal = w.shared.requestsCompletedTotal + w.shared.requestsAbortedTotal +
      ∑ i, (w.slots i).live

/-- The outstanding tasks are those that the slots have lent something to. -/
def Loaned (w : Worker n) : Prop :=
  (∀ task ∈ w.shared.executor.outstanding, task.index < n) ∧
    (∀ i : Fin n, ((w.shared.executor.tasks i.val).map Task.loan).Perm
        ((w.slots i).loans (w.resting i)) ∧
      ∀ task ∈ w.shared.executor.tasks i.val,
        task.generation = (w.slots i).generation ∧ task.occupant = (w.slots i).occupant) ∧
    w.shared.executor.Ticketed

/-- The numbers of the slots with a property. -/
def Numbered (w : Worker n) (property : Connection → Prop) (j : Nat) : Prop :=
  ∃ i : Fin n, i.val = j ∧ property (w.slots i)

/-- A duplicate-free list of exactly the slots with a property. -/
def Lists (w : Worker n) (list : List Nat) (property : Connection → Prop) : Prop :=
  list.Nodup ∧ ∀ j, j ∈ list ↔ w.Numbered property j

def Open (c : Connection) : Prop := c.fd.isSome = true

def Free (admin : Bool) (c : Connection) : Prop := c.fd = none ∧ c.admin = admin

/-- Every slot is active or on the free list of its kind, and the idle list has idle slots only. -/
def Listed (publicSlots : Nat) (w : Worker n) : Prop :=
  w.Lists w.shared.activeSlots Open ∧
    (Lib.Located w.shared.activeSlots w.shared.activePosition ∧
      ∀ i, (w.slots i).admin = decide (publicSlots ≤ i.val)) ∧
    w.Lists w.shared.publicFree (Free false) ∧ w.Lists w.shared.adminFree (Free true) ∧
    ∃ list, w.shared.idle.Represents list ∧ ∀ j ∈ list, w.Numbered Connection.Idle j

/-- Stream storage is live or cached, and every stream that began is live or destroyed. -/
def Hosted (config : Config) (w : Worker n) : Prop :=
  (Lib.gather (fun i => (w.slots i).addresses) ++ w.shared.http2Free).Perm w.shared.http2Heap ∧
    w.shared.http2Heap.Nodup ∧
    w.shared.http2Cached = w.shared.http2Free.length ∧
    w.shared.http2Cached ≤ 64 ∧
    (Lib.gather (fun i => (w.slots i).serials) ++ w.shared.http2Destroyed).Perm
      (List.range w.shared.http2Begun) ∧
    w.shared.http2Streams = ∑ i, (w.slots i).streams.length ∧
    w.shared.http2Streams ≤ config.maxStreamsPerWorker

/-- The budget is charged with what all slots lease, and the pools count what they lent. -/
def Stocked (config : Config) (w : Worker n) : Prop :=
  w.shared.buffers.active = ∑ i, (w.slots i).charge config ∧
    w.shared.buffers.active ≤ config.largeBufferBytes ∧
    (∀ kind, (w.shared.buffers.pools kind).size = config.full kind ∧
      (w.shared.buffers.pools kind).Valid (∑ i, (w.slots i).blocks kind)) ∧
    w.shared.buffers.connections.Valid (∑ i, (w.slots i).smallBlock.isSome.toNat)

def Balanced (config : Config) (publicSlots : Nat) (w : Worker n) : Prop :=
  w.Accounted ∧ (∀ fault ∈ w.shared.faults, fault = .response) ∧ w.Loaned ∧ w.Listed publicSlots ∧
    w.Hosted config ∧ w.Stocked config ∧ ∀ i, (w.slots i).Formed config

/-- What the other slots contribute. -/
def others (config : Config) (publicSlots : Nat) (w : Worker n) (i : Fin n) : Others :=
  { admits := ∑ j ∈ Finset.univ.erase i, (w.slots j).admits
    rejects := ∑ j ∈ Finset.univ.erase i, (w.slots j).rejects
    live := ∑ j ∈ Finset.univ.erase i, (w.slots j).live
    tasks := w.shared.executor.outstanding.filter fun task => task.index != i.val
    completions := w.shared.executor.completions
    applied := w.shared.executor.applied
    admin := decide (publicSlots ≤ i.val)
    active := w.Numbered Open
    publicFree := w.Numbered (Free false)
    adminFree := w.Numbered (Free true)
    idle := fun j => w.shared.idle.queued j = true
    addresses := Lib.gatherBut i fun j => (w.slots j).addresses
    serials := Lib.gatherBut i fun j => (w.slots j).serials
    charge := ∑ j ∈ Finset.univ.erase i, (w.slots j).charge config
    blocks := fun kind => ∑ j ∈ Finset.univ.erase i, (w.slots j).blocks kind
    smallBlocks := ∑ j ∈ Finset.univ.erase i, (w.slots j).smallBlock.isSome.toNat }

variable {config : Config} {publicSlots : Nat} {w next : Worker n} {i : Fin n}

/-! ### One slot of a worker -/

theorem Numbered.self {property : Connection → Prop} :
    w.Numbered property i.val ↔ property (w.slots i) := by
  constructor
  · rintro ⟨j, hj, h⟩
    rwa [Fin.ext hj] at h
  · exact fun h => ⟨i, rfl, h⟩

/-- A change of one slot does not concern the numbers of the others. -/
theorem Numbered.update {property : Connection → Prop} {c : Connection}
    (hslots : next.slots = Function.update w.slots i c) {j : Nat} (hne : j ≠ i.val) :
    next.Numbered property j ↔ w.Numbered property j := by
  have hsame : ∀ k : Fin n, k.val = j → next.slots k = w.slots k := by
    intro k hk
    rw [hslots, Function.update_of_ne]
    rintro rfl
    exact hne hk.symm
  constructor
  · rintro ⟨k, hk, h⟩
    exact ⟨k, hk, by rwa [hsame k hk] at h⟩
  · rintro ⟨k, hk, h⟩
    exact ⟨k, hk, by rwa [hsame k hk]⟩

theorem Lists.places {list : List Nat} {property : Connection → Prop} (h : w.Lists list property)
    (i : Fin n) :
    Worker.Places i.val list (property (w.slots i)) (w.Numbered property) :=
  ⟨h.1, (h.2 i.val).trans Numbered.self, fun j _ => h.2 j⟩

theorem Lists.of_places {list : List Nat} {property : Connection → Prop} {c : Connection}
    (h : Worker.Places i.val list (property c) (w.Numbered property))
    (hslots : next.slots = Function.update w.slots i c) : next.Lists list property := by
  refine ⟨h.1, fun j => ?_⟩
  by_cases hj : j = i.val
  · rw [hj, Numbered.self, hslots, Function.update_self]
    exact h.2.1
  · rw [Numbered.update hslots hj]
    exact h.2.2 j hj

/-- Every slot of a balanced worker has its ledger. -/
theorem Balanced.cell (h : w.Balanced config publicSlots) (i : Fin n) :
    (w.cell i).Ledger config (w.others config publicSlots i) i.val (w.resting i) := by
  obtain ⟨⟨hactive, hrejecting, htotal⟩, hsane, ⟨-, hloans, htickets⟩,
    ⟨hact, hloc, hpub, hadm, list, hlist, hidle⟩,
    ⟨hheap, hnodup, hcached, hlimit, hbegun, hcount, hbound⟩,
    ⟨hcharge, hbudget, hpools, hsmall⟩, hformed⟩ := h
  refine ⟨⟨?_, ?_, ?_⟩, hsane, ⟨⟨rfl, rfl, rfl⟩, (hloans i).1, (hloans i).2, htickets⟩,
    ⟨hact.places i, ⟨hloc.1, hloc.2 i⟩, hpub.places i, hadm.places i, list, hlist, fun hin => ?_, fun j _ => ?_⟩,
    ⟨?_, hnodup, hcached, hlimit, ?_, ?_, hbound⟩, ⟨?_, hbudget, fun kind => ?_, ?_⟩, hformed i⟩
  · exact hactive.trans (Lib.sum_split _ i)
  · exact hrejecting.trans (Lib.sum_split _ i)
  · rw [Lib.sum_split _ i] at htotal
    exact htotal.trans (Nat.add_assoc _ _ _).symm
  · exact Numbered.self.mp (hidle i.val hin)
  · exact (hlist.2.2.2.2 j).symm
  · exact ((Lib.gather_perm _ i).symm.append_right _).trans hheap
  · exact ((Lib.gather_perm _ i).symm.append_right _).trans hbegun
  · rw [others, Lib.length_gatherBut]
    simp only [Connection.addresses, List.length_map]
    exact hcount.trans (Lib.sum_split _ i)
  · exact hcharge.trans (Lib.sum_split _ i)
  · have hkind := hpools kind
    rw [Lib.sum_split _ i] at hkind
    exact hkind
  · rw [Lib.sum_split _ i] at hsmall
    exact hsmall

/-- A slot that keeps its ledger keeps the balance of the worker. -/
theorem Balanced.put (h : w.Balanced config publicSlots) {cell : Cell}
    {completions : List Completion} {applied : List Nat} {producer : Option Connection}
    {lent : List Stream}
    (hl : cell.Ledger config
      { w.others config publicSlots i with
        completions := completions
        applied := applied
        producer := producer
        lent := lent } i.val (next.resting i))
    (hshared : next.shared = cell.shared)
    (hslots : next.slots = Function.update w.slots i cell.connection)
    (hresting : ∀ j, j ≠ i → next.resting j = w.resting j) : next.Balanced config publicSlots := by
  obtain ⟨-, -, ⟨hrange, hloans, -⟩, ⟨-, ⟨-, hkinds⟩, -, -, old, hold, hnumbers⟩, -, -, hformed⟩ := h
  have hself : next.slots i = cell.connection := by rw [hslots, Function.update_self]
  have hother : ∀ j, j ≠ i → next.slots j = w.slots j := fun j hne => by
    rw [hslots, Function.update_of_ne hne]
  have hsum : ∀ f : Connection → Nat,
      ∑ j, f (next.slots j) = f cell.connection + ∑ j ∈ Finset.univ.erase i, f (w.slots j) := by
    intro f
    rw [Lib.sum_split _ i, hself,
      Lib.sum_erase_congr (g := fun j => f (w.slots j)) fun j hne => by rw [hother j hne]]
  have hgather : ∀ f : Connection → List Nat, (Lib.gather fun j => f (next.slots j)).Perm
      (f cell.connection ++ Lib.gatherBut i fun j => f (w.slots j)) := by
    intro f
    have := Lib.gather_perm (fun j => f (next.slots j)) i
    rwa [hself, Lib.gatherBut_congr (g := fun j => f (w.slots j))
      fun j hne => by rw [hother j hne]] at this
  obtain ⟨⟨hactive, hrejecting, htotal⟩, hsane, ⟨⟨htasks, -⟩, hperm, htagged, htickets⟩,
    ⟨hact, hloc, hpub, hadm, list, hlist, hhere, hothers⟩,
    ⟨hheap, hnodup, hcached, hlimit, hbegun, hcount, hbound⟩,
    ⟨hcharge, hbudget, hpools, hsmall⟩, hown⟩ := hl
  refine ⟨⟨?_, ?_, ?_⟩, ?_, ⟨?_, fun j => ?_, ?_⟩, ⟨?_, ?_, ?_, ?_, ?_⟩,
    ⟨?_, ?_, ?_, ?_, ?_, ?_, ?_⟩, ⟨?_, ?_, fun kind => ?_, ?_⟩, fun j => ?_⟩
  · rw [hshared, hsum]
    exact hactive
  · rw [hshared, hsum]
    exact hrejecting
  · rw [hshared, hsum, htotal, Nat.add_assoc]
    rfl
  · rw [hshared]
    exact hsane
  · -- A task belongs to this slot, or was outstanding before.
    intro task hmem
    rw [hshared] at hmem
    by_cases hindex : task.index = i.val
    · rw [hindex]
      exact i.isLt
    · have hin : task ∈ (w.others config publicSlots i).tasks := by
        rw [show (w.others config publicSlots i).tasks = _ from htasks.symm]
        exact List.mem_filter.mpr ⟨hmem, by simpa using hindex⟩
      exact hrange task (List.mem_filter.mp hin).1
  · by_cases hj : j = i
    · subst hj
      rw [hshared, hself]
      exact ⟨hperm, htagged⟩
    · have hne : j.val ≠ i.val := fun h => hj (Fin.ext h)
      have hsame : next.shared.executor.tasks j.val = w.shared.executor.tasks j.val := by
        have hfilter : ∀ executor : Executor, executor.tasks j.val =
            (executor.outstanding.filter fun task => task.index != i.val).filter
              fun task => task.index == j.val := by
          intro executor
          rw [Executor.tasks, List.filter_filter]
          refine List.filter_congr fun task _ => ?_
          by_cases hindex : task.index = j.val
          · simp [hindex, hne]
          · simp [hindex]
        rw [hfilter, hfilter, hshared, htasks]
        rfl
      rw [hsame, hother j hj, hresting j hj]
      exact hloans j
  · rw [hshared]
    exact htickets
  · rw [hshared]
    exact Lists.of_places hact hslots
  · rw [hshared]
    refine ⟨hloc.1, fun j => ?_⟩
    by_cases hj : j = i
    · subst hj
      rw [hself]
      exact hloc.2
    · rw [hother j hj]
      exact hkinds j
  · rw [hshared]
    exact Lists.of_places hpub hslots
  · rw [hshared]
    exact Lists.of_places hadm hslots
  · rw [hshared]
    refine ⟨list, hlist, fun j hin => ?_⟩
    by_cases hj : j = i.val
    · rw [hj, Numbered.self, hself]
      exact hhere (hj ▸ hin)
    · rw [Numbered.update hslots hj]
      exact hnumbers j ((hold.2.2.2.2 j).mp ((hothers j hj).mp hin))
  · rw [hshared]
    exact ((hgather Connection.addresses).append_right _).trans hheap
  · rw [hshared]
    exact hnodup
  · rw [hshared]
    exact hcached
  · rw [hshared]
    exact hlimit
  · rw [hshared]
    exact ((hgather Connection.serials).append_right _).trans hbegun
  · rw [hshared, hsum fun c => c.streams.length, hcount, others, Lib.length_gatherBut]
    simp only [Connection.addresses, List.length_map]
  · rw [hshared]
    exact hbound
  · rw [hshared, hsum]
    exact hcharge
  · rw [hshared]
    exact hbudget
  · rw [hshared, hsum fun c => c.blocks kind]
    exact hpools kind
  · rw [hshared, hsum fun c => c.smallBlock.isSome.toNat]
    exact hsmall
  · by_cases hj : j = i
    · subst hj
      rw [hself]
      exact hown
    · rw [hother j hj]
      exact hformed j

end Worker

end Zhtps
