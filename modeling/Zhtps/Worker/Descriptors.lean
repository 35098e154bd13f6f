import Zhtps.Lib.Gather
import Zhtps.Lib.Transition
import Zhtps.Http.Syntax

/-!
The descriptors that the three listeners of a worker accept (`src/server/worker.zig`).  One descriptor
may wait for the slot of an idle connection that is closed for it, and meanwhile the storage of its
peer's address has to last.  The kernel's side is a completion ring; a failed submission at any point
ends the loop, what is left in the ring is discarded, and `deinit` closes what is open.

Of a connection there is what decides when its slot is given back: whether it is canceled, and how many
operations and tasks are pending.  Descriptors are numbered in the order in which the kernel delivers
them.
-/

namespace Zhtps

namespace Accepting

variable {n : Nat} {Peer : Type}

inductive Listener
  | «public»
  | admin
  | redirect
  deriving DecidableEq, Repr

structure Config (Peer : Type) where
  tls : Bool := false
  accessLog : Bool := false
  /-- `idle_reclaim_ms` is not zero. -/
  idleReclaim : Bool := false
  formatClientIp : Peer → Bytes

/-- `clientIp` is `client_ip[0..client_ip_len]`, and `canceling` the phase. -/
structure Slot where
  fd : Option Nat := none
  admin : Bool
  redirect : Bool := false
  clientIp : Bytes := []
  canceling : Bool := false
  pending : Nat := 0

/-- The accepting part of a worker.  `ring` holds the accept completions that were not taken, and
`inFlight` says that the kernel may still complete the listener's accept.  `peers` is `accept_peers`,
which the kernel writes.  `closed` and `delivered`, the peers of the descriptors, are history. -/
structure State (n : Nat) (Peer : Type) where
  slots : Fin n → Slot
  publicFree : List (Fin n)
  adminFree : List (Fin n)
  idle : List (Fin n) := []
  accepting : Listener → Bool := fun _ => false
  inFlight : Listener → Bool := fun _ => false
  ring : List (Listener × Option Nat) := []
  peers : Listener → Option Peer := fun _ => none
  waiting : Option Nat := none
  reclaimStarted : Bool := false
  draining : Bool := false
  stopping : Bool := false
  /-- `loop` returned an error. -/
  failed : Bool := false
  /-- `deinit` is over. -/
  ended : Bool := false
  closed : List Nat := []
  delivered : List Peer := []

/-- What a call finds: the clock, the kernel and the allocator. -/
structure Choice where
  /-- What `queueAccept` loads for `shouldStop`. -/
  stop : Bool := false
  /-- What `acceptConnection` loads for it, which may be another value. -/
  stopped : Bool := false
  /-- The listener's retry time is still to come. -/
  early : Bool := false
  /-- The waiting descriptor's deadline is past. -/
  late : Bool := false
  /-- The first idle connection is old enough. -/
  aged : Bool := true
  /-- Submissions succeed. -/
  submitted : Bool := true
  /-- `setOption` succeeds. -/
  option : Bool := true
  /-- The connection gets its buffers. -/
  granted : Bool := true
  /-- The connection gets a TLS session. -/
  secured : Bool := true
  /-- How many operations `forceClose` asks the kernel to cancel. -/
  cancels : Nat := 0
  deriving Repr

namespace State

def setSlot (i : Fin n) (slot : Slot) (s : State n Peer) : State n Peer :=
  { s with slots := Function.update s.slots i slot }

def close (fd : Nat) (s : State n Peer) : State n Peer := { s with closed := s.closed ++ [fd] }

def finishClose (i : Fin n) (s : State n Peer) : State n Peer :=
  match (s.slots i).fd with
  | none => s
  | some fd =>
      if (s.slots i).pending ≠ 0 then s
      else
        let s := (s.close fd).setSlot i { s.slots i with fd := none }
        if (s.slots i).admin then { s with adminFree := i :: s.adminFree }
        else { s with publicFree := i :: s.publicFree }

def forceClose (choice : Choice) (i : Fin n) (s : State n Peer) : State n Peer :=
  let slot := s.slots i
  let cancels := if slot.pending = 0 then 0 else choice.cancels
  let s := { s with idle := s.idle.erase i }.setSlot i
    { slot with canceling := true, pending := slot.pending + cancels }
  if slot.pending ≠ 0 ∧ !choice.submitted then { s with failed := true } else s.finishClose i

def freeSlot (admin : Bool) (s : State n Peer) : Option (Fin n) :=
  if admin then s.adminFree.head? else s.publicFree.head?

def idleCandidate (config : Config Peer) (choice : Choice) (s : State n Peer) : Option (Fin n) :=
  if !config.idleReclaim ∨ !choice.aged then none else s.idle.head?

/-- The text that a slot records for the address in a listener's storage. -/
def recorded (config : Config Peer) (peer : Option Peer) : Bytes :=
  if config.accessLog then (peer.map config.formatClientIp).getD [] else []

/-- The part of `acceptConnection` that takes the slot. -/
def occupy (config : Config Peer) (i : Fin n) (fd : Nat) (listener : Listener)
    (s : State n Peer) : State n Peer :=
  let taken : State n Peer :=
    { s with
      publicFree := if listener = .admin then s.publicFree else s.publicFree.tail
      adminFree := if listener = .admin then s.adminFree.tail else s.adminFree }
  taken.setSlot i
    { s.slots i with
      fd := some fd
      redirect := decide (listener = .redirect)
      clientIp := recorded config (s.peers listener)
      canceling := false
      pending := 0 }

/-- `acceptConnection` up to the connection's first receive or its handshake. -/
def acceptConnection (config : Config Peer) (choice : Choice) (fd : Nat) (listener : Listener)
    (s : State n Peer) : State n Peer :=
  if s.draining ∨ choice.stopped then s.close fd
  else
    match s.freeSlot (decide (listener = .admin)) with
    | none =>
        if listener = .public ∧ config.idleReclaim ∧ s.waiting = none then
          { s with waiting := some fd, reclaimStarted := false }
        else s.close fd
    | some i =>
        if !choice.option ∨ !choice.granted then s.close fd
        else
          let s := s.occupy config i fd listener
          if listener = .public ∧ config.tls ∧ !choice.secured then s.forceClose choice i else s

/-- Closes an idle connection for the waiting descriptor. -/
def reclaim (config : Config Peer) (choice : Choice) (s : State n Peer) : State n Peer :=
  if s.publicFree = [] ∧ !s.reclaimStarted then
    match s.idleCandidate config choice with
    | none => s
    | some i => { s with reclaimStarted := true }.forceClose choice i
  else s

/-- `queueAccept` while a descriptor waits. -/
def serveWaiting (config : Config Peer) (choice : Choice) (fd : Nat) (s : State n Peer) :
    State n Peer :=
  if choice.late then { s.close fd with waiting := none }
  else
    let s := s.reclaim config choice
    if s.failed then s
    else if s.publicFree ≠ [] then
      { s with waiting := none }.acceptConnection config choice fd .public
    else s

/-- The submission of an accept. -/
def submitAccept (config : Config Peer) (choice : Choice) (listener : Listener) (s : State n Peer) :
    State n Peer :=
  if choice.early then s
  else if s.freeSlot (decide (listener = .admin)) = none ∧
      (listener ≠ .public ∨ s.idleCandidate config choice = none) then s
  else if !choice.submitted then { s with failed := true }
  else
    { s with
      accepting := Function.update s.accepting listener true
      inFlight := Function.update s.inFlight listener true }

def queueAccept (config : Config Peer) (choice : Choice) (listener : Listener) (s : State n Peer) :
    State n Peer :=
  if choice.stop ∨ s.accepting listener then s
  else
    match listener, s.waiting with
    | .redirect, some _ => s
    | .public, some fd => s.serveWaiting config choice fd
    | _, _ => s.submitAccept config choice listener

/-- `complete` for an accept. -/
def complete (config : Config Peer) (choice : Choice) (supported : Bool) (listener : Listener)
    (result : Option Nat) (s : State n Peer) : State n Peer :=
  let s := { s with accepting := Function.update s.accepting listener false }
  match result with
  | none => if supported then s else { s with failed := true }
  | some fd => s.acceptConnection config choice fd listener

/-- An operation or a task of the slot is over. -/
def retire (i : Fin n) (s : State n Peer) : State n Peer :=
  let s := s.setSlot i { s.slots i with pending := (s.slots i).pending - 1 }
  if (s.slots i).canceling then s.finishClose i else s

def beginShutdown (s : State n Peer) : State n Peer :=
  { s with
    draining := true
    closed := s.closed ++ s.waiting.toList
    waiting := none }

/-- `stopOperations` closes the open slots until a submission fails. -/
def stopOperations (choices : Fin n → Choice) (s : State n Peer) : State n Peer :=
  (List.finRange n).foldl
    (fun s i => if s.failed ∨ (s.slots i).fd = none then s else s.forceClose (choices i) i)
    { s with stopping := true }

def deinit (s : State n Peer) : State n Peer :=
  { s with
    closed := s.closed ++ s.waiting.toList ++ Lib.gather fun i => (s.slots i).fd.toList
    waiting := none
    slots := fun i => { s.slots i with fd := none }
    ended := true }

end State

inductive Event (n : Nat) (Peer : Type)
  | queueAccept (listener : Listener) (choice : Choice)
  /-- The kernel completes an accept. -/
  | deliver (listener : Listener) (peer : Peer)
  | refuse (listener : Listener)
  /-- The loop takes the next accept completion. -/
  | complete (choice : Choice) (supported : Bool)
  /-- The connection of the slot starts an operation or a task. -/
  | submit (i : Fin n)
  | retire (i : Fin n)
  | forceClose (i : Fin n) (choice : Choice)
  | queueIdle (i : Fin n)
  | removeIdle (i : Fin n)
  | beginShutdown
  | stopOperations (choices : Fin n → Choice)
  /-- A submission fails, or another worker does. -/
  | fail
  /-- `quiesce` takes back an accept that the kernel has not seen. -/
  | withdraw (listener : Listener)
  /-- `discardCompletion`. -/
  | discard
  | deinit

namespace State

def step (config : Config Peer) (s : State n Peer) (event : Event n Peer) : Option (State n Peer) :=
  if s.ended then none
  else
    match event with
    | .queueAccept listener choice =>
        if s.failed ∨ s.draining then none else some (s.queueAccept config choice listener)
    | .deliver listener peer =>
        if !s.inFlight listener then none
        else some
          { s with
            inFlight := Function.update s.inFlight listener false
            peers := Function.update s.peers listener (some peer)
            ring := s.ring ++ [(listener, some s.delivered.length)]
            delivered := s.delivered ++ [peer] }
    | .refuse listener =>
        if !s.inFlight listener then none
        else some
          { s with
            inFlight := Function.update s.inFlight listener false
            ring := s.ring ++ [(listener, none)] }
    | .complete choice supported =>
        match s.ring with
        | [] => none
        | (listener, result) :: rest =>
            if s.failed then none
            else some ({ s with ring := rest }.complete config choice supported listener result)
    | .submit i =>
        if s.failed ∨ (s.slots i).fd = none then none
        else some (s.setSlot i { s.slots i with pending := (s.slots i).pending + 1 })
    | .retire i =>
        if s.failed ∨ (s.slots i).pending = 0 then none else some (s.retire i)
    | .forceClose i choice =>
        if s.failed ∨ (s.slots i).fd = none then none else some (s.forceClose choice i)
    | .queueIdle i =>
        if s.failed ∨ (s.slots i).fd = none ∨ (s.slots i).admin ∨ (s.slots i).canceling ∨ i ∈ s.idle
        then none
        else some { s with idle := s.idle ++ [i] }
    | .removeIdle i => if s.failed then none else some { s with idle := s.idle.erase i }
    | .beginShutdown => if s.failed ∨ s.draining then none else some s.beginShutdown
    | .stopOperations choices =>
        if s.failed ∨ !s.draining ∨ s.stopping then none else some (s.stopOperations choices)
    | .fail => if s.failed then none else some { s with failed := true }
    | .withdraw listener =>
        if !s.failed then none
        else some { s with inFlight := Function.update s.inFlight listener false }
    | .discard =>
        match s.ring with
        | [] => none
        | (_, result) :: rest =>
            if !s.failed then none
            else some { s with ring := rest, closed := s.closed ++ result.toList }
    | .deinit =>
        if s.ring ≠ [] ∨ s.inFlight .public ∨ s.inFlight .admin ∨ s.inFlight .redirect then none
        else some s.deinit

def run (config : Config Peer) : State n Peer → List (Event n Peer) → Option (State n Peer) :=
  Lib.run (step config)

/-- The first `publicSlots` slots serve the public listeners, the others the administrative one. -/
def init (n : Nat) (Peer : Type) (publicSlots : Nat) : State n Peer :=
  { slots := fun i => { admin := decide (publicSlots ≤ i.val) }
    publicFree := (List.finRange n).filter fun i => i.val < publicSlots
    adminFree := (List.finRange n).filter fun i => publicSlots ≤ i.val }

end State

/-! ### Who holds a descriptor -/

variable {config : Config Peer} {s t : State n Peer} {i : Fin n} {hands : List Nat} {fd : Nat}

namespace State

/-- How often a descriptor is closed, waits, is in the ring, or has a slot. -/
def holds (s : State n Peer) (d : Nat) : Nat :=
  s.closed.count d + s.waiting.toList.count d + (s.ring.filterMap Prod.snd).count d +
    ∑ i, (s.slots i).fd.toList.count d

@[simp] theorem setSlot_self (i : Fin n) (slot : Slot) (s : State n Peer) :
    (s.setSlot i slot).slots i = slot := Function.update_self ..

theorem setSlot_other {j : Fin n} (slot : Slot) (s : State n Peer) (h : j ≠ i) :
    (s.setSlot i slot).slots j = s.slots j := Function.update_of_ne h ..

theorem setSlot_holds (i : Fin n) (slot : Slot) (s : State n Peer) (d : Nat) :
    (s.setSlot i slot).holds d + (s.slots i).fd.toList.count d =
      s.holds d + slot.fd.toList.count d := by
  have hself : ((s.setSlot i slot).slots i).fd = slot.fd := by
    rw [setSlot_self]
  have hothers : ∑ j ∈ Finset.univ.erase i, ((s.setSlot i slot).slots j).fd.toList.count d =
      ∑ j ∈ Finset.univ.erase i, (s.slots j).fd.toList.count d :=
    Lib.sum_erase_congr fun j hj => by rw [setSlot_other slot s hj]
  have hafter := Lib.sum_split (fun j => ((s.setSlot i slot).slots j).fd.toList.count d) i
  have hbefore := Lib.sum_split (fun j => (s.slots j).fd.toList.count d) i
  simp only [hself, hothers] at hafter
  simp only [holds]
  rw [hafter, hbefore]
  simp only [setSlot]
  omega

/-- The free lists have free slots of their kind, each once. -/
structure Listed (s : State n Peer) : Prop where
  publicNodup : s.publicFree.Nodup
  adminNodup : s.adminFree.Nodup
  publicFree : ∀ i ∈ s.publicFree, (s.slots i).fd = none ∧ (s.slots i).admin = false
  adminFree : ∀ i ∈ s.adminFree, (s.slots i).fd = none ∧ (s.slots i).admin = true

/-- What closing connections leaves as it is. -/
def rest (s : State n Peer) :=
  ((s.ring, s.accepting, s.inFlight), (s.peers, s.waiting, s.delivered), s.draining, s.ended)

/-- Closing connections keeps the accounts, and changes no slot that stays open. -/
structure Closing (s t : State n Peer) : Prop where
  holds : ∀ d, t.holds d = s.holds d
  listed : s.Listed → t.Listed
  rest : t.rest = s.rest
  clients : ∀ i d, (t.slots i).fd = some d →
    (s.slots i).fd = some d ∧ (t.slots i).clientIp = (s.slots i).clientIp

theorem Closing.refl (s : State n Peer) : s.Closing s :=
  ⟨fun _ => rfl, fun h => h, rfl, fun _ _ h => ⟨h, rfl⟩⟩

theorem Closing.trans {u : State n Peer} (h : s.Closing t) (h' : t.Closing u) : s.Closing u := by
  refine ⟨fun d => (h'.holds d).trans (h.holds d), fun hlisted => h'.listed (h.listed hlisted),
    h'.rest.trans h.rest, fun i d hfd => ?_⟩
  obtain ⟨hmiddle, hip⟩ := h'.clients i d hfd
  obtain ⟨hfirst, hip'⟩ := h.clients i d hmiddle
  exact ⟨hfirst, hip.trans hip'⟩

/-- Changes of a slot that keep what it owns. -/
theorem setSlot_closing {slot : Slot} (hfd : slot.fd = (s.slots i).fd)
    (hadmin : slot.admin = (s.slots i).admin) (hip : slot.clientIp = (s.slots i).clientIp) :
    s.Closing (s.setSlot i slot) := by
  have hslot (j : Fin n) : ((s.setSlot i slot).slots j).fd = (s.slots j).fd ∧
      ((s.setSlot i slot).slots j).admin = (s.slots j).admin ∧
        ((s.setSlot i slot).slots j).clientIp = (s.slots j).clientIp := by
    by_cases hj : j = i
    · subst hj
      rw [setSlot_self]
      exact ⟨hfd, hadmin, hip⟩
    · rw [setSlot_other _ _ hj]
      exact ⟨rfl, rfl, rfl⟩
  refine ⟨fun d => ?_, fun h => ⟨h.publicNodup, h.adminNodup, fun j hj => ?_, fun j hj => ?_⟩, rfl,
    fun j d hj => ?_⟩
  · have hcount := setSlot_holds i slot s d
    rw [hfd] at hcount
    exact Nat.add_right_cancel hcount
  · rw [(hslot j).1, (hslot j).2.1]
    exact h.publicFree j hj
  · rw [(hslot j).1, (hslot j).2.1]
    exact h.adminFree j hj
  · exact ⟨(hslot j).1 ▸ hj, (hslot j).2.2⟩

theorem finishClose_closing (i : Fin n) (s : State n Peer) : s.Closing (s.finishClose i) := by
  unfold finishClose
  split
  · exact .refl s
  · rename_i fd hfd
    split
    · exact .refl s
    · have hfree (j : Fin n) (hj : j = i ∨ (s.slots j).fd = none) :
          (((s.close fd).setSlot i { s.slots i with fd := none }).slots j).fd = none ∧
            (((s.close fd).setSlot i { s.slots i with fd := none }).slots j).admin =
              (s.slots j).admin := by
        by_cases hji : j = i
        · subst hji
          rw [setSlot_self]
          exact ⟨rfl, rfl⟩
        · rw [setSlot_other _ _ hji]
          exact ⟨hj.resolve_left hji, rfl⟩
      have hclosed (d : Nat) :
          ((s.close fd).setSlot i { s.slots i with fd := none }).holds d = s.holds d := by
        have hcount := setSlot_holds i { s.slots i with fd := none } (s.close fd) d
        have hclose : (s.close fd).holds d = s.holds d + [fd].count d := by
          simp only [holds, close, List.count_append]
          omega
        have hone : ((s.close fd).slots i).fd.toList = [fd] := by
          rw [show (s.close fd).slots i = s.slots i from rfl, hfd]
          rfl
        rw [hclose, hone] at hcount
        simpa using hcount
      have hnot (h : s.Listed) : i ∉ s.publicFree ∧ i ∉ s.adminFree := by
        refine ⟨fun hmem => ?_, fun hmem => ?_⟩
        · have hnone := (h.publicFree i hmem).1
          rw [hfd] at hnone
          cases hnone
        · have hnone := (h.adminFree i hmem).1
          rw [hfd] at hnone
          cases hnone
      have hclients (j : Fin n) (d : Nat)
          (hj : (((s.close fd).setSlot i { s.slots i with fd := none }).slots j).fd = some d) :
          (s.slots j).fd = some d ∧
            (((s.close fd).setSlot i { s.slots i with fd := none }).slots j).clientIp =
              (s.slots j).clientIp := by
        by_cases hji : j = i
        · rw [(hfree j (Or.inl hji)).1] at hj
          cases hj
        · rw [setSlot_other _ _ hji] at hj ⊢
          exact ⟨hj, rfl⟩
      dsimp only
      split
      · rename_i hadmin
        rw [setSlot_self] at hadmin
        refine ⟨hclosed, fun h => ⟨h.publicNodup, List.nodup_cons.mpr ⟨(hnot h).2, h.adminNodup⟩,
          fun j hj => ?_, fun j hj => ?_⟩, rfl, hclients⟩
        · obtain ⟨hnone, hkind⟩ := h.publicFree j hj
          exact ⟨(hfree j (Or.inr hnone)).1, (hfree j (Or.inr hnone)).2.trans hkind⟩
        · rcases List.mem_cons.mp hj with rfl | hj
          · exact ⟨(hfree j (Or.inl rfl)).1, (hfree j (Or.inl rfl)).2.trans hadmin⟩
          · obtain ⟨hnone, hkind⟩ := h.adminFree j hj
            exact ⟨(hfree j (Or.inr hnone)).1, (hfree j (Or.inr hnone)).2.trans hkind⟩
      · rename_i hadmin
        rw [setSlot_self] at hadmin
        refine ⟨hclosed, fun h => ⟨List.nodup_cons.mpr ⟨(hnot h).1, h.publicNodup⟩, h.adminNodup,
          fun j hj => ?_, fun j hj => ?_⟩, rfl, hclients⟩
        · rcases List.mem_cons.mp hj with rfl | hj
          · exact ⟨(hfree j (Or.inl rfl)).1,
              (hfree j (Or.inl rfl)).2.trans (Bool.eq_false_iff.mpr hadmin)⟩
          · obtain ⟨hnone, hkind⟩ := h.publicFree j hj
            exact ⟨(hfree j (Or.inr hnone)).1, (hfree j (Or.inr hnone)).2.trans hkind⟩
        · obtain ⟨hnone, hkind⟩ := h.adminFree j hj
          exact ⟨(hfree j (Or.inr hnone)).1, (hfree j (Or.inr hnone)).2.trans hkind⟩

/-- Fields that no account is about. -/
theorem Closing.fields (idle : List (Fin n)) (reclaimStarted stopping failed : Bool)
    (s : State n Peer) : s.Closing
      { s with
        idle := idle, reclaimStarted := reclaimStarted, stopping := stopping, failed := failed } :=
  ⟨fun _ => rfl, fun h => ⟨h.1, h.2, h.3, h.4⟩, rfl, fun _ _ h => ⟨h, rfl⟩⟩

theorem forceClose_closing (choice : Choice) (i : Fin n) (s : State n Peer) :
    s.Closing (s.forceClose choice i) := by
  unfold forceClose
  dsimp only
  have hidle := Closing.fields (s.idle.erase i) s.reclaimStarted s.stopping s.failed s
  generalize (if (s.slots i).pending = 0 then 0 else choice.cancels) = cancels
  have hmarked := hidle.trans (@setSlot_closing n Peer { s with idle := s.idle.erase i } i
    { s.slots i with canceling := true, pending := (s.slots i).pending + cancels } rfl rfl rfl)
  split
  · exact hmarked.trans (.fields _ _ _ true _)
  · exact hmarked.trans (finishClose_closing i _)

theorem retire_closing (i : Fin n) (s : State n Peer) : s.Closing (s.retire i) := by
  have hretired := @setSlot_closing n Peer s i
    { s.slots i with pending := (s.slots i).pending - 1 } rfl rfl rfl
  unfold retire
  dsimp only
  split
  · exact hretired.trans (finishClose_closing i _)
  · exact hretired

theorem reclaim_closing (choice : Choice) (s : State n Peer) :
    s.Closing (s.reclaim config choice) := by
  unfold reclaim
  split
  · split
    · exact .refl s
    · exact (Closing.fields s.idle true s.stopping s.failed s).trans (forceClose_closing choice _ _)
  · exact .refl s

theorem stopOperations_closing (choices : Fin n → Choice) (s : State n Peer) :
    s.Closing (s.stopOperations choices) := by
  unfold stopOperations
  have hfold (slots : List (Fin n)) : ∀ t : State n Peer, s.Closing t →
      s.Closing (slots.foldl (fun s i =>
        if s.failed ∨ (s.slots i).fd = none then s else s.forceClose (choices i) i) t) := by
    induction slots with
    | nil => exact fun _ h => h
    | cons i slots ih =>
        intro t h
        rw [List.foldl_cons]
        split
        · exact ih t h
        · exact ih _ (h.trans (forceClose_closing (choices i) i t))
  exact hfold _ _ (.fields s.idle s.reclaimStarted true s.failed s)

/-! ### The invariant -/

/-- The descriptor's peer is the one in the listener's storage. -/
def Remembers (s : State n Peer) (listener : Listener) (d : Nat) : Prop :=
  ∃ peer, s.delivered[d]? = some peer ∧ s.peers listener = some peer

/-- Every descriptor that the kernel delivered is held once, those in the hands of a call apart. -/
structure Sound (config : Config Peer) (hands : List Nat) (s : State n Peer) : Prop where
  owned : ∀ d, s.holds d + hands.count d = if d < s.delivered.length then 1 else 0
  listed : s.Listed
  flights : ∀ listener, s.inFlight listener = true → s.accepting listener = true ∧
    listener ∉ s.ring.map Prod.fst
  rung : (s.ring.map Prod.fst).Nodup ∧ ∀ listener ∈ s.ring.map Prod.fst, s.accepting listener = true
  fresh : ∀ listener d, (listener, some d) ∈ s.ring → s.Remembers listener d
  parked : ∀ d, s.waiting = some d → s.accepting .public = false ∧ s.Remembers .public d
  clients : ∀ i d, (s.slots i).fd = some d →
    ∃ peer, s.delivered[d]? = some peer ∧ (s.slots i).clientIp = recorded config (some peer)
  quiet : s.ended = true → s.waiting = none ∧ s.ring = [] ∧ ∀ i, (s.slots i).fd = none

theorem Sound.closing (h : s.Sound config hands) (hclosing : s.Closing t) (hended : s.ended = false) :
    t.Sound config hands := by
  obtain ⟨hholds, hlisted, hrest, hclients⟩ := hclosing
  simp only [rest, Prod.mk.injEq] at hrest
  obtain ⟨⟨hring, haccepting, hflight⟩, ⟨hpeers, hwaiting, hdelivered⟩, hdraining, hover⟩ := hrest
  refine ⟨fun d => ?_, hlisted h.listed, ?_, ?_, ?_, ?_, fun i d hfd => ?_, ?_⟩
  · rw [hholds, hdelivered]
    exact h.owned d
  · rw [hflight, haccepting, hring]
    exact h.flights
  · rw [haccepting, hring]
    exact h.rung
  · unfold Remembers
    rw [hring, hdelivered, hpeers]
    exact h.fresh
  · unfold Remembers
    rw [hwaiting, haccepting, hdelivered, hpeers]
    exact h.parked
  · obtain ⟨hbefore, hip⟩ := hclients i d hfd
    rw [hdelivered, hip]
    exact h.clients i d hbefore
  · rw [hover, hended]
    nofun

/-- The descriptors in hand are closed. -/
theorem Sound.close (h : s.Sound config hands) (hended : s.ended = false) :
    Sound config [] { s with closed := s.closed ++ hands } := by
  refine ⟨fun d => ?_, ⟨h.listed.1, h.listed.2, h.listed.3, h.listed.4⟩, h.flights, h.rung, h.fresh,
    h.parked, h.clients, fun hover => ?_⟩
  · show _ = if d < s.delivered.length then 1 else 0
    rw [← h.owned d]
    simp only [holds, List.count_append, List.count_nil]
    omega
  · have hover : s.ended = true := hover
    rw [hended] at hover
    cases hover

/-- A descriptor in hand begins to wait. -/
theorem Sound.park (h : s.Sound config [fd]) (hended : s.ended = false) (hnone : s.waiting = none)
    (haccepting : s.accepting .public = false) (hremembers : s.Remembers .public fd) :
    Sound config [] { s with waiting := some fd, reclaimStarted := false } := by
  refine ⟨fun d => ?_, ⟨h.listed.1, h.listed.2, h.listed.3, h.listed.4⟩, h.flights, h.rung, h.fresh,
    fun d hd => ?_, h.clients, fun hover => ?_⟩
  · show _ = if d < s.delivered.length then 1 else 0
    rw [← h.owned d]
    simp only [holds, hnone, Option.toList_some, Option.toList_none, List.count_nil]
    omega
  · obtain rfl := Option.some.inj hd
    exact ⟨haccepting, hremembers⟩
  · have hover : s.ended = true := hover
    rw [hended] at hover
    cases hover

theorem freeSlot_free (hlisted : s.Listed) {admin : Bool} (h : s.freeSlot admin = some i) :
    (s.slots i).fd = none ∧ (s.slots i).admin = admin := by
  unfold freeSlot at h
  split at h
  · rename_i hadmin
    rw [hadmin]
    exact hlisted.adminFree i (List.mem_of_head? h)
  · rename_i hadmin
    rw [Bool.eq_false_iff.mpr hadmin]
    exact hlisted.publicFree i (List.mem_of_head? h)

/-- The slots that stay on the free lists when one is taken. -/
theorem Listed.rest (h : s.Listed) {listener : Listener}
    (hfree : s.freeSlot (decide (listener = .admin)) = some i) :
    (∀ j ∈ (if listener = .admin then s.publicFree else s.publicFree.tail),
        j ∈ s.publicFree ∧ j ≠ i) ∧
      ∀ j ∈ (if listener = .admin then s.adminFree.tail else s.adminFree),
        j ∈ s.adminFree ∧ j ≠ i := by
  have hslot := freeSlot_free h hfree
  unfold freeSlot at hfree
  by_cases hadmin : listener = .admin
  · simp only [hadmin, decide_true, if_true] at hfree hslot ⊢
    refine ⟨fun j hj => ⟨hj, ?_⟩, fun j hj => ⟨List.mem_of_mem_tail hj, ?_⟩⟩
    · rintro rfl
      rw [(h.publicFree j hj).2] at hslot
      cases hslot.2
    · rintro rfl
      obtain ⟨rest, hrest⟩ := List.head?_eq_some_iff.mp hfree
      have hnodup := h.adminNodup
      rw [hrest] at hnodup hj
      exact (List.nodup_cons.mp hnodup).1 hj
  · simp only [hadmin, decide_false, if_false] at hfree hslot ⊢
    refine ⟨fun j hj => ⟨List.mem_of_mem_tail hj, ?_⟩, fun j hj => ⟨hj, ?_⟩⟩
    · rintro rfl
      obtain ⟨rest, hrest⟩ := List.head?_eq_some_iff.mp (by simpa using hfree)
      have hnodup := h.publicNodup
      rw [hrest] at hnodup hj
      exact (List.nodup_cons.mp hnodup).1 hj
    · rintro rfl
      rw [(h.adminFree j hj).2] at hslot
      cases hslot.2

/-- A descriptor in hand gets a free slot. -/
theorem Sound.occupy (h : s.Sound config [fd]) (hended : s.ended = false) {listener : Listener}
    (hfree : s.freeSlot (decide (listener = .admin)) = some i)
    (hremembers : s.Remembers listener fd) : (s.occupy config i fd listener).Sound config [] := by
  obtain ⟨hnone, hkind⟩ := freeSlot_free h.listed hfree
  obtain ⟨hpublic, hadmin⟩ := h.listed.rest hfree
  have hother (j : Fin n) (hj : j ≠ i) : (s.occupy config i fd listener).slots j = s.slots j :=
    setSlot_other _ _ hj
  refine ⟨fun d => ?_, ⟨?_, ?_, fun j hj => ?_, fun j hj => ?_⟩, h.flights, h.rung, h.fresh, h.parked,
    fun j d hj => ?_, fun hover => ?_⟩
  · show _ = if d < s.delivered.length then 1 else 0
    rw [← h.owned d]
    have hcount := setSlot_holds i ((s.occupy config i fd listener).slots i)
      { s with
        publicFree := if listener = .admin then s.publicFree else s.publicFree.tail
        adminFree := if listener = .admin then s.adminFree.tail else s.adminFree } d
    simp only [State.occupy, setSlot_self, hnone, Option.toList_none, Option.toList_some,
      List.count_nil, Nat.add_zero] at hcount ⊢
    exact hcount
  · show (if listener = .admin then s.publicFree else s.publicFree.tail).Nodup
    split
    · exact h.listed.publicNodup
    · exact h.listed.publicNodup.tail
  · show (if listener = .admin then s.adminFree.tail else s.adminFree).Nodup
    split
    · exact h.listed.adminNodup.tail
    · exact h.listed.adminNodup
  · obtain ⟨hmem, hne⟩ := hpublic j hj
    rw [hother j hne]
    exact h.listed.publicFree j hmem
  · obtain ⟨hmem, hne⟩ := hadmin j hj
    rw [hother j hne]
    exact h.listed.adminFree j hmem
  · by_cases hji : j = i
    · subst hji
      simp only [State.occupy, setSlot_self] at hj ⊢
      obtain rfl := Option.some.inj hj
      obtain ⟨peer, hpeer, hstored⟩ := hremembers
      exact ⟨peer, hpeer, by rw [hstored]⟩
    · rw [hother j hji] at hj ⊢
      exact h.clients j d hj
  · have hover : s.ended = true := hover
    rw [hended] at hover
    cases hover

theorem acceptConnection_sound (h : s.Sound config [fd]) (hended : s.ended = false) (choice : Choice)
    {listener : Listener} (hremembers : s.Remembers listener fd)
    (haccepting : s.accepting listener = false) :
    (s.acceptConnection config choice fd listener).Sound config [] := by
  unfold acceptConnection
  split
  · exact h.close hended
  · split
    · split
      · rename_i hready
        obtain ⟨rfl, -, hnone⟩ := hready
        exact h.park hended hnone haccepting hremembers
      · exact h.close hended
    · rename_i i hfree
      split
      · exact h.close hended
      · have hoccupied := h.occupy hended hfree hremembers
        dsimp only
        split
        · exact hoccupied.closing (forceClose_closing choice i _) hended
        · exact hoccupied

/-! ### Steps -/

theorem reclaim_rest (choice : Choice) (s : State n Peer) :
    (s.reclaim config choice).ended = s.ended ∧ (s.reclaim config choice).waiting = s.waiting ∧
      (s.reclaim config choice).accepting = s.accepting := by
  have hrest := (@reclaim_closing n Peer config choice s).rest
  simp only [rest, Prod.mk.injEq] at hrest
  exact ⟨hrest.2.2.2, hrest.2.1.2.1, hrest.1.2.1⟩

/-- The waiting descriptor is taken in hand. -/
theorem Sound.unpark (h : s.Sound config []) (hended : s.ended = false)
    (hwaiting : s.waiting = some fd) : Sound config [fd] { s with waiting := none } := by
  refine ⟨fun d => ?_, ⟨h.listed.1, h.listed.2, h.listed.3, h.listed.4⟩, h.flights, h.rung, h.fresh,
    nofun, h.clients, fun hover => ?_⟩
  · show _ = if d < s.delivered.length then 1 else 0
    rw [← h.owned d]
    simp only [holds, hwaiting, Option.toList_some, Option.toList_none, List.count_nil]
    omega
  · have hover : s.ended = true := hover
    rw [hended] at hover
    cases hover

theorem serveWaiting_sound (h : s.Sound config []) (hended : s.ended = false) (choice : Choice)
    (hwaiting : s.waiting = some fd) : (s.serveWaiting config choice fd).Sound config [] := by
  unfold serveWaiting
  split
  · exact (h.unpark hended hwaiting).close hended
  · obtain ⟨hover, hsame, haccepting⟩ := @reclaim_rest n Peer config choice s
    have hreclaimed : (s.reclaim config choice).Sound config [] :=
      h.closing (reclaim_closing choice s) hended
    dsimp only
    split
    · exact hreclaimed
    · split
      · obtain ⟨hpublic, hremembers⟩ := hreclaimed.parked fd (hsame.trans hwaiting)
        exact acceptConnection_sound (hreclaimed.unpark (hover.trans hended) (hsame.trans hwaiting))
          (hover.trans hended) choice hremembers hpublic
      · exact hreclaimed

theorem submitAccept_sound (h : s.Sound config []) (hended : s.ended = false) (choice : Choice)
    {listener : Listener} (haccepting : s.accepting listener = false)
    (hready : listener = .public → s.waiting = none) :
    (s.submitAccept config choice listener).Sound config [] := by
  unfold submitAccept
  split_ifs
  · exact h
  · exact h
  · exact h.closing (.fields s.idle s.reclaimStarted s.stopping true s) hended
  · have hring : listener ∉ s.ring.map Prod.fst := fun hmem => by
      rw [h.rung.2 listener hmem] at haccepting
      cases haccepting
    refine ⟨h.owned, ⟨h.listed.1, h.listed.2, h.listed.3, h.listed.4⟩, fun other hflight => ?_,
      ⟨h.rung.1, fun other hmem => ?_⟩, h.fresh, fun d hd => ?_, h.clients, fun hover => ?_⟩
    · by_cases hother : other = listener
      · subst hother
        exact ⟨Function.update_self .., hring⟩
      · simp only [Function.update_of_ne hother] at hflight ⊢
        exact h.flights other hflight
    · by_cases hother : other = listener
      · exact absurd (hother ▸ hmem) hring
      · simp only [Function.update_of_ne hother]
        exact h.rung.2 other hmem
    · have hne : Listener.public ≠ listener := by
        rintro rfl
        rw [hready rfl] at hd
        cases hd
      simp only [Function.update_of_ne hne]
      exact h.parked d hd
    · have hover : s.ended = true := hover
      rw [hended] at hover
      cases hover

theorem queueAccept_sound (h : s.Sound config []) (hended : s.ended = false) (choice : Choice)
    (listener : Listener) : (s.queueAccept config choice listener).Sound config [] := by
  unfold queueAccept
  split
  · exact h
  · rename_i hready
    have haccepting : s.accepting listener = false := by
      simp only [not_or, Bool.not_eq_true] at hready
      exact hready.2
    split
    · exact h
    · rename_i fd hwaiting
      exact serveWaiting_sound h hended choice hwaiting
    · rename_i hnotRedirect hnotPublic
      refine submitAccept_sound h hended choice haccepting fun hpublic => ?_
      cases hwaiting : s.waiting with
      | none => rfl
      | some fd => exact (hnotPublic fd hpublic hwaiting).elim

/-- A completion is taken from the ring. -/
theorem Sound.taken {listener : Listener} {result : Option Nat} {rest : List (Listener × Option Nat)}
    {accepting : Listener → Bool} (h : s.Sound config [])
    (hring : s.ring = (listener, result) :: rest)
    (hrest : ∀ other, other ≠ listener → accepting other = s.accepting other) :
    Sound config result.toList { s with ring := rest, accepting := accepting } := by
  obtain ⟨howned, hlisted, hflights, ⟨hnodup, hrung⟩, hfresh, hparked, hclients, hover⟩ := h
  rw [hring, List.map_cons, List.nodup_cons] at hnodup
  have hother {other : Listener} (hmem : other ∈ rest.map Prod.fst) : other ≠ listener := by
    rintro rfl
    exact hnodup.1 hmem
  have haccepting : s.accepting listener = true :=
    hrung listener (by rw [hring]; exact List.mem_cons_self)
  refine ⟨fun d => ?_, ⟨hlisted.1, hlisted.2, hlisted.3, hlisted.4⟩, fun other hflight => ?_,
    ⟨hnodup.2, fun other hmem => ?_⟩, fun other d hmem => ?_, fun d hd => ?_, hclients, fun hended => ?_⟩
  · show _ = if d < s.delivered.length then 1 else 0
    rw [← howned d]
    simp only [holds, hring, List.count_nil]
    cases result with
    | none => simp
    | some fd =>
        simp only [List.filterMap_cons, Option.toList_some, List.count_cons, List.count_nil]
        omega
  · obtain ⟨hset, hnot⟩ := hflights other hflight
    rw [hring, List.map_cons, List.mem_cons, not_or] at hnot
    exact ⟨(hrest other hnot.1).trans hset, hnot.2⟩
  · refine (hrest other (hother hmem)).trans ?_
    exact hrung other (by rw [hring, List.map_cons]; exact List.mem_cons_of_mem _ hmem)
  · exact hfresh other d (by rw [hring]; exact List.mem_cons_of_mem _ hmem)
  · obtain ⟨hset, hremembers⟩ := hparked d hd
    have hne : Listener.public ≠ listener := by
      rintro rfl
      rw [haccepting] at hset
      cases hset
    exact ⟨(hrest _ hne).trans hset, hremembers⟩
  · obtain ⟨-, hempty, -⟩ := hover hended
    rw [hring] at hempty
    cases hempty

theorem complete_sound {listener : Listener} {result : Option Nat}
    {rest : List (Listener × Option Nat)} (h : s.Sound config [])
    (hring : s.ring = (listener, result) :: rest) (hended : s.ended = false) (choice : Choice)
    (supported : Bool) :
    (complete config choice supported listener result { s with ring := rest }).Sound config [] := by
  have htaken := @Sound.taken _ _ _ _ _ _ _ (Function.update s.accepting listener false) h hring
    fun other hne => Function.update_of_ne hne ..
  unfold complete
  dsimp only
  split
  · split
    · exact htaken
    · exact htaken.closing (.fields _ _ _ true _) hended
  · rename_i fd
    exact acceptConnection_sound htaken hended choice
      (h.fresh listener fd (by rw [hring]; exact List.mem_cons_self)) (Function.update_self ..)

/-- The kernel's answer joins the ring. -/
theorem Sound.answer (h : s.Sound config []) {listener : Listener}
    (hflight : s.inFlight listener = true) (hended : s.ended = false) {result : Option Nat}
    {peers : Listener → Option Peer} {delivered : List Peer}
    (hpeers : ∀ other, other ≠ listener → peers other = s.peers other)
    (hkept : ∀ (d : Nat) (peer : Peer), s.delivered[d]? = some peer → delivered[d]? = some peer)
    (hcount : ∀ d, result.toList.count d + (if d < s.delivered.length then 1 else 0) =
      if d < delivered.length then 1 else 0)
    (hresult : ∀ d, result = some d → ∃ peer, delivered[d]? = some peer ∧ peers listener = some peer) :
    Sound config []
      { s with
        inFlight := Function.update s.inFlight listener false
        peers := peers
        ring := s.ring ++ [(listener, result)]
        delivered := delivered } := by
  obtain ⟨haccepting, hnew⟩ := h.flights listener hflight
  refine ⟨fun d => ?_, ⟨h.listed.1, h.listed.2, h.listed.3, h.listed.4⟩, fun other hother => ?_,
    ⟨?_, fun other hmem => ?_⟩, fun other d hmem => ?_, fun d hd => ?_, fun i d hfd => ?_,
    fun hover => ?_⟩
  · show _ = if d < delivered.length then 1 else 0
    rw [← hcount d, ← h.owned d]
    simp only [holds, List.filterMap_append, List.count_append, List.count_nil]
    cases result with
    | none => simp
    | some fd => simp; omega
  · have hne : other ≠ listener := by
      rintro rfl
      simp at hother
    simp only [Function.update_of_ne hne] at hother
    obtain ⟨hset, hnot⟩ := h.flights other hother
    refine ⟨hset, ?_⟩
    simp only [List.map_append, List.map_cons, List.map_nil, List.mem_append, List.mem_singleton,
      not_or]
    exact ⟨hnot, hne⟩
  · simp only [List.map_append, List.map_cons, List.map_nil]
    exact List.nodup_append.mpr ⟨h.rung.1, List.nodup_singleton _, fun other hmem listener' hmem' => by
      rw [List.mem_singleton.mp hmem']
      rintro rfl
      exact hnew hmem⟩
  · simp only [List.map_append, List.map_cons, List.map_nil, List.mem_append,
      List.mem_singleton] at hmem
    rcases hmem with hmem | rfl
    · exact h.rung.2 other hmem
    · exact haccepting
  · simp only [List.mem_append, List.mem_singleton, Prod.mk.injEq] at hmem
    rcases hmem with hmem | ⟨rfl, rfl⟩
    · obtain ⟨peer, hpeer, hstored⟩ := h.fresh other d hmem
      have hne : other ≠ listener := by
        rintro rfl
        exact hnew (List.mem_map_of_mem hmem)
      exact ⟨peer, hkept d peer hpeer, (hpeers other hne).trans hstored⟩
    · exact hresult d rfl
  · obtain ⟨hset, peer, hpeer, hstored⟩ := h.parked d hd
    have hne : Listener.public ≠ listener := by
      rintro rfl
      rw [haccepting] at hset
      cases hset
    exact ⟨hset, peer, hkept d peer hpeer, (hpeers _ hne).trans hstored⟩
  · obtain ⟨peer, hpeer, hip⟩ := h.clients i d hfd
    exact ⟨peer, hkept d peer hpeer, hip⟩
  · have hover : s.ended = true := hover
    rw [hended] at hover
    cases hover

/-- Everything that is open is closed at the end. -/
theorem Sound.deinit (h : s.Sound config []) (hring : s.ring = []) : s.deinit.Sound config [] := by
  refine ⟨fun d => ?_, ⟨h.listed.1, h.listed.2, fun j hj => ⟨rfl, (h.listed.3 j hj).2⟩,
    fun j hj => ⟨rfl, (h.listed.4 j hj).2⟩⟩, h.flights, h.rung, h.fresh, nofun, fun i d hfd => ?_,
    fun _ => ⟨rfl, hring, fun _ => rfl⟩⟩
  · show _ = if d < s.delivered.length then 1 else 0
    rw [← h.owned d]
    have hslots : (Lib.gather fun i => (s.slots i).fd.toList).count d =
        ∑ i, (s.slots i).fd.toList.count d := by
      rw [Lib.gather, List.count_flatMap, Fin.sum_univ_def]
      rfl
    simp only [holds, State.deinit, List.count_append, hslots, Option.toList_none, List.count_nil,
      Finset.sum_const_zero]
    omega
  · cases hfd

theorem step_sound (h : s.Sound config []) {event : Event n Peer}
    (hstep : s.step config event = some t) : t.Sound config [] := by
  unfold step at hstep
  split at hstep
  · cases hstep
  · rename_i hrunning
    have hended : s.ended = false := Bool.eq_false_iff.mpr hrunning
    cases event with
    | queueAccept listener choice =>
        dsimp only at hstep
        split_ifs at hstep
        obtain rfl := Option.some.inj hstep
        exact queueAccept_sound h hended choice listener
    | deliver listener peer =>
        dsimp only at hstep
        split_ifs at hstep with hflight
        obtain rfl := Option.some.inj hstep
        refine h.answer (by simpa using hflight) hended (fun other hne => Function.update_of_ne hne ..)
          (fun d other hother => ?_) (fun d => ?_) fun d hd => ?_
        · exact List.getElem?_append_left (List.getElem?_eq_some_iff.mp hother).1 ▸ hother
        · simp only [Option.toList_some, List.length_append, List.length_singleton,
            List.count_singleton, beq_iff_eq]
          split_ifs <;> omega
        · obtain rfl := Option.some.inj hd
          exact ⟨peer, by simp, Function.update_self ..⟩
    | refuse listener =>
        dsimp only at hstep
        split_ifs at hstep with hflight
        obtain rfl := Option.some.inj hstep
        exact h.answer (by simpa using hflight) hended (fun _ _ => rfl) (fun _ _ h => h)
          (fun d => by simp) nofun
    | complete choice supported =>
        dsimp only at hstep
        split at hstep
        · cases hstep
        · rename_i listener result rest hring
          split_ifs at hstep
          obtain rfl := Option.some.inj hstep
          exact complete_sound h hring hended choice supported
    | submit i =>
        dsimp only at hstep
        split_ifs at hstep
        obtain rfl := Option.some.inj hstep
        exact h.closing (setSlot_closing rfl rfl rfl) hended
    | retire i =>
        dsimp only at hstep
        split_ifs at hstep
        obtain rfl := Option.some.inj hstep
        exact h.closing (retire_closing i s) hended
    | forceClose i choice =>
        dsimp only at hstep
        split_ifs at hstep
        obtain rfl := Option.some.inj hstep
        exact h.closing (forceClose_closing choice i s) hended
    | queueIdle i =>
        dsimp only at hstep
        split_ifs at hstep
        obtain rfl := Option.some.inj hstep
        exact h.closing (.fields (s.idle ++ [i]) s.reclaimStarted s.stopping s.failed s) hended
    | removeIdle i =>
        dsimp only at hstep
        split_ifs at hstep
        obtain rfl := Option.some.inj hstep
        exact h.closing (.fields (s.idle.erase i) s.reclaimStarted s.stopping s.failed s) hended
    | beginShutdown =>
        dsimp only at hstep
        split_ifs at hstep
        obtain rfl := Option.some.inj hstep
        refine ⟨fun d => ?_, ⟨h.listed.1, h.listed.2, h.listed.3, h.listed.4⟩, h.flights, h.rung,
          h.fresh, nofun, h.clients, fun hover => absurd hover hrunning⟩
        show _ = if d < s.delivered.length then 1 else 0
        rw [← h.owned d]
        simp only [holds, State.beginShutdown, List.count_append, Option.toList_none, List.count_nil]
        omega
    | stopOperations choices =>
        dsimp only at hstep
        split_ifs at hstep
        obtain rfl := Option.some.inj hstep
        exact h.closing (stopOperations_closing choices s) hended
    | fail =>
        dsimp only at hstep
        split_ifs at hstep
        obtain rfl := Option.some.inj hstep
        exact h.closing (.fields s.idle s.reclaimStarted s.stopping true s) hended
    | withdraw listener =>
        dsimp only at hstep
        split_ifs at hstep
        obtain rfl := Option.some.inj hstep
        refine ⟨h.owned, ⟨h.listed.1, h.listed.2, h.listed.3, h.listed.4⟩, fun other hother => ?_, h.rung,
          h.fresh, h.parked, h.clients, fun hover => absurd hover hrunning⟩
        refine h.flights other ?_
        by_cases heq : other = listener
        · subst heq
          simp at hother
        · simpa only [Function.update_of_ne heq] using hother
    | discard =>
        dsimp only at hstep
        split at hstep
        · cases hstep
        · rename_i listener result rest hring
          split_ifs at hstep
          obtain rfl := Option.some.inj hstep
          exact (h.taken hring fun _ _ => rfl).close hended
    | deinit =>
        dsimp only at hstep
        split_ifs at hstep with hready
        obtain rfl := Option.some.inj hstep
        simp only [not_or, Decidable.not_not] at hready
        exact h.deinit hready.1

theorem init_sound (n : Nat) (Peer : Type) (config : Config Peer) (publicSlots : Nat) :
    (init n Peer publicSlots).Sound config [] := by
  refine ⟨fun d => ?_, ⟨(List.nodup_finRange n).filter _, (List.nodup_finRange n).filter _,
    fun i hi => ⟨rfl, ?_⟩, fun i hi => ⟨rfl, ?_⟩⟩, nofun, ⟨List.nodup_nil, nofun⟩, nofun, nofun, nofun,
    nofun⟩
  · simp [holds, init]
  · have := (List.mem_filter.mp hi).2
    simpa [init] using this
  · exact (List.mem_filter.mp hi).2

theorem run_sound {publicSlots : Nat} {events : List (Event n Peer)}
    (hrun : (init n Peer publicSlots).run config events = some s) : s.Sound config [] :=
  Lib.run_invariant (fun _ _ _ h hstep => step_sound h hstep) events _ _
    (init_sound n Peer config publicSlots) hrun

/-- **Descriptors.** In every run each descriptor that the kernel delivered is in exactly one place:
the completion ring, a slot, the place of the one that waits, or closed once.  After `deinit` all are
closed, each once.  A slot records the address of the peer whose accept delivered its descriptor, also
when the descriptor had to wait. -/
theorem descriptors_owned {publicSlots : Nat} {events : List (Event n Peer)}
    (hrun : (init n Peer publicSlots).run config events = some s) :
    (∀ d, s.closed.count d + s.waiting.toList.count d + (s.ring.filterMap Prod.snd).count d +
        (Finset.univ.filter fun i => (s.slots i).fd = some d).card =
          if d < s.delivered.length then 1 else 0) ∧
      (s.ended = true → s.closed.Perm (List.range s.delivered.length)) ∧
      ∀ i d, (s.slots i).fd = some d → ∃ peer, s.delivered[d]? = some peer ∧
        (s.slots i).clientIp = if config.accessLog then config.formatClientIp peer else [] := by
  have h := run_sound hrun
  refine ⟨fun d => ?_, fun hended => ?_, fun i d hfd => ?_⟩
  · have howned := h.owned d
    rw [List.count_nil, Nat.add_zero, holds] at howned
    rw [← howned, Finset.card_filter]
    congr 1
    refine Finset.sum_congr rfl fun i _ => ?_
    cases (s.slots i).fd with
    | none => simp
    | some fd => simp [List.count_singleton]
  · obtain ⟨hwaiting, hring, hslots⟩ := h.quiet hended
    refine List.perm_iff_count.mpr fun d => ?_
    have howned := h.owned d
    simp only [holds, hwaiting, hring, hslots, Option.toList_none, List.count_nil, List.filterMap_nil,
      Finset.sum_const_zero, Nat.add_zero] at howned
    rw [howned, List.count_range]
  · obtain ⟨peer, hpeer, hip⟩ := h.clients i d hfd
    exact ⟨peer, hpeer, hip⟩

def sample : Config Nat :=
  { accessLog := true, idleReclaim := true, formatClientIp := fun peer => [peer.toUInt8] }

attribute [local instance] Lib.one_neZero in
/-- The only slot is idle and has a receive pending when a second connection arrives and waits; a
failure comes after the slot has changed hands. -/
def sampleEvents : List (Event 1 Nat) :=
  [.queueAccept .public {}, .deliver .public 7, .complete {} true, .submit 0, .queueIdle 0,
    .queueAccept .public {}, .deliver .public 8, .complete {} true, .queueAccept .public { cancels := 1 },
    .retire 0, .retire 0, .queueAccept .public {}, .fail, .deinit]

theorem descriptors_owned_sample :
    ∃ s, (init 1 Nat 1).run sample sampleEvents = some s ∧
      ((s.delivered.length = 2 ∧ s.ended = true) ∧ s.closed.Perm (List.range s.delivered.length)) := by
  obtain ⟨s, hrun, hended⟩ : ∃ s, (init 1 Nat 1).run sample sampleEvents = some s ∧
      s.delivered.length = 2 ∧ s.ended = true := ⟨_, rfl, by decide⟩
  exact ⟨s, hrun, hended, (descriptors_owned hrun).2.1 hended.2⟩

end State

end Accepting

end Zhtps
