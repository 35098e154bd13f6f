import Mathlib.Data.List.Perm.Basic
import Zhtps.Worker.Step

/-!
The bookkeeping of a slot: `pending` counts the operations the kernel holds and the tasks that
borrow the slot's storage, and each kind of operation is submitted at most once at a time.
-/

namespace Zhtps.Worker

namespace Connection

/-- The flag that says whether an operation of this kind is pending. -/
def flag (c : Connection) : Kind → Bool
  | .receive => c.receivePending
  | .send => c.sendPending
  | .cancelReceive => c.cancelReceivePending
  | .cancelSend => c.cancelSendPending

/-- Busy streams of the connection's session. -/
def busyStreams (c : Connection) : Nat :=
  match c.http2 with
  | none => 0
  | some session => session.streams.countP fun stream => stream.busy

def ofKind (kind : Kind) (operation : Operation) : Bool := operation.kind == kind

/-- What the flags, the kernel's operations and `pending` say agrees. -/
def Booked (c : Connection) : Prop :=
  c.pending = c.kernel.length + c.responseStreamBusy.toNat + c.busyStreams ∧
    (∀ kind, c.kernel.countP (ofKind kind) = (c.flag kind).toNat) ∧
    ∀ operation ∈ c.kernel,
      operation.generation = c.generation ∧ operation.occupant = c.occupant

/-- The fields `Booked` is about. -/
def ledger (c : Connection) :=
  ((c.pending, c.kernel, c.responseStreamBusy, c.busyStreams),
    (c.receivePending, c.sendPending, c.cancelReceivePending, c.cancelSendPending),
    (c.generation, c.occupant))

theorem Booked.of_ledger {c d : Connection} (h : Booked c) (hd : ledger d = ledger c) :
    Booked d := by
  simp only [ledger, Prod.mk.injEq] at hd
  obtain ⟨⟨hp, hk, hr, hs⟩, ⟨h1, h2, h3, h4⟩, hg, ho⟩ := hd
  refine ⟨by rw [hp, hk, hr, hs]; exact h.1, fun kind => ?_, by rw [hk, hg, ho]; exact h.2.2⟩
  rw [hk, h.2.1 kind]
  cases kind <;> simp only [flag, *]

/-- A new operation, whose flag was clear, keeps the books. -/
theorem Booked.submit {c d : Connection} {operation : Operation} (h : Booked c)
    (hk : d.kernel = c.kernel ++ [operation]) (hp : d.pending = c.pending + 1)
    (hr : d.responseStreamBusy = c.responseStreamBusy) (hs : d.busyStreams = c.busyStreams)
    (hg : d.generation = c.generation) (ho : d.occupant = c.occupant)
    (hog : operation.generation = c.generation) (hoo : operation.occupant = c.occupant)
    (hold : c.flag operation.kind = false) (hset : d.flag operation.kind = true)
    (hother : ∀ kind, kind ≠ operation.kind → d.flag kind = c.flag kind) : Booked d := by
  refine ⟨?_, fun kind => ?_, ?_⟩
  · rw [hp, hk, hr, hs, h.1, List.length_append, List.length_singleton]
    omega
  · rw [hk, List.countP_append, h.2.1 kind]
    by_cases hkind : kind = operation.kind
    · subst hkind
      simp [hold, hset, ofKind]
    · have : ¬operation.kind = kind := fun h => hkind h.symm
      simp [ofKind, this, hother kind hkind]
  · intro o ho'
    rw [hk, List.mem_append, List.mem_singleton] at ho'
    rw [hg, ho]
    rcases ho' with ho' | rfl
    · exact h.2.2 o ho'
    · exact ⟨hog, hoo⟩

theorem Booked.submitReceive {c : Connection} (h : Booked c) (hf : c.receivePending = false) :
    Booked c.submitReceive :=
  h.submit rfl rfl rfl rfl rfl rfl rfl rfl hf rfl (by intro kind; cases kind <;> simp [flag, Connection.submitReceive])

theorem Booked.submitSend {c : Connection} (h : Booked c) (bytes : Bytes)
    (hf : c.sendPending = false) : Booked (c.submitSend bytes) :=
  h.submit rfl rfl rfl rfl rfl rfl rfl rfl hf rfl (by intro kind; cases kind <;> simp [flag, Connection.submitSend])

theorem Booked.submitCancelReceive {c : Connection} (h : Booked c)
    (hf : c.cancelReceivePending = false) : Booked c.submitCancelReceive :=
  h.submit rfl rfl rfl rfl rfl rfl rfl rfl hf rfl
    (by intro kind; cases kind <;> simp [flag, Connection.submitCancelReceive])

theorem Booked.submitCancelSend {c : Connection} (h : Booked c)
    (hf : c.cancelSendPending = false) : Booked c.submitCancelSend :=
  h.submit rfl rfl rfl rfl rfl rfl rfl rfl hf rfl
    (by intro kind; cases kind <;> simp [flag, Connection.submitCancelSend])

/-- A closed slot whose books are empty. -/
theorem Booked.empty {c : Connection} (h : Booked c) (hp : c.pending = 0) :
    c.kernel = [] ∧ c.responseStreamBusy = false ∧ c.busyStreams = 0 ∧
      ∀ kind, c.flag kind = false := by
  have hlen : c.kernel.length = 0 := by have := h.1; omega
  have hnil : c.kernel = [] := List.length_eq_zero_iff.mp hlen
  refine ⟨hnil, ?_, by have := h.1; omega, fun kind => ?_⟩
  · have := h.1
    cases hr : c.responseStreamBusy
    · rfl
    · simp [hr] at this; omega
  · have := h.2.1 kind
    rw [hnil] at this
    cases hk : c.flag kind
    · rfl
    · simp [hk] at this

end Connection

namespace Cell

open Connection

theorem retire_booked {c : Connection} {position : Nat} {operation : Operation} (h : Booked c)
    (ho : c.kernel[position]? = some operation) : Booked (retire position operation c) := by
  obtain ⟨hlt, hget⟩ := List.getElem?_eq_some_iff.mp ho
  have hperm : (operation :: c.kernel.eraseIdx position).Perm c.kernel := by
    rw [← hget]
    exact List.getElem_cons_eraseIdx_perm hlt
  have hcount : ∀ kind, (c.kernel.eraseIdx position).countP (ofKind kind) =
      (c.flag kind).toNat - (if operation.kind = kind then 1 else 0) := by
    intro kind
    have := hperm.countP_eq (ofKind kind)
    rw [List.countP_cons, h.2.1 kind] at this
    by_cases hk : operation.kind = kind
    · simp [ofKind, hk] at this ⊢
      omega
    · simpa [ofKind, hk] using this
  have hlen : (c.kernel.eraseIdx position).length = c.kernel.length - 1 :=
    List.length_eraseIdx_of_lt hlt
  refine ⟨?_, fun kind => ?_, fun o hmem => ?_⟩
  · have h1 := h.1
    cases hk : operation.kind <;>
      · simp only [retire, hk, hlen, busyStreams] at h1 ⊢
        omega
  · have hc := hcount kind
    have hb : (c.flag kind).toNat ≤ 1 := Bool.toNat_le _
    cases hk : operation.kind <;> cases kind <;> simp_all [retire, flag]
  · have hkeep : o ∈ c.kernel := List.mem_of_mem_eraseIdx (by
      cases hk : operation.kind <;> simpa only [retire, hk] using hmem)
    have := h.2.2 o hkeep
    cases hk : operation.kind <;> simpa only [retire, hk] using this

theorem cancelReceive_booked {cell : Cell} (h : Booked cell.connection) :
    Booked cell.cancelReceive.connection := by
  unfold cancelReceive
  split
  · rename_i hc
    exact h.submitCancelReceive (by simpa using hc.2)
  · exact h

theorem cancelSend_booked {cell : Cell} (h : Booked cell.connection) :
    Booked cell.cancelSend.connection := by
  unfold cancelSend
  split
  · rename_i hc
    exact h.submitCancelSend (by simpa using hc.2)
  · exact h

end Cell

end Zhtps.Worker
