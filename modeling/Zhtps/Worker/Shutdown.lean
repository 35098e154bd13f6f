import Zhtps.Worker.Safety

/-!
The end of a worker.  After `stopOperations` it submits nothing and takes no completion of the
executor: what is left is to wait for the operations that the kernel still holds.  Each completion
takes one of them away, one can always complete while any is left, and the last ones close the
connections, so that everything they held is given back.
-/

namespace Zhtps.Worker

variable {n : Nat} {config : Config} {publicSlots : Nat} {options : Admission.Options} {now : Nat}

/-- Whether the worker drains and whether it stops. -/
def Shared.halt (shared : Shared) : Bool × Bool := (shared.draining, shared.stopping)

namespace Shared

@[simp] theorem release_halt (shared : Shared) (decision : Decision) :
    (shared.release decision).halt = shared.halt := by
  unfold release
  split <;> rfl

@[simp] theorem releaseAll_halt (shared : Shared) (permit : Option Decision) :
    (shared.releaseAll permit).halt = shared.halt := by
  cases permit with
  | none => rfl
  | some decision => exact release_halt shared decision

@[simp] theorem recycle_halt (shared : Shared) (address : Nat) :
    (shared.recycle address).halt = shared.halt := by
  unfold recycle
  split <;> rfl

@[simp] theorem destroyAll_halt (shared : Shared) (streams : List Stream) :
    (shared.destroyAll streams).halt = shared.halt := by
  induction streams generalizing shared with
  | nil => rfl
  | cons stream rest ih =>
      refine (ih (shared.destroy stream)).trans ?_
      rw [destroy, recycle_halt, releaseAll_halt]
      cases hbusy : stream.busy <;> rfl

end Shared

namespace Cell

variable {index : Nat} {cell : Cell}

theorem abortEntries_halt (entries : List ResponseBatch.Entry) (shared : Shared) :
    (abortEntries shared entries).halt = shared.halt := by
  induction entries generalizing shared with
  | nil => rfl
  | cons entry rest ih => exact (ih _).trans (Shared.release_halt shared .admitted)

theorem check_halt (cell : Cell) (condition : Bool) (fault : Fault) :
    (cell.check condition fault).shared.halt = cell.shared.halt := by
  unfold check
  split <;> rfl

theorem finishClose_halt (index : Nat) (cell : Cell) :
    (cell.finishClose index).shared.halt = cell.shared.halt := by
  unfold finishClose
  split
  · rfl
  · have hhttp2 : cell.releaseHttp2.shared.halt = cell.shared.halt := by
      unfold releaseHttp2
      split
      · rfl
      · exact Shared.destroyAll_halt cell.shared _
    have hbatch (cell : Cell) : cell.abortBatch.shared.halt = cell.shared.halt := by
      unfold abortBatch
      split
      · rfl
      · exact abortEntries_halt _ cell.shared
    have happlication (cell : Cell) : cell.releaseApplication.shared.halt = cell.shared.halt := by
      unfold releaseApplication
      split
      · rfl
      · exact check_halt cell _ .busy
    have haborted (cell : Cell) : cell.countAborted.shared.halt = cell.shared.halt := by
      unfold countAborted
      split <;> rfl
    have hbuffers (cell : Cell) : cell.releaseConnectionBuffers.shared.halt = cell.shared.halt := by
      unfold releaseConnectionBuffers
      split <;> rfl
    have hfree (cell : Cell) : (cell.freeSlot index).shared.halt = cell.shared.halt := by
      unfold freeSlot
      split <;> rfl
    have hpermit (cell : Cell) : cell.releasePermit.shared.halt = cell.shared.halt :=
      Shared.releaseAll_halt cell.shared _
    refine (hpermit _).trans ((hfree _).trans ((hbuffers _).trans ?_))
    exact (haborted _).trans ((happlication _).trans ((hbatch _).trans hhttp2))

theorem forceClose_halt (index : Nat) (cell : Cell) :
    (cell.forceClose index).shared.halt = cell.shared.halt := by
  refine (finishClose_halt index _).trans ?_
  unfold cancelSend cancelReceive
  split <;> split <;> rfl

end Cell

/-- The tasks that borrow the slot or one of its streams. -/
def Connection.borrowers (c : Connection) : Nat := c.responseStreamBusy.toNat + c.busyStreams

/-- A slot that waits for its operations, or has given everything back. -/
def Connection.Leaves (before c : Connection) : Prop :=
  c.borrowers ≤ before.borrowers ∧ (c.fd.isSome = true → c.phase = .canceling) ∧
    (c.fd = none → c.largeBuffers = [])

namespace Cell

variable {index : Nat} {cell : Cell}

/-- `finishClose` waits, or gives the slot back; the kernel keeps what it has. -/
theorem finishClose_spec (index : Nat) (cell : Cell) :
    (cell.finishClose index).connection.kernel = cell.connection.kernel ∧
      (cell.finishClose index = cell ∨
        (cell.finishClose index).connection.borrowers ≤ cell.connection.borrowers ∧
          (cell.finishClose index).connection.fd = none ∧
          (cell.finishClose index).connection.largeBuffers = []) := by
  by_cases hready : cell.connection.pending ≠ 0 ∨ cell.connection.fd = none
  · rw [finishClose_of_pending hready]
    exact ⟨rfl, Or.inl rfl⟩
  · obtain ⟨hpending, hfd⟩ := not_or.mp hready
    obtain ⟨buffer, initialized, lease, heq⟩ := finishClose_connection index (not_not.mp hpending) hfd
    rw [heq]
    refine ⟨rfl, Or.inr ⟨Nat.add_le_add_left (Nat.zero_le _) _, rfl, rfl⟩⟩

theorem forceClose_leaves (index : Nat) (cell : Cell) (hfd : cell.connection.fd.isSome = true) :
    cell.connection.Leaves (cell.forceClose index).connection := by
  obtain ⟨_, _, _, hs⟩ := cancelSend_connection (cell.abandon index).cancelReceive
  obtain ⟨_, _, _, hr⟩ := cancelReceive_connection (cell.abandon index)
  generalize hcanceled : (cell.abandon index).cancelReceive.cancelSend = canceled at hs
  have hborrowers : canceled.connection.borrowers = cell.connection.borrowers := by
    rw [hs, hr]
    exact congrArg (cell.connection.responseStreamBusy.toNat + ·)
      (busyStreams_abort cell.connection .canceling true)
  rw [forceClose_eq, hcanceled]
  obtain ⟨-, hsame | ⟨hfewer, hclosed, hbuffers⟩⟩ := finishClose_spec index canceled
  · rw [hsame]
    refine ⟨Nat.le_of_eq hborrowers, fun _ => by rw [hs, hr]; rfl, fun hnone => ?_⟩
    have hopen : canceled.connection.fd = cell.connection.fd := by
      rw [hs, hr]
      rfl
    rw [hopen] at hnone
    rw [hnone] at hfd
    cases hfd
  · exact ⟨hborrowers ▸ hfewer, fun hopen => (by rw [hclosed] at hopen; cases hopen), fun _ => hbuffers⟩

end Cell

/-- The operations that the kernel holds for all slots. -/
def operations (w : Worker n) : Nat := ∑ i, (w.slots i).kernel.length

/-- A completion of the kernel for a slot. -/
def Event.completes : Event n → Bool
  | .visit _ (.complete ..) => true
  | _ => false

/-- The worker has stopped, and what is open is closing. -/
structure Stopped (w : Worker n) : Prop where
  halted : w.shared.halt = (true, true)
  resting : w.current = none
  closing : ∀ i, (w.slots i).fd.isSome = true → (w.slots i).phase = .canceling

variable {s t u w next : Worker n} {i : Fin n}

/-- `stopOperations` leaves every slot of the list closed or closing. -/
theorem closeAll_leaves (slots : List (Fin n)) : ∀ {w : Worker n}, slots.Nodup →
    (w.closeAll slots).shared.halt = w.shared.halt ∧ (w.closeAll slots).current = w.current ∧
      (∀ i ∉ slots, (w.closeAll slots).slots i = w.slots i) ∧
      ∀ i ∈ slots, (w.slots i).fd.isSome = true → (w.slots i).Leaves ((w.closeAll slots).slots i) := by
  induction slots with
  | nil => exact fun _ => ⟨rfl, rfl, fun _ _ => rfl, nofun⟩
  | cons i slots ih =>
      intro w hnodup
      obtain ⟨hnot, hnodup⟩ := List.nodup_cons.mp hnodup
      unfold Worker.closeAll
      rw [List.foldl_cons]
      split
      · rename_i hfd
        obtain ⟨hhalt, hcurrent, hothers, hclosed⟩ := @ih (w.put i ((w.cell i).forceClose i.val)) hnodup
        have hother (j : Fin n) (hne : j ≠ i) :
            (w.put i ((w.cell i).forceClose i.val)).slots j = w.slots j := Function.update_of_ne hne ..
        refine ⟨hhalt.trans (Cell.forceClose_halt i.val (w.cell i)), hcurrent, fun j hj => ?_,
          fun j hj hopen => ?_⟩
        · obtain ⟨hne, hj⟩ := not_or.mp (mt List.mem_cons.mpr hj)
          exact (hothers j hj).trans (hother j hne)
        · rcases List.mem_cons.mp hj with rfl | hj
          · have hleaves := Cell.forceClose_leaves j.val (w.cell j) hfd
            have hsame : (w.put j ((w.cell j).forceClose j.val)).slots j =
                ((w.cell j).forceClose j.val).connection := Function.update_self ..
            rw [← hsame, ← hothers j hnot] at hleaves
            exact hleaves
          · have hne : j ≠ i := fun heq => hnot (heq ▸ hj)
            have hleaves := hclosed j hj (by rw [hother j hne]; exact hopen)
            rwa [hother j hne] at hleaves
      · rename_i hfd
        obtain ⟨hhalt, hcurrent, hothers, hclosed⟩ := @ih w hnodup
        refine ⟨hhalt, hcurrent, fun j hj => hothers j fun hin => hj (List.mem_cons_of_mem _ hin),
          fun j hj hopen => ?_⟩
        rcases List.mem_cons.mp hj with rfl | hj
        · exact absurd hopen hfd
        · exact hclosed j hj hopen

/-- What a step of a stopped worker does to a slot. -/
def Connection.Waits (before c : Connection) : Prop :=
  c = before ∨ before.fd.isSome = true ∧ before.Leaves c

/-- A step of a stopped worker completes an operation or leaves the slots alone. -/
structure Ebbs (completes : Bool) (w next : Worker n) : Prop where
  stopped : next.Stopped
  waits : ∀ i, (w.slots i).Waits (next.slots i)
  operations : next.operations + completes.toNat = w.operations

theorem Stopped.same (h : w.Stopped) (hhalt : next.shared.halt = w.shared.halt)
    (hcurrent : next.current = w.current) (hslots : next.slots = w.slots) : Ebbs false w next := by
  refine ⟨⟨hhalt.trans h.halted, hcurrent.trans h.resting, ?_⟩, fun i => Or.inl ?_, ?_⟩
  · rw [hslots]
    exact h.closing
  · rw [hslots]
  · show ∑ i, (next.slots i).kernel.length + 0 = ∑ i, (w.slots i).kernel.length
    rw [hslots, Nat.add_zero]

/-- Nothing idles on a stopped worker. -/
theorem Stopped.not_idle (h : w.Stopped) (hconsistent : w.Consistent config publicSlots) :
    w.shared.idle.first = none := by
  obtain ⟨-, -, -, -, list, hlist, hidle⟩ := hconsistent.1.2.2.2.1
  have hempty : list = [] := List.eq_nil_iff_forall_not_mem.mpr fun j hj => by
    obtain ⟨i, -, hfd, hreading, -⟩ := hidle j hj
    rw [h.closing i hfd] at hreading
    cases hreading
  rw [hlist.2.1, hempty]
  rfl

/-- Only the one slot's operations count. -/
theorem operations_resume (w : Worker n) (i : Fin n) (outcome : Cell × Next) :
    (w.resume i outcome).operations + (w.slots i).kernel.length =
      w.operations + outcome.1.connection.kernel.length := by
  have hafter := Lib.sum_split (fun j => ((w.resume i outcome).slots j).kernel.length) i
  have hbefore := Lib.sum_split (fun j => (w.slots j).kernel.length) i
  have hothers : ∑ j ∈ Finset.univ.erase i, ((w.resume i outcome).slots j).kernel.length =
      ∑ j ∈ Finset.univ.erase i, (w.slots j).kernel.length :=
    Lib.sum_erase_congr fun j hj => by
      rw [show (w.resume i outcome).slots j = w.slots j from Function.update_of_ne hj ..]
  have hself : (w.resume i outcome).slots i = outcome.1.connection := Function.update_self ..
  rw [hself, hothers] at hafter
  unfold operations
  omega

/-- A completion on a slot that is closing. -/
theorem Stopped.complete (h : w.Stopped) (hconsistent : w.Consistent config publicSlots)
    {position : Nat} {result : Result} {outcome : Cell × Next}
    (hcomplete : (w.cell i).complete i.val position result = some outcome) :
    Ebbs true w (w.resume i outcome) := by
  unfold Cell.complete at hcomplete
  split at hcomplete
  · cases hcomplete
  · rename_i operation hoperation
    have hoperation : (w.slots i).kernel[position]? = some operation := hoperation
    have hopen : (w.slots i).fd.isSome = true := by
      by_contra hclosed
      have hkernel := (hconsistent.closed (Option.not_isSome_iff_eq_none.mp hclosed)).1
      rw [hkernel] at hoperation
      cases hoperation
    split at hcomplete
    · cases hcomplete
    · dsimp only at hcomplete
      generalize hchecked : (w.cell i).check _ Fault.complete = checked at hcomplete
      have hconnection : checked.connection = w.slots i := by
        rw [← hchecked, Cell.check_connection]
        rfl
      have hhalt : checked.shared.halt = w.shared.halt := by
        rw [← hchecked]
        exact Cell.check_halt (w.cell i) _ .complete
      rw [hconnection] at hcomplete
      generalize hretired : Cell.retire position operation
        (Cell.recordSent operation result (w.slots i)) = retired at hcomplete
      have hrecorded : ∃ socket, Cell.recordSent operation result (w.slots i) =
          { w.slots i with socket := socket } := by
        unfold Cell.recordSent
        split
        · split
          · exact ⟨_, rfl⟩
          · exact ⟨_, rfl⟩
        · exact ⟨_, rfl⟩
      obtain ⟨socket, hrecorded⟩ := hrecorded
      have hsame : retired.kernel = (w.slots i).kernel.eraseIdx position ∧
          retired.phase = (w.slots i).phase ∧ retired.fd = (w.slots i).fd ∧
            retired.borrowers = (w.slots i).borrowers := by
        rw [← hretired, hrecorded]
        unfold Cell.retire
        cases operation.kind <;> exact ⟨rfl, rfl, rfl, rfl⟩
      obtain ⟨hkernel, hphase, hfd, hborrowers⟩ := hsame
      rw [if_pos (show (checked.setConnection retired).connection.phase = .canceling from
        hphase.trans (h.closing i hopen))] at hcomplete
      obtain rfl := Option.some.inj hcomplete
      obtain ⟨hkept, hends⟩ := Cell.finishClose_spec i.val (checked.setConnection retired)
      have hleaves : (w.slots i).Leaves
          ((checked.setConnection retired).finishClose i.val).connection := by
        rcases hends with hsame | ⟨hfewer, hclosed, hbuffers⟩
        · rw [hsame]
          refine ⟨Nat.le_of_eq hborrowers, fun _ => hphase.trans (h.closing i hopen), fun hnone => ?_⟩
          have hnone : retired.fd = none := hnone
          rw [hfd] at hnone
          rw [hnone] at hopen
          cases hopen
        · exact ⟨hfewer.trans_eq hborrowers, fun hopened => (by rw [hclosed] at hopened; cases hopened),
            fun _ => hbuffers⟩
      have hother (j : Fin n) (hne : j ≠ i) :
          (w.resume i ((checked.setConnection retired).finishClose i.val, .done)).slots j = w.slots j :=
        Function.update_of_ne hne ..
      have hself : (w.resume i ((checked.setConnection retired).finishClose i.val, .done)).slots i =
          ((checked.setConnection retired).finishClose i.val).connection := Function.update_self ..
      refine ⟨⟨?_, rfl, fun j hj => ?_⟩, fun j => ?_, ?_⟩
      · exact ((Cell.finishClose_halt i.val (checked.setConnection retired)).trans hhalt).trans h.halted
      · by_cases hne : j = i
        · subst hne
          rw [hself] at hj ⊢
          exact hleaves.2.1 hj
        · rw [hother j hne] at hj ⊢
          exact h.closing j hj
      · by_cases hne : j = i
        · subst hne
          rw [hself]
          exact Or.inr ⟨hopen, hleaves⟩
        · exact Or.inl (hother j hne)
      · have hcount := operations_resume w i ((checked.setConnection retired).finishClose i.val, .done)
        have hlength : retired.kernel.length + 1 = (w.slots i).kernel.length := by
          have hposition := (List.getElem?_eq_some_iff.mp hoperation).1
          rw [hkernel, List.length_eraseIdx_of_lt hposition]
          omega
        have hkept : ((checked.setConnection retired).finishClose i.val).connection.kernel =
            retired.kernel := hkept
        simp only [hkept] at hcount
        rw [Bool.toNat_true]
        omega

theorem Stopped.step (h : w.Stopped) (hconsistent : w.Consistent config publicSlots) {event : Event n}
    (hevent : ∀ i keepalive, event ≠ .visit i (.shutdown keepalive))
    (hstep : w.step config event = some next) : Ebbs event.completes w next := by
  obtain ⟨hdraining, hstopping⟩ := Prod.mk.inj h.halted
  cases event with
  | call choice =>
      simp only [Worker.step, h.resting, Option.map_none] at hstep
      cases hstep
  | visit i visit =>
      simp only [Worker.step, h.resting, Option.isSome_none, Bool.false_eq_true, if_false] at hstep
      obtain ⟨outcome, hvisit, rfl⟩ := Option.map_eq_some_iff.mp hstep
      have hstop : (w.cell i).shared.stopping = true := hstopping
      have hdrain : (w.cell i).shared.draining = true := hdraining
      cases visit with
      | complete position result => exact h.complete hconsistent hvisit
      | accept fd redirect secured choice =>
          simp only [Cell.visit, Cell.acceptConnection, hdrain, true_or, if_true] at hvisit
          cases hvisit
      | finishApplication choice =>
          simp only [Cell.visit, hstop, if_true] at hvisit
          cases hvisit
      | pumpApplication =>
          simp only [Cell.visit, hstop, true_or, if_true] at hvisit
          cases hvisit
      | tick clock =>
          simp only [Cell.visit, hstop, true_or, if_true] at hvisit
          cases hvisit
      | inspected status response =>
          simp only [Cell.visit, hstop, true_or, if_true] at hvisit
          cases hvisit
      | reclaim =>
          have hidle : (w.cell i).shared.idle.first = none := h.not_idle hconsistent
          simp only [Cell.visit, hidle] at hvisit
          cases hvisit
      | shutdown keepalive => exact absurd rfl (hevent i keepalive)
  | refill now =>
      simp only [Worker.step, h.resting, Option.isSome_none, Bool.false_eq_true, if_false] at hstep
      obtain rfl := Option.some.inj hstep
      exact h.same rfl h.resting.symm rfl
  | beginShutdown =>
      simp only [Worker.step, h.resting, Option.isSome_none, Bool.false_eq_true, if_false] at hstep
      obtain rfl := Option.some.inj hstep
      exact h.same (by rw [Shared.halt, Shared.halt, hdraining]) h.resting.symm rfl
  | stopOperations late =>
      simp only [Worker.step, hstopping, true_or, or_true, if_true] at hstep
      cases hstep
  | takeTask lane =>
      obtain ⟨executor, -, rfl⟩ := Option.map_eq_some_iff.mp hstep
      exact h.same rfl rfl rfl
  | pushCompletion index position response expired =>
      simp only [Worker.step] at hstep
      split at hstep
      · cases hstep
      · split at hstep
        · cases hstep
        · obtain rfl := Option.some.inj hstep
          exact h.same rfl rfl rfl

theorem Connection.Waits.trans {first second third : Connection} (h : first.Waits second)
    (hnext : second.Waits third) : first.Waits third := by
  rcases hnext with rfl | ⟨hopen, hleaves⟩
  · exact h
  · rcases h with rfl | ⟨hfirst, hfewer, -, -⟩
    · exact Or.inr ⟨hopen, hleaves⟩
    · exact Or.inr ⟨hfirst, hleaves.1.trans hfewer, hleaves.2⟩

/-- Along a run each completion takes one of the operations away. -/
theorem Stopped.run (hconsistent : w.Consistent config publicSlots) (h : w.Stopped)
    {events : List (Event n)} (hevents : ∀ i keepalive, Event.visit i (.shutdown keepalive) ∉ events)
    (hrun : w.run config events = some next) :
    next.Stopped ∧ (∀ i, (w.slots i).Waits (next.slots i)) ∧
      next.operations + events.countP Event.completes = w.operations := by
  induction events generalizing w with
  | nil =>
      obtain rfl := Option.some.inj hrun
      exact ⟨h, fun _ => Or.inl rfl, rfl⟩
  | cons event events ih =>
      obtain ⟨middle, hstep, hrest⟩ := Lib.run_cons.mp hrun
      have hebbs := h.step hconsistent
        (fun i keepalive heq => hevents i keepalive (heq ▸ List.mem_cons_self ..)) hstep
      obtain ⟨hstopped, hwaits, hcount⟩ := ih (step_consistent hconsistent hstep) hebbs.stopped
        (fun i keepalive hmem => hevents i keepalive (List.mem_cons_of_mem _ hmem)) hrest
      refine ⟨hstopped, fun i => (hebbs.waits i).trans (hwaits i), ?_⟩
      have hfirst := hebbs.operations
      rw [List.countP_cons]
      cases hcompletes : event.completes <;> rw [hcompletes] at hfirst
      · rw [Bool.toNat_false] at hfirst
        simp only [Bool.false_eq_true, if_false]
        omega
      · rw [Bool.toNat_true] at hfirst
        simp only [if_true]
        omega

/-- What `stopOperations` makes of a worker. -/
theorem stopOperations_stops (hconsistent : w.Consistent config publicSlots) {late : Bool}
    (hstep : w.step config (.stopOperations late) = some next) :
    next.Stopped ∧ (∀ i, (w.slots i).Waits (next.slots i)) ∧
      (config.app.isIsolated = true → ∀ i, (w.slots i).borrowers = 0) := by
  simp only [Worker.step] at hstep
  split at hstep
  · cases hstep
  · rename_i hready
    simp only [not_or, Bool.not_eq_true', Bool.not_eq_false, Bool.or_eq_true, Bool.and_eq_true,
      List.isEmpty_iff] at hready
    obtain ⟨hidle, hdraining, -, hquiet⟩ := hready
    have hnone : w.current = none := by simpa using hidle
    obtain rfl := Option.some.inj hstep
    obtain ⟨hhalt, hcurrent, -, hclosed⟩ := @closeAll_leaves n (List.finRange n)
      { w with shared := { w.shared with stopping := true } } (List.nodup_finRange n)
    have hwaits (i : Fin n) : (w.slots i).Waits
        ((closeAll { w with shared := { w.shared with stopping := true } } (List.finRange n)).slots i) := by
      cases hopen : (w.slots i).fd.isSome with
      | true => exact Or.inr ⟨hopen, hclosed i (List.mem_finRange i) hopen⟩
      | false =>
          refine Or.inl ?_
          have hkeeps : ∀ slots : List (Fin n), ∀ w : Worker n, (w.slots i).fd.isSome = false →
              (w.closeAll slots).slots i = w.slots i := by
            intro slots
            induction slots with
            | nil => exact fun _ _ => rfl
            | cons j slots ih =>
                intro w hi
                unfold Worker.closeAll
                rw [List.foldl_cons]
                split
                · rename_i hj
                  have hne : i ≠ j := by
                    rintro rfl
                    rw [hi] at hj
                    cases hj
                  have hsame : (w.put j ((w.cell j).forceClose j.val)).slots i = w.slots i :=
                    Function.update_of_ne hne ..
                  exact (ih _ (by rw [hsame]; exact hi)).trans hsame
                · exact ih w hi
          exact hkeeps (List.finRange n) _ hopen
    refine ⟨⟨?_, hcurrent.trans hnone, fun i hopen => ?_⟩, hwaits, fun hiso i => ?_⟩
    · rw [hhalt, Shared.halt, hdraining]
    · rcases hwaits i with hsame | ⟨-, hleaves⟩
      · rw [hsame] at hopen ⊢
        have hleaves := hclosed i (List.mem_finRange i) hopen
        rw [hsame] at hleaves
        exact hleaves.2.1 hopen
      · exact hleaves.2.1 hopen
    · cases hopen : (w.slots i).fd.isSome with
      | false =>
          have hclosed := hconsistent.closed (Option.not_isSome_iff_eq_none.mp (by rw [hopen]; rintro ⟨⟩))
          unfold Connection.borrowers Connection.busyStreams
          rw [hclosed.2.2.1, hclosed.2.2.2.2.1]
          rfl
      | true =>
          have hactive : i.val ∈ w.shared.activeSlots :=
            (hconsistent.1.2.2.2.1.1.2 i.val).mpr ⟨i, rfl, hopen⟩
          rcases hquiet with hempty | ⟨-, hwork⟩
          · rw [hempty] at hactive
            cases hactive
          · simp only [hasApplicationWork, hiso, Bool.true_and, decide_eq_false_iff_not, not_exists,
              not_and] at hwork
            have hidles := hwork i (List.contains_iff_mem.mpr hactive)
            simp only [working, Bool.not_eq_true, Bool.or_eq_false_iff] at hidles
            obtain ⟨⟨hstreams, -⟩, hbusy⟩ := hidles
            unfold Connection.borrowers Connection.busyStreams
            rw [hbusy]
            cases hsession : (w.slots i).http2 with
            | none => rfl
            | some session =>
                rw [hsession, Option.any_some, List.any_eq_false] at hstreams
                rw [Bool.toNat_false, Nat.zero_add]
                exact List.countP_eq_zero.mpr hstreams

/-- An operation that a closing connection waits for can complete. -/
theorem Stopped.completable (h : w.Stopped) (hconsistent : w.Consistent config publicSlots)
    (hkernel : (w.slots i).kernel ≠ []) :
    ∃ result, (w.step config (.visit i (.complete 0 result))).isSome = true := by
  obtain ⟨operation, rest, hcons⟩ := List.exists_cons_of_ne_nil hkernel
  have hopen : (w.slots i).fd.isSome = true := by
    by_contra hclosed
    exact hkernel (hconsistent.closed (Option.not_isSome_iff_eq_none.mp hclosed)).1
  obtain ⟨result, hvalid, htakes⟩ : ∃ result, Cell.validResult operation result = true ∧
      Cell.takesAtMost operation (w.slots i) result = true := by
    by_cases hsend : operation.kind = .send
    · exact ⟨.sent none, decide_eq_true hsend, rfl⟩
    · exact ⟨.received .canceled, decide_eq_true hsend, rfl⟩
  refine ⟨result, ?_⟩
  have hvalid : (!Cell.validResult operation result) = false := by rw [hvalid]; rfl
  have htakes : (!Cell.takesAtMost operation (w.cell i).connection result) = false := by
    rw [show Cell.takesAtMost operation (w.cell i).connection result = true from htakes]
    rfl
  have hfirst : (w.cell i).connection.kernel[0]? = some operation := by
    show (w.slots i).kernel[0]? = _
    rw [hcons]
    rfl
  simp only [Worker.step, h.resting, Option.isSome_none, Bool.false_eq_true, if_false, Option.isSome_map,
    Cell.visit, Cell.complete, hfirst, hvalid, htakes, or_self]
  split
  · rfl
  · split <;> rfl

/-- Once nothing is left to wait for, no slot is open. -/
theorem Stopped.closed (h : w.Stopped) (hconsistent : w.Consistent config publicSlots)
    (hnone : w.operations = 0) (hfree : (w.slots i).borrowers = 0) : (w.slots i).fd = none := by
  by_contra hfd
  have hopen : (w.slots i).fd.isSome = true := Option.isSome_iff_ne_none.mpr hfd
  have hrest := hconsistent.rest h.resting i
  rw [Connection.Rest, if_pos hopen] at hrest
  simp only [Connection.AtRest, h.closing i hopen] at hrest
  have hkernel : (w.slots i).kernel.length = 0 := Finset.sum_eq_zero_iff.mp hnone i (Finset.mem_univ i)
  have hpending := (hconsistent.2.1 i).1.1
  rw [hkernel, Nat.zero_add] at hpending
  exact hrest (hpending.trans hfree)

/-- **The end of a run.**  After `stopOperations` each completion takes one of the kernel's operations
away and none is added, and as long as one is left it can complete.  When none is left, and no task
borrows a slot, as is always so where the application is isolated, everything is given back: no
connection is open, no permit is taken, each request is completed or aborted, no stream is alive, and
the connections that were open have no large buffer. -/
theorem shutdown_drains {before after : List (Event n)} {late : Bool}
    (hbefore : (init n config publicSlots options now).run config before = some s)
    (hstop : s.step config (.stopOperations late) = some t) (hafter : t.run config after = some u)
    (hloop : ∀ i keepalive, Event.visit i (.shutdown keepalive) ∉ after) :
    u.operations + after.countP Event.completes = t.operations ∧
      (∀ i, (u.slots i).kernel ≠ [] →
        ∃ result, (u.step config (.visit i (.complete 0 result))).isSome = true) ∧
      (config.app.isIsolated = true → ∀ i, (u.slots i).borrowers = 0) ∧
      (u.operations = 0 → (∀ i, (u.slots i).borrowers = 0) →
        (∀ i, (u.slots i).fd = none ∧ ((s.slots i).fd.isSome = true → (u.slots i).largeBuffers = [])) ∧
          u.shared.activeSlots = [] ∧
          u.shared.admission.active = 0 ∧ u.shared.admission.rejecting = 0 ∧
          u.shared.requestsTotal = u.shared.requestsCompletedTotal + u.shared.requestsAbortedTotal ∧
          u.shared.http2Streams = 0) := by
  have hconsistent := run_consistent hbefore
  have hstopped := step_consistent hconsistent hstop
  have hend : u.Consistent config publicSlots :=
    Lib.run_invariant (fun _ _ _ h hstep => step_consistent h hstep) after _ _ hstopped hafter
  obtain ⟨hstop, hfirst, hquiet⟩ := stopOperations_stops hconsistent hstop
  obtain ⟨hlast, hrest, hcount⟩ := hstop.run hstopped hloop hafter
  have hwaits (i : Fin n) : (s.slots i).Waits (u.slots i) := (hfirst i).trans (hrest i)
  refine ⟨hcount, fun i hkernel => hlast.completable hend hkernel, fun hiso i => ?_, fun hnone hfree => ?_⟩
  · rcases hwaits i with hsame | ⟨-, hfewer, -⟩
    · rw [hsame]
      exact hquiet hiso i
    · exact Nat.le_zero.mp (hfewer.trans_eq (hquiet hiso i))
  · have hclosed (i : Fin n) : (u.slots i).fd = none := hlast.closed hend hnone (hfree i)
    have hempty : u.shared.activeSlots = [] := List.eq_nil_iff_forall_not_mem.mpr fun j hj => by
      obtain ⟨i, -, hopen⟩ := (hend.1.2.2.2.1.1.2 j).mp hj
      rw [Open, hclosed i] at hopen
      cases hopen
    have hheld := hend.nothing_held hempty
    obtain ⟨hactive, hrejecting, htotal⟩ := hend.1.1
    refine ⟨fun i => ⟨hclosed i, fun hopen => ?_⟩, hempty, ?_, ?_, ?_, ?_⟩
    · rcases hwaits i with hsame | ⟨-, hleaves⟩
      · rw [← hsame, hclosed i] at hopen
        cases hopen
      · exact hleaves.2.2 (hclosed i)
    · exact hactive.trans (Finset.sum_eq_zero fun i _ => (hheld i).1)
    · exact hrejecting.trans (Finset.sum_eq_zero fun i _ => (hheld i).2.1)
    · rw [htotal, Finset.sum_eq_zero fun i _ => (hheld i).2.2, Nat.add_zero]
    · obtain ⟨-, -, -, -, -, hstreams, -⟩ := hend.1.2.2.2.2.1
      refine hstreams.trans (Finset.sum_eq_zero fun i _ => ?_)
      rw [(hend.closed (hclosed i)).streams]
      rfl

attribute [local instance] Lib.two_neZero in
/-- A connection waits for its first bytes when the worker stops. -/
def sampleOpen : List (Event 2) :=
  [.visit 0 (.accept 7 false false {}), .call {}, .beginShutdown]

attribute [local instance] Lib.two_neZero in
/-- The kernel gives the receive and its cancellation back. -/
def sampleDrain : List (Event 2) :=
  [.visit 0 (.complete 1 (.received .canceled)), .visit 0 (.complete 0 (.received .canceled))]

theorem shutdown_drains_sample : ∃ s t u : Worker 2,
    (init 2 sample 1 {} 0).run sample sampleOpen = some s ∧
      s.step sample (.stopOperations true) = some t ∧ t.run sample sampleDrain = some u ∧
        u.operations + 2 = t.operations := by
  obtain ⟨s, hbefore⟩ := Option.isSome_iff_exists.mp
    (by decide +kernel : ((init 2 sample 1 {} 0).run sample sampleOpen).isSome = true)
  obtain ⟨u, hall⟩ := Option.isSome_iff_exists.mp (by decide +kernel :
    ((init 2 sample 1 {} 0).run sample (sampleOpen ++ .stopOperations true :: sampleDrain)).isSome = true)
  rw [run, Lib.run_append, show Lib.run (step sample) (init 2 sample 1 {} 0) sampleOpen = some s from hbefore,
    Option.bind_some] at hall
  obtain ⟨t, hstop, hafter⟩ := Lib.run_cons.mp hall
  refine ⟨s, t, u, hbefore, hstop, hafter, (shutdown_drains hbefore hstop hafter ?_).1⟩
  intro i keepalive hmem
  simp only [sampleDrain, List.mem_cons, Event.visit.injEq, reduceCtorEq, and_false, List.not_mem_nil,
    or_self] at hmem

end Zhtps.Worker
