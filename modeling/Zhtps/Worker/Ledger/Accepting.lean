import Zhtps.Worker.Ledger.Returning

/-!
A new connection takes a free slot: the slot leaves its free list for the active ones, and a public
one gets a block for its own buffers.  With it every visit keeps the contract and the ledger.
-/

namespace Zhtps.Worker

namespace Places

/-- The first element leaves a list. -/
theorem tail {index : Nat} {list : List Nat} {here there : Prop} {members : Nat → Prop}
    (h : Places index list here members) (hhead : list.head? = some index) (hthere : ¬there) :
    Places index list.tail there members := by
  obtain ⟨hnodup, -, hmembers⟩ := h
  obtain ⟨rest, rfl⟩ : ∃ rest, list = index :: rest := by
    cases list with
    | nil => cases hhead
    | cons first rest =>
        cases hhead
        exact ⟨rest, rfl⟩
  have hnot := (List.nodup_cons.mp hnodup).1
  refine ⟨(List.nodup_cons.mp hnodup).2, ⟨fun hin => absurd hin hnot, fun h => absurd h hthere⟩,
    fun j hne => ?_⟩
  rw [← hmembers j hne, List.tail_cons, List.mem_cons]
  exact ⟨Or.inr, fun h => h.resolve_left hne⟩

end Places

namespace Cell

open Connection

variable {config : Config} {others : Others} {index : Nat} {cell : Cell}

/-- The slot's own buffers come from the pool of connection blocks. -/
theorem acquireConnectionBuffers_eq {granted : Bool} {address : Nat} {next : Cell}
    (h : cell.Stocked config others) (hsmall : cell.connection.smallBlock = none)
    (hnext : cell.acquireConnectionBuffers granted address = some next) :
    ∃ buffers small, next =
        { shared := { cell.shared with buffers := buffers }
          connection := { cell.connection with smallBlock := small } } ∧
      next.Stocked config others := by
  obtain ⟨hactive, hbudget, hpools, hsmalls⟩ := h
  rw [hsmall] at hsmalls
  have hcount : (none : Option Nat).isSome.toNat + others.smallBlocks = others.smallBlocks :=
    Nat.zero_add _
  rw [hcount] at hsmalls
  unfold acquireConnectionBuffers at hnext
  dsimp only at hnext
  split at hnext
  · cases hnext
    refine ⟨cell.shared.buffers, cell.connection.smallBlock, rfl, hactive, hbudget, hpools, ?_⟩
    rw [hsmall, hcount]
    exact hsmalls
  · split at hnext
    · rename_i pool block hlend
      cases hnext
      refine ⟨_, _, rfl, hactive, hbudget, hpools, ?_⟩
      have := (hsmalls.lend hlend).1
      simpa [Nat.add_comm] using this
    · cases hnext

/-- A slot at the end of the active ones is found there. -/
theorem located_append {list : List Nat} {position : Nat → Nat} (h : Lib.Located list position)
    (hnew : index ∉ list) :
    Lib.Located (list ++ [index]) fun j => if j = index then list.length else position j := by
  intro x hx
  dsimp only
  rcases List.mem_append.mp hx with hx | hx
  · have hne : x ≠ index := fun heq => hnew (heq ▸ hx)
    have hget := h x hx
    rw [if_neg hne, List.getElem?_append_left (List.getElem?_eq_some_iff.mp hget).1]
    exact hget
  · rw [List.mem_singleton.mp hx, if_pos rfl]
    simp

/-- The lists of slots once the slot is taken. -/
theorem activate_listed (h : cell.Listed others index) (hfd : cell.connection.fd = none)
    (hidle : cell.shared.idle.queued index = false)
    (hhead : cell.freeList.head? = some index) {c : Connection} (hc : c.fd.isSome = true)
    (hadmin : c.admin = cell.connection.admin) :
    Listed others index ⟨(cell.activate index).shared, c⟩ := by
  obtain ⟨hactive, hloc, hpub, hadm, hwaits⟩ := h
  have hnew : index ∉ cell.shared.activeSlots := fun hin => by
    have := hactive.2.1.mp hin
    rw [hfd] at this
    cases this
  have hopen : ¬c.fd = none := fun h => by rw [h] at hc; cases hc
  have hnone : ¬(c.fd = none ∧ c.admin = false) := fun h => hopen h.1
  have hnone' : ¬(c.fd = none ∧ c.admin = true) := fun h => hopen h.1
  refine ⟨⟨?_, ⟨fun _ => hc, fun _ => ?_⟩, fun j hne => ?_⟩, ⟨located_append hloc.1 hnew,
      hadmin.trans hloc.2⟩, ?_, ?_,
    hwaits.of_not_queued hidle⟩
  · exact (List.nodup_append.mpr ⟨hactive.1, List.nodup_singleton _, fun x hx y hy => by
      rw [List.mem_singleton.mp hy]
      exact fun heq => hnew (heq ▸ hx)⟩)
  · exact List.mem_append_right _ (List.mem_singleton_self _)
  · rw [← hactive.2.2 j hne]
    simp [activate, hne]
  · dsimp only [activate]
    cases hkind : cell.connection.admin with
    | true =>
        rw [if_pos rfl]
        exact hpub.congr (by simp [hkind, hopen])
    | false =>
        rw [freeList, hkind, if_neg nofun] at hhead
        rw [if_neg nofun]
        exact hpub.tail hhead hnone
  · dsimp only [activate]
    cases hkind : cell.connection.admin with
    | true =>
        rw [freeList, hkind, if_pos rfl] at hhead
        rw [if_pos rfl]
        exact hadm.tail hhead hnone'
    | false =>
        rw [if_neg nofun]
        exact hadm.congr (by simp [hkind, hopen])

/-- A slot that was taken reads its first request. -/
theorem openSlot_carried (fd : Nat) (redirect : Bool) {granted : Bool} {address : Nat} {next : Cell}
    (h : cell.Rests config others index) (hfree : cell.connection.fd = none)
    (hhead : cell.freeList.head? = some index)
    (hnext : cell.acquireConnectionBuffers granted address = some next) :
    Booked ((next.activate index).openSlot config fd redirect).connection ∧
      ((next.activate index).openSlot config fd redirect).Settled config others index false ∧
      ((next.activate index).openSlot config fd redirect).connection.Reads config ∧
      ((next.activate index).openSlot config fd redirect).connection.requestStarted = false ∧
      ((next.activate index).openSlot config fd redirect).connection.batch = none ∧
      ((next.activate index).openSlot config fd redirect).shared.idle.queued index = false := by
  obtain ⟨hrest, hb, ⟨⟨hactive, hrejecting, htotal⟩, hsane, ⟨htasks, hperm, -, htickets⟩, hlisted,
    hhosted, hstocked, -, -, -, -, hvacant, hadmin⟩, -, hhonors⟩ := h
  rw [Rest, if_neg (by rw [hfree]; rintro ⟨⟩)] at hrest
  obtain ⟨hkernel, hpending, hbusy, hbatch, hhttp2, hpermit, htls⟩ := hrest
  obtain ⟨-, -, -, hflags⟩ := hb.empty hpending
  obtain ⟨hsmall, hbuffer⟩ := hvacant hfree
  obtain ⟨buffers, small, rfl, hstocks⟩ := acquireConnectionBuffers_eq hstocked hsmall hnext
  -- The slot is free, so that no task borrows it.
  have hnoloans : cell.connection.loans true = [] := by
    simp [loans, hfree, hbusy, Connection.streams, hhttp2]
  have hnotasks : cell.shared.executor.tasks index = [] := by
    rw [hnoloans] at hperm
    exact List.map_eq_nil_iff.mp hperm.eq_nil
  have hidle : cell.shared.idle.queued index = false := by
    obtain ⟨list, hlist, hin, -⟩ := hlisted.2.2.2.2
    refine hlist.queued_eq_false.mpr fun hmem => ?_
    have := (hin hmem).1
    rw [hfree] at this
    cases this
  unfold openSlot
  generalize hstarted : (Cell.setConnection (Cell.activate index
    { shared := { cell.shared with buffers := buffers }
      connection := { cell.connection with smallBlock := small } })
    (openFields fd redirect (Cell.activate index
      { shared := { cell.shared with buffers := buffers }
        connection := { cell.connection with smallBlock := small } }).connection)) = started
  have hopen : started.connection.Http1 := by
    rw [← hstarted]
    exact ⟨rfl, hhttp2⟩
  have hbooks : Booked started.connection := by
    rw [← hstarted]
    refine ⟨?_, fun kind => ?_, fun operation hmem => ?_⟩
    · simp [setConnection, openFields, activate, hkernel, hbusy, busyStreams, hhttp2]
    · cases kind <;> simp [setConnection, openFields, activate, hkernel, flag]
    · simp [setConnection, openFields, activate, hkernel] at hmem
  have hbatched : started.connection.Batched config := by
    rw [← hstarted]
    intro batch (hsome : cell.connection.batch = some batch)
    rw [hbatch] at hsome
    cases hsome
  have hreads : Connection.Reads config
      { (started.prepareRequest config).connection with phase := .reading } :=
    prepareRequest_reads hopen (by rw [← hstarted]; exact ⟨rfl, rfl⟩) (by rw [← hstarted]; rfl)
      (by rw [← hstarted]; exact hbuffer) hbatched
  have hphase : (started.prepareRequest config).connection.phase = .reading := by
    obtain ⟨_, _, _, _, heq⟩ := prepareRequest_eq config started
    rw [heq, ← hstarted]
    rfl
  have hprepared : Booked { (started.prepareRequest config).connection with phase := .reading } :=
    prepareRequest_booked hbooks (by rw [← hstarted]; exact hbusy)
  have hsame : ({ (started.prepareRequest config).connection with phase := .reading } :
      Connection) = (started.prepareRequest config).connection := by
    rw [← hphase]
  rw [hsame] at hreads hprepared
  have hstockedNext : (started.prepareRequest config).Stocked config others :=
    prepareRequest_stocked (by rw [← hstarted]; exact hstocks)
  obtain ⟨buffers', large, lease, parser, heq⟩ := prepareRequest_eq config started
  refine ⟨hprepared.of_ledger rfl, ?_, hreads, ?_, ?_, ?_⟩
  · have hlists : Listed others index
        ⟨(cell.activate index).shared, started.connection⟩ :=
      activate_listed hlisted hfree hidle hhead hopen.1 (by rw [← hstarted]; rfl)
    rw [heq] at hstockedNext ⊢
    subst hstarted
    refine ⟨⟨⟨?_, ?_, ?_⟩, hsane, ⟨htasks, ?_, ?_, htickets⟩, ?_, ?_, hstockedNext, ?_, ?_, ?_, ?_,
      by rintro ⟨⟩, fun _ => ⟨hhttp2, rfl⟩⟩, Sounds.of_http1 hhttp2, Honors.of_quiet hhonors hbusy hhttp2⟩
    · simpa [admits, batched, Connection.streams, hhttp2, hbatch, hpermit, setConnection, activate,
        openFields] using hactive
    · simpa [rejects, Connection.streams, hhttp2, hpermit, setConnection, activate, openFields]
        using hrejecting
    · simpa [live, requesting, batched, Connection.streams, hhttp2, hbatch, hfree, setConnection,
        activate, openFields] using htotal
    · have : ({ cell.shared.executor with } : Executor).tasks index = [] := hnotasks
      simp [loans, Connection.streams, hhttp2, setConnection, activate, openFields, hnotasks]
    · intro task hmem
      have hmem' : task ∈ cell.shared.executor.tasks index := hmem
      rw [hnotasks] at hmem'
      cases hmem'
    · obtain ⟨list, hlist, -, hothers⟩ := hlists.2.2.2.2
      refine ⟨hlists.1, hlists.2.1, hlists.2.2.1, hlists.2.2.2.1, list, hlist, fun hmem => ?_,
        hothers⟩
      exact absurd hmem (hlist.queued_eq_false.mp hidle)
    · simpa [Hosted, addresses, serials, Connection.streams, hhttp2, setConnection, activate,
        openFields] using hhosted
    · intro batch (hsome : cell.connection.batch = some batch)
      rw [hbatch] at hsome
      cases hsome
    · intro stream hmem
      simp [Connection.streams, hhttp2, setConnection, activate, openFields] at hmem
    · intro session (hsome : cell.connection.http2 = some session)
      rw [hhttp2] at hsome
      cases hsome
    · simp [backed, hbuffer, setConnection, activate, openFields]
  · rw [heq]
    rfl
  · rw [heq, ← hstarted]
    exact hbatch
  · rw [heq, ← hstarted]
    exact hidle

theorem acceptConnection_visits {choice : Choice} {fd : Nat} {redirect secured : Bool}
    {outcome : Cell × Next} (h : cell.Rests config others index)
    (haccept : cell.acceptConnection config choice index fd redirect secured = some outcome) :
    Visits config others index outcome := by
  unfold acceptConnection at haccept
  split at haccept
  · cases haccept
  · rename_i hready
    simp only [not_or, Decidable.not_not] at hready
    have hhead := hready.2
    -- A slot on a free list is free.
    have hfree : cell.connection.fd = none := by
      obtain ⟨-, -, hpub, hadm, -⟩ := h.2.2.1.listed
      have hin := List.mem_of_mem_head? hhead
      unfold freeList at hin
      split at hin
      · exact (hadm.2.1.mp hin).1
      · exact (hpub.2.1.mp hin).1
    obtain ⟨next, hnext, houtcome⟩ := Option.map_eq_some_iff.mp haccept
    subst houtcome
    obtain ⟨hbooked, hsettled, hreads, hs, hbatch, hidle⟩ :=
      openSlot_carried fd redirect h hfree hhead hnext
    dsimp only
    generalize (next.activate index).openSlot config fd redirect = opened at *
    split
    · rename_i hsecure
      split
      · -- The handshake reads and writes through the session before the first request.
        have hpublic : opened.connection.admin = false := by simpa using hsecure.2.1
        exact ⟨⟨hbooked.of_ledger rfl, hreads.1, hreads.2.2.2.1, .handshake, rfl,
          rfl, ⟨hreads.2.2.1, hs, hbatch⟩, hpublic⟩,
          hsettled.update hidle hreads.1.2 hreads.2.2.1.1.1.2 rfl⟩
      · exact forceClose_visits hsettled hbooked hreads.1.1
    · exact ⟨⟨hbooked, Or.inl hreads⟩, hsettled⟩

/-! ### All visits -/

/-- What comes back keeps the completions as the others have them. -/
theorem Visits.completions {outcome : Cell × Next} (h : Visits config others index outcome) :
    outcome.1.shared.executor.completions = others.completions ∧
      outcome.1.shared.executor.applied = others.applied := by
  obtain ⟨next, call⟩ := outcome
  cases call with
  | done => exact h.2.1.loaned.1.2
  | call call => exact h.2.1.loaned.1.2

/-- Every visit of a slot at rest that takes no completion keeps the contract and the ledger. -/
theorem visit_visits {visit : Visit} {outcome : Cell × Next} (h : cell.Rests config others index)
    (hvisit : cell.visit config index visit = some outcome)
    (hother : ∀ choice, visit ≠ .finishApplication choice) :
    Visits config others index outcome := by
  cases visit with
  | accept fd redirect secured choice => exact acceptConnection_visits h hvisit
  | complete position result => exact complete_visits h hvisit
  | finishApplication choice => exact absurd rfl (hother choice)
  | pumpApplication =>
      simp only [visit] at hvisit
      split at hvisit
      · cases hvisit
      · rename_i hactive
        cases hvisit
        refine pumpApplication_visits h (h.open_of_active ?_)
        simpa using fun hno => hactive (Or.inr hno)
  | tick clock =>
      simp only [visit] at hvisit
      split at hvisit
      · cases hvisit
      · rename_i hactive
        cases hvisit
        refine tick_visits clock h (h.open_of_active ?_)
        simpa using fun hno => hactive (Or.inr hno)
  | inspected status response =>
      simp only [visit] at hvisit
      split at hvisit
      · cases hvisit
      · rename_i hready
        simp only [not_or, Decidable.not_not] at hready
        obtain ⟨-, hopen, hphase⟩ := hready
        have hfd : cell.connection.fd.isSome = true := by
          cases hfd : cell.connection.fd with
          | none => simp [hfd] at hopen
          | some fd => rfl
        have hstart := h.2.2.start (by rw [hphase]; nofun)
        split at hvisit
        · cases hvisit
          obtain ⟨hanswerable, -⟩ := inspecting_answerable h hfd hphase true
          exact ⟨⟨h.2.1, hanswerable⟩, hstart⟩
        · cases hvisit
          obtain ⟨hanswerable, hfresh⟩ := inspecting_answerable h hfd hphase response.close
          exact ⟨⟨h.2.1, hanswerable, fun hne => absurd hfresh hne⟩, hstart⟩
  | reclaim =>
      simp only [visit] at hvisit
      split at hvisit
      · cases hvisit
      · rename_i hfirst
        cases hvisit
        exact reclaim_visits h (Decidable.not_not.mp hfirst)
  | shutdown keepalive =>
      simp only [visit] at hvisit
      split at hvisit
      · cases hvisit
      · rename_i hready
        cases hvisit
        have hfd : cell.connection.fd.isSome = true := by
          cases hfd : cell.connection.fd with
          | none => exact absurd (Or.inr (by rw [hfd]; rfl)) hready
          | some fd => rfl
        exact shutdownSlot_visits keepalive h hfd

/-- A completion that is taken is one of the slot's own. -/
theorem finishApplication_head {choice : StreamChoice} {outcome : Cell × Next}
    (hvisit : cell.visit config index (.finishApplication choice) = some outcome) :
    cell.finishApplication config choice index = some outcome ∧
      ∃ completion rest, cell.shared.executor.completions = completion :: rest ∧
        completion.task.index = index := by
  simp only [visit] at hvisit
  split at hvisit
  · cases hvisit
  · refine ⟨hvisit, ?_⟩
    unfold finishApplication at hvisit
    split at hvisit
    · cases hvisit
    · rename_i completion rest hcompletions
      split at hvisit
      · cases hvisit
      · rename_i hindex
        exact ⟨completion, rest, hcompletions, Decidable.not_not.mp hindex⟩

/-- While a hook borrows its request a slot only waits: its time may run out, and it may have to
close later. -/
theorem visit_application {visit : Visit} {outcome : Cell × Next}
    (h : cell.Rests config others index) (hfd : cell.connection.fd.isSome = true)
    (hphase : cell.connection.phase = .application)
    (hvisit : cell.visit config index visit = some outcome)
    (hother : ∀ choice, visit ≠ .finishApplication choice) :
    outcome.2 = .done ∧ outcome.1.connection.phase = .application ∧
      outcome.1.connection.fd = cell.connection.fd ∧
      (outcome.1.connection.view = cell.connection.view ∧
        outcome.1.connection.input = cell.connection.input) ∧
      (cell.connection.applicationTimedOut = true →
        outcome.1.connection.applicationTimedOut = true) := by
  have hrest := h.atRest hfd
  simp only [AtRest, hphase] at hrest
  obtain ⟨hhttp2, ⟨⟨⟨hstarted, -⟩, -⟩, -⟩, hs, hfresh, -, -, -, -⟩ := hrest
  have hstarted : cell.connection.responseStreamStarted = false := hstarted
  cases visit with
  | accept fd redirect secured choice =>
      simp only [visit, acceptConnection] at hvisit
      split at hvisit
      · cases hvisit
      · rename_i hready
        simp only [not_or, Decidable.not_not] at hready
        obtain ⟨-, -, hpub, hadm, -⟩ := h.2.2.1.listed
        have hin := List.mem_of_mem_head? hready.2
        have hfree : cell.connection.fd = none := by
          unfold freeList at hin
          split at hin
          · exact (hadm.2.1.mp hin).1
          · exact (hpub.2.1.mp hin).1
        rw [hfree] at hfd
        cases hfd
  | complete position result =>
      simp only [visit, complete] at hvisit
      split at hvisit
      · cases hvisit
      · rename_i operation hoperation
        split at hvisit
        · cases hvisit
        · have hmem : operation ∈ cell.connection.kernel := List.mem_of_getElem? hoperation
          have hkind : ¬(operation.kind = .receive ∨ operation.kind = .send) := by
            intro hkind
            have hcount := h.2.1.2.1 operation.kind
            have hflag : cell.connection.flag operation.kind = false := by
              rcases hkind with hkind | hkind
              · rw [hkind]
                exact hfresh.1
              · rw [hkind]
                exact hfresh.2
            rw [hflag, Bool.toNat_false, List.countP_eq_zero] at hcount
            exact hcount operation hmem (by simp [ofKind])
          obtain ⟨_, _, _, _, _, heq, -⟩ := retire_eq position operation result cell.connection
          rw [if_neg, if_neg hkind] at hvisit
          · cases hvisit
            simp only [setConnection, check_connection, heq, hphase]
            exact ⟨trivial, trivial, trivial, ⟨rfl, trivial⟩, fun hlate => hlate⟩
          · simp only [setConnection, check_connection, heq, hphase]
            rintro ⟨⟩
  | finishApplication choice => exact absurd rfl (hother choice)
  | pumpApplication =>
      simp only [visit] at hvisit
      split at hvisit
      · cases hvisit
      · cases hvisit
        simp [pumpApplication, hphase]
  | tick clock =>
      simp only [visit] at hvisit
      split at hvisit
      · cases hvisit
      · cases hvisit
        have hmarked : cell.timeoutApplication.connection.phase = .application ∧
            cell.timeoutApplication.connection.fd = cell.connection.fd ∧
            (cell.timeoutApplication.connection.view = cell.connection.view ∧
              cell.timeoutApplication.connection.input = cell.connection.input) ∧
            (cell.connection.applicationTimedOut = true →
              cell.timeoutApplication.connection.applicationTimedOut = true) := by
          obtain ⟨canceled, hc⟩ := timeoutApplication_connection cell
          rw [hc]
          exact ⟨hphase, rfl, ⟨rfl, rfl⟩, fun _ => rfl⟩
        unfold tick
        simp only [hphase, hstarted, reduceCtorEq, if_false, Bool.false_eq_true, false_and, false_or]
        split
        · exact ⟨rfl, hphase, rfl, ⟨rfl, rfl⟩, fun hlate => hlate⟩
        · unfold timeout
          simp only [hphase, hs, reduceCtorEq, false_or, if_false, Bool.not_true, Bool.false_eq_true,
            false_and, if_true]
          exact ⟨trivial, hmarked⟩
  | inspected status response =>
      simp only [visit] at hvisit
      rw [if_pos (Or.inr (Or.inr (by rw [hphase]; rintro ⟨⟩)))] at hvisit
      cases hvisit
  | reclaim =>
      simp only [visit] at hvisit
      split at hvisit
      · cases hvisit
      · rename_i hfirst
        obtain ⟨list, hlist, hidle, -⟩ := h.2.2.1.listed.2.2.2.2
        have hin : index ∈ list := by
          have hfirst := Decidable.not_not.mp hfirst
          rw [hlist.2.1] at hfirst
          exact List.mem_of_mem_head? hfirst
        have := (hidle hin).2.1
        rw [hphase] at this
        cases this
  | shutdown keepalive =>
      simp only [visit] at hvisit
      split at hvisit
      · cases hvisit
      · cases hvisit
        unfold shutdownSlot
        rw [hhttp2]
        simp only [setConnection, hphase]
        rw [if_pos (Or.inl (by rintro ⟨⟩))]
        exact ⟨rfl, rfl, rfl, ⟨rfl, rfl⟩, fun hlate => hlate⟩

end Cell

end Zhtps.Worker
