import Zhtps.Worker.Contract.Reading
import Zhtps.Worker.Ledger.Closing

/-!
The calls that read a request keep the ledger.
-/

namespace Zhtps.Worker

namespace Cell

open Connection

variable {config : Config} {others : Others} {index : Nat} {resting : Bool} {cell : Cell}

/-- A connection that reads a request has lent nothing and is not idle. -/
theorem Reads.update (hl : cell.Settled config others index false) (h : cell.connection.Reads config)
    (hs : cell.connection.requestStarted = true) {c : Connection}
    (hc : account c = account cell.connection) :
    Settled config others index false (cell.setConnection c) :=
  hl.update (hl.1.not_idle_of_started hs) h.1.2 h.2.2.1.1.1.2 hc

/-! ### Leases -/

/-- A block that is lent within the budget is charged to it, and its pool has lent one more. -/
theorem charge_stocked {granted : Bool} {address block : Nat} {kind : Buffer} {pool : BufferPool}
    (h : cell.Stocked config others)
    (hroom : (cell.shared.buffers.pools kind).size ≤
      config.largeBufferBytes - cell.shared.buffers.active)
    (hlend : (cell.shared.buffers.pools kind).lend granted address = (pool, some block)) :
    Stocked config others
      { shared := (cell.shared.setPool kind pool).charge pool.size
        connection := cell.connection.useBlock config kind block } := by
  obtain ⟨hactive, hbudget, hpools, hsmall⟩ := h
  obtain ⟨hsize, hvalid⟩ := hpools kind
  obtain ⟨hnew, hkept⟩ := hvalid.lend hlend
  have hpool := hkept.trans hsize
  rw [hsize] at hroom
  refine ⟨?_, ?_, fun other => ?_, hsmall⟩
  · simp only [Shared.charge, Shared.setPool, Connection.charge, useBlock, hpool, List.map_cons,
      List.sum_cons] at hactive ⊢
    omega
  · simp only [Shared.charge, Shared.setPool]
    omega
  · simp only [Shared.charge, Shared.setPool, blocks, useBlock, List.countP_cons]
    by_cases hother : other = kind
    · subst hother
      rw [if_pos (beq_self_eq_true _), Nat.add_right_comm]
      simp only [Function.update_self]
      exact ⟨hpool, hnew⟩
    · rw [if_neg (by simpa using Ne.symm hother)]
      simp only [Function.update_of_ne hother]
      exact hpools other

/-- A request that is being read, and nothing of which is lent. -/
def Unlent (c : Connection) : Prop := c.http2 = none ∧ c.responseStreamBusy = false

/-- A lease changes where a connection that has lent nothing keeps its input. -/
theorem lease_next {choice : Choice} {kind : Buffer} {next : Cell} {leased : Bool}
    (hl : cell.Settled config others index resting) (hc : Unlent cell.connection)
    (hnext : cell.lease config choice kind = (next, leased)) :
    next.Settled config others index resting := by
  rcases ensureBuffer_cases hnext with rfl | ⟨pool, block, hroom, hlend, rfl⟩
  · exact hl
  · obtain ⟨⟨haccounted, hsane, hloaned, hlisted, hhosted, hstocked, hformed⟩, hsounds, hhonors⟩ := hl
    exact ⟨⟨haccounted, hsane, hloaned, hlisted, hhosted, charge_stocked hstocked hroom hlend,
      hformed⟩, hsounds, Honors.of_quiet hhonors hc.2 hc.1⟩

theorem Leased.unlent {next : Cell} (h : Leased cell next) (hc : Unlent cell.connection) :
    Unlent next.connection := by
  obtain ⟨_, _, _, _, rfl⟩ := h
  exact hc

theorem lease_settled (choice : Choice) (kind : Buffer)
    (hl : cell.Settled config others index resting) (hc : Unlent cell.connection) :
    (cell.lease config choice kind).1.Settled config others index resting :=
  lease_next hl hc rfl

theorem leaseReceive_settled (choice : Choice) (hl : cell.Settled config others index resting)
    (hc : Unlent cell.connection) :
    (cell.leaseReceive config choice).1.Settled config others index resting := by
  unfold leaseReceive
  dsimp only
  split
  · have hfirst := lease_settled choice .trailers hl hc
    have hmiddle := (lease_leased config choice .trailers cell).unlent hc
    split
    · rename_i next hnext
      rw [hnext] at hfirst hmiddle
      exact lease_settled choice .receive hfirst hmiddle
    · rename_i next hnext
      rw [hnext] at hfirst
      exact hfirst
  · split
    · exact lease_settled choice .receive hl hc
    · exact hl

theorem leaseBody_settled {choice : Choice} {next : Cell} {leased : Bool}
    (hl : cell.Settled config others index resting) (hc : Unlent cell.connection)
    (hnext : cell.leaseBody config choice = (next, leased)) :
    next.Settled config others index resting := by
  have hfirst := leaseReceive_settled choice hl hc
  have hmiddle := (leaseReceive_leased config choice cell).unlent hc
  unfold leaseBody at hnext
  split at hnext
  · rename_i middle hreceive
    rw [hreceive] at hfirst
    cases hnext
    exact hfirst
  · rename_i middle hreceive
    rw [hreceive] at hfirst hmiddle
    dsimp only at hnext
    split at hnext
    · have hlast := lease_settled choice .application hfirst hmiddle
      rwa [hnext] at hlast
    · cases hnext
      exact hfirst

theorem redirectHttp_balances {choice : Choice} (hl : cell.Settled config others index false)
    (hc : Unlent cell.connection) :
    Balances config others index (cell.redirectHttp config choice) := by
  unfold redirectHttp
  dsimp only
  split
  · exact hl
  · exact hl
  · have hleased := lease_settled choice .application hl hc
    split
    · rename_i next hnext
      rw [hnext] at hleased
      exact hleased
    · rename_i next hnext
      rw [hnext] at hleased
      split
      · exact hleased
      · exact hleased

theorem leasePath_settled {choice : Choice} {next : Cell} {leased : Bool}
    (hl : cell.Settled config others index resting) (hc : Unlent cell.connection)
    (hnext : leasePath config choice cell = (next, leased)) :
    next.Settled config others index resting := by
  unfold leasePath at hnext
  split at hnext
  · exact lease_next hl hc hnext
  · cases hnext
    exact hl

/-! ### Reading -/

theorem startRequest_settled {config : Config} (hl : cell.Settled config others index false)
    (h : cell.connection.Reads config) (hs : cell.connection.requestStarted = false) :
    (cell.startRequest index).Settled config others index false := by
  obtain ⟨⟨⟨hactive, hrejecting, htotal⟩, hsane, hloaned, hlisted, hformed⟩, hsounds, hhonors⟩ := hl
  refine ⟨⟨⟨hactive, hrejecting, ?_⟩, hsane, hloaned, removeIdle_listed hlisted rfl rfl, hformed⟩,
    hsounds, hhonors⟩
  have hcompleted := h.2.2.1.1.2.1
  have hfd := h.1.1
  simp only [live, requesting, hs, hfd, hcompleted, Bool.and_false, Bool.false_and,
    Bool.toNat_false] at htotal
  show cell.shared.requestsTotal + 1 = cell.shared.requestsCompletedTotal +
    cell.shared.requestsAbortedTotal + ((cell.connection.fd.isSome && true &&
      !cell.connection.requestCompleted).toNat + cell.connection.batched +
      cell.connection.streams.length) + others.live
  simp only [hfd, hcompleted, Bool.and_true, Bool.not_false, Bool.toNat_true]
  omega

theorem processInput_balances {choice : Choice}
    (h : cell.connection.Pre config .processInput) (hb : Booked cell.connection)
    (hl : cell.Settled config others index false) :
    Balances config others index (cell.processInput config choice index) := by
  have hreads : cell.connection.Reads config := h
  unfold processInput
  split
  · exact hl.rest (by rw [h.2.1]; nofun)
  · split
    · exact hl
    · split
      · exact forceClose_balances hl hb h.1.1
      · rename_i d hd
        obtain ⟨parser, rfl, -⟩ := acquireRequest_eq hd
        -- The lease belongs to the request, not to the account.
        have hleased : Settled config others index false
            (cell.setConnection { cell.connection with lease := true, parser := parser }) :=
          ⟨hl.1, hl.2.1, Honors.of_quiet hl.2.2 h.2.2.1.1.1.2 h.1.2⟩
        split
        · exact hleased
        · rename_i hs
          split
          · exact hleased
          · have hreads' : Connection.Reads config
                { cell.connection with lease := true, parser := parser } := by grind
            have hfalse : cell.connection.requestStarted = false := by simpa using hs
            exact startRequest_settled hleased hreads' hfalse

theorem feedInput_balances {config : Config} (h : cell.connection.Pre config .parseInput)
    (hl : cell.Settled config others index false) : Balances config others index cell.feedInput := by
  unfold feedInput
  dsimp only
  split
  · exact Reads.update hl h.1 h.2 rfl
  · exact Reads.update hl h.1 h.2 rfl

theorem growHead_balances {choice : Choice}
    (h : cell.connection.Pre config .parseInput) (hl : cell.Settled config others index false) :
    Balances config others index (cell.growHead config choice) := by
  unfold growHead
  dsimp only
  split
  · split
    · exact hl
    · split
      · rename_i d hd
        exact lease_next hl ⟨h.1.1.2, h.1.2.2.1.1.1.2⟩ hd
      · rename_i d hd
        have hleased := lease_next hl ⟨h.1.1.2, h.1.2.2.1.1.1.2⟩ hd
        obtain ⟨_, _, _, _, rfl⟩ := lease_eq hd
        exact feedInput_balances h hleased
  · exact feedInput_balances h hl

/-- Admission by another clock leaves the permits. -/
theorem refill_settled (now : Nat) (hl : cell.Settled config others index resting) :
    Settled config others index resting
      { cell with
        shared := { cell.shared with admission := cell.shared.admission.refill now } } :=
  hl

theorem parseInput_balances {choice : Choice}
    (h : cell.connection.Pre config .parseInput) (hb : Booked cell.connection)
    (hl : cell.Settled config others index false) :
    Balances config others index (cell.parseInput config choice index) := by
  unfold parseInput
  dsimp only
  split
  · rename_i hhead
    split
    · split
      · exact refill_settled choice.now hl
      · have hpermit : cell.connection.permit = none := by grind
        refine forceClose_balances ?_ hb h.1.1.1
        obtain ⟨⟨⟨hactive, hrejecting, htotal⟩, hrest⟩, hsettled⟩ := refill_settled choice.now hl
        refine ⟨⟨⟨?_, ?_, htotal⟩, hrest⟩, hsettled⟩
        · simpa [admits, holds, hpermit, batched, streams, setConnection] using hactive
        · simpa [rejects, holds, hpermit, streams, setConnection] using hrejecting
    · exact growHead_balances h (refill_settled choice.now hl)
  · exact growHead_balances h hl

/-- A connection without a permit takes the one that admission gave it. -/
theorem Settled.acquire {admission : Admission} {decision : Decision}
    (hl : cell.Settled config others index resting) (hpermit : cell.connection.permit = none)
    (hactive : admission.active + holds none .admitted =
      cell.shared.admission.active + holds (some decision) .admitted)
    (hrejecting : admission.rejecting + holds none .reject =
      cell.shared.admission.rejecting + holds (some decision) .reject) :
    Settled config others index resting
      { shared := { cell.shared with admission := admission }
        connection := { cell.connection with permit := some decision } } := by
  obtain ⟨⟨⟨ha, hr, htotal⟩, hrest⟩, hsettled⟩ := hl
  refine ⟨⟨⟨?_, ?_, htotal⟩, hrest⟩, hsettled⟩
  · show admission.active = holds (some decision) .admitted + cell.connection.batched +
      streamHolds cell.connection.streams .admitted + others.admits
    rw [admits, hpermit] at ha
    omega
  · show admission.rejecting = holds (some decision) .reject +
      streamHolds cell.connection.streams .reject + others.rejects
    rw [rejects, hpermit] at hr
    omega

theorem admitRequest_balances {choice : Choice}
    (h : cell.connection.Pre config .receiveHead) (hb : Booked cell.connection)
    (hl : cell.Settled config others index false) :
    Balances config others index (cell.admitRequest config choice index) := by
  obtain ⟨hreads, hs, hpermit, hphase⟩ := h
  unfold admitRequest
  obtain ⟨hactive, hrejecting⟩ := acquire_counts cell.shared.admission choice.now
    (cell.shared.draining && choice.final)
  have hnew := Settled.acquire hl hpermit hactive hrejecting
  dsimp only
  generalize cell.shared.admission.acquire _ _ = outcome at hnew
  obtain ⟨admission, decision⟩ := outcome
  cases decision with
  | reject => exact hnew
  | close => exact forceClose_balances hnew hb hreads.1.1
  | admitted =>
      dsimp only
      have hunlent : Unlent cell.connection := ⟨hreads.1.2, hreads.2.2.1.1.1.2⟩
      split
      · exact redirectHttp_balances hnew hunlent
      · split
        · rename_i d hd
          exact leaseBody_settled hnew hunlent hd
        · rename_i d hd
          have hleased := leaseBody_settled hnew hunlent hd
          obtain ⟨_, _, _, _, rfl⟩ := leaseBody_eq hd
          have hbuffer : cell.connection.responseStreamBuffer = 0 := hreads.2.2.1.1.2.2.2.1
          exact hleased.update (hleased.1.not_idle_of_started hs) hreads.1.2 hreads.2.2.1.1.1.2
            (by simp [account, backed, hbuffer])

theorem receiveHead_balances {choice : Choice}
    (h : cell.connection.Pre config .receiveHead) (hb : Booked cell.connection)
    (hl : cell.Settled config others index false) :
    Balances config others index (cell.receiveHead config choice index) := by
  obtain ⟨hreads, hs, hpermit, hphase⟩ := h
  unfold receiveHead
  dsimp only
  split
  · exact hl
  · split
    · rename_i d hd
      exact leasePath_settled hl ⟨hreads.1.2, hreads.2.2.1.1.1.2⟩ hd
    · rename_i d hd
      have hleased := leasePath_settled hl ⟨hreads.1.2, hreads.2.2.1.1.1.2⟩ hd
      obtain ⟨_, _, _, _, rfl⟩ := leasePath_leased hd
      have hupdate := fun c hc => Reads.update (c := c) hleased hreads hs hc
      split
      · exact hupdate _ rfl
      · dsimp only
        split
        · split
          · exact hupdate _ rfl
          · exact hupdate _ rfl
        · exact admitRequest_balances ⟨hreads, hs, hpermit, hphase⟩ hb (hupdate _ rfl)

/-- The task that a call of the slot gives to the executor. -/
theorem submit_eq {refused : Bool} {lane : Nat} {stage : Stage} {next : Cell}
    (h : cell.submit index refused lane stage none = some next) :
    ∃ task : Task, next =
        { cell with
          shared :=
            { cell.shared with
              executor :=
                { cell.shared.executor with
                  queued := cell.shared.executor.queued ++ [task]
                  submitted := cell.shared.executor.submitted + 1 } } } ∧
      task.index = index ∧ task.ticket = cell.shared.executor.submitted ∧
      task.generation = cell.connection.generation ∧
      task.occupant = cell.connection.occupant ∧
      task.loan = if stage = .produce then .producer else .application := by
  obtain ⟨executor, hexecutor, rfl⟩ := Option.map_eq_some_iff.mp h
  unfold Executor.submit at hexecutor
  split at hexecutor
  · cases hexecutor
  · cases hexecutor
    exact ⟨_, rfl, rfl, rfl, rfl, rfl, rfl⟩

theorem submitApplication_balances {choice : Choice} {stage : Stage} {next : Cell}
    (h : cell.connection.Reads config) (hs : cell.connection.requestStarted = true)
    (hl : cell.Settled config others index false) (hstage : stage ≠ .produce)
    (hnext : cell.submitApplication choice index stage = some next) :
    Balances config others index (next, .done) := by
  obtain ⟨task, rfl, hindex, hticket, hgen, hocc, hloan⟩ := submit_eq hnext
  rw [if_neg hstage] at hloan
  have hset := Reads.update hl h hs
    (c := { cell.connection with phase := .application, applicationTimedOut := false }) rfl
  obtain ⟨⟨haccounted, hsane, hloaned, hlisted⟩, hsettled⟩ := hset
  refine ⟨⟨haccounted, hsane, ?_, hlisted⟩, hsettled⟩
  refine hloaned.submit rfl hindex hticket hgen hocc ⟨rfl, rfl⟩ ?_
  have hfd := h.1.1
  simp [loans, setConnection, hloan, hfd]

theorem refuseApplication_balances (h : cell.connection.Reads config)
    (hs : cell.connection.requestStarted = true) (hl : cell.Settled config others index false)
    (call : Call) : Balances config others index (cell.refuseApplication, .call call) :=
  Reads.update hl h hs rfl

theorem dispatchHead_balances {choice : Choice}
    (h : cell.connection.Pre config .dispatchHead) (hl : cell.Settled config others index false) :
    Balances config others index (cell.dispatchHead config choice index) := by
  obtain ⟨hreads, hs, -⟩ := h
  unfold dispatchHead
  split
  · exact hl
  · split
    · split
      · split
        · exact hl
        · exact hl
      · split
        · rename_i hnext
          exact submitApplication_balances hreads hs hl (by nofun) hnext
        · exact refuseApplication_balances hreads hs hl _
    · exact hl

theorem bodyStage_ne_produce (c : Connection) : (bodyStage c).2 ≠ .produce := by
  unfold bodyStage
  split
  · nofun
  · nofun

theorem receiveBody_balances {choice : Choice} {bytes : Bytes}
    (h : cell.connection.Pre config (.receiveBody bytes)) (hl : cell.Settled config others index false) :
    Balances config others index (cell.receiveBody config choice index bytes) := by
  obtain ⟨hreads, hs⟩ := h
  unfold receiveBody
  split
  · exact hl
  · split
    · obtain ⟨parser, hc, hphase⟩ := bodyStage_eq { cell.connection with applicationBody := bytes }
      have hstage := bodyStage_ne_produce { cell.connection with applicationBody := bytes }
      generalize bodyStage _ = outcome at hc hstage
      obtain ⟨c, stage⟩ := outcome
      dsimp only at hc hphase hstage ⊢
      subst hc
      have hreads' : ∀ body, Connection.Reads config
          { cell.connection with applicationBody := body, parser := parser } := by
        intro body
        grind
      have hupdate : ∀ body, Settled config others index false (cell.setConnection
          { cell.connection with applicationBody := body, parser := parser }) :=
        fun body => Reads.update hl hreads hs rfl
      split
      · rename_i hnext
        refine submitApplication_balances ?_ ?_ ?_ hstage hnext
        · exact hreads' bytes
        · exact hs
        · exact hupdate bytes
      · refine refuseApplication_balances ?_ ?_ ?_ _
        · exact hreads' []
        · exact hs
        · exact hupdate []
    · split
      · exact hl
      · exact hl

theorem finishRequest_balances {choice : Choice}
    (h : cell.connection.Pre config .finishRequest) (hl : cell.Settled config others index false) :
    Balances config others index (cell.finishRequest config choice index) := by
  obtain ⟨hreads, hs⟩ := h
  unfold finishRequest
  split
  · split
    · exact Settled.rest (Reads.update hl hreads hs rfl) nofun
    · exact hl
  · split
    · split
      · rename_i hnext
        exact submitApplication_balances hreads hs hl (by nofun) hnext
      · exact refuseApplication_balances hreads hs hl _
    · exact hl

theorem continueAfterHead_balances {config : Config}
    (h : cell.connection.Pre config .continueAfterHead) (hl : cell.Settled config others index false) :
    Balances config others index cell.continueAfterHead := by
  unfold continueAfterHead
  dsimp only
  split
  · exact hl
  · exact Reads.update hl h.1 h.2 rfl

end Cell

end Zhtps.Worker
