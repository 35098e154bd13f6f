import Zhtps.Worker.Contract

/-!
The calls that read a request keep the contract.
-/

namespace Zhtps.Worker

namespace Cell

open Connection

theorem acquireRequest_eq {config : Config} {granted : Bool} {c d : Connection}
    (h : c.acquireRequest config granted = some d) :
    ∃ parser, d = { c with lease := true, parser := parser } ∧
      (c.lease = true → parser = c.parser) := by
  unfold Connection.acquireRequest at h
  split at h
  · rename_i hl
    cases h
    exact ⟨c.parser, by rw [← hl], fun _ => rfl⟩
  · rename_i hl
    split at h
    · cases h
      exact ⟨_, rfl, fun h => absurd h hl⟩
    · cases h

theorem processInput_kept {config : Config} {choice : Choice} {index : Nat} {cell : Cell}
    (h : cell.connection.Pre config .processInput) (hb : Booked cell.connection) :
    Kept config (cell.processInput config choice index) := by
  unfold processInput
  split
  · grind
  · split
    · exact ⟨hb, Or.inl h⟩
    · split
      · exact forceClose_kept config hb h.1.1
      · rename_i d hd
        obtain ⟨parser, rfl, hp⟩ := acquireRequest_eq hd
        split
        · refine ⟨hb, ?_⟩
          grind
        · split
          · refine ⟨hb, ?_⟩
            cases hbatch : cell.connection.batch <;> grind [Connection.Session]
          · refine ⟨hb, ?_⟩
            grind [startRequest]

theorem feedInput_kept {config : Config} {cell : Cell}
    (h : cell.connection.Pre config .parseInput) (hb : Booked cell.connection) :
    Kept config cell.feedInput := by
  unfold feedInput
  dsimp only
  split
  · refine ⟨hb, ?_⟩
    grind [Connection.Session]
  · rename_i parser step hfeed
    refine ⟨hb, ?_⟩
    have hphase := Parser.feed_phase_ne_head hfeed
    cases hevent : step.event with
    | head request =>
        obtain ⟨consumed, event⟩ := step
        subst hevent
        obtain ⟨hhead, hnext⟩ := Parser.feed_head hfeed
        simp only [afterEvent]
        grind
    | needInput =>
        simp only [afterEvent]
        grind
    | body bytes =>
        simp only [afterEvent]
        grind
    | trailer field =>
        simp only [afterEvent]
        grind
    | «end» =>
        simp only [afterEvent]
        grind

/-- Leased buffers change the pools, where the parser stores its input, and nothing else. -/
def Leased (cell next : Cell) : Prop :=
  ∃ buffers large head trailers, next =
    { shared := { cell.shared with buffers := buffers }
      connection :=
        { cell.connection with
          largeBuffers := large
          parser :=
            { cell.connection.parser with headStorage := head, trailerStorage := trailers } } }

theorem Leased.refl (cell : Cell) : Leased cell cell := ⟨_, _, _, _, rfl⟩

theorem Leased.trans {a b c : Cell} (h : Leased a b) (h' : Leased b c) : Leased a c := by
  obtain ⟨_, _, _, _, rfl⟩ := h
  obtain ⟨_, _, _, _, rfl⟩ := h'
  exact ⟨_, _, _, _, rfl⟩

theorem lease_eq {config : Config} {choice : Choice} {kind : Buffer} {cell next : Cell}
    {leased : Bool} (h : cell.lease config choice kind = (next, leased)) : Leased cell next := by
  rcases ensureBuffer_cases h with rfl | ⟨pool, block, -, -, rfl⟩
  · exact .refl _
  · cases kind <;> exact ⟨_, _, _, _, rfl⟩

theorem lease_leased (config : Config) (choice : Choice) (kind : Buffer) (cell : Cell) :
    Leased cell (cell.lease config choice kind).1 :=
  lease_eq rfl

theorem leaseReceive_leased (config : Config) (choice : Choice) (cell : Cell) :
    Leased cell (cell.leaseReceive config choice).1 := by
  unfold leaseReceive
  dsimp only
  split
  · have hfirst := lease_leased config choice .trailers cell
    split
    · rename_i next hnext
      rw [hnext] at hfirst
      exact hfirst.trans (lease_leased config choice .receive next)
    · rename_i next hnext
      rw [hnext] at hfirst
      exact hfirst
  · split
    · exact lease_leased config choice .receive cell
    · exact .refl cell

theorem leaseBody_leased (config : Config) (choice : Choice) (cell : Cell) :
    Leased cell (cell.leaseBody config choice).1 := by
  have hfirst := leaseReceive_leased config choice cell
  unfold leaseBody
  split
  · rename_i next hnext
    rw [hnext] at hfirst
    exact hfirst
  · rename_i next hnext
    rw [hnext] at hfirst
    dsimp only
    split
    · exact hfirst.trans (lease_leased config choice .application next)
    · exact hfirst

theorem leasePath_leased {config : Config} {choice : Choice} {cell next : Cell} {leased : Bool}
    (h : leasePath config choice cell = (next, leased)) : Leased cell next := by
  unfold leasePath at h
  split at h
  · exact lease_eq h
  · cases h
    exact .refl _

/-- What is read may also be answered. -/
theorem Reads.answerable {config : Config} {c : Connection} (h : c.Reads config)
    (hs : c.requestStarted = true) (close : Bool) : c.Answerable config close := by
  grind [Connection.Session]

theorem Reads.startResponse {config : Config} {c : Connection} (h : c.Reads config)
    (hs : c.requestStarted = true) (response : Response) :
    c.Pre config (.startResponse response) :=
  ⟨Reads.answerable h hs _, fun hf => absurd h.2.2.2.1 hf⟩

theorem growHead_kept {config : Config} {choice : Choice} {cell : Cell}
    (h : cell.connection.Pre config .parseInput) (hb : Booked cell.connection) :
    Kept config (cell.growHead config choice) := by
  unfold growHead
  dsimp only
  split
  · split
    · exact ⟨hb, Reads.answerable h.1 h.2 _⟩
    · split
      · rename_i d hd
        obtain ⟨_, _, _, _, rfl⟩ := lease_eq hd
        exact ⟨hb, Reads.answerable h.1 h.2 _⟩
      · rename_i d hd
        obtain ⟨_, _, _, _, rfl⟩ := lease_eq hd
        exact feedInput_kept h hb
  · exact feedInput_kept h hb

theorem parseInput_kept {config : Config} {choice : Choice} {index : Nat} {cell : Cell}
    (h : cell.connection.Pre config .parseInput) (hb : Booked cell.connection) :
    Kept config (cell.parseInput config choice index) := by
  unfold parseInput
  dsimp only
  split
  · split
    · split
      · refine ⟨hb, ?_⟩
        grind
      · exact forceClose_kept config hb h.1.1.1
    · exact growHead_kept h hb
  · exact growHead_kept h hb

theorem leaseBody_eq {config : Config} {choice : Choice} {cell next : Cell} {leased : Bool}
    (h : cell.leaseBody config choice = (next, leased)) : Leased cell next := by
  have := leaseBody_leased config choice cell
  rwa [h] at this

theorem redirectHttp_kept {config : Config} {choice : Choice} {cell : Cell}
    (h : cell.connection.Reads config) (hs : cell.connection.requestStarted = true)
    (hb : Booked cell.connection) : Kept config (cell.redirectHttp config choice) := by
  unfold redirectHttp
  dsimp only
  split
  · exact ⟨hb, Reads.startResponse h hs _⟩
  · exact ⟨hb, Reads.answerable h hs _⟩
  · have hleased := lease_leased config choice .application cell
    split
    · rename_i next hnext
      rw [hnext] at hleased
      obtain ⟨_, _, _, _, rfl⟩ := hleased
      exact ⟨hb, Reads.answerable h hs _⟩
    · rename_i next hnext
      rw [hnext] at hleased
      obtain ⟨_, _, _, _, rfl⟩ := hleased
      split
      · exact ⟨hb, Reads.startResponse h hs _⟩
      · exact ⟨hb, Reads.answerable h hs _⟩

theorem admitRequest_kept {config : Config} {choice : Choice} {index : Nat} {cell : Cell}
    (h : cell.connection.Pre config .receiveHead) (hadmin : cell.connection.admin = false)
    (hb : Booked cell.connection) :
    Kept config (cell.admitRequest config choice index) := by
  obtain ⟨hreads, hs, hpermit, hphase⟩ := h
  unfold admitRequest
  dsimp only
  generalize cell.shared.admission.acquire _ _ = outcome
  obtain ⟨admission, decision⟩ := outcome
  have hnew : ({ cell.connection with permit := some decision } : Connection).Reads config := by
    grind
  cases decision with
  | reject => exact ⟨hb, Reads.answerable hnew hs _⟩
  | close => exact forceClose_kept config hb hreads.1.1
  | admitted =>
      dsimp only
      split
      · exact redirectHttp_kept hnew hs hb
      · split
        · rename_i d hd
          obtain ⟨_, _, _, _, rfl⟩ := leaseBody_eq hd
          exact ⟨hb, Reads.answerable hnew hs _⟩
        · rename_i d hd
          obtain ⟨_, _, _, _, rfl⟩ := leaseBody_eq hd
          obtain ⟨hopen, hreading, ⟨⟨hquiet, hcompleted, hstreaming, hbuffer, -, hcanceled⟩,
            hpermitted⟩, hrest⟩ := hnew
          exact ⟨hb, ⟨hopen, hreading, ⟨⟨hquiet, hcompleted, hstreaming, hbuffer,
            fun h => absurd (hadmin.symm.trans h) (by decide), hcanceled⟩, hpermitted⟩, hrest⟩, hs,
            hadmin⟩

theorem receiveHead_kept {config : Config} {choice : Choice} {index : Nat} {cell : Cell}
    (h : cell.connection.Pre config .receiveHead) (hb : Booked cell.connection) :
    Kept config (cell.receiveHead config choice index) := by
  obtain ⟨hreads, hs, hpermit, hphase⟩ := h
  unfold receiveHead
  dsimp only
  split
  · exact ⟨hb, Reads.answerable hreads hs _⟩
  · split
    · rename_i d hd
      obtain ⟨_, _, _, _, rfl⟩ := leasePath_leased hd
      exact ⟨hb, Reads.answerable hreads hs _⟩
    · rename_i d hd
      obtain ⟨_, _, _, _, rfl⟩ := leasePath_leased hd
      split
      · exact ⟨hb, Reads.answerable hreads hs _⟩
      · dsimp only
        split
        · split
          · exact ⟨hb, Reads.startResponse hreads hs _⟩
          · exact ⟨hb, hreads, hs⟩
        · rename_i hadmin
          exact admitRequest_kept ⟨hreads, hs, hpermit, hphase⟩ (by simpa using hadmin) hb

theorem submitApplication_kept {config : Config} {choice : Choice} {index : Nat} {stage : Stage}
    {cell next : Cell} (h : cell.connection.Reads config)
    (hs : cell.connection.requestStarted = true) (hb : Booked cell.connection)
    (hiso : config.app.isIsolated = true) (hadmin : cell.connection.admin = false)
    (hnext : cell.submitApplication choice index stage = some next) :
    Kept config (next, .done) := by
  have hc := submit_connection hnext
  refine ⟨by rw [hc]; exact hb, ?_⟩
  rw [hc]
  grind

/-- A refused task is answered under the same contract. -/
theorem refuseApplication_kept {config : Config} {cell : Cell} (h : cell.connection.Reads config)
    (hs : cell.connection.requestStarted = true) (hb : Booked cell.connection) (status : Nat)
    (close : Bool) : Kept config (cell.refuseApplication, .call (.respondStatus status close)) := by
  have hreads : cell.refuseApplication.connection.Reads config := by grind [refuseApplication]
  exact ⟨hb, Reads.answerable hreads hs close⟩

theorem dispatchHead_kept {config : Config} {choice : Choice} {index : Nat} {cell : Cell}
    (h : cell.connection.Pre config .dispatchHead) (hb : Booked cell.connection) :
    Kept config (cell.dispatchHead config choice index) := by
  obtain ⟨hreads, hs, hadmin⟩ := h
  unfold dispatchHead
  split
  · exact ⟨hb, Reads.startResponse hreads hs _⟩
  · split
    · rename_i hiso
      split
      · split
        · exact ⟨hb, Reads.startResponse hreads hs _⟩
        · exact ⟨hb, hreads, hs⟩
      · split
        · rename_i hnext
          exact submitApplication_kept hreads hs hb hiso hadmin hnext
        · exact refuseApplication_kept hreads hs hb _ _
    · exact ⟨hb, hreads, hs⟩

theorem bodyStage_eq (c : Connection) :
    ∃ parser, (bodyStage c).1 = { c with parser := parser } ∧
      (c.parser.phase ≠ .head → parser.phase ≠ .head) := by
  unfold bodyStage
  split
  · exact ⟨_, rfl, fun h => Parser.feed_phase_ne_head rfl h⟩
  · exact ⟨_, rfl, id⟩

theorem receiveBody_kept {config : Config} {choice : Choice} {index : Nat} {bytes : Bytes}
    {cell : Cell} (h : cell.connection.Pre config (.receiveBody bytes))
    (hb : Booked cell.connection) :
    Kept config (cell.receiveBody config choice index bytes) := by
  obtain ⟨hreads, hs⟩ := h
  unfold receiveBody
  split
  · exact ⟨hb, hreads⟩
  · rename_i hpublic
    have hadmin : cell.connection.admin = false := by simpa using hpublic
    split
    · rename_i hiso
      obtain ⟨parser, hc, hphase⟩ := bodyStage_eq { cell.connection with applicationBody := bytes }
      generalize bodyStage _ = outcome at hc
      obtain ⟨c, stage⟩ := outcome
      dsimp only at hc hphase ⊢
      subst hc
      split
      · rename_i hnext
        refine submitApplication_kept ?_ ?_ ?_ hiso.1 (by exact hadmin) hnext
        · grind
        · exact hs
        · exact hb
      · refine refuseApplication_kept ?_ hs hb 503 true
        grind
    · split
      · exact ⟨hb, hreads⟩
      · exact ⟨hb, Reads.answerable hreads hs _⟩

theorem finishRequest_kept {config : Config} {choice : Choice} {index : Nat} {cell : Cell}
    (h : cell.connection.Pre config .finishRequest) (hb : Booked cell.connection) :
    Kept config (cell.finishRequest config choice index) := by
  obtain ⟨hreads, hs⟩ := h
  unfold finishRequest
  split
  · split
    · refine ⟨hb, ?_⟩
      grind
    · exact ⟨hb, Reads.startResponse hreads hs _⟩
  · rename_i hpublic
    have hadmin : cell.connection.admin = false := by simpa using hpublic
    split
    · rename_i hiso
      split
      · rename_i hnext
        exact submitApplication_kept hreads hs hb hiso hadmin hnext
      · exact refuseApplication_kept hreads hs hb _ _
    · exact ⟨hb, Reads.startResponse hreads hs _⟩

theorem continueAfterHead_kept {config : Config} {cell : Cell}
    (h : cell.connection.Pre config .continueAfterHead) (hb : Booked cell.connection) :
    Kept config cell.continueAfterHead := by
  obtain ⟨hreads, hs⟩ := h
  have hlen : 0 < interimResponse.length := by decide
  unfold continueAfterHead
  dsimp only
  split
  · exact ⟨hb, hreads⟩
  · refine ⟨hb, ?_⟩
    grind [Connection.Session]

end Cell

end Zhtps.Worker
