import Zhtps.Worker.Contract.Receiving
import Zhtps.Worker.Ledger.Sending

/-!
The calls that receive, close and drive a TLS session keep the ledger.
-/

namespace Zhtps.Worker

namespace Cell

open Connection

variable {config : Config} {others : Others} {index : Nat} {resting : Bool} {cell : Cell}

/-! ### Receiving and closing -/

/-- A slot that leaves the idle list may then change its phase. -/
theorem removeIdle_settled (hl : cell.Settled config others index false) {c : Connection}
    (hc : account c = account cell.connection) (hhonors : c.Honors others) :
    Settled config others index false ⟨cell.shared.removeIdle index, c⟩ := by
  obtain ⟨⟨haccounted, hsane, hloaned, hlisted, hrest⟩, hsettled⟩ := hl
  have hmid : Settled config others index false ⟨cell.shared.removeIdle index, cell.connection⟩ :=
    ⟨⟨haccounted, hsane, hloaned, removeIdle_listed hlisted rfl rfl, hrest⟩, hsettled⟩
  refine hmid.alter ?_ hc hhonors
  obtain ⟨list, hlist, -, -⟩ := hlisted.2.2.2.2
  exact hlist.remove.queued_eq_false.mpr hlist.1.not_mem_erase

theorem drainConnection_balances (hl : cell.Settled config others index false) :
    Balances config others index (cell.drainConnection index) := by
  have hdrain := fun c hc hhonors => removeIdle_settled (c := c) hl hc hhonors
  unfold drainConnection
  dsimp only
  split
  · split
    · exact Settled.rest (hdrain _ rfl hl.2.2) nofun
    · split
      · have hcancel := hdrain { cell.connection with phase := .tlsShutdown } rfl hl.2.2
        unfold cancelReceive
        split
        · exact Settled.rest hcancel nofun
        · exact Settled.rest hcancel nofun
      · exact hdrain _ rfl hl.2.2
  · exact hdrain _ rfl hl.2.2

theorem beginTcpDrain_balances (h : cell.connection.Pre config .beginTcpDrain)
    (hl : cell.Settled config others index false) : Balances config others index cell.beginTcpDrain :=
  hl.alter (hl.1.not_idle_of_phase h.1) rfl hl.2.2

theorem queueIdle_settled (hl : cell.Settled config others index false)
    (hfd : cell.connection.fd.isSome = true) (hnone : cell.connection.batch = none) :
    (cell.queueIdle config index).Settled config others index false := by
  unfold queueIdle
  split
  · rename_i hidle
    obtain ⟨-, hpublic, hnot, hphase, hs, -⟩ := hidle
    obtain ⟨⟨haccounted, hsane, hloaned, ⟨hact, hloc, hpub, hadm, list, hlist, -, hmembers⟩, hrest⟩,
      hsettled⟩ := hl
    have hfree : index ∉ list := hlist.queued_eq_false.mp (by simpa using hnot)
    refine ⟨⟨haccounted, hsane, hloaned, ⟨hact, hloc, hpub, hadm, list ++ [index],
      hlist.push hfree, ?_, ?_⟩, hrest⟩, hsettled⟩
    · exact fun _ => ⟨hfd, hphase, by simpa using hs, hnone, by simpa using hpublic⟩
    · intro j hj
      rw [List.mem_append, List.mem_singleton, or_iff_left hj, hmembers j hj]
  · exact hl

theorem submitRead_balances (h : cell.connection.Pre config .queueReceive)
    (hnone : cell.connection.batch = none) (hl : cell.Settled config others index false) :
    Balances config others index (cell.submitRead config index) := by
  have hopen : cell.connection.Http1 := by grind
  have hphase : cell.connection.phase ≠ .application := by grind
  have hqueued : (cell.queueIdle config index).Settled config others index false :=
    queueIdle_settled hl hopen.1 hnone
  unfold submitRead
  split
  · exact hl.rest hphase
  · dsimp only
    split
    · exact hqueued
    · refine Settled.rest hqueued ?_
      rw [queueIdle_connection]
      exact hphase

theorem queueReceive_balances {choice : Choice}
    (h : cell.connection.Pre config .queueReceive) (hb : Booked cell.connection)
    (hl : cell.Settled config others index false) :
    Balances config others index (cell.queueReceive config choice index) := by
  unfold queueReceive
  split
  · exact hl
  · rename_i hbatch
    have hnone : cell.connection.batch = none := by
      cases hb' : cell.connection.batch with
      | none => rfl
      | some batch => grind
    split
    · split
      · exact submitRead_balances h hnone hl
      · refine forceClose_balances hl hb ?_
        grind
    · exact submitRead_balances h hnone hl

theorem receivedNothing_balances {result : Received}
    (h : cell.connection.Pre config (.received result)) (hb : Booked cell.connection)
    (hl : cell.Settled config others index false) :
    Balances config others index (cell.receivedNothing index result) := by
  have hopen : cell.connection.fd.isSome = true := by grind
  have hclose := forceClose_balances hl hb hopen
  unfold receivedNothing
  dsimp only
  split
  · rename_i hphase
    exact hl.rest (by simp [hphase.2])
  · split
    · exact hl
    · split
      · split
        · exact hl
        · exact hclose
      · exact hclose

theorem received_balances {result : Received}
    (h : cell.connection.Pre config (.received result)) (hb : Booked cell.connection)
    (hl : cell.Settled config others index false) :
    Balances config others index (cell.received index result) := by
  have hopen : cell.connection.fd.isSome = true := by grind
  unfold received
  split
  · dsimp only
    split
    · split
      · exact forceClose_balances hl hb hopen
      · exact hl
    · rename_i hdrain
      split
      · refine hl.rest ?_
        grind
      · exact hl
  · exact receivedNothing_balances h hb hl

/-! ### TLS -/

/-- What the session is about to do is not accounted for. -/
theorem resumeTls_balances (hl : cell.Settled config others index false) :
    Balances config others index cell.resumeTls := by
  unfold resumeTls
  dsimp only
  split
  · exact hl
  · split
    · exact hl
    · exact hl

theorem receivedTls_balances {result : Received}
    (h : cell.connection.Pre config (.receivedTls result)) (hb : Booked cell.connection)
    (hl : cell.Settled config others index false) :
    Balances config others index (cell.receivedTls index result) := by
  unfold receivedTls
  split
  · exact forceClose_balances hl hb h.1.1
  · exact resumeTls_balances hl

theorem sentTls_balances {ok : Bool}
    (h : cell.connection.Pre config (.sentTls ok)) (hb : Booked cell.connection)
    (hl : cell.Settled config others index false) :
    Balances config others index (cell.sentTls index ok) := by
  unfold sentTls
  split
  · exact resumeTls_balances hl
  · exact forceClose_balances hl hb h.1.1

/-- A new session has no streams, and a handshake leaves nothing else to account for. -/
theorem openSession_settled (hl : cell.Settled config others index false)
    (hphase : cell.connection.phase ≠ .reading) (hopen : cell.connection.Http1)
    (hpublic : cell.connection.admin = false) :
    Settled config others index false
      (cell.setConnection
        { cell.connection with tls := some .idle, http2 := some {}, phase := .http2 }) := by
  have hidle := hl.1.not_idle_of_phase hphase
  have hnil : cell.connection.streams = [] := by simp [streams, hopen.2]
  have hnew : streams
      { cell.connection with tls := some .idle, http2 := some {}, phase := .http2 } = [] := rfl
  obtain ⟨⟨⟨hactive, hrejecting, htotal⟩, hsane, ⟨htasks, hperm, htagged, htickets⟩,
    ⟨hact, hloc, hpub, hadm, hwaits⟩, hhosted, hstocked, hbatch, -, -, hbacked, hvacant, -⟩, -,
    hhonors⟩ := hl
  refine ⟨⟨⟨?_, ?_, ?_⟩, hsane, ⟨htasks, ?_, htagged, htickets⟩,
    ⟨hact, hloc, hpub, hadm, hwaits.of_not_queued hidle⟩, ?_, hstocked, hbatch, ?_, ?_, hbacked,
    hvacant, ?_⟩, ?_, hhonors.1, fun before hmem => ?_⟩
  · simpa only [setConnection, admits, batched, hnil, hnew] using hactive
  · simpa only [setConnection, rejects, hnil, hnew] using hrejecting
  · simpa only [setConnection, live, requesting, batched, hnil, hnew] using htotal
  · simp only [setConnection, loans, hnil, hnew, Bool.false_eq_true, false_and, if_false]
      at hperm ⊢
    exact hperm
  · simpa only [Hosted, setConnection, addresses, serials, hnil, hnew] using hhosted
  · rw [setConnection, hnew]
    exact fun stream hmem => absurd hmem List.not_mem_nil
  · intro session hsession
    cases hsession
    exact ⟨rfl, Nat.zero_le _⟩
  · intro (hadmin : cell.connection.admin = true)
    rw [hpublic] at hadmin
    cases hadmin
  · rw [setConnection, Sounds, hnew]
    exact fun stream hmem => absurd hmem List.not_mem_nil
  · obtain ⟨stream, hin, -⟩ := hhonors.2 before hmem
    rw [hnil] at hin
    cases hin

theorem completeTls_balances {choice : Choice} {operation : TlsOperation}
    {bytes : Bytes} {count : Nat} {http2 : Bool} (hopen : cell.connection.Http1)
    (hserves : cell.connection.Serves config operation) (hb : Booked cell.connection)
    (hl : cell.Settled config others index false) :
    Balances config others index (cell.completeTls choice index operation bytes count http2) := by
  unfold completeTls
  cases operation with
  | idle => exact hserves.elim
  | handshake =>
      have hphase : cell.connection.phase ≠ .reading := by simp [hserves.1]
      dsimp only
      split
      · split
        · exact openSession_settled hl hphase hopen hserves.2.2
        · refine forceClose_balances ?_ hb hopen.1
          exact hl
      · exact hl.alter (hl.1.not_idle_of_phase hphase) rfl hl.2.2
  | read =>
      dsimp only
      split
      · exact hl
      · exact hl
  | write borrowed => exact hl
  | shutdown => exact hl

theorem advanceTls_balances {choice : Choice}
    (h : cell.connection.Pre config .advanceTls) (hb : Booked cell.connection)
    (hl : cell.Settled config others index false) :
    Balances config others index (cell.advanceTls choice index) := by
  obtain ⟨hopen, hf, operation, htls, hserves⟩ := h
  have hphase : cell.connection.phase ≠ .application := by
    cases operation <;> simp_all [Serves]
  unfold advanceTls
  rw [htls]
  dsimp only
  rw [check_of_true (by simp [hf.1, hf.2])]
  split
  · exact forceClose_balances hl hb hopen.1
  · refine Settled.rest ?_ hphase
    exact hl
  · refine Settled.rest ?_ hphase
    exact hl
  · exact completeTls_balances hopen hserves hb hl

end Cell

end Zhtps.Worker
