import Zhtps.Worker.Contract.Sending

/-!
The calls that receive, close and drive a TLS session keep the contract.
-/

namespace Zhtps.Worker

namespace Cell

open Connection

/-! ### Receiving and closing -/

theorem drainConnection_kept {config : Config} {index : Nat} {cell : Cell}
    (h : cell.connection.Pre config .drainConnection) (hb : Booked cell.connection) :
    Kept config (cell.drainConnection index) := by
  obtain ⟨⟨hopen, hnone, hquiet⟩, hsend, hsession⟩ := h
  have hread : cell.connection.Session fun operation =>
      operation = .read ∨ operation = .shutdown := fun operation hop =>
    ⟨(hsession operation hop).1, fun hf => Or.inl ((hsession operation hop).2 hf)⟩
  unfold drainConnection
  dsimp only
  split
  · rename_i htls
    have hne : cell.connection.tls ≠ none := by
      intro hnone
      simp [hnone] at htls
    split
    · refine ⟨hb, ?_⟩
      simp only [Rest, setConnection, hopen.1, if_true, AtRest]
      exact ⟨hopen.2, hnone, hquiet, hne, hread⟩
    · split
      · refine ⟨cancelReceive_booked hb, ?_⟩
        obtain ⟨_, _, _, hc⟩ := cancelReceive_connection
          (Cell.setConnection { cell with shared := cell.shared.removeIdle index }
            { cell.connection with phase := .tlsShutdown })
        dsimp only [setConnection] at hc ⊢
        rw [hc]
        simp only [Rest, hopen.1, if_true, AtRest]
        exact ⟨hopen.2, hnone, hquiet, hne, hread⟩
      · rename_i hs hr
        have hf : cell.connection.Fresh := by
          simp only [setConnection, Bool.not_eq_true] at hs hr
          exact ⟨hr, hs⟩
        exact ⟨hb, hopen, hf, _, rfl, rfl, hnone, hquiet⟩
  · rename_i htls
    have hplain : cell.connection.tls = none := Option.not_isSome_iff_eq_none.mp htls
    exact ⟨hb, nofun, ⟨hopen, hnone, hquiet⟩, hsend hplain⟩

theorem beginTcpDrain_kept {config : Config} {cell : Cell}
    (h : cell.connection.Pre config .beginTcpDrain) (hb : Booked cell.connection) :
    Kept config cell.beginTcpDrain :=
  ⟨hb, Or.inr ⟨rfl, h.2⟩⟩

theorem queueIdle_connection (config : Config) (index : Nat) (cell : Cell) :
    (cell.queueIdle config index).connection = cell.connection := by
  unfold queueIdle
  split <;> rfl

theorem submitRead_kept {config : Config} {index : Nat} {cell : Cell}
    (h : cell.connection.Pre config .queueReceive)
    (hnone : cell.connection.batch = none) (hb : Booked cell.connection) :
    Kept config (cell.submitRead config index) := by
  unfold submitRead
  split
  · rename_i hpending
    refine ⟨hb, ?_⟩
    rcases h with h | ⟨hphase, ⟨hopen, -, hquiet⟩, hsend⟩
    · rw [h.2.2.2.1.1] at hpending
      cases hpending
    · simp only [Rest, hopen.1, if_true, AtRest, hphase]
      exact ⟨hopen.2, hnone, hquiet, hsend⟩
  · rename_i hpending
    have hr : cell.connection.receivePending = false := by simpa using hpending
    dsimp only
    rw [queueIdle_connection]
    rcases h with ⟨hopen, hphase, hbetween, hf, hbatched⟩ | ⟨hphase, ⟨hopen, -, hquiet⟩, hsend⟩
    · split
      · exact ⟨hb, hopen, hf, _, rfl, hphase, hbetween, hnone⟩
      · rename_i hnot
        have hplain : cell.connection.tls = none := by
          cases htls : cell.connection.tls <;> grind
        refine ⟨Booked.submitReceive hb hr, ?_⟩
        simp only [Rest, Connection.submitReceive, setConnection, hopen.1, if_true, AtRest, hphase]
        refine ⟨hopen.2, hbetween, hnone, fun _ => hf.2, fun operation hop => ?_⟩
        simp [hplain] at hop
    · rw [if_neg (by simp [hphase])]
      refine ⟨Booked.submitReceive hb hr, ?_⟩
      simp only [Rest, Connection.submitReceive, setConnection, hopen.1, if_true, AtRest, hphase]
      exact ⟨hopen.2, hnone, hquiet, hsend⟩

theorem queueReceive_kept {config : Config} {choice : Choice} {index : Nat} {cell : Cell}
    (h : cell.connection.Pre config .queueReceive) (hb : Booked cell.connection) :
    Kept config (cell.queueReceive config choice index) := by
  unfold queueReceive
  split
  · rename_i hbatch
    rcases h with h | ⟨-, ⟨-, hnone, -⟩, -⟩
    · exact ⟨hb, Reads.queueBatch h (by grind)⟩
    · simp [hnone] at hbatch
  · rename_i hbatch
    have hnone : cell.connection.batch = none := by
      cases hb' : cell.connection.batch with
      | none => rfl
      | some batch => grind
    split
    · split
      · exact submitRead_kept h hnone hb
      · refine forceClose_kept config hb ?_
        grind
    · exact submitRead_kept h hnone hb

theorem receivedNothing_kept {config : Config} {index : Nat} {result : Received} {cell : Cell}
    (h : cell.connection.Pre config (.received result)) (hb : Booked cell.connection) :
    Kept config (cell.receivedNothing index result) := by
  have hopen : cell.connection.fd.isSome = true := by grind
  have hclose : Kept config (cell.forceClose index, .done) := forceClose_kept config hb hopen
  unfold receivedNothing
  dsimp only
  split
  · refine ⟨hb, ?_⟩
    grind
  · split
    · refine ⟨hb, Or.inr ?_⟩
      grind
    · split
      · rename_i hread
        split
        · refine ⟨hb, ?_⟩
          rcases h with ⟨h, -⟩ | ⟨hphase, -⟩ | ⟨hphase, -⟩
          · exact Reads.answerable h hread.2.1 _
          · grind
          · grind
        · exact hclose
      · exact hclose

theorem received_kept {config : Config} {index : Nat} {result : Received} {cell : Cell}
    (h : cell.connection.Pre config (.received result)) (hb : Booked cell.connection) :
    Kept config (cell.received index result) := by
  have hopen : cell.connection.fd.isSome = true := by grind
  unfold received
  split
  · rename_i bytes
    dsimp only
    split
    · rename_i hdrain
      split
      · exact forceClose_kept config hb hopen
      · refine ⟨hb, Or.inr ?_⟩
        grind
    · split
      · refine ⟨hb, ?_⟩
        grind
      · refine ⟨hb, ?_⟩
        grind
  · exact receivedNothing_kept h hb

/-! ### TLS -/

/-- The session goes on with what its operation serves. -/
theorem resumeTls_kept {config : Config} {cell : Cell} (result : Received)
    (h : cell.connection.Pre config (.receivedTls result)) (hb : Booked cell.connection) :
    Kept config cell.resumeTls := by
  obtain ⟨hopen, hf, operation, htls, hserves⟩ := h
  unfold resumeTls
  dsimp only
  split
  · rename_i hread
    have hquiet : cell.connection.batch = none ∧ cell.connection.Quiet := by
      rw [htls, Option.some.injEq] at hread
      rw [hread.2] at hserves
      grind [Serves, Superseded]
    exact ⟨hb, hopen, hf, _, rfl, hread.1, hquiet⟩
  · split
    · rename_i hread
      refine ⟨hb, ?_⟩
      rw [htls, Option.some.injEq] at hread
      rw [hread.2] at hserves
      have hsends : cell.connection.batch = none ∧ cell.connection.Answering config ∧
          cell.connection.Unsent := by grind [Serves, Superseded]
      refine ⟨hopen, hread.1, hsends.2.1, hsends.2.2, ?_, fun hne => absurd hf hne,
        Fresh.unsending hf⟩
      intro batch hbatch
      rw [hsends.1] at hbatch
      cases hbatch
    · rename_i hshutdown hwriting
      refine ⟨hb, hopen, hf, operation, htls, ?_⟩
      rcases hserves with hserves | hserves
      · exact hserves
      · grind [Superseded]

theorem receivedTls_kept {config : Config} {index : Nat} {result : Received} {cell : Cell}
    (h : cell.connection.Pre config (.receivedTls result)) (hb : Booked cell.connection) :
    Kept config (cell.receivedTls index result) := by
  unfold receivedTls
  split
  · exact forceClose_kept config hb h.1.1
  · exact resumeTls_kept result h hb

theorem sentTls_kept {config : Config} {index : Nat} {ok : Bool} {cell : Cell}
    (h : cell.connection.Pre config (.sentTls ok)) (hb : Booked cell.connection) :
    Kept config (cell.sentTls index ok) := by
  unfold sentTls
  split
  · exact resumeTls_kept .eof h hb
  · exact forceClose_kept config hb h.1.1

theorem completeTls_kept {config : Config} {choice : Choice} {index : Nat}
    {operation : TlsOperation} {bytes : Bytes} {count : Nat} {http2 : Bool} {cell : Cell}
    (hopen : cell.connection.Http1) (hf : cell.connection.Fresh)
    (hserves : cell.connection.Serves config operation) (hb : Booked cell.connection) :
    Kept config (cell.completeTls choice index operation bytes count http2) := by
  have hclear : cell.connection.Clear := ⟨hf.2, fun _ => hf.1⟩
  unfold completeTls
  cases operation with
  | idle => exact hserves.elim
  | handshake =>
      dsimp only
      split
      · split
        · refine ⟨?_, ?_⟩
          · refine hb.of_ledger ?_
            simp [ledger, setConnection, busyStreams, hopen.2]
          · refine ⟨hopen.1, by rintro ⟨⟩, Or.inl rfl, ?_⟩
            simp only [AtRest, setConnection]
            exact ⟨by simp, by simp, hserves.2.1⟩
        · exact forceClose_kept config hb hopen.1
      · obtain ⟨-, ⟨hbetween, -, hnone⟩, -⟩ := hserves
        refine ⟨hb, Or.inl ⟨hopen, rfl, hbetween, hf, ?_⟩⟩
        intro batch (hbatch : cell.connection.batch = some batch)
        rw [hnone] at hbatch
        cases hbatch
  | read =>
      obtain ⟨hphase, hbetween, hnone⟩ := hserves
      have hbatched : cell.connection.Batched config := by grind
      have hreads : Connection.Reads config { cell.connection with tls := some .idle } :=
        ⟨hopen, hphase, hbetween, hf, hbatched⟩
      dsimp only
      split
      · split
        · exact ⟨hb, Or.inl ⟨hreads, hnone⟩⟩
        · exact ⟨hb, ⟨hopen, hnone, hbetween.1.1⟩, Fresh.unsending hf⟩
      · exact ⟨hb, Or.inl ⟨hreads, hnone⟩⟩
  | write borrowed =>
      obtain ⟨hphase, hmode⟩ := hserves
      refine ⟨hb, hopen, hphase, ⟨hf.2, fun _ => hf.1⟩, ?_⟩
      rcases hmode with ⟨hnone, hans, -⟩ | hflush
      · exact Or.inl ⟨hnone, hans, by rintro ⟨⟩⟩
      · exact Or.inr ⟨hflush, by rintro ⟨⟩⟩
  | shutdown =>
      have hphase : cell.connection.phase ≠ .reading := by simp [hserves.1]
      exact ⟨hb, hphase, ⟨hopen, hserves.2.1, hserves.2.2⟩, hf.2⟩

/-- A session that waits for the socket rests in the phase its operation serves. -/
theorem Serves.rest {config : Config} {c : Connection} (operation : TlsOperation)
    (hopen : c.Http1) (htls : c.tls = some operation) (hserves : c.Serves config operation)
    (hone : ¬(c.receivePending = true ∧ c.sendPending = true)) : c.Rest config := by
  have hsession : ∀ allowed : TlsOperation → Prop, allowed operation → c.Session allowed := by
    intro allowed hallowed other hother
    rw [htls] at hother
    cases hother
    exact ⟨hone, fun _ => hallowed⟩
  have hne : c.tls ≠ none := by simp [htls]
  simp only [Rest, hopen.1, if_true]
  cases operation with
  | idle => exact hserves.elim
  | handshake =>
      simp only [AtRest, hserves.1]
      exact ⟨hopen.2, hne, hserves.2.1, hserves.2.2, hsession _ rfl⟩
  | read =>
      simp only [AtRest, hserves.1]
      exact ⟨hopen.2, hserves.2.1, hserves.2.2, fun hnone => absurd hnone hne, hsession _ rfl⟩
  | write bytes =>
      have ⟨hphase, hmode⟩ := hserves
      simp only [AtRest, hphase]
      refine ⟨hopen.2, ?_⟩
      rcases hmode with ⟨hnone, hans, -⟩ | hflush
      · exact Or.inl ⟨hnone, hans, fun hnone => absurd hnone hne, hsession _ (Or.inl hserves)⟩
      · exact Or.inr ⟨hflush, fun hnone => absurd hnone hne, hsession _ hserves⟩
  | shutdown =>
      simp only [AtRest, hserves.1]
      exact ⟨hopen.2, hserves.2.1, hserves.2.2, hne, hsession _ (Or.inr rfl)⟩

theorem advanceTls_kept {config : Config} {choice : Choice} {index : Nat} {cell : Cell}
    (h : cell.connection.Pre config .advanceTls) (hb : Booked cell.connection) :
    Kept config (cell.advanceTls choice index) := by
  obtain ⟨hopen, hf, operation, htls, hserves⟩ := h
  unfold advanceTls
  rw [htls]
  dsimp only
  have hcheck := check_connection cell
    (!cell.connection.receivePending && !cell.connection.sendPending) .pending
  generalize cell.check _ _ = checked at hcheck
  split
  · exact forceClose_kept config (by rw [hcheck]; exact hb) (by rw [hcheck]; exact hopen.1)
  · refine ⟨?_, ?_⟩
    · rw [hcheck]
      exact Booked.submitReceive hb hf.1
    · rw [hcheck]
      refine Serves.rest operation hopen htls ?_ ?_
      · cases operation <;> exact hserves
      · intro hboth
        simp [setConnection, Connection.submitReceive, hf.2] at hboth
  · refine ⟨?_, ?_⟩
    · rw [hcheck]
      exact Booked.submitSend hb _ hf.2
    · rw [hcheck]
      refine Serves.rest operation hopen htls ?_ ?_
      · cases operation <;> exact hserves
      · intro hboth
        simp [setConnection, Connection.submitSend, hf.1] at hboth
  · refine completeTls_kept (by rw [hcheck]; exact hopen) (by rw [hcheck]; exact hf) ?_ ?_
    · rw [hcheck]
      exact hserves
    · rw [hcheck]
      exact hb

end Cell

end Zhtps.Worker
