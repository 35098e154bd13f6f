import Zhtps.Worker.Ledger.Visiting

/-!
Completions: the kernel returns an operation, or the executor a task.  The operation or task is one
that the slot's books know, so the assertions about its slot hold.
-/

namespace Zhtps.Worker

namespace Cell

open Connection

variable {config : Config} {others : Others} {index : Nat} {cell : Cell}

/-! ### Operations of the kernel -/

/-- What the completion of an operation changes. -/
theorem retire_eq (position : Nat) (operation : Operation) (result : Result) (c : Connection) :
    ∃ receiving sending cancelReceiving cancelSending socket,
      retire position operation (recordSent operation result c) =
        { c with
          kernel := c.kernel.eraseIdx position
          pending := c.pending - 1
          receivePending := receiving
          sendPending := sending
          cancelReceivePending := cancelReceiving
          cancelSendPending := cancelSending
          socket := socket } ∧
      receiving = (c.receivePending && operation.kind != .receive) ∧
      sending = (c.sendPending && operation.kind != .send) := by
  have hsocket : ∃ socket, recordSent operation result c = { c with socket := socket } := by
    unfold recordSent
    split
    · split
      · exact ⟨_, rfl⟩
      · exact ⟨_, rfl⟩
    · exact ⟨_, rfl⟩
  obtain ⟨socket, hsocket⟩ := hsocket
  rw [hsocket]
  refine ⟨_, _, c.cancelReceivePending && operation.kind != .cancelReceive,
    c.cancelSendPending && operation.kind != .cancelSend, socket, ?_, rfl, rfl⟩
  unfold retire
  cases hkind : operation.kind <;> simp

/-- A TLS session's only socket operation completed: its state says what the operation was for. -/
theorem AtRest.completes {c d : Connection} (h : c.AtRest config) (hfd : c.fd.isSome = true)
    (hhttp2 : c.http2 = none) (hcanceling : c.phase ≠ .canceling) (htls : c.tls.isSome = true)
    (hpending : ¬c.Fresh) (hdrain : c.phase = .drain → c.sendPending = true)
    (hd : ∃ kernel pending receiving sending canceling canceling' socket, d =
      { c with
        kernel := kernel
        pending := pending
        receivePending := receiving
        sendPending := sending
        cancelReceivePending := canceling
        cancelSendPending := canceling'
        socket := socket })
    (hfresh : ¬(c.receivePending = true ∧ c.sendPending = true) → d.Fresh) :
    d.Http1 ∧ d.Fresh ∧ ∃ operation, d.tls = some operation ∧
      (d.Serves config operation ∨ d.Superseded config operation) := by
  obtain ⟨operation, hop⟩ := Option.isSome_iff_exists.mp htls
  obtain ⟨kernel, pending, receiving, sending, canceling, canceling', socket, hd⟩ := hd
  -- The operation belongs to what the phase allows, and only the pending flags have changed.
  have hends : ¬(c.receivePending = true ∧ c.sendPending = true) →
      (c.Serves config operation ∨ c.Superseded config operation) →
      d.Http1 ∧ d.Fresh ∧ ∃ operation, d.tls = some operation ∧
        (d.Serves config operation ∨ d.Superseded config operation) := by
    intro hone hserves
    refine ⟨?_, hfresh hone, operation, ?_, ?_⟩
    · rw [hd]
      exact ⟨hfd, hhttp2⟩
    · rw [hd]
      exact hop
    · rw [hd]
      rcases hserves with hserves | hsuper
      · refine Or.inl ?_
        cases operation <;> exact hserves
      · exact Or.inr hsuper
  unfold Connection.AtRest at h
  cases hphase : c.phase <;> simp only [hphase] at h
  case handshake =>
    obtain ⟨-, -, hblank, hadmin, hsession⟩ := h
    obtain ⟨hone, hallowed⟩ := hsession operation hop
    have hhandshake := hallowed hpending
    subst hhandshake
    exact hends hone (Or.inl ⟨hphase, hblank, hadmin⟩)
  case http2 => exact absurd hhttp2 h.1
  case reading =>
    obtain ⟨-, hbetween, hnone, -, hsession⟩ := h
    obtain ⟨hone, hallowed⟩ := hsession operation hop
    have hread := hallowed hpending
    subst hread
    exact hends hone (Or.inl ⟨hphase, hbetween, hnone⟩)
  case application => exact absurd h.2.2.2.1 hpending
  case inspecting => exact absurd h.2.2.2.1 hpending
  case writing =>
    obtain ⟨-, ⟨-, -, -, hsession⟩ | ⟨-, -, hsession⟩⟩ := h
    · obtain ⟨hone, hallowed⟩ := hsession operation hop
      exact hends hone (hallowed hpending)
    · obtain ⟨hone, hallowed⟩ := hsession operation hop
      exact hends hone (Or.inl (hallowed hpending))
  case tlsShutdown =>
    obtain ⟨-, hnone, hquiet, -, hsession⟩ := h
    obtain ⟨hone, hallowed⟩ := hsession operation hop
    rcases hallowed hpending with hread | hshutdown
    · exact hends hone (Or.inr ⟨hread, hnone, Or.inr ⟨hphase, hquiet⟩⟩)
    · subst hshutdown
      exact hends hone (Or.inl ⟨hphase, hnone, hquiet⟩)
  case drain =>
    have hsending := hdrain hphase
    rw [h.2.2.2] at hsending
    cases hsending
  case canceling => exact absurd hphase hcanceling

/-- Without TLS a receive completes while the connection reads, sends or drains. -/
theorem AtRest.receives {c d : Connection} (h : c.AtRest config) (hfd : c.fd.isSome = true)
    (hhttp2 : c.http2 = none) (hcanceling : c.phase ≠ .canceling)
    (hplain : c.tls = none ∨ c.phase = .drain) (hpending : c.receivePending = true)
    (hd : ∃ kernel pending canceling canceling' socket, d =
      { c with
        kernel := kernel
        pending := pending
        receivePending := false
        cancelReceivePending := canceling
        cancelSendPending := canceling'
        socket := socket }) (result : Received) : d.Pre config (.received result) := by
  obtain ⟨kernel, pending, canceling, canceling', socket, hd⟩ := hd
  have hfresh : ¬c.Fresh := fun hfresh => by rw [hfresh.1] at hpending; cases hpending
  have hplain : c.phase ≠ .drain → c.tls = none := fun hne => hplain.resolve_right hne
  unfold Connection.AtRest at h
  cases hphase : c.phase <;> simp only [hphase] at h <;> subst hd
  case handshake => exact absurd (hplain (by rw [hphase]; nofun)) h.2.1
  case http2 => exact absurd hhttp2 h.1
  case reading =>
    obtain ⟨-, hbetween, hnone, hsend, -⟩ := h
    refine Or.inl ⟨⟨⟨hfd, hhttp2⟩, hphase, hbetween,
      ⟨rfl, hsend (hplain (by rw [hphase]; nofun))⟩, ?_⟩, hnone⟩
    intro batch (hsome : c.batch = some batch)
    rw [hnone] at hsome
    cases hsome
  case application => exact absurd h.2.2.2.1 hfresh
  case inspecting => exact absurd h.2.2.2.1 hfresh
  case writing =>
    have htls := hplain (by rw [hphase]; nofun)
    have hsession : ∀ allowed, Connection.Session
        { c with
          kernel := kernel
          pending := pending
          receivePending := false
          cancelReceivePending := canceling
          cancelSendPending := canceling'
          socket := socket } allowed := by
      intro allowed operation (hop : c.tls = some operation)
      rw [htls] at hop
      cases hop
    refine Or.inr (Or.inl ⟨hphase, hfd, ?_, htls⟩)
    simp only [AtRest, hphase]
    obtain ⟨-, ⟨hnone, hans, -⟩ | ⟨hflush, -⟩⟩ := h
    · exact ⟨hhttp2, Or.inl ⟨hnone, hans, nofun, hsession _⟩⟩
    · exact ⟨hhttp2, Or.inr ⟨hflush, fun _ => trivial, hsession _⟩⟩
  case tlsShutdown => exact absurd (hplain (by rw [hphase]; nofun)) h.2.2.2.1
  case drain => exact Or.inr (Or.inr ⟨hphase, ⟨⟨hfd, hhttp2⟩, h.2.1, h.2.2.1⟩, h.2.2.2⟩)
  case canceling => exact absurd hphase hcanceling

/-- Without TLS a send completes while a response is sent. -/
theorem AtRest.sends {c d : Connection} (h : c.AtRest config) (hfd : c.fd.isSome = true)
    (hhttp2 : c.http2 = none) (hcanceling : c.phase ≠ .canceling) (htls : c.tls = none)
    (hpending : c.sendPending = true)
    (hd : ∃ kernel pending canceling canceling' socket, d =
      { c with
        kernel := kernel
        pending := pending
        sendPending := false
        cancelReceivePending := canceling
        cancelSendPending := canceling'
        socket := socket }) (count : Option Nat) : d.Pre config (.sent count) := by
  obtain ⟨kernel, pending, canceling, canceling', socket, hd⟩ := hd
  have hfresh : ¬c.Fresh := fun hfresh => by rw [hfresh.2] at hpending; cases hpending
  unfold Connection.AtRest at h
  cases hphase : c.phase <;> simp only [hphase] at h <;> subst hd
  case handshake => exact absurd htls h.2.1
  case http2 => exact absurd hhttp2 h.1
  case reading =>
    obtain ⟨-, -, -, hsend, -⟩ := h
    rw [hsend htls] at hpending
    cases hpending
  case application => exact absurd h.2.2.2.1 hfresh
  case inspecting => exact absurd h.2.2.2.1 hfresh
  case writing =>
    refine ⟨⟨hfd, hhttp2⟩, hphase, ⟨rfl, fun hne => absurd htls hne⟩, ?_⟩
    obtain ⟨-, ⟨hnone, hans, hover, -⟩ | ⟨hflush, hreceive, -⟩⟩ := h
    · exact Or.inl ⟨hnone, hans, hover⟩
    · exact Or.inr ⟨hflush, hreceive⟩
  case tlsShutdown => exact absurd htls h.2.2.2.1
  case drain =>
    rw [h.2.2.2] at hpending
    cases hpending
  case canceling => exact absurd hphase hcanceling

/-- The completion of a cancellation leaves a slot at rest as it was. -/
theorem AtRest.uncanceled {c d : Connection} (h : c.AtRest config) (hcanceling : c.phase ≠ .canceling)
    (hd : ∃ kernel pending canceling canceling' socket, d =
      { c with
        kernel := kernel
        pending := pending
        cancelReceivePending := canceling
        cancelSendPending := canceling'
        socket := socket }) : d.AtRest config := by
  obtain ⟨kernel, pending, canceling, canceling', socket, hd⟩ := hd
  have hsame : d.phase = c.phase := by rw [hd]
  have hsession : ∀ allowed allowed' : TlsOperation → Prop,
      (∀ operation, allowed operation → allowed' operation) → c.Session allowed →
        d.Session allowed' := by
    intro allowed allowed' hall hold operation hop
    rw [hd] at hop ⊢
    obtain ⟨hone, hserves⟩ := hold operation hop
    exact ⟨hone, fun hne => hall operation (hserves hne)⟩
  have hserves : ∀ operation, c.Serves config operation → d.Serves config operation := by
    intro operation hserves
    rw [hd]
    cases operation <;> exact hserves
  have hsuper : ∀ operation, c.Superseded config operation → d.Superseded config operation := by
    intro operation hsuper
    rw [hd]
    exact hsuper
  unfold Connection.AtRest at h ⊢
  rw [hsame]
  cases hphase : c.phase <;> simp only [hphase] at h ⊢
  case handshake =>
    obtain ⟨hnone, htls, hblank, hadmin, hold⟩ := h
    have := hsession _ _ (fun _ hop => hop) hold
    subst hd
    exact ⟨hnone, htls, hblank, hadmin, this⟩
  case reading =>
    obtain ⟨hnone, hbetween, hbatch, hsend, hold⟩ := h
    have := hsession _ _ (fun _ hop => hop) hold
    subst hd
    exact ⟨hnone, hbetween, hbatch, hsend, this⟩
  case writing =>
    obtain ⟨hnone, ⟨hbatch, hans, hover, hold⟩ | ⟨hflush, hreceive, hold⟩⟩ := h
    · have := hsession _ _ (fun operation => Or.imp (hserves operation) (hsuper operation)) hold
      subst hd
      exact ⟨hnone, Or.inl ⟨hbatch, hans, hover, this⟩⟩
    · have := hsession _ _ hserves hold
      subst hd
      exact ⟨hnone, Or.inr ⟨hflush, hreceive, this⟩⟩
  case tlsShutdown =>
    obtain ⟨hnone, hbatch, hquiet, htls, hold⟩ := h
    have := hsession _ _ (fun _ hop => hop) hold
    subst hd
    exact ⟨hnone, hbatch, hquiet, htls, this⟩
  case canceling => exact absurd hphase hcanceling
  all_goals
    subst hd
    exact h

/-! ### The stages of `complete` -/

theorem flag_of_mem {c : Connection} {operation : Operation} (hb : Booked c)
    (hmem : operation ∈ c.kernel) : c.flag operation.kind = true := by
  have hcount := hb.2.1 operation.kind
  cases hk : c.flag operation.kind
  · rw [hk] at hcount
    have hnone : ∀ other ∈ c.kernel, ¬ofKind operation.kind other = true := by simpa using hcount
    exact absurd (by simp [ofKind]) (hnone operation hmem)
  · rfl

theorem retire_recorded {c : Connection} {position : Nat} {operation : Operation} (hb : Booked c)
    (hoperation : c.kernel[position]? = some operation) (result : Result) :
    Booked (retire position operation (recordSent operation result c)) := by
  apply retire_booked
  · apply hb.of_ledger
    unfold recordSent
    split
    · split <;> rfl
    · rfl
  · rw [← hoperation]
    unfold recordSent
    split
    · split <;> rfl
    · rfl

/-- No hook borrows a request while a socket operation is pending. -/
theorem not_fresh_of_flag {c : Connection} {kind : Kind}
    (hkind : kind = .receive ∨ kind = .send) (hflag : c.flag kind = true) : ¬c.Fresh := by
  rintro ⟨hreceive, hsend⟩
  rcases hkind with rfl | rfl
  · rw [flag, hreceive] at hflag
    cases hflag
  · rw [flag, hsend] at hflag
    cases hflag

/-- The only socket operation of a connection leaves none pending. -/
theorem cleared_of_flag {c : Connection} {kind : Kind}
    (hkind : kind = .receive ∨ kind = .send) (hflag : c.flag kind = true)
    (hone : ¬(c.receivePending = true ∧ c.sendPending = true)) :
    (c.receivePending && kind != .receive) = false ∧ (c.sendPending && kind != .send) = false := by
  rcases hkind with rfl | rfl
  · have hreceive : c.receivePending = true := hflag
    simpa [hreceive] using hone
  · have hsend : c.sendPending = true := hflag
    simpa [hsend] using hone

section Retired

variable {c : Connection} {position : Nat} {operation : Operation}

/-- The completion of a receive goes to the plain or to the TLS receiver. -/
theorem retire_received (hrest : c.AtRest config) (hfd : c.fd.isSome = true)
    (hhttp2 : c.http2 = none) (hcanceling : c.phase ≠ .canceling)
    (hkind : operation.kind = .receive) (hflag : c.flag operation.kind = true) (result : Received) :
    (retire position operation (recordSent operation (.received result) c)).Pre config
      (if (retire position operation (recordSent operation (.received result) c)).tls.isSome ∧
          (retire position operation (recordSent operation (.received result) c)).phase ≠ .drain
        then .receivedTls result else .received result) := by
  obtain ⟨receiving, sending, cancelReceiving, cancelSending, socket, heq, hreceiving, hsending⟩ :=
    retire_eq position operation (.received result) c
  have hwas : c.receivePending = true := by
    rw [hkind] at hflag
    exact hflag
  have hnow : receiving = false := by simp [hreceiving, hkind]
  have hkeep : sending = c.sendPending := by simp [hsending, hkind]
  rw [heq]
  split
  · rename_i htls
    refine AtRest.completes hrest hfd hhttp2 hcanceling htls.1
      (not_fresh_of_flag (Or.inl hkind) hflag) (fun hdrain => absurd hdrain htls.2)
      ⟨_, _, _, _, _, _, _, rfl⟩ ?_
    intro hone
    rw [hreceiving, hsending]
    exact cleared_of_flag (Or.inl hkind) hflag hone
  · rename_i hplain
    refine AtRest.receives hrest hfd hhttp2 hcanceling ?_ hwas
      ⟨_, _, _, _, _, by rw [hnow, hkeep]⟩ result
    by_cases hdrain : c.phase = .drain
    · exact Or.inr hdrain
    · refine Or.inl ?_
      by_contra hne
      exact hplain ⟨Option.isSome_iff_ne_none.mpr hne, hdrain⟩

/-- The completion of a send goes to the plain or to the TLS sender. -/
theorem retire_sent (hrest : c.AtRest config) (hfd : c.fd.isSome = true) (hhttp2 : c.http2 = none)
    (hcanceling : c.phase ≠ .canceling) (hkind : operation.kind = .send)
    (hflag : c.flag operation.kind = true) (count : Option Nat) :
    (retire position operation (recordSent operation (.sent count) c)).Pre config
      (if (retire position operation (recordSent operation (.sent count) c)).tls.isSome
        then .sentTls count.isSome else .sent count) := by
  obtain ⟨receiving, sending, cancelReceiving, cancelSending, socket, heq, hreceiving, hsending⟩ :=
    retire_eq position operation (.sent count) c
  have hwas : c.sendPending = true := by
    rw [hkind] at hflag
    exact hflag
  have hnow : sending = false := by simp [hsending, hkind]
  have hkeep : receiving = c.receivePending := by simp [hreceiving, hkind]
  rw [heq]
  split
  · rename_i htls
    refine AtRest.completes hrest hfd hhttp2 hcanceling htls
      (not_fresh_of_flag (Or.inr hkind) hflag) (fun _ => hwas) ⟨_, _, _, _, _, _, _, rfl⟩ ?_
    intro hone
    rw [hreceiving, hsending]
    exact cleared_of_flag (Or.inr hkind) hflag hone
  · rename_i hplain
    exact AtRest.sends hrest hfd hhttp2 hcanceling (by simpa using hplain) hwas
      ⟨_, _, _, _, _, by rw [hnow, hkeep]⟩ count

/-- The completion of a cancellation is handled by nothing. -/
theorem retire_canceled (hrest : c.AtRest config) (hfd : c.fd.isSome = true)
    (hcanceling : c.phase ≠ .canceling) (hreceive : operation.kind ≠ .receive)
    (hsend : operation.kind ≠ .send) (result : Result) :
    (retire position operation (recordSent operation result c)).Rest config := by
  obtain ⟨receiving, sending, cancelReceiving, cancelSending, socket, heq, hreceiving, hsending⟩ :=
    retire_eq position operation result c
  have hr : receiving = c.receivePending := by simp [hreceiving, hreceive]
  have hs : sending = c.sendPending := by simp [hsending, hsend]
  rw [heq, Rest, if_pos hfd]
  exact AtRest.uncanceled hrest hcanceling ⟨_, _, _, _, _, by rw [hr, hs]⟩

end Retired

/-- A session is pumped, or its connection closed. -/
theorem completedHttp2_visits {result : Result} (hrest : cell.connection.AtRest config)
    (hfd : cell.connection.fd.isSome = true) (hhttp2 : cell.connection.http2 ≠ none)
    (hphase : cell.connection.phase = .http2) (hb : Booked cell.connection)
    (hl : cell.Settled config others index false) :
    Visits config others index (cell.completedHttp2 index result) := by
  have hpump : cell.connection.Pre config .pumpHttp2 := ⟨hfd, hhttp2, Or.inl hphase, hrest⟩
  unfold completedHttp2
  split
  · exact ⟨⟨hb, hpump⟩, hl⟩
  · exact ⟨⟨hb, hpump⟩, hl⟩
  · exact forceClose_visits hl hb hpump.1

/-- A socket operation's completion is handled by the use of the slot that submitted it. -/
theorem completed_visits {position : Nat} {operation : Operation} {result : Result}
    (hrest : cell.connection.AtRest config) (hfd : cell.connection.fd.isSome = true)
    (hcanceling : cell.connection.phase ≠ .canceling)
    (hkind : operation.kind = .receive ∨ operation.kind = .send)
    (hflag : cell.connection.flag operation.kind = true)
    (hvalid : validResult operation result = true)
    (hbooked : Booked (retire position operation (recordSent operation result cell.connection)))
    (hsettled : Settled config others index true (cell.setConnection
      (retire position operation (recordSent operation result cell.connection)))) :
    Visits config others index ((cell.setConnection
      (retire position operation (recordSent operation result cell.connection))).completed
        index result) := by
  obtain ⟨receiving, sending, cancelReceiving, cancelSending, socket, heq, hreceiving, hsending⟩ :=
    retire_eq position operation result cell.connection
  have hpends := not_fresh_of_flag hkind hflag
  have hstart := hsettled.start (by
    rw [heq]
    intro (happ : cell.connection.phase = .application)
    simp only [AtRest, happ] at hrest
    exact hpends hrest.2.2.2.1)
  have hhttp2 : (cell.setConnection (retire position operation
      (recordSent operation result cell.connection))).connection.http2 =
        cell.connection.http2 := by
    show (retire position operation (recordSent operation result cell.connection)).http2 = _
    rw [heq]
  unfold completed
  by_cases hsession : cell.connection.http2 ≠ none
  · rw [if_pos (by rw [hhttp2]; exact Option.isSome_iff_ne_none.mpr hsession)]
    have hphase := (AtRest.phase_of_http2 hrest hsession).resolve_right hcanceling
    refine completedHttp2_visits ?_ ?_ ?_ ?_ hbooked hstart
    · show (retire position operation (recordSent operation result cell.connection)).AtRest config
      rw [heq]
      simp only [AtRest, hphase] at hrest ⊢
      exact hrest
    · show (retire position operation
        (recordSent operation result cell.connection)).fd.isSome = true
      rw [heq]
      exact hfd
    · rw [hhttp2]
      exact hsession
    · show (retire position operation (recordSent operation result cell.connection)).phase = .http2
      rw [heq]
      exact hphase
  · have hnone : cell.connection.http2 = none := not_not.mp hsession
    rw [if_neg (by rw [hhttp2, hnone]; exact Bool.false_ne_true)]
    -- the result tells which of the two operations it was
    cases result with
    | received result =>
        have hreceive : operation.kind = .receive := by
          rcases hkind with hkind | hkind
          · exact hkind
          · cases result <;> simp [validResult, hkind] at hvalid
        exact ⟨⟨hbooked, retire_received hrest hfd hnone hcanceling hreceive hflag result⟩, hstart⟩
    | sent count =>
        have hsend : operation.kind = .send := by
          cases count <;> simp [validResult] at hvalid
          · exact hvalid
          · exact hvalid.1
        exact ⟨⟨hbooked, retire_sent hrest hfd hnone hcanceling hsend hflag count⟩, hstart⟩

/-- The assertions of `complete` hold, and the completion is handled by the use of the slot that
submitted the operation. -/
theorem complete_visits {position : Nat} {result : Result} {outcome : Cell × Next}
    (h : cell.Rests config others index)
    (hcomplete : cell.complete index position result = some outcome) :
    Visits config others index outcome := by
  obtain ⟨hrest, hb, hl⟩ := h
  unfold complete at hcomplete
  split at hcomplete
  · cases hcomplete
  rename_i operation hoperation
  split at hcomplete
  · cases hcomplete
  rename_i hvalid
  simp only [not_or, Bool.not_eq_true', Bool.not_eq_false] at hvalid
  have hmem : operation ∈ cell.connection.kernel := List.mem_of_getElem? hoperation
  have hfd : cell.connection.fd.isSome = true := by
    by_contra hclosed
    rw [Rest, if_neg hclosed] at hrest
    rw [hrest.1] at hmem
    cases hmem
  have hpending : 0 < cell.connection.pending := by
    have := List.length_pos_of_mem hmem
    have := hb.1
    omega
  have hflag := flag_of_mem hb hmem
  rw [check_of_true (by simp [hfd, (hb.2.2 operation hmem).1, hpending])] at hcomplete
  have hbooked := retire_recorded hb hoperation result
  obtain ⟨receiving, sending, cancelReceiving, cancelSending, socket, heq, -, -⟩ :=
    retire_eq position operation result cell.connection
  have hsettled : Settled config others index true
      (cell.setConnection
        (retire position operation (recordSent operation result cell.connection))) := by
    rw [heq]
    exact hl.remark rfl rfl rfl
  have hsame : (cell.setConnection (retire position operation
      (recordSent operation result cell.connection))).connection.phase =
        cell.connection.phase := by
    show (retire position operation (recordSent operation result cell.connection)).phase = _
    rw [heq]
  rw [Rest, if_pos hfd] at hrest
  by_cases hcanceling : cell.connection.phase = .canceling
  · -- A canceled connection waits for its last completion.
    rw [if_pos (by rw [hsame]; exact hcanceling)] at hcomplete
    cases hcomplete
    have hopen : (retire position operation
        (recordSent operation result cell.connection)).fd.isSome = true := by
      rw [heq]
      exact hfd
    have hstart := hsettled.start (by
      rw [hsame, hcanceling]
      rintro ⟨⟩)
    exact ⟨finishClose_kept config hbooked hopen (hsame.trans hcanceling),
      finishClose_settled hstart hbooked hopen (hsame.trans hcanceling)⟩
  · rw [if_neg (by rw [hsame]; exact hcanceling)] at hcomplete
    split at hcomplete
    · rename_i hkind
      cases hcomplete
      exact completed_visits hrest hfd hcanceling hkind hflag hvalid.1 hbooked hsettled
    · rename_i hkind
      cases hcomplete
      simp only [not_or] at hkind
      exact ⟨⟨hbooked, retire_canceled hrest hfd hcanceling hkind.1 hkind.2 result⟩, hsettled⟩

end Cell

end Zhtps.Worker
