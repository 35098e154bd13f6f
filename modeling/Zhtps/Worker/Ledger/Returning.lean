import Zhtps.Worker.Ledger.Completing

/-!
Completions of the executor.  A task that returns is one the slot has lent something to, and the
slot takes it back: a stream, the exchange of a streamed response, or the request.
-/

namespace Zhtps.Worker

/-- The others after a completion is taken. -/
def Others.taken (others : Others) : Others :=
  { others with
    completions := others.completions.tail
    applied := others.applied ++
      (others.completions.head?.map fun completion => completion.task.ticket).toList }

/-- This loan is none of those that are to be kept. -/
def Others.Spares (others : Others) (loan : Loan) : Prop :=
  (loan = .producer → others.producer = none) ∧
    ∀ before ∈ others.lent, ∀ stage, loan ≠ .stream before.address stage

/-- A hook answers where its stage needs an answer, unless it ran out of time. -/
def Completion.Suits (completion : Completion) (c : Connection) : Prop :=
  completion.task.loan = .application →
    completion.task.stage = .head ∨ completion.task.stage = .body ∨
      completion.response.isSome = true ∨ completion.expired = true ∨
        c.applicationTimedOut = true

namespace Cell

open Connection

variable {config : Config} {others : Others} {index : Nat} {resting : Bool} {cell : Cell}

/-- The task of a completion is lent what it says. -/
theorem Loaned.mem {completion : Completion} {rest : List Completion}
    (h : cell.Loaned others index resting)
    (hcompletions : cell.shared.executor.completions = completion :: rest)
    (hindex : completion.task.index = index) :
    completion.task.loan ∈ cell.connection.loans resting ∧
      completion.task.generation = cell.connection.generation ∧
        completion.task.occupant = cell.connection.occupant := by
  have hmem : completion.task ∈ cell.shared.executor.tasks index := by
    refine List.mem_filter.mpr ⟨?_, by simp [hindex]⟩
    rw [Executor.outstanding, hcompletions]
    exact List.mem_append_right _ (List.mem_map_of_mem List.mem_cons_self)
  exact ⟨h.2.1.mem_iff.mp (List.mem_map_of_mem hmem), h.2.2.1 completion.task hmem⟩

/-- A completion that is taken ends one loan of its slot. -/
theorem Loaned.take {completion : Completion} {rest : List Completion}
    (h : cell.Loaned others index resting)
    (hcompletions : cell.shared.executor.completions = completion :: rest)
    (hindex : completion.task.index = index) {shared : Shared} {c : Connection} {next : Bool}
    (hexecutor : shared.executor =
      { cell.shared.executor with
        completions := rest
        applied := cell.shared.executor.applied ++ [completion.task.ticket] })
    (hc : c.generation = cell.connection.generation ∧ c.occupant = cell.connection.occupant)
    (hloans : (cell.connection.loans resting).Perm (completion.task.loan :: c.loans next)) :
    Loaned others.taken index next ⟨shared, c⟩ := by
  obtain ⟨⟨htasks, hring, happlied⟩, hperm, htagged, htickets⟩ := h
  have hout : cell.shared.executor.outstanding.Perm
      (completion.task :: shared.executor.outstanding) := by
    rw [hexecutor]
    simp only [Executor.outstanding, hcompletions, List.map_cons]
    exact List.perm_middle
  have hown : (cell.shared.executor.tasks index).Perm
      (completion.task :: shared.executor.tasks index) := by
    have := hout.filter fun task => task.index == index
    rwa [List.filter_cons_of_pos (by simp [hindex])] at this
  refine ⟨⟨?_, ?_, ?_⟩, ?_, fun task hmem => ?_, ?_⟩
  · rw [Others.taken, ← htasks, hexecutor]
    simp [Executor.outstanding, hcompletions, List.filter_append, hindex]
  · rw [Others.taken, ← hring, hexecutor, hcompletions]
    rfl
  · rw [Others.taken, ← hring, ← happlied, hexecutor, hcompletions]
    rfl
  · have := (hown.map Task.loan).symm.trans (hperm.trans hloans)
    rw [List.map_cons] at this
    exact this.cons_inv
  · obtain ⟨hgen, hocc⟩ := htagged task (hown.mem_iff.mpr (List.mem_cons_of_mem _ hmem))
    exact ⟨hgen.trans hc.1.symm, hocc.trans hc.2.symm⟩
  · have hmap := (hout.map fun task => task.ticket).append_right cell.shared.executor.applied
    have hsubmitted : shared.executor.submitted = cell.shared.executor.submitted := by
      rw [hexecutor]
    rw [Executor.Ticketed, hsubmitted]
    refine List.Perm.trans ?_ htickets
    refine List.Perm.trans ?_ hmap.symm
    rw [hexecutor, List.map_cons, List.cons_append, ← List.append_assoc]
    exact List.perm_append_singleton _ _

/-! ### Streams -/

/-- A stream is taken back. -/
theorem Carries.take {session : Session} {stream : Stream} {streams : List Stream}
    {completion : Completion} {rest : List Completion} {stage : Stage} {faults : List Fault}
    (h : Carries config others index cell (stream :: streams))
    (hsession : cell.connection.http2 = some session)
    (hcompletions : cell.shared.executor.completions = completion :: rest)
    (hindex : completion.task.index = index)
    (hloan : completion.task.loan = .stream stream.address stage)
    (hstage : stream.lentFor = some stage) (hspares : others.Spares completion.task.loan)
    (hfaults : ∀ fault ∈ faults, fault ∈ cell.shared.faults ∨ fault = .response) :
    Carries config others.taken index
      { shared :=
          { (cell.takeCompletion completion.task.ticket rest).shared with faults := faults }
        connection := { cell.connection with pending := cell.connection.pending - 1 } }
      ({ stream with busy := false, lentFor := none } :: streams) := by
  have hlent := mem_lent h hsession stream List.mem_cons_self
  have hbusy : stream.busy = true := by
    rw [← hlent.1, hstage]
    rfl
  obtain ⟨hb, ⟨⟨hactive, hrejecting, htotal⟩, hsane, hloaned, hlisted, hhosted, hstocked,
    hbatch, hformed, hcounts, hbacked, hvacant, hadmin⟩, hhonors⟩ := h
  rw [setStreams_eq hsession] at hb hactive hrejecting htotal hsane hloaned hlisted hhosted hstocked
  rw [setStreams_eq hsession] at hformed hcounts hhonors hbatch hbacked hvacant hadmin
  have hsized := hcounts _ rfl
  rw [Carries, setStreams_eq (by exact hsession)]
  refine ⟨?_, ⟨⟨?_, ?_, ?_⟩, ?_, ?_, hlisted, ?_, hstocked, hbatch, ?_, ?_, hbacked, hvacant,
    fun hkind => absurd (hadmin hkind).1 (by rintro ⟨⟩)⟩, ?_⟩
  · obtain ⟨hpending, hflags, hkernel⟩ := hb
    refine ⟨?_, hflags, hkernel⟩
    simp only [busyStreams, List.countP_cons, hbusy, Bool.false_eq_true, if_false, if_true]
      at hpending ⊢
    omega
  · simp only [admits, batched, Connection.streams, streamHolds, List.map_cons] at hactive ⊢
    exact hactive
  · simp only [rejects, Connection.streams, streamHolds, List.map_cons] at hrejecting ⊢
    exact hrejecting
  · simp only [live, requesting, batched, Connection.streams, List.length_cons] at htotal ⊢
    exact htotal
  · intro fault hmem
    rcases hfaults fault hmem with hold | hresponse
    · exact hsane fault hold
    · exact hresponse
  · refine hloaned.take hcompletions hindex rfl ⟨rfl, rfl⟩ ?_
    simp only [loans, Connection.streams, List.filterMap_cons, hstage, hloan, Option.map_some,
      Option.map_none]
    exact List.perm_middle
  · simp only [Hosted, addresses, serials, Connection.streams, List.map_cons, List.length_cons]
      at hhosted ⊢
    exact hhosted
  · intro other hmem
    rcases List.mem_cons.mp hmem with rfl | hmem
    · exact ⟨⟨rfl, by rintro ⟨⟩⟩, (hformed stream List.mem_cons_self).2⟩
    · exact hformed other (List.mem_cons_of_mem _ hmem)
  · intro other hother
    cases hother
    exact hsized
  · refine ⟨hhonors.1, fun before hbefore => ?_⟩
    obtain ⟨other, hmem, hborrowed, hsame⟩ := hhonors.2 before hbefore
    rcases List.mem_cons.mp hmem with rfl | hmem
    · -- What was taken back was not to be kept.
      simp only [Stream.view, Prod.mk.injEq] at hsame
      exact absurd (by rw [hloan, hsame.1.1]) (hspares.2 before hbefore stage)
    · exact ⟨other, List.mem_cons_of_mem _ hmem, hborrowed, hsame⟩

theorem completeStream_visits (choice : StreamChoice) {completion : Completion}
    {rest : List Completion} {address : Nat} (h : cell.Rests config others index)
    (hcompletions : cell.shared.executor.completions = completion :: rest)
    (hindex : completion.task.index = index) (hstream : completion.task.stream = some address)
    (hspares : others.Spares completion.task.loan) :
    Visits config others.taken index
      ((cell.takeCompletion completion.task.ticket rest).completeStream config choice index address
        completion) := by
  obtain ⟨hmem, hgen, -⟩ := h.2.2.1.loaned.mem hcompletions hindex
  have hloan : completion.task.loan = .stream address completion.task.stage := by
    rw [Task.loan, hstream]
  -- The loan is that of one of the session's streams.
  have hborrowed : ∃ stream ∈ cell.connection.streams,
      stream.lentFor = some completion.task.stage ∧ stream.address = address := by
    rw [hloan] at hmem
    rcases List.mem_append.mp hmem with hmem | hmem
    · rcases List.mem_append.mp hmem with hmem | hmem
      · split at hmem
        · simp at hmem
        · cases hmem
      · split at hmem
        · simp at hmem
        · cases hmem
    · obtain ⟨stream, hin, hstage⟩ := List.mem_filterMap.mp hmem
      obtain ⟨stage, hstage, heq⟩ := Option.map_eq_some_iff.mp hstage
      cases heq
      exact ⟨stream, hin, hstage, rfl⟩
  obtain ⟨borrowed, hin, hstage, haddress⟩ := hborrowed
  obtain ⟨session, hsession⟩ : ∃ session, cell.connection.http2 = some session := by
    cases hhttp2 : cell.connection.http2 with
    | none => simp [Connection.streams, hhttp2] at hin
    | some session => exact ⟨session, rfl⟩
  rw [Connection.streams, hsession] at hin
  have hfd : cell.connection.fd.isSome = true := by
    by_contra hclosed
    have hrest := h.1
    rw [Rest, if_neg hclosed] at hrest
    rw [hrest.2.2.2.2.1] at hsession
    cases hsession
  have hphase := AtRest.phase_of_http2 (h.atRest hfd) (by rw [hsession]; rintro ⟨⟩)
  have hstart := h.2.2.start (by rcases hphase with hphase | hphase <;> rw [hphase] <;> rintro ⟨⟩)
  have hsounds : ∀ stream ∈ session.streams, stream.Sound ∧ stream.Flowing := by
    have := hstart.2.1
    rw [Sounds, Connection.streams, hsession] at this
    exact this
  have hnodup : (session.streams.map fun stream => stream.address).Nodup := by
    obtain ⟨hperm, hheap, -⟩ := h.2.2.1.hosted
    have := (List.nodup_append.mp (List.nodup_append.mp (hperm.nodup_iff.mpr hheap)).1).1
    rwa [addresses, Connection.streams, hsession] at this
  unfold completeStream
  rw [check_of_true (by simp [takeCompletion, hgen])]
  dsimp only [setConnection, takeCompletion]
  generalize hstarted : ({ shared := _, connection :=
    { cell.connection with pending := cell.connection.pending - 1 } } : Cell) = started
  rw [hsession]
  dsimp only
  rcases onStream_split (fun stream => stream.address == address)
      (StreamCell.complete config choice index completion.task.stage completion.response
        completion.expired) session.streams started with
    ⟨before, stream, after, hsplit, hfound, heq⟩ | ⟨hnone, -⟩
  · have hsame : stream = borrowed := by
      have hown : stream ∈ session.streams := by
        rw [hsplit]
        exact List.mem_append_right _ List.mem_cons_self
      exact List.inj_on_of_nodup_map hnodup hown hin
        ((beq_iff_eq.mp hfound).trans haddress.symm)
    subst hsame
    have hcarries := (Carries.of_carried hsession ⟨h.2.1, hstart.1, hstart.2.2⟩)
    have hlent := mem_lent hcarries hsession stream hin
    have hmetered := mem_metered hcarries hsession stream hin
    have hbusy : stream.busy = true := by
      rw [← hlent.1, hstage]
      rfl
    rw [hsplit] at hcarries
    have hstartedSession : started.connection.http2 = some session := by
      rw [← hstarted]
      exact hsession
    obtain ⟨faults, hfaults, hevolves, hkept⟩ := StreamCell.complete_steps config
      index ⟨started, stream⟩ choice completion.task.stage completion.response
      completion.expired hbusy hstage (hlent.2 hbusy)
    have hconveys : StreamCell.Conveys ⟨started, stream⟩ (StreamCell.complete config choice index
        completion.task.stage completion.response completion.expired ⟨started, stream⟩) :=
      StreamCell.complete_conveys choice _ _ _ hbusy hstage (hsounds stream hin).1.2
    obtain ⟨hmetered, hflows⟩ := hconveys hmetered (hsounds stream hin).2
    have htaken : Carries config others.taken index
        ⟨{ started.shared with faults := faults }, started.connection⟩
        ({ stream with busy := false, lentFor := none } :: (before ++ after)) := by
      subst hstarted
      exact (hcarries.permute hsession List.perm_middle.symm).take hsession hcompletions hindex
        (by rw [hloan, haddress]) hstage hspares hfaults
    obtain ⟨hframe, hreturned⟩ := htaken.evolve (s :=
      ⟨⟨{ started.shared with faults := faults }, started.connection⟩,
        { stream with busy := false, lentFor := none }⟩) hstartedSession hevolves hmetered
    have hsound := hkept (hsounds stream hin).1
    rw [heq]
    generalize StreamCell.complete config choice index completion.task.stage completion.response
      completion.expired ⟨started, stream⟩ = outcome at *
    obtain ⟨s, result⟩ := outcome
    dsimp only at hframe hreturned hsound ⊢
    obtain ⟨pending, -, hc⟩ := hframe
    have hnext : s.cell.connection.http2 = some session := by rw [hc, hstartedSession]
    have hback := hreturned.permute hnext List.perm_middle
    have hstays : (s.cell.setStreams (before ++ s.stream :: after)).connection.fd.isSome = true ∧
        (s.cell.setStreams (before ++ s.stream :: after)).connection.http2 ≠ none ∧
        (s.cell.setStreams (before ++ s.stream :: after)).connection.phase =
          cell.connection.phase := by
      rw [setStreams_eq hnext, hc, ← hstarted]
      exact ⟨hfd, by rintro ⟨⟩, rfl⟩
    obtain ⟨hopen, hhttp2, hsamePhase⟩ := hstays
    split
    · exact ⟨forceClose_kept config hback.1 hopen,
        forceClose_settled hback.2.1 hback.1 hopen hback.2.2⟩
    · rename_i hok
      have hsettled : Settled config others.taken index false
          (s.cell.setStreams (before ++ s.stream :: after)) := by
        refine ⟨hback.2.1, Sounds.setStreams hnext fun other hmem => ?_, hback.2.2⟩
        rcases List.mem_append.mp hmem with hmem | hmem
        · exact hsounds other (by rw [hsplit]; exact List.mem_append_left _ hmem)
        · rcases List.mem_cons.mp hmem with rfl | hmem
          · have hok := Decidable.not_not.mp hok
            exact ⟨hsound (by rw [hok]; rintro ⟨⟩), hflows hok⟩
          · exact hsounds other (by
              rw [hsplit]
              exact List.mem_append_right _ (List.mem_cons_of_mem _ hmem))
      split
      · rename_i hcanceling
        exact ⟨finishClose_kept config hback.1 hopen hcanceling,
          finishClose_settled hsettled hback.1 hopen hcanceling⟩
      · rename_i hcanceling
        have hhere : cell.connection.phase = .http2 :=
          hphase.resolve_right fun h => hcanceling (hsamePhase.trans h)
        refine ⟨⟨hback.1, hopen, hhttp2, Or.inl (hsamePhase.trans hhere), ?_⟩, hsettled⟩
        have hrest := h.atRest hfd
        simp only [AtRest, hsamePhase, hhere] at hrest ⊢
        refine ⟨hhttp2, ?_⟩
        rw [setStreams_eq hnext, hc, ← hstarted]
        exact hrest.2
  · have := hnone borrowed hin
    simp [haddress] at this

/-! ### Exchanges and requests -/

/-- A producer runs for a response that is being sent, or on a connection that closes. -/
theorem AtRest.produces {c : Connection} (h : c.AtRest config) (hbusy : c.responseStreamBusy = true) :
    c.phase = .canceling ∨
      c.phase = .writing ∧ c.http2 = none ∧ c.batch = none ∧ c.Answering config ∧ c.Overtaken ∧
        c.Session fun operation => c.Serves config operation ∨ c.Superseded config operation := by
  have hquiet : ¬c.Quiet := fun hquiet => by rw [hquiet.2] at hbusy; cases hbusy
  unfold Connection.AtRest at h
  cases hphase : c.phase <;> simp only [hphase] at h
  case handshake => exact absurd h.2.2.1.1.1.1 hquiet
  case http2 => exact absurd h.2.2.1.1.1 hquiet
  case reading => exact absurd h.2.1.1.1 hquiet
  case application =>
    have hnone : c.Quiet := h.2.1.1.1
    exact absurd hnone hquiet
  case inspecting => exact absurd h.2.1.1.1 hquiet
  case writing =>
    obtain ⟨hhttp2, ⟨hbatch, hans, hover, hsession⟩ | ⟨hflush, -⟩⟩ := h
    · exact Or.inr ⟨rfl, hhttp2, hbatch, hans, hover, hsession⟩
    · rw [Flushing.not_busy hflush] at hbusy
      cases hbusy
  case tlsShutdown => exact absurd h.2.2.1 hquiet
  case drain => exact absurd h.2.2.1 hquiet
  case canceling => exact Or.inl rfl

theorem completeProducer_visits {completion : Completion} {rest : List Completion}
    (h : cell.Rests config others index)
    (hcompletions : cell.shared.executor.completions = completion :: rest)
    (hindex : completion.task.index = index) (hstream : completion.task.stream = none)
    (hstage : completion.task.stage = .produce) (hspares : others.Spares completion.task.loan) :
    Visits config others.taken index
      ((cell.takeCompletion completion.task.ticket rest).completeProducer index completion) := by
  obtain ⟨hmem, hgen, -⟩ := h.2.2.1.loaned.mem hcompletions hindex
  have hloan : completion.task.loan = .producer := by rw [Task.loan, hstream, hstage]; rfl
  have hbusy : cell.connection.responseStreamBusy = true := by
    by_contra hfree
    simp only [hloan, loans, hfree, List.mem_append, List.mem_filterMap, Option.map_eq_some_iff]
      at hmem
    rcases hmem with (hmem | hmem) | ⟨_, -, _, -, hmem⟩
    · split at hmem <;> simp at hmem
    · simp at hmem
    · cases hmem
  have hfd : cell.connection.fd.isSome = true := by
    by_contra hclosed
    have hrest := h.1
    rw [Rest, if_neg hclosed] at hrest
    rw [hrest.2.2.1] at hbusy
    cases hbusy
  have hproduces := AtRest.produces (h.atRest hfd) hbusy
  have hstart := h.2.2.start (by
    rcases hproduces with hphase | hphase
    · rw [hphase]
      rintro ⟨⟩
    · rw [hphase.1]
      rintro ⟨⟩)
  unfold completeProducer
  rw [check_of_true (by simp [takeCompletion, hgen])]
  dsimp only [setConnection, takeCompletion]
  generalize hreturned : ({ shared := _, connection :=
    { cell.connection with
      pending := cell.connection.pending - 1
      responseStreamBusy := false } } : Cell) = returned
  have hbooked : Booked returned.connection := by
    obtain ⟨hpending, hflags, hkernel⟩ := h.2.1
    rw [← hreturned]
    refine ⟨?_, hflags, hkernel⟩
    simp only [hbusy, Bool.toNat_true, busyStreams, Bool.toNat_false] at hpending ⊢
    omega
  have hsettled : returned.Settled config others.taken index false := by
    obtain ⟨⟨haccounted, hsane, hloaned, hlisted, hhosted, hstocked, hbatch, hformed, hcounts,
      hbacked, hvacant, hadmin⟩, hsounds, hhonors⟩ := hstart
    rw [← hreturned]
    refine ⟨⟨haccounted, hsane, hloaned.take hcompletions hindex rfl ⟨rfl, rfl⟩ ?_, hlisted, hhosted,
      hstocked, hbatch, hformed, hcounts, hbacked, hvacant, fun hkind => ⟨(hadmin hkind).1, rfl⟩⟩,
      hsounds, fun before hbefore => ?_, hhonors.2⟩
    · rw [hloan]
      simp only [loans, hbusy, if_true, Bool.false_eq_true, false_and, if_false, List.nil_append,
        List.singleton_append]
      exact List.Perm.refl _
    · have hnone : others.producer = some before := hbefore
      rw [hspares.1 hloan] at hnone
      cases hnone
  have hopen : returned.connection.fd.isSome = true := by
    rw [← hreturned]
    exact hfd
  have hcloses : ∀ next : Cell, (next = returned ∨ next = returned.timeoutApplication) →
      Visits config others.taken index (next.forceClose index, .done) := by
    rintro next (rfl | rfl)
    · exact forceClose_visits hsettled hbooked hopen
    · obtain ⟨canceled, hc⟩ := timeoutApplication_connection returned
      refine forceClose_visits (timeoutApplication_settled hsettled) ?_ ?_
      · rw [hc]
        exact hbooked.of_ledger rfl
      · rw [hc]
        exact hopen
  split
  · -- The response is late, and its connection closes.
    obtain ⟨canceled, hc⟩ := timeoutApplication_connection returned
    rw [if_pos (Or.inr (by rw [hc]))]
    exact hcloses _ (Or.inr rfl)
  · split
    · exact hcloses _ (Or.inl rfl)
    · rename_i hgoes
      refine ⟨⟨hbooked, ?_⟩, hsettled⟩
      show returned.connection.Pre config .pumpResponseStream
      rw [← hreturned] at hgoes ⊢
      obtain ⟨hphase, hhttp2, hnone, hans, hover, hsession⟩ :=
        hproduces.resolve_left fun hphase => hgoes (Or.inl hphase)
      obtain ⟨hs, hcompleted, hlease, hinterim, hstarted, hstreams, hbody, hcharged⟩ := hans
      refine ⟨⟨hfd, hhttp2⟩, hphase, ?_, hstarted hbusy⟩
      generalize hd : ({ cell.connection with
        pending := cell.connection.pending - 1
        responseStreamBusy := false } : Connection) = d
      have hsame : d.phase = .writing := by rw [← hd, ← hphase]
      have hnext : d.Answering config := by
        rw [← hd]
        refine ⟨hs, hcompleted, hlease, fun hi => ?_, by rintro ⟨⟩, hstreams, hbody, hcharged⟩
        have hbetween := (hinterim hi).1.1.2
        rw [hbusy] at hbetween
        cases hbetween
      simp only [AtRest, hsame]
      refine ⟨by rw [← hd]; exact hhttp2, Or.inl ⟨by rw [← hd]; exact hnone, hnext,
        by rw [← hd]; exact hover, ?_⟩⟩
      intro operation hop
      obtain ⟨hone, hallowed⟩ := hsession operation (by rw [← hd] at hop; exact hop)
      refine ⟨by rw [← hd]; exact hone, fun hne => ?_⟩
      -- The operation is a write of this response, or a read that it overtook.
      rcases hallowed (by rw [← hd] at hne; exact hne) with hserves | hsuper
      · refine Or.inl ?_
        cases operation with
        | write bytes =>
            rcases hserves.2 with ⟨-, -, hunsent⟩ | hflush
            · exact ⟨hsame, Or.inl ⟨by rw [← hd]; exact hnone, hnext, by rw [← hd]; exact hunsent⟩⟩
            · rw [Flushing.not_busy hflush] at hbusy
              cases hbusy
        | idle => exact hserves.elim
        | handshake =>
            have := hserves.1
            rw [hphase] at this
            cases this
        | read =>
            have := hserves.1
            rw [hphase] at this
            cases this
        | shutdown =>
            have := hserves.1
            rw [hphase] at this
            cases this
      · refine Or.inr ⟨hsuper.1, by rw [← hd]; exact hnone, ?_⟩
        rcases hsuper.2.2 with ⟨-, -, hunsent, hclose, hnot⟩ | ⟨hshut, -⟩
        · exact Or.inl ⟨hsame, hnext, by rw [← hd]; exact ⟨hunsent, hclose, hnot⟩⟩
        · rw [hphase] at hshut
          cases hshut

/-- The loan of a hook is that of a request in the application's phase. -/
theorem application_lent {c : Connection} (h : Loan.application ∈ c.loans true) :
    c.fd.isSome = true ∧ c.phase = .application := by
  simp only [loans, List.mem_append, List.mem_filterMap, Option.map_eq_some_iff] at h
  rcases h with (h | h) | ⟨_, -, _, -, h⟩
  · split at h
    · rename_i happ
      exact happ.2
    · cases h
  · split at h <;> simp at h
  · cases h

/-- Such a slot has lent nothing else. -/
theorem AtRest.application_loans {c : Connection} (h : c.AtRest config) (hfd : c.fd.isSome = true)
    (hphase : c.phase = .application) : c.loans true = [.application] := by
  simp only [AtRest, hphase] at h
  obtain ⟨hhttp2, ⟨⟨⟨-, hbusy⟩, -⟩, -⟩, -⟩ := h
  have hbusy : c.responseStreamBusy = false := hbusy
  simp [loans, Connection.streams, hfd, hphase, hhttp2, hbusy]

theorem completeApplication_visits {completion : Completion} {rest : List Completion}
    (h : cell.Rests config others index)
    (hcompletions : cell.shared.executor.completions = completion :: rest)
    (hindex : completion.task.index = index) (hloan : completion.task.loan = .application)
    (hsuits : completion.Suits cell.connection) :
    Visits config others.taken index
      ((cell.takeCompletion completion.task.ticket rest).completeApplication index completion) := by
  obtain ⟨hmem, -, -⟩ := h.2.2.1.loaned.mem hcompletions hindex
  rw [hloan] at hmem
  obtain ⟨hfd, hphase⟩ := application_lent hmem
  have hrest := h.atRest hfd
  simp only [AtRest, hphase] at hrest
  obtain ⟨hhttp2, ⟨hun, hpermitted⟩, hs, hfresh, hbatched, hiso, hadmin, hlate⟩ := hrest
  have hbusy : cell.connection.responseStreamBusy = false := hun.1.2
  have hsettled : Settled config others.taken index false
      (cell.takeCompletion completion.task.ticket rest) := by
    obtain ⟨⟨haccounted, hsane, hloaned, hlisted, hhosted, hstocked, hformed⟩, hsounds,
      hhonors⟩ := h.2.2
    refine ⟨⟨haccounted, hsane, hloaned.take hcompletions hindex rfl ⟨rfl, rfl⟩ ?_, hlisted,
      hhosted, hstocked, hformed⟩, hsounds, hhonors⟩
    rw [hloan]
    simp only [loans, hfd, hphase, and_self, if_true, Bool.false_eq_true, false_and, if_false,
      List.nil_append, List.cons_append]
    exact List.Perm.refl _
  have hidle := hsettled.1.not_idle_of_started hs
  unfold completeApplication
  dsimp only
  split
  · obtain ⟨canceled, hc⟩ :=
      timeoutApplication_connection (cell.takeCompletion completion.task.ticket rest)
    rw [if_pos (by rw [hc])]
    refine forceClose_visits (timeoutApplication_settled hsettled) ?_ ?_
    · rw [hc]
      exact h.2.1.of_ledger rfl
    · rw [hc]
      exact hfd
  · rename_i hexpired
    split
    · exact forceClose_visits hsettled h.2.1 hfd
    · rename_i htimed
      have hcanceled : cell.connection.canceled = false := by
        by_contra hcanceled
        exact htimed (hlate (by simpa using hcanceled))
      obtain ⟨hquiet, hcompleted, hstreaming, hbuffer, hkind, -⟩ := hun
      have hnow : ∀ body, Unanswered { cell.connection with applicationBody := body } :=
        fun _ => ⟨hquiet, hcompleted, hstreaming, hbuffer, hkind, hcanceled⟩
      have hbooks : ∀ body phase,
          Booked { cell.connection with applicationBody := body, phase := phase } :=
        fun _ _ => h.2.1.of_ledger rfl
      have hkeeps : ∀ body phase, Settled config others.taken index false
          ((cell.takeCompletion completion.task.ticket rest).setConnection
            { cell.connection with applicationBody := body, phase := phase }) :=
        fun _ _ => hsettled.update hidle hhttp2 hbusy rfl
      have hresponds : ∀ body response, Visits config others.taken index
          ((cell.takeCompletion completion.task.ticket rest).setConnection
            { cell.connection with applicationBody := body }, .call (.startResponse response)) := by
        intro body response
        refine ⟨⟨hbooks body cell.connection.phase, ?_, fun hne => absurd hfresh hne⟩,
          hkeeps body cell.connection.phase⟩
        exact ⟨⟨hfd, hhttp2⟩, (hnow body).unmarked, hs, hpermitted.1 hs, hbatched,
          Or.inr (Or.inl ⟨hphase, hiso⟩),
          fun hne => absurd hfresh hne, Fresh.unsending hfresh⟩
      have hreads : ∀ body,
          Reads config { cell.connection with applicationBody := body, phase := .reading } :=
        fun body => ⟨⟨hfd, hhttp2⟩, rfl, ⟨hnow body, hpermitted⟩, hfresh, hbatched⟩
      split
      · exact hresponds cell.connection.applicationBody _
      · exact ⟨⟨hbooks cell.connection.applicationBody _, hreads cell.connection.applicationBody,
          hs⟩, hkeeps cell.connection.applicationBody _⟩
      · exact hresponds [] _
      · exact ⟨⟨hbooks [] _, hreads []⟩, hkeeps [] _⟩
      · exact hresponds [] _
      · exact hresponds cell.connection.applicationBody _
      · -- A stage that needs an answer has one.
        rename_i stage response hhead hnohead hbody hnobody hboth hresponse
        have hstage : completion.task.stage ≠ .produce := by
          intro hproduce
          unfold Task.loan at hloan
          rw [hproduce] at hloan
          split at hloan <;> simp at hloan
        rcases hsuits hloan with hstage' | hstage' | hanswer | hlate' | hlate'
        · cases hanswers : completion.response with
          | none => exact absurd hanswers (hnohead hstage')
          | some response => exact absurd hanswers (hhead response hstage')
        · cases hanswers : completion.response with
          | none => exact absurd hanswers (hnobody hstage')
          | some response => exact absurd hanswers (hbody response hstage')
        · obtain ⟨response, hanswers⟩ := Option.isSome_iff_exists.mp hanswer
          cases hkind' : completion.task.stage with
          | head => exact absurd hanswers (hhead response hkind')
          | body => exact absurd hanswers (hbody response hkind')
          | bodyResponse => exact absurd hanswers (hboth response hkind')
          | response => exact absurd hanswers (hresponse response hkind')
          | produce => exact absurd hkind' hstage
        · exact absurd hlate' hexpired
        · exact absurd hlate' htimed

/-- One round of `finishApplications`: the completion is that of a task the slot knows. -/
theorem finishApplication_visits (choice : StreamChoice) {outcome : Cell × Next}
    (h : cell.Rests config others index)
    (hfinish : cell.finishApplication config choice index = some outcome)
    (hhead : ∀ completion, cell.shared.executor.completions.head? = some completion →
      completion.task.index = index →
        others.Spares completion.task.loan ∧ completion.Suits cell.connection) :
    Visits config others.taken index outcome := by
  unfold finishApplication at hfinish
  split at hfinish
  · cases hfinish
  · rename_i completion rest hcompletions
    split at hfinish
    · cases hfinish
    · rename_i hindex
      rw [Decidable.not_not] at hindex
      obtain ⟨hspares, hsuits⟩ := hhead completion (by rw [hcompletions]; rfl) hindex
      dsimp only at hfinish
      split at hfinish
      · rename_i address hstream
        cases hfinish
        exact completeStream_visits choice h hcompletions hindex hstream hspares
      · rename_i hstream
        split at hfinish
        · rename_i hstage
          cases hfinish
          exact completeProducer_visits h hcompletions hindex hstream hstage hspares
        · rename_i hstage
          have hloan : completion.task.loan = .application := by
            rw [Task.loan, hstream]
            exact if_neg hstage
          obtain ⟨hmem, hgen, -⟩ := h.2.2.1.loaned.mem hcompletions hindex
          rw [hloan] at hmem
          rw [if_neg (by simp [hgen, (application_lent hmem).2])] at hfinish
          cases hfinish
          exact completeApplication_visits h hcompletions hindex hloan hsuits

end Cell

end Zhtps.Worker
