import Zhtps.Worker.Contract.Receiving
import Zhtps.Worker.Ledger.Closing

/-!
The streams of a session.  What one stream does keeps the books and the ledger of its slot, and so
does every walk over the list of streams.
-/

namespace Zhtps.Worker

namespace Cell

open Connection

variable {config : Config} {others : Others} {index : Nat} {cell : Cell} {session : Session}

/-- The slot keeps its books, its ledger and its loans. -/
def Carried (config : Config) (others : Others) (index : Nat) (cell : Cell) : Prop :=
  Booked cell.connection ∧ cell.Ledger config others index false ∧ cell.connection.Honors others

/-- It keeps them with these streams in its session. -/
def Carries (config : Config) (others : Others) (index : Nat) (cell : Cell) (streams : List Stream) :
    Prop :=
  Carried config others index (cell.setStreams streams)

theorem setStreams_eq (hsession : cell.connection.http2 = some session) (streams : List Stream) :
    cell.setStreams streams =
      { cell with
        connection :=
          { cell.connection with http2 := some { session with streams := streams } } } := by
  simp only [setStreams, setConnection, hsession, Option.map_some]

theorem Carries.of_carried (hsession : cell.connection.http2 = some session)
    (h : Carried config others index cell) : Carries config others index cell session.streams := by
  rw [Carries, setStreams_eq hsession,
    show ({ cell.connection with http2 := some { session with streams := session.streams } } :
      Connection) = cell.connection by rw [← hsession]]
  exact h

/-- A session whose streams look the same to the ledger, and that still lends what is borrowed. -/
theorem Carried.restream (h : Carried config others index cell)
    (hsession : cell.connection.http2 = some session) (next : Session)
    (hkeys : (next.streams.map Stream.key).Perm (session.streams.map Stream.key))
    (hcount : next.count = session.count) (hlent : ∀ stream ∈ next.streams, stream.Lent)
    (hview : ∀ stream ∈ session.streams, stream.busy = true →
      ∃ other ∈ next.streams, other.busy = true ∧ other.view = stream.view) :
    Carried config others index
      (cell.setConnection { cell.connection with http2 := some next }) := by
  obtain ⟨hb, hl, hh⟩ := h
  have hbusy : next.streams.countP (fun stream => stream.busy) =
      session.streams.countP fun stream => stream.busy := by
    have := hkeys.countP_eq fun key => key.2.2.1
    rwa [List.countP_map, List.countP_map] at this
  refine ⟨hb.of_ledger ?_, hl.restream hsession hkeys hcount hlent, hh.1, fun before hbefore => ?_⟩
  · simp only [ledger, busyStreams, hbusy, setConnection, hsession]
  · obtain ⟨stream, hmem, hborrowed, hsame⟩ := hh.2 before hbefore
    rw [Connection.streams, hsession] at hmem
    obtain ⟨other, hother, hotherBusy, hotherView⟩ := hview stream hmem hborrowed
    exact ⟨other, hother, hotherBusy, hotherView.trans hsame⟩

theorem Carries.restream {streams next : List Stream} (h : Carries config others index cell streams)
    (hsession : cell.connection.http2 = some session)
    (hkeys : (next.map Stream.key).Perm (streams.map Stream.key))
    (hlent : ∀ stream ∈ next, stream.Lent)
    (hview : ∀ stream ∈ streams, stream.busy = true →
      ∃ other ∈ next, other.busy = true ∧ other.view = stream.view) :
    Carries config others index cell next := by
  rw [Carries, setStreams_eq hsession] at h ⊢
  have hnext := h.restream rfl { session with streams := next } hkeys rfl hlent hview
  exact hnext

theorem Carries.permute {streams next : List Stream} (h : Carries config others index cell streams)
    (hsession : cell.connection.http2 = some session) (hperm : next.Perm streams) :
    Carries config others index cell next := by
  have hl := h.2.1
  rw [setStreams_eq hsession] at hl
  exact h.restream hsession (hperm.map _) (fun stream hmem => hl.lent stream (hperm.mem_iff.mp hmem))
    fun stream hmem hbusy => ⟨stream, hperm.mem_iff.mpr hmem, hbusy, rfl⟩

/-- One stream changes in what the ledger does not know, and not in what is borrowed. -/
theorem Carries.retouch {stream other : Stream} {rest : List Stream}
    (h : Carries config others index cell (stream :: rest))
    (hsession : cell.connection.http2 = some session)
    (hkey : other.key = stream.key) (hlent : other.Lent)
    (hview : stream.busy = true → other.view = stream.view) :
    Carries config others index cell (other :: rest) := by
  have hl := h.2.1
  rw [setStreams_eq hsession] at hl
  refine h.restream hsession ?_ ?_ ?_
  · rw [List.map_cons, List.map_cons, hkey]
  · intro stream hmem
    rcases List.mem_cons.mp hmem with rfl | hmem
    · exact hlent
    · exact hl.lent stream (List.mem_cons_of_mem _ hmem)
  · intro s hmem hbusy
    rcases List.mem_cons.mp hmem with rfl | hmem
    · refine ⟨other, List.mem_cons_self, ?_, hview hbusy⟩
      simp only [Stream.key, Prod.mk.injEq] at hkey
      rw [hkey.2.2.1, hbusy]
    · exact ⟨s, List.mem_cons_of_mem _ hmem, hbusy, rfl⟩

theorem mem_formed {streams : List Stream} (h : Carries config others index cell streams)
    (hsession : cell.connection.http2 = some session) :
    ∀ stream ∈ streams, stream.Lent ∧ stream.Assigned ∧ stream.Metered := by
  have hl := h.2.1
  rw [setStreams_eq hsession] at hl
  exact hl.formed.2.1

theorem mem_lent {streams : List Stream} (h : Carries config others index cell streams)
    (hsession : cell.connection.http2 = some session) :
    ∀ stream ∈ streams, stream.Lent :=
  fun stream hmem => (mem_formed h hsession stream hmem).1

theorem mem_metered {streams : List Stream} (h : Carries config others index cell streams)
    (hsession : cell.connection.http2 = some session) :
    ∀ stream ∈ streams, stream.Metered :=
  fun stream hmem => (mem_formed h hsession stream hmem).2.2

/-- What a function does to one stream keeps the slot's books and its ledger. -/
theorem Carries.evolve {s t : StreamCell} {rest : List Stream}
    (h : Carries config others index s.cell (s.stream :: rest))
    (hsession : s.cell.connection.http2 = some session) (hstep : s.Evolves config index t)
    (hmetered : t.stream.Metered) :
    (∃ pending, s.cell.connection.pending ≤ pending ∧
        t.cell.connection = { s.cell.connection with pending := pending }) ∧
      Carries config others index t.cell (t.stream :: rest) := by
  have hlent := hstep.lent (mem_lent h hsession s.stream List.mem_cons_self)
  obtain ⟨⟨haddress, -, hserial⟩, -, hshared, ⟨⟨hactive', hrejecting'⟩, hassigns⟩, hkind⟩ := hstep
  obtain ⟨hb, ⟨⟨hactive, hrejecting, htotal⟩, hsane, hloaned, hlisted,
    ⟨hheap, hnodup, hcached, hlimit, hbegun, hcount, hbound⟩, hstocked,
    hbatch, hformed, hcounts, hbacked, hvacant, hadmin⟩, hhonors⟩ := h
  rw [setStreams_eq hsession] at hb hactive hrejecting htotal hloaned hlisted hheap hbegun hcount
  rw [setStreams_eq hsession] at hstocked hformed hcounts hhonors hbatch hbacked hvacant hadmin
  have hsized := hcounts _ rfl
  have hpublic : ¬s.cell.connection.admin = true := fun hkind => by cases (hadmin hkind).1
  have hassigned : ∀ stream ∈ t.stream :: rest,
      stream.Lent ∧ stream.Assigned ∧ stream.Metered := by
    intro stream hmem
    rcases List.mem_cons.mp hmem with rfl | hmem
    · exact ⟨hlent, hassigns.assigned (hformed s.stream List.mem_cons_self).2.1, hmetered⟩
    · exact hformed stream (List.mem_cons_of_mem _ hmem)
  simp only [admits, batched, Connection.streams, streamHolds, List.map_cons, List.sum_cons] at hactive
  simp only [rejects, Connection.streams, streamHolds, List.map_cons, List.sum_cons] at hrejecting
  simp only [live, requesting, batched, Connection.streams, List.length_cons] at htotal
  simp only [addresses, serials, Connection.streams, List.map_cons, ← haddress, ← hserial]
    at hheap hbegun
  -- The stream stays lent to whom it was, or is lent to a new task.
  rcases hkind with ⟨hbusy, hstage, hconnection, hexecutor, hview⟩ |
    ⟨-, -, hfree, hbusy, hconnection, stage, lane, hstage, hexecutor⟩
  · refine ⟨⟨_, Nat.le_refl _, by rw [hconnection]⟩, ?_⟩
    rw [Carries, setStreams_eq (by rw [hconnection]; exact hsession), hconnection, hshared]
    refine ⟨hb.of_ledger ?_, ⟨⟨?_, ?_, ?_⟩, hsane, ?_, hlisted,
      ⟨hheap, hnodup, hcached, hlimit, hbegun, hcount, hbound⟩, hstocked, hbatch, hassigned, ?_,
      hbacked, hvacant, fun hkind => absurd hkind hpublic⟩, hhonors.1, ?_⟩
    · simp only [ledger, busyStreams, List.countP_cons, hbusy]
    · simp only [admits, batched, Connection.streams, streamHolds, List.map_cons, List.sum_cons]
      omega
    · simp only [rejects, Connection.streams, streamHolds, List.map_cons, List.sum_cons]
      omega
    · simp only [live, requesting, batched, Connection.streams, List.length_cons]
      exact htotal
    · simp only [Loaned, loans, Connection.streams, List.filterMap_cons, hexecutor, hstage, haddress]
        at hloaned ⊢
      exact hloaned
    · intro other hother
      cases hother
      exact hsized
    · intro before hbefore
      obtain ⟨stream, hmem, hborrowed, hsame⟩ := hhonors.2 before hbefore
      rcases List.mem_cons.mp hmem with rfl | hmem
      · exact ⟨t.stream, List.mem_cons_self, hbusy.trans hborrowed, (hview hborrowed).trans hsame⟩
      · exact ⟨stream, List.mem_cons_of_mem _ hmem, hborrowed, hsame⟩
  · refine ⟨⟨_, Nat.le_succ _, hconnection⟩, ?_⟩
    rw [Carries, setStreams_eq (by rw [hconnection]; exact hsession), hconnection, hshared]
    have hnone : s.stream.lentFor = none :=
      ((hformed s.stream List.mem_cons_self).1.free hfree).2
    refine ⟨?_, ⟨⟨?_, ?_, ?_⟩, hsane, ?_, hlisted,
      ⟨hheap, hnodup, hcached, hlimit, hbegun, hcount, hbound⟩, hstocked, hbatch, hassigned, ?_,
      hbacked, hvacant, fun hkind => absurd hkind hpublic⟩, hhonors.1, ?_⟩
    · obtain ⟨hpending, hflags, hkernel⟩ := hb
      refine ⟨?_, hflags, hkernel⟩
      simp only [busyStreams, List.countP_cons, hfree, hbusy, Bool.false_eq_true, if_false,
        if_true] at hpending ⊢
      omega
    · simp only [admits, batched, Connection.streams, streamHolds, List.map_cons, List.sum_cons]
      omega
    · simp only [rejects, Connection.streams, streamHolds, List.map_cons, List.sum_cons]
      omega
    · simp only [live, requesting, batched, Connection.streams, List.length_cons]
      exact htotal
    · refine hloaned.submit hexecutor rfl rfl rfl rfl ⟨rfl, rfl⟩ ?_
      simp only [loans, Connection.streams, List.filterMap_cons, hstage, hnone, haddress,
        Option.map_some, Option.map_none, StreamCell.task, Task.loan]
      exact List.perm_middle
    · intro other hother
      cases hother
      exact hsized
    · intro before hbefore
      obtain ⟨stream, hmem, hborrowed, hsame⟩ := hhonors.2 before hbefore
      rcases List.mem_cons.mp hmem with rfl | hmem
      · rw [hfree] at hborrowed
        cases hborrowed
      · exact ⟨stream, List.mem_cons_of_mem _ hmem, hborrowed, hsame⟩

theorem Carries.destroy {stream : Stream} {rest : List Stream}
    (h : Carries config others index cell (stream :: rest))
    (hsession : cell.connection.http2 = some session) (hbusy : stream.busy = false) :
    Carries config others index (cell.destroyStream stream) rest := by
  obtain ⟨hb, hl, hh⟩ := h
  refine ⟨?_, destroyStream_ledger hsession hl hbusy, ?_⟩
  · rw [setStreams_eq hsession] at hb
    refine hb.of_ledger ?_
    simp only [destroyStream, setStreams, setConnection, hsession, Option.map_some, ledger,
      busyStreams, List.countP_cons, hbusy, Bool.false_eq_true, if_false, Nat.add_zero]
  · rw [setStreams_eq hsession] at hh
    simp only [destroyStream, setStreams, setConnection, hsession, Option.map_some]
    refine ⟨hh.1, fun before hbefore => ?_⟩
    obtain ⟨other, hmem, hborrowed, hsame⟩ := hh.2 before hbefore
    rcases List.mem_cons.mp hmem with rfl | hmem
    · rw [hbusy] at hborrowed
      cases hborrowed
    · exact ⟨other, hmem, hborrowed, hsame⟩

/-! ### Walks over the streams -/

/-- What a walk does to the connection besides its streams. -/
def Walks (before after : Cell) : Prop :=
  ∃ pending count, before.connection.pending ≤ pending ∧ after.connection =
    { before.connection with
      pending := pending
      http2 := before.connection.http2.map fun session => { session with count := count } }

theorem Walks.refl (hsession : cell.connection.http2 = some session) : Walks cell cell :=
  ⟨_, session.count, Nat.le_refl _, by rw [hsession, Option.map_some, ← hsession]⟩

theorem Walks.trans {a b c : Cell} (h : Walks a b) (h' : Walks b c) : Walks a c := by
  obtain ⟨before, _, hle, hb⟩ := h
  obtain ⟨pending, count, hle', hc⟩ := h'
  refine ⟨pending, count, ?_, ?_⟩
  · rw [hb] at hle'
    exact Nat.le_trans hle hle'
  · rw [hc, hb, Option.map_map]
    rfl

theorem Walks.http2 {a b : Cell} (h : Walks a b) (hsession : a.connection.http2 = some session) :
    ∃ count, b.connection.http2 = some { session with count := count } := by
  obtain ⟨_, count, -, hb⟩ := h
  exact ⟨count, by rw [hb, hsession, Option.map_some]⟩

theorem Walks.of_pending {a b : Cell} (hsession : a.connection.http2 = some session)
    (h : ∃ pending, a.connection.pending ≤ pending ∧
      b.connection = { a.connection with pending := pending }) : Walks a b := by
  obtain ⟨pending, hle, hb⟩ := h
  exact ⟨pending, session.count, hle, by rw [hb, hsession, Option.map_some, ← hsession]⟩

theorem Walks.destroy (hsession : cell.connection.http2 = some session) (stream : Stream) :
    Walks cell (cell.destroyStream stream) :=
  ⟨cell.connection.pending, session.count - 1, Nat.le_refl _, by
    simp only [destroyStream, hsession, Option.map_some]⟩

/-- One round of `drive`: the stream stays, or leaves when no task borrows it. -/
theorem driveStream_carries (choice : StreamChoice) {stream : Stream} {rest : List Stream}
    (h : Carries config others index cell (stream :: rest))
    (hsound : stream.Sound ∧ stream.Flowing) (hsession : cell.connection.http2 = some session) :
    Walks cell (cell.driveStream config choice index stream).1 ∧
      Carries config others index (cell.driveStream config choice index stream).1
        ((cell.driveStream config choice index stream).2.1 ++ rest) ∧
      ((cell.driveStream config choice index stream).2.2 = .ok →
        ∀ s ∈ (cell.driveStream config choice index stream).2.1, s.Sound ∧ s.Flowing) := by
  have hexpire : StreamCell.Steps config index ⟨cell, stream⟩
      (StreamCell.expire choice ⟨cell, stream⟩) := StreamCell.expire_settles choice
  obtain ⟨hmetered, hflows⟩ := StreamCell.expire_conveys (s := ⟨cell, stream⟩) choice
    (mem_metered h hsession stream List.mem_cons_self) hsound.2
  obtain ⟨hframe, hcarries⟩ := h.evolve (s := ⟨cell, stream⟩) hsession hexpire.1 hmetered
  have hwalk := Walks.of_pending hsession hframe
  have hexpired := hexpire.2 hsound.1
  unfold driveStream
  generalize StreamCell.expire choice ⟨cell, stream⟩ = outcome at *
  obtain ⟨s, result⟩ := outcome
  dsimp only at hframe hcarries hwalk hexpired ⊢
  obtain ⟨count, hnext⟩ := hwalk.http2 hsession
  split
  · rename_i hfailed
    exact ⟨hwalk, hcarries, fun hok => absurd hok hfailed⟩
  · rename_i hok
    have hok : result = .ok := Decidable.not_not.mp hok
    have hstays : s.stream.Sound := hexpired (by rw [hok]; nofun)
    split
    · rename_i hdone
      exact ⟨hwalk.trans (Walks.destroy hnext s.stream), hcarries.destroy hnext (by simpa using hdone.2),
        fun _ _ hmem => absurd hmem List.not_mem_nil⟩
    · have hopen : StreamCell.Steps config index s (s.driveOpen config choice index) :=
        StreamCell.driveOpen_steps choice hstays.1
          (mem_lent hcarries hnext s.stream List.mem_cons_self)
      have hconveys : s.Conveys (s.driveOpen config choice index) :=
        StreamCell.driveOpen_conveys choice (mem_lent hcarries hnext s.stream List.mem_cons_self)
      obtain ⟨hmetered', hflows'⟩ := hconveys hmetered (hflows hok)
      obtain ⟨hframe', hcarries'⟩ := hcarries.evolve hnext hopen.1 hmetered'
      refine ⟨hwalk.trans (Walks.of_pending hnext hframe'), hcarries', fun hok other hmem => ?_⟩
      rw [List.mem_singleton.mp hmem]
      exact ⟨hopen.2 hstays (by rw [hok]; nofun), hflows' hok⟩

/-- `drive` visits the streams one after another, and stops at an error. -/
theorem driveStreams_carries (streams : List Stream) :
    ∀ {cell : Cell} {session : Session} (choices : List StreamChoice) (done : List Stream),
      cell.connection.http2 = some session →
      Carries config others index cell (done ++ streams) →
      (∀ stream ∈ streams, stream.Sound ∧ stream.Flowing) →
      Walks cell (driveStreams config index choices streams cell).1 ∧
        Carries config others index (driveStreams config index choices streams cell).1
          (done ++ (driveStreams config index choices streams cell).2.1) ∧
        ((driveStreams config index choices streams cell).2.2 = .ok →
          ∀ s ∈ (driveStreams config index choices streams cell).2.1,
            s.Sound ∧ s.Flowing) := by
  induction streams with
  | nil => exact fun _ done hsession h hsound => ⟨Walks.refl hsession, h, fun _ => hsound⟩
  | cons stream rest ih =>
      intro cell session choices done hsession h hsound
      have hfront := h.permute hsession List.perm_middle.symm
      obtain ⟨hwalk, hcarries, hkept⟩ := driveStream_carries (choices.headD {}) hfront
        (hsound stream List.mem_cons_self) hsession
      unfold driveStreams
      generalize cell.driveStream config (choices.headD {}) index stream = outcome at *
      obtain ⟨next, kept, result⟩ := outcome
      dsimp only at hwalk hcarries hkept ⊢
      obtain ⟨count, hnext⟩ := hwalk.http2 hsession
      have hback : (done ++ kept ++ rest).Perm (kept ++ (done ++ rest)) := by
        rw [← List.append_assoc]
        exact List.perm_append_comm.append_right rest
      have hcarries' := hcarries.permute hnext hback
      split
      · rename_i hfailed
        exact ⟨hwalk, by rwa [← List.append_assoc], fun hok => absurd hok hfailed⟩
      · rename_i hok
        obtain ⟨hwalk', hcarried, hsounds⟩ := ih choices.tail (done ++ kept) hnext hcarries'
          fun s hs => hsound s (List.mem_cons_of_mem _ hs)
        refine ⟨hwalk.trans hwalk', by rwa [← List.append_assoc], fun hresult s hmem => ?_⟩
        rcases List.mem_append.mp hmem with hmem | hmem
        · exact hkept (Decidable.not_not.mp hok) s hmem
        · exact hsounds hresult s hmem

/-- `onStream` runs on one stream with the property, or on none. -/
theorem onStream_split (property : Stream → Bool) (f : StreamCell → StreamCell × Engine)
    (streams : List Stream) (cell : Cell) :
    (∃ before stream after, streams = before ++ stream :: after ∧ property stream = true ∧
        onStream property f streams cell =
          ((f ⟨cell, stream⟩).1.cell, before ++ (f ⟨cell, stream⟩).1.stream :: after,
            (f ⟨cell, stream⟩).2)) ∨
      (∀ stream ∈ streams, property stream = false) ∧
        onStream property f streams cell = (cell, streams, .ok) := by
  induction streams with
  | nil => exact Or.inr ⟨fun stream hmem => absurd hmem List.not_mem_nil, rfl⟩
  | cons stream rest ih =>
      unfold onStream
      by_cases hproperty : property stream = true
      · rw [if_pos hproperty]
        exact Or.inl ⟨[], stream, rest, rfl, hproperty, rfl⟩
      · rw [if_neg hproperty]
        rcases ih with ⟨before, found, after, rfl, hfound, heq⟩ | ⟨hnone, heq⟩
        · exact Or.inl ⟨stream :: before, found, after, rfl, hfound, by rw [heq]; rfl⟩
        · refine Or.inr ⟨fun other hmem => ?_, by rw [heq]⟩
          rcases List.mem_cons.mp hmem with rfl | hmem
          · simpa using hproperty
          · exact hnone other hmem

/-- A function that steps on one stream. -/
theorem onStream_carries (property : Stream → Bool) (f : StreamCell → StreamCell × Engine)
    (hsession : cell.connection.http2 = some session)
    (h : Carries config others index cell session.streams)
    (hsound : ∀ stream ∈ session.streams, stream.Sound ∧ stream.Flowing)
    (hf : ∀ s : StreamCell, s.stream.Sound → s.stream.Lent → s.Steps config index (f s) ∧
      (s.stream.Metered → s.stream.Flowing →
        (f s).1.stream.Metered ∧ ((f s).2 ≠ .memory → (f s).1.stream.Flowing))) :
    Walks cell (onStream property f session.streams cell).1 ∧
      Carries config others index (onStream property f session.streams cell).1
        (onStream property f session.streams cell).2.1 ∧
      ((onStream property f session.streams cell).2.2 ≠ .memory →
        ∀ s ∈ (onStream property f session.streams cell).2.1, s.Sound ∧ s.Flowing) := by
  rcases onStream_split property f session.streams cell with
    ⟨before, stream, after, hsplit, -, heq⟩ | ⟨-, heq⟩
  · have hmem : stream ∈ session.streams := by
      rw [hsplit]
      exact List.mem_append_right _ List.mem_cons_self
    obtain ⟨hstep, hflow⟩ :=
      hf ⟨cell, stream⟩ (hsound stream hmem).1 (mem_lent h hsession stream hmem)
    obtain ⟨hmetered, hflows⟩ := hflow (mem_metered h hsession stream hmem) (hsound stream hmem).2
    rw [hsplit] at h
    obtain ⟨hframe, hcarries⟩ := (h.permute hsession List.perm_middle.symm).evolve
      (s := ⟨cell, stream⟩) hsession hstep.1 hmetered
    have hwalk := Walks.of_pending hsession hframe
    obtain ⟨count, hnext⟩ := hwalk.http2 hsession
    rw [heq]
    refine ⟨hwalk, hcarries.permute hnext List.perm_middle, fun hmemory s hs => ?_⟩
    rcases List.mem_append.mp hs with hs | hs
    · exact hsound s (by rw [hsplit]; exact List.mem_append_left _ hs)
    · rcases List.mem_cons.mp hs with rfl | hs
      · exact ⟨hstep.2 (hsound stream hmem).1 hmemory, hflows hmemory⟩
      · exact hsound s (by
          rw [hsplit]
          exact List.mem_append_right _ (List.mem_cons_of_mem _ hs))
  · rw [heq]
    exact ⟨Walks.refl hsession, h, fun _ => hsound⟩

end Cell

/-- `modify` changes one stream with this number, or none. -/
theorem Session.modify_split (f : Stream → Stream) (id : Nat) (streams : List Stream) :
    (∃ before stream after, streams = before ++ stream :: after ∧ stream.id = id ∧
        Session.modify f id streams = before ++ f stream :: after) ∨
      Session.modify f id streams = streams := by
  induction streams with
  | nil => exact Or.inr rfl
  | cons stream rest ih =>
      unfold Session.modify
      by_cases hid : stream.id = id
      · rw [if_pos hid]
        exact Or.inl ⟨[], stream, rest, rfl, hid, rfl⟩
      · rw [if_neg hid]
        rcases ih with ⟨before, found, after, rfl, hfound, heq⟩ | heq
        · exact Or.inl ⟨stream :: before, found, after, rfl, hfound, by rw [heq]; rfl⟩
        · exact Or.inr (by rw [heq])

/-- A callback that records something about a stream: nothing that the ledger knows, and nothing
that a task borrows. -/
def Stream.Records (before after : Stream) : Prop :=
  after.key = before.key ∧ (before.headReady = true → after.headReady = true) ∧
    (before.busy = true → before.headReady = true → after.view = before.view) ∧
    (before.Sound ∧ before.Flowing → after.Sound ∧ after.Flowing)

namespace Stream

theorem records_trailers (stream : Stream) :
    stream.Records { stream with trailers := true } :=
  ⟨rfl, fun h => h, fun _ _ => rfl, fun h => h⟩

theorem records_ended (stream : Stream) : stream.Records { stream with ended := true } :=
  ⟨rfl, fun h => h, fun _ _ => rfl, fun h => h⟩

theorem records_header (field : Header) (stream : Stream) :
    stream.Records (stream.header field) := by
  unfold header
  split
  · exact ⟨rfl, fun h => h, fun _ _ => rfl, fun h => h⟩
  · split
    · exact ⟨rfl, fun h => h, fun _ _ => rfl, fun h => h⟩
    · split
      · exact ⟨rfl, fun h => h, fun _ _ => rfl, fun h => h⟩
      · rename_i hopen
        exact ⟨rfl, fun h => h, fun _ hready => absurd hready hopen, fun h => h⟩

theorem records_headComplete (trailers : Bool) (stream : Stream) :
    stream.Records (stream.headComplete trailers) := by
  unfold headComplete
  split
  · exact ⟨rfl, fun h => h, fun _ _ => rfl, fun h => h⟩
  · rename_i hopen
    exact ⟨rfl, fun _ => rfl, fun _ hready => absurd (Or.inr hready) hopen, fun h => h⟩

theorem records_close (code : Nat) (stream : Stream) : stream.Records (stream.close code) :=
  ⟨rfl, fun h => h, fun _ _ => rfl,
    fun _ => ⟨StreamCell.sound_of_closed rfl, flowing_of_closed rfl⟩⟩

theorem Records.lent {before after : Stream} (h : before.Records after) (hlent : before.Lent) :
    after.Lent := by
  obtain ⟨hkey, hready, -, -⟩ := h
  simp only [Stream.key, Prod.mk.injEq] at hkey
  rw [Lent, hkey.2.2.1, hkey.2.2.2]
  exact ⟨hlent.1, fun hbusy => hready (hlent.2 hbusy)⟩

end Stream

namespace Cell

open Connection

variable {config : Config} {others : Others} {index : Nat} {cell : Cell} {session : Session}

theorem modify_carries (f : Stream → Stream) (id : Nat)
    (hsession : cell.connection.http2 = some session)
    (h : Carries config others index cell session.streams)
    (hsound : ∀ stream ∈ session.streams, stream.Sound ∧ stream.Flowing)
    (hf : ∀ stream : Stream, stream.Records (f stream)) :
    Carries config others index cell (Session.modify f id session.streams) ∧
      ∀ s ∈ Session.modify f id session.streams, s.Sound ∧ s.Flowing := by
  rcases Session.modify_split f id session.streams with ⟨before, stream, after, hsplit, -, heq⟩ | heq
  · have hmem : stream ∈ session.streams := by
      rw [hsplit]
      exact List.mem_append_right _ List.mem_cons_self
    have hlent := mem_lent h hsession stream hmem
    have hrecords := hf stream
    rw [heq]
    rw [hsplit] at h
    refine ⟨((h.permute hsession List.perm_middle.symm).retouch hsession hrecords.1
      (hrecords.lent hlent) fun hbusy => hrecords.2.2.1 hbusy (hlent.2 hbusy)).permute hsession
      List.perm_middle, fun s hs => ?_⟩
    rcases List.mem_append.mp hs with hs | hs
    · exact hsound s (by rw [hsplit]; exact List.mem_append_left _ hs)
    · rcases List.mem_cons.mp hs with rfl | hs
      · exact hrecords.2.2.2 (hsound stream hmem)
      · exact hsound s (by
          rw [hsplit]
          exact List.mem_append_right _ (List.mem_cons_of_mem _ hs))
  · rw [heq]
    exact ⟨h, hsound⟩

/-! ### Callbacks -/

/-- New storage comes from the cache or from the heap, and is nobody else's. -/
theorem acquireStream_eq {shared next : Shared} {granted : Bool} {fresh address : Nat}
    (h : shared.acquireStream granted fresh = some (next, address)) :
    ∃ free cached heap,
      next = { shared with http2Free := free, http2Cached := cached, http2Heap := heap } ∧
      ∀ live : List Nat, (live ++ shared.http2Free).Perm shared.http2Heap →
        shared.http2Heap.Nodup → shared.http2Cached = shared.http2Free.length →
        shared.http2Cached ≤ 64 →
        (address :: live ++ free).Perm heap ∧ heap.Nodup ∧ cached = free.length ∧ cached ≤ 64 := by
  unfold Shared.acquireStream at h
  split at h
  · rename_i first rest hfree
    cases h
    refine ⟨_, _, _, rfl, fun live hperm hnodup hcached hlimit => ⟨?_, hnodup, ?_, by omega⟩⟩
    · rw [hfree] at hperm
      exact List.perm_middle.symm.trans hperm
    · rw [hcached, hfree, List.length_cons, Nat.add_sub_cancel]
  · rename_i hfree
    split at h
    · rename_i hfresh
      cases h
      refine ⟨shared.http2Free, shared.http2Cached, _, rfl, fun live hperm hnodup hcached hlimit =>
        ⟨hperm.cons _, List.nodup_cons.mpr ⟨hfresh.2, hnodup⟩, hcached, hlimit⟩⟩
    · cases h

/-- A new stream has no permit yet, and its storage and its number are its own. -/
theorem beginStream_carried (id address : Nat) (granted : Bool)
    (hsession : cell.connection.http2 = some session) (h : Carried config others index cell)
    (hsound : cell.connection.Sounds) :
    (∃ next, (cell.beginStream config session id address granted).1.connection =
        { cell.connection with http2 := some next }) ∧
      Carried config others index (cell.beginStream config session id address granted).1 ∧
      (cell.beginStream config session id address granted).1.connection.Sounds := by
  have hsame : ∃ next, cell.connection = { cell.connection with http2 := some next } :=
    ⟨session, by rw [← hsession]⟩
  unfold beginStream
  split
  · exact ⟨hsame, h, hsound⟩
  · rename_i hroom
    split
    · exact ⟨hsame, h, hsound⟩
    · rename_i shared found hacquire
      obtain ⟨free, cached, heap, rfl, hkeep⟩ := acquireStream_eq hacquire
      obtain ⟨hb, ⟨⟨hactive, hrejecting, htotal⟩, hsane, ⟨htasks, hloans, htagged, htickets⟩,
        hlisted, ⟨hheap, hnodup, hcached, hlimit, hbegun, hcount, hbound⟩, hstocked, hbatch, hformed,
        hcounts, hbacked, hvacant, hadmin⟩, hhonors⟩ := h
      have hpublic : ¬cell.connection.admin = true := fun hkind => by
        have := (hadmin hkind).1
        rw [hsession] at this
        cases this
      have hlength := (hcounts session hsession).1
      have hold : cell.connection.streams = session.streams := by
        simp [Connection.streams, hsession]
      generalize hstream : ({ address := found, id := id, serial := cell.shared.http2Begun } :
        Stream) = stream
      generalize hnext : ({ session with
        streams := stream :: session.streams
        count := session.count + 1
        accepted := session.accepted + 1 } : Session) = next
      have hnew : streams { cell.connection with http2 := some next } =
          stream :: cell.connection.streams := by
        rw [hold, ← hnext]
        rfl
      have hfields : stream.address = found ∧ stream.serial = cell.shared.http2Begun ∧
          stream.permit = none ∧ stream.busy = false ∧ stream.lentFor = none := by
        rw [← hstream]
        exact ⟨rfl, rfl, rfl, rfl, rfl⟩
      have hbegins : (stream.Lent ∧ stream.Assigned ∧ stream.Metered) ∧ stream.Sound ∧
          stream.Flowing := by
        rw [← hstream]
        exact ⟨⟨⟨rfl, by rintro ⟨⟩⟩, ⟨Nat.zero_le _, fun _ => rfl⟩, Stream.begun_metered _ _ _⟩,
          ⟨Or.inl rfl, fun _ _ => by rw [if_neg (by rintro ⟨⟩)]⟩, Stream.begun_flowing _ _ _⟩
      obtain ⟨haddress, hserial, hpermit, hbusy, hstage⟩ := hfields
      obtain ⟨hheap', hnodup', hcached', hlimit'⟩ := hkeep
        (cell.connection.addresses ++ others.addresses) hheap hnodup hcached hlimit
      refine ⟨⟨_, rfl⟩, ⟨hb.of_ledger ?_, ⟨⟨?_, ?_, ?_⟩, hsane, ⟨htasks, ?_, htagged, htickets⟩,
        hlisted, ⟨?_, hnodup', hcached', hlimit', ?_, ?_, ?_⟩, hstocked, hbatch, ?_, ?_, hbacked,
        hvacant, fun hkind => absurd hkind hpublic⟩, hhonors.1, ?_⟩, ?_⟩
      · simp only [ledger, busyStreams, hsession, ← hnext, List.countP_cons, hbusy,
          Bool.false_eq_true, if_false, Nat.add_zero]
      · simp only [admits, batched, hnew, streamHolds, List.map_cons, List.sum_cons, hpermit, holds,
          reduceCtorEq, if_false, Nat.zero_add] at hactive ⊢
        exact hactive
      · simp only [rejects, hnew, streamHolds, List.map_cons, List.sum_cons, hpermit, holds,
          reduceCtorEq, if_false, Nat.zero_add] at hrejecting ⊢
        exact hrejecting
      · simp only [live, requesting, batched, hnew, List.length_cons] at htotal ⊢
        omega
      · simp only [loans, hnew, List.filterMap_cons, hstage, Option.map_none] at hloans ⊢
        exact hloans
      · simp only [addresses, hnew, List.map_cons, haddress] at hheap' ⊢
        exact hheap'
      · simp only [serials, hnew, List.map_cons, hserial, List.range_succ, List.cons_append]
          at hbegun ⊢
        exact (hbegun.cons _).trans (List.perm_append_singleton _ _).symm
      · simp only [hnew, List.length_cons]
        omega
      · dsimp only
        omega
      · rw [hnew]
        intro other hmem
        rcases List.mem_cons.mp hmem with rfl | hmem
        · exact hbegins.1
        · exact hformed other hmem
      · intro other hother
        cases hother
        rw [← hnext]
        simp only [List.length_cons]
        omega
      · rw [hnew]
        intro before hmem
        obtain ⟨other, hin, hrest⟩ := hhonors.2 before hmem
        exact ⟨other, List.mem_cons_of_mem _ hin, hrest⟩
      · rw [Sounds, hnew]
        intro other hmem
        rcases List.mem_cons.mp hmem with rfl | hmem
        · exact hbegins.2
        · exact hsound other hmem

end Cell

end Zhtps.Worker
