import Zhtps.Worker.Ledger.Dispatch

/-!
Visits of a slot at rest: completions of the kernel, the clock, the shutdown, and the wake-ups of
the application.  A visit starts a call in its precondition, or leaves the slot at rest.
-/

namespace Zhtps.Worker

namespace Cell

open Connection

variable {config : Config} {others : Others} {index : Nat} {cell : Cell}

/-- A visit's outcome keeps the books, the contract and the ledger. -/
def Visits (config : Config) (others : Others) (index : Nat) (result : Cell × Next) : Prop :=
  Kept config result ∧ Balances config others index result

/-- What a visit finds. -/
def Rests (config : Config) (others : Others) (index : Nat) (cell : Cell) : Prop :=
  cell.connection.Rest config ∧ Booked cell.connection ∧ cell.Settled config others index true

theorem Rests.atRest (h : cell.Rests config others index) (hfd : cell.connection.fd.isSome = true) :
    cell.connection.AtRest config := by
  have hrest := h.1
  rwa [Rest, if_pos hfd] at hrest

/-- An active slot is open. -/
theorem Rests.open_of_active (h : cell.Rests config others index)
    (hactive : cell.isActive index = true) : cell.connection.fd.isSome = true :=
  h.2.2.1.listed.1.2.1.mp (List.contains_iff_mem.mp hactive)

/-- Only the phases of HTTP/2 have a session. -/
theorem AtRest.phase_of_http2 {c : Connection} (h : c.AtRest config) (hhttp2 : c.http2 ≠ none) :
    c.phase = .http2 ∨ c.phase = .canceling := by
  unfold Connection.AtRest at h
  cases hphase : c.phase <;> simp only [hphase] at h
  case http2 => exact Or.inl rfl
  case canceling => exact Or.inr rfl
  all_goals exact absurd h.1 hhttp2

/-- A visit that ends where it began. -/
theorem Rests.stays (h : cell.Rests config others index) : Visits config others index (cell, .done) :=
  ⟨⟨h.2.1, h.1⟩, h.2.2⟩

/-- A slot whose request no hook borrows may be closed at any time. -/
theorem forceClose_visits (hl : cell.Settled config others index false) (hb : Booked cell.connection)
    (hfd : cell.connection.fd.isSome = true) :
    Visits config others index (cell.forceClose index, .done) :=
  ⟨forceClose_kept config hb hfd, forceClose_balances hl hb hfd⟩

/-! ### Shutdown and wake-ups -/

theorem reclaim_visits (h : cell.Rests config others index)
    (hfirst : cell.shared.idle.first = some index) :
    Visits config others index (cell.forceClose index, .done) := by
  obtain ⟨list, hlist, hidle, -⟩ := h.2.2.1.listed.2.2.2.2
  have hin : index ∈ list := by
    rw [hlist.2.1] at hfirst
    exact List.mem_of_mem_head? hfirst
  obtain ⟨hfd, hphase, -⟩ := hidle hin
  exact forceClose_visits (h.2.2.start (by rw [hphase]; nofun)) h.2.1 hfd

theorem inspecting_answerable (h : cell.Rests config others index)
    (hfd : cell.connection.fd.isSome = true) (hphase : cell.connection.phase = .inspecting)
    (close : Bool) : cell.connection.Answerable config close ∧ cell.connection.Fresh := by
  have hrest := h.atRest hfd
  simp only [AtRest, hphase] at hrest
  obtain ⟨hhttp2, ⟨hun, hpermitted⟩, hs, hfresh, hbatched, hadmin⟩ := hrest
  exact ⟨⟨⟨hfd, hhttp2⟩, hun.unmarked, hs, hpermitted.1 hs, hbatched,
    Or.inr (Or.inr ⟨hphase, hadmin⟩),
    fun hne => absurd hfresh hne, Fresh.unsending hfresh⟩, hfresh⟩

theorem pumpApplication_visits (h : cell.Rests config others index)
    (hfd : cell.connection.fd.isSome = true) :
    Visits config others index (cell.pumpApplication config) := by
  have hrest := h.atRest hfd
  unfold pumpApplication
  split
  · rename_i hphase
    have hhttp2 : cell.connection.http2 ≠ none := by
      simp only [AtRest, hphase] at hrest
      exact hrest.1
    exact ⟨⟨h.2.1, hfd, hhttp2, Or.inl hphase, hrest⟩, h.2.2.start (by rw [hphase]; nofun)⟩
  · split
    · rename_i hwriting
      obtain ⟨-, hphase, hstarted⟩ := hwriting
      have hhttp1 : cell.connection.http2 = none := by
        simp only [AtRest, hphase] at hrest
        exact hrest.1
      exact ⟨⟨h.2.1, ⟨hfd, hhttp1⟩, hphase, hrest, hstarted⟩,
        h.2.2.start (by rw [hphase]; nofun)⟩
    · exact h.stays

/-- A slot that will close after its response is at rest as before. -/
theorem AtRest.closing {c : Connection} (h : c.AtRest config) :
    AtRest config { c with closeAfterResponse := true } := by
  generalize hd : ({ c with closeAfterResponse := true } : Connection) = d
  have hsame : d.phase = c.phase := by rw [← hd]
  unfold Connection.AtRest at h ⊢
  rw [hsame]
  cases hphase : c.phase <;> simp only [hphase] at h ⊢ <;> subst hd
  case writing =>
    obtain ⟨hhttp2, ⟨hnone, hans, hover, hsession⟩ | hflush⟩ := h
    · refine ⟨hhttp2, Or.inl ⟨hnone, hans, fun htls hr => ⟨rfl, (hover htls hr).2⟩, ?_⟩⟩
      intro operation hop
      obtain ⟨hone, hserves⟩ := hsession operation hop
      refine ⟨hone, fun hne => ?_⟩
      rcases hserves hne with hserves | ⟨rfl, hnone, ⟨hw, hans, hunsent, -, hinterim⟩ | hshut⟩
      · refine Or.inl ?_
        cases operation <;> exact hserves
      · exact Or.inr ⟨rfl, hnone, Or.inl ⟨hw, hans, hunsent, rfl, hinterim⟩⟩
      · exact Or.inr ⟨rfl, hnone, Or.inr hshut⟩
    · refine ⟨hhttp2, Or.inr ⟨hflush.1, hflush.2.1, ?_⟩⟩
      intro operation hop
      obtain ⟨hone, hserves⟩ := hflush.2.2 operation hop
      refine ⟨hone, fun hne => ?_⟩
      have := hserves hne
      cases operation <;> exact this
  all_goals exact h

theorem shutdownSlot_visits (keepalive : Bool) (h : cell.Rests config others index)
    (hfd : cell.connection.fd.isSome = true) :
    Visits config others index (cell.shutdownSlot keepalive index) := by
  have hrest := h.atRest hfd
  unfold shutdownSlot
  split
  · rename_i session hsession
    have hphase := AtRest.phase_of_http2 hrest (by rw [hsession]; rintro ⟨⟩)
    have hstart := h.2.2.start (by rcases hphase with hphase | hphase <;> rw [hphase] <;> rintro ⟨⟩)
    have hpump : cell.connection.Pre config .pumpHttp2 :=
      ⟨hfd, by rw [hsession]; rintro ⟨⟩, hphase, hrest⟩
    obtain ⟨hdrained, hsteers, hsame⟩ :=
      drainSession_carried hsession ⟨h.2.1, hstart.1, hstart.2.2⟩
    refine ⟨⟨hdrained.1, hsteers.pumps hpump⟩, hdrained.2.1, ?_, hdrained.2.2⟩
    rw [Sounds, hsame]
    exact hstart.2.1
  · dsimp only
    have hmarked : Settled config others index true
        (cell.setConnection { cell.connection with closeAfterResponse := true }) :=
      h.2.2.remark rfl rfl rfl
    have hbooked : Booked { cell.connection with closeAfterResponse := true } := h.2.1.of_ledger rfl
    have hstays : Rests config others index
        (cell.setConnection { cell.connection with closeAfterResponse := true }) := by
      refine ⟨?_, hbooked, hmarked⟩
      show Rest config { cell.connection with closeAfterResponse := true }
      rw [Rest, if_pos hfd]
      exact AtRest.closing hrest
    split
    · exact hstays.stays
    · split
      · exact hstays.stays
      · rename_i hreading _
        simp only [not_or, Decidable.not_not] at hreading
        exact forceClose_visits (hmarked.start (by rw [hreading.1]; rintro ⟨⟩)) hbooked hfd

/-! ### The clock -/

/-- Marking a request as late changes nothing the ledger knows. -/
theorem timeoutApplication_settled {resting : Bool} (hl : cell.Settled config others index resting) :
    cell.timeoutApplication.Settled config others index resting := by
  unfold timeoutApplication
  split
  · exact hl
  · exact hl.remark rfl rfl rfl

theorem timeoutApplication_connection (cell : Cell) :
    ∃ canceled, cell.timeoutApplication.connection =
      { cell.connection with canceled := canceled, applicationTimedOut := true } := by
  unfold timeoutApplication
  split
  · rename_i hlate
    exact ⟨_, by rw [← hlate]⟩
  · exact ⟨true, rfl⟩

theorem timeout_visits (clock : Clock) (h : cell.Rests config others index)
    (hfd : cell.connection.fd.isSome = true) (hhttp2 : cell.connection.phase ≠ .http2)
    (hcanceling : cell.connection.phase ≠ .canceling) :
    Visits config others index (cell.timeout config clock index) := by
  have hrest := h.atRest hfd
  have hcloses : cell.connection.phase ≠ .application →
      Visits config others index (cell.forceClose index, .done) :=
    fun hphase => forceClose_visits (h.2.2.start hphase) h.2.1 hfd
  unfold timeout
  dsimp only
  split
  · rename_i hclosing
    exact hcloses fun hphase => by simp [hphase] at hclosing
  · rename_i hclosing
    split
    · -- Of the other phases only reading can have no request.
      rename_i hblank
      have hreading : cell.connection.phase = .reading := by
        simp only [Bool.not_eq_true', Option.isNone_iff_eq_none] at hblank
        unfold AtRest at hrest
        cases hphase : cell.connection.phase <;> simp only [hphase] at hrest hclosing
        case reading => rfl
        case http2 => exact absurd hphase hhttp2
        case canceling => exact absurd hphase hcanceling
        case application => simp [hblank.1] at hrest
        case inspecting => simp [hblank.1] at hrest
        case writing =>
          obtain ⟨-, ⟨-, hans, -⟩ | ⟨⟨batch, hbatch, -⟩, -⟩⟩ := hrest
          · rw [hans.1] at hblank
            cases hblank.1
          · rw [hbatch] at hblank
            cases hblank.2
        all_goals simp at hclosing
      split
      · simp only [AtRest, hreading] at hrest
        obtain ⟨hnone, hbetween, hbatch, hsend⟩ := hrest
        exact ⟨⟨h.2.1, ⟨⟨hfd, hnone⟩, hbatch, hbetween.1.1⟩, hsend⟩,
          h.2.2.start (by rw [hreading]; nofun)⟩
      · exact hcloses (by rw [hreading]; nofun)
    · split
      · rename_i hphase
        have hmarked := timeoutApplication_settled h.2.2
        obtain ⟨canceled, hc⟩ := timeoutApplication_connection cell
        refine ⟨⟨?_, ?_⟩, hmarked⟩
        · show Booked cell.timeoutApplication.connection
          rw [hc]
          exact h.2.1.of_ledger rfl
        · show cell.timeoutApplication.connection.Rest config
          rw [hc, Rest, if_pos hfd]
          simp only [AtRest, hphase] at hrest ⊢
          obtain ⟨hnone, hbetween, hs, hfresh, hbatched, hiso, hadmin, -⟩ := hrest
          exact ⟨hnone, hbetween, hs, hfresh, hbatched, hiso, hadmin, fun _ => trivial⟩
      · rename_i happ
        split
        · obtain ⟨canceled, hc⟩ := timeoutApplication_connection cell
          refine forceClose_visits (timeoutApplication_settled (h.2.2.start happ)) ?_ ?_
          · rw [hc]
            exact h.2.1.of_ledger rfl
          · rw [hc]
            exact hfd
        · split
          · rename_i hreading
            obtain ⟨hreading, hs⟩ := hreading
            simp only [AtRest, hreading] at hrest
            obtain ⟨hnone, ⟨hun, hpermitted⟩, hbatch, hsend⟩ := hrest
            have hstart := h.2.2.start happ
            obtain ⟨kernel, pending, flag, hc⟩ := cancelReceive_connection cell
            have hcanceled : cell.cancelReceive.Settled config others index false := by
              refine ⟨cancelReceive_ledger hstart.1, ?_, ?_⟩
              · rw [hc]
                exact hstart.2.1
              · rw [hc]
                exact hstart.2.2
            refine ⟨⟨cancelReceive_booked h.2.1, ?_⟩, hcanceled⟩
            show cell.cancelReceive.connection.Answerable config true
            rw [hc]
            refine ⟨⟨hfd, hnone⟩, hun.unmarked, hs, hpermitted.1 hs, ?_, Or.inl hreading,
              fun _ => ⟨hbatch, rfl⟩, hsend⟩
            intro batch (hsome : cell.connection.batch = some batch)
            rw [hbatch] at hsome
            cases hsome
          · exact hcloses happ

theorem tick_visits (clock : Clock) (h : cell.Rests config others index)
    (hfd : cell.connection.fd.isSome = true) :
    Visits config others index (cell.tick config clock index) := by
  have hrest := h.atRest hfd
  -- A request that a hook borrows has no response stream.
  have hstreams : cell.connection.responseStreamStarted = true →
      Visits config others index (cell.forceClose index, .done) := by
    intro hstarted
    refine forceClose_visits (h.2.2.start fun hphase => ?_) h.2.1 hfd
    simp only [AtRest, hphase] at hrest
    have hquiet : cell.connection.responseStreamStarted = false := hrest.2.1.1.1.1
    rw [hstarted] at hquiet
    cases hquiet
  unfold tick
  dsimp only
  split
  · rename_i hphase
    have hhttp2 : cell.connection.http2 ≠ none := by
      simp only [AtRest, hphase] at hrest
      exact hrest.1
    exact ⟨⟨h.2.1, hfd, hhttp2, Or.inl hphase, hrest⟩, h.2.2.start (by rw [hphase]; nofun)⟩
  · rename_i hhttp2
    split
    · rename_i hlate
      exact hstreams hlate.1
    · split
      · rename_i hlost
        exact hstreams hlost.1
      · split
        · exact h.stays
        · rename_i hopen
          exact timeout_visits clock h hfd hhttp2 fun hphase => hopen (Or.inl hphase)

end Cell

end Zhtps.Worker
