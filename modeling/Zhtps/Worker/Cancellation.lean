import Zhtps.Worker.Borrowing
import Zhtps.Worker.Frame.Streams

/-!
What a cancellation leaves behind.  A thread drops the hook of a canceled task, whose completion then
has no response.  The slot or the stream that canceled the task knows it for as long as the task is
outstanding: the connection has timed out, or the stream is closed.
-/

namespace Zhtps

namespace Worker

variable {n : Nat} {config : Config} {publicSlots : Nat} {options : Admission.Options} {now : Nat}
  {events : List (Event n)} {w next : Worker n} {i : Fin n}

/-- The completion of such a task starts a response. -/
def Task.Final (task : Task) : Prop := task.stage = .response ∨ task.stage = .bodyResponse

/-- Nobody asks for the answer of the task any more. -/
def Task.Dropped (task : Task) (c : Connection) : Prop :=
  match task.stream with
  | none => c.applicationTimedOut = true
  | some address => ∀ stream ∈ c.streams, stream.address = address → stream.closed = true

/-- A completion that must have an answer has one, or is not asked for it. -/
def Completion.Excused (completion : Completion) (c : Connection) : Prop :=
  completion.task.Final →
    completion.response.isSome = true ∨ completion.expired = true ∨ completion.task.Dropped c

namespace Cell

variable {choice : Choice} {index : Nat} {cell middle : Cell}

/-- What a call or a visit leaves to the threads: it misses no answer, closed streams stay closed,
and canceled ones are closed. -/
def Follows (before after : Cell) : Prop :=
  (after.shared.executor.running = before.shared.executor.running ∧
      after.shared.missed = before.shared.missed) ∧
    Stems before.connection.streams after.connection.streams ∧
    (AllTold before.connection.streams → AllTold after.connection.streams)

/-- The part of the frame that opening a slot keeps as well. -/
def trace (cell : Cell) := (cell.shared.frame.2, cell.connection.streams)

theorem trace_of_frame {next : Cell} (h : next.frame = cell.frame) : next.trace = cell.trace :=
  congrArg (fun frame => (frame.1.2, frame.2)) h

theorem Follows.of {next : Cell} (h : middle.Follows next) (hsame : middle.trace = cell.trace) :
    cell.Follows next := by
  simp only [trace, Shared.frame, Prod.mk.injEq] at hsame
  obtain ⟨⟨hrunning, hmissed⟩, hstreams⟩ := hsame
  unfold Follows at h ⊢
  rwa [hrunning, hmissed, hstreams] at h

theorem Follows.refl (cell : Cell) : cell.Follows cell :=
  ⟨⟨rfl, rfl⟩, (Inherits.refl _).stems, fun h => h⟩

theorem Follows.same {next : Cell} (h : next.trace = cell.trace) : cell.Follows next :=
  (Follows.refl next).of h

/-- The streams stay as they are, or are gone. -/
theorem Follows.rest {next : Cell} (h : cell.Follows middle)
    (hrest : next.shared.frame.2 = middle.shared.frame.2)
    (hstreams : next.connection.streams = middle.connection.streams ∨ next.connection.streams = []) :
    cell.Follows next := by
  obtain ⟨⟨hrunning, hmissed⟩, hstems, htold⟩ := h
  obtain ⟨hrunning', hmissed'⟩ := Prod.mk.inj hrest
  refine ⟨⟨hrunning'.trans hrunning, hmissed'.trans hmissed⟩, ?_⟩
  rcases hstreams with hstreams | hstreams
  · rw [hstreams]
    exact ⟨hstems, htold⟩
  · rw [hstreams]
    exact ⟨(inherits_nil _).stems, fun _ _ hmem => absurd hmem List.not_mem_nil⟩

theorem Follows.finishClose (h : cell.Follows middle) (index : Nat) :
    cell.Follows (middle.finishClose index) := by
  rcases finishClose_leaves index middle with hsame | ⟨released, hframe, hstreams, hleaves⟩
  · rw [hsame]
    exact h
  · rw [hleaves]
    have hrest : released.shared.frame.2 = middle.shared.frame.2 := congrArg Prod.snd hframe
    exact h.rest hrest (Or.inr hstreams)

/-- All streams of a slot that closes are closed. -/
theorem forceClose_follows_of (hframe : middle.shared.frame.2 = cell.shared.frame.2)
    (hstems : Stems cell.connection.streams middle.connection.streams) :
    cell.Follows (middle.forceClose index) := by
  obtain ⟨canceled, hcanceled, hstreams, hfinishes⟩ := forceClose_finishes index middle
  have haborted : Stems cell.connection.streams canceled.connection.streams := by
    rw [hstreams]
    refine hstems.inherits fun stream hmem => ?_
    obtain ⟨old, hold, rfl⟩ := List.mem_map.mp hmem
    exact ⟨old, hold, rfl, rfl, fun _ => rfl, fun h => h⟩
  have htold : AllTold canceled.connection.streams := by
    rw [hstreams]
    exact allTold_abort _
  have hshared := (congrArg Prod.snd hcanceled).trans hframe
  have hfollows : cell.Follows canceled := ⟨Prod.mk.inj hshared, haborted, fun _ => htold⟩
  rw [hfinishes]
  exact hfollows.finishClose index

theorem forceClose_follows (index : Nat) (cell : Cell) : cell.Follows (cell.forceClose index) :=
  forceClose_follows_of rfl (Inherits.refl _).stems

theorem Closes.follows {result : Cell × Next} (h : Closes index cell result) :
    cell.Follows result.1 := by
  rcases h with ⟨hshared, hstreams⟩ | ⟨middle, hframe, rfl⟩
  · exact (Follows.refl cell).rest (congrArg Prod.snd hshared) hstreams
  · exact (forceClose_follows index middle).of (trace_of_frame hframe)

/-! ### Calls and visits -/

theorem pumpHttp2_follows : cell.Follows (cell.pumpHttp2 config choice index).1 := by
  unfold pumpHttp2
  split
  · exact .refl cell
  · rename_i session hsession
    have hstreams : cell.connection.streams = session.streams := by
      rw [Connection.streams, hsession]
    split
    · exact forceClose_follows index cell
    · exact .same (trace_of_frame (submitHttp2Io_frame _ _))
    · split
      · exact .refl cell
      · refine ⟨⟨rfl, rfl⟩, ?_, fun _ => allTold_abort session.streams⟩
        rw [hstreams]
        exact (inherits_abort session.streams).stems
    · split
      · exact .refl cell
      · obtain ⟨hframe, hstems, htold⟩ :=
          @http2Step_rounds config index cell session choice.http2 hsession
        dsimp only
        split
        · rename_i hok
          exact ⟨Prod.mk.inj (congrArg Prod.snd hframe), hstems, htold hok⟩
        · exact forceClose_follows_of (congrArg Prod.snd hframe) hstems

theorem dispatch_follows (call : Call) : cell.Follows (cell.dispatch config choice index call).1 := by
  by_cases hpump : call = .pumpHttp2
  · subst hpump
    exact pumpHttp2_follows
  · exact (dispatch_closes call hpump).follows

theorem acceptConnection_follows {fd : Nat} {redirect secured : Bool} {outcome : Cell × Next}
    (h : cell.acceptConnection config choice index fd redirect secured = some outcome) :
    cell.Follows outcome.1 := by
  unfold acceptConnection at h
  split at h
  · cases h
  · obtain ⟨granted, hgranted, rfl⟩ := Option.map_eq_some_iff.mp h
    have hbuffers : granted.frame = cell.frame := by
      unfold acquireConnectionBuffers at hgranted
      dsimp only at hgranted
      split at hgranted
      · obtain rfl := Option.some.inj hgranted
        rfl
      · split at hgranted
        · obtain rfl := Option.some.inj hgranted
          rfl
        · cases hgranted
    have hfields : ((granted.activate index).setConnection
        (openFields fd redirect (granted.activate index).connection)).trace = granted.trace := rfl
    have hopened : ((granted.activate index).openSlot config fd redirect).trace = cell.trace :=
      (trace_of_frame (prepareRequest_frame _)).trans (hfields.trans (trace_of_frame hbuffers))
    dsimp only
    split_ifs
    · exact .same hopened
    · exact (forceClose_follows index _).of hopened
    · exact .same hopened

theorem complete_follows {position : Nat} {result : Result} {outcome : Cell × Next}
    (h : cell.complete index position result = some outcome) : cell.Follows outcome.1 := by
  unfold complete at h
  split at h
  · cases h
  · rename_i operation hoperation
    split at h
    · cases h
    · have hcheck := @check_frame cell (cell.connection.fd.isSome &&
        cell.connection.generation == operation.generation &&
          decide (0 < cell.connection.pending)) .complete nofun
      dsimp only at h
      generalize cell.check _ .complete = checked at h hcheck
      have hretired : (checked.setConnection (retire position operation
          (recordSent operation result checked.connection))).trace = cell.trace := by
        refine Eq.trans ?_ (trace_of_frame hcheck)
        refine trace_of_frame (frame_of rfl ?_)
        unfold retire recordSent
        cases operation.kind <;> cases result with
        | received result => rfl
        | sent count =>
            cases count with
            | none => rfl
            | some count =>
                dsimp only [setConnection]
                split <;> rfl
      generalize checked.setConnection _ = retired at h hretired
      split_ifs at h
      · obtain rfl := Option.some.inj h
        exact (Follows.same hretired).finishClose index
      · obtain rfl := Option.some.inj h
        refine Follows.of ?_ hretired
        unfold completed completedHttp2
        split
        · split
          · exact .refl retired
          · exact .refl retired
          · exact forceClose_follows index retired
        · split
          · exact .refl retired
          · exact .refl retired
      · obtain rfl := Option.some.inj h
        exact .same hretired

theorem completeApplication_follows {completion : Completion}
    (hstage : completion.task.stage ≠ .produce)
    (h : completion.task.Final → completion.response.isSome = true ∨ completion.expired = true ∨
      cell.connection.applicationTimedOut = true) :
    cell.Follows (cell.completeApplication index completion).1 := by
  unfold completeApplication
  dsimp only
  generalize hmiddle : (if completion.expired = true then cell.timeoutApplication else cell) = middle
  have htrace : middle.trace = cell.trace := by
    rw [← hmiddle]
    split
    · exact trace_of_frame (timeoutApplication_frame cell)
    · rfl
  refine Follows.of ?_ htrace
  split
  · exact forceClose_follows index middle
  · rename_i htimed
    -- Without a timeout the answer is there.
    have hanswer : completion.task.Final → completion.response.isSome = true := by
      intro hfinal
      rcases h hfinal with hsome | hexpired | hlate
      · exact hsome
      · rw [if_pos hexpired] at hmiddle
        obtain ⟨canceled, hc⟩ := timeoutApplication_connection cell
        rw [← hmiddle, hc] at htimed
        exact absurd rfl htimed
      · have hnot : completion.expired ≠ true := by
          intro hexpired
          rw [if_pos hexpired] at hmiddle
          obtain ⟨canceled, hc⟩ := timeoutApplication_connection cell
          rw [← hmiddle, hc] at htimed
          exact absurd rfl htimed
        rw [if_neg hnot] at hmiddle
        exact absurd (hmiddle ▸ hlate) htimed
    split
    · exact .refl middle
    · exact .refl middle
    · exact .refl middle
    · exact .refl middle
    · exact .refl middle
    · exact .refl middle
    · rename_i stage response hhead hnohead hbody hnobody hboth hresponse
      exfalso
      cases hkind : completion.task.stage with
      | head =>
          cases hsome : completion.response with
          | none => exact hnohead hkind hsome
          | some response => exact hhead response hkind hsome
      | body =>
          cases hsome : completion.response with
          | none => exact hnobody hkind hsome
          | some response => exact hbody response hkind hsome
      | bodyResponse =>
          obtain ⟨response, hsome⟩ := Option.isSome_iff_exists.mp (hanswer (Or.inr hkind))
          exact hboth response hkind hsome
      | response =>
          obtain ⟨response, hsome⟩ := Option.isSome_iff_exists.mp (hanswer (Or.inl hkind))
          exact hresponse response hkind hsome
      | produce => exact hstage hkind

theorem completeProducer_follows (completion : Completion) :
    cell.Follows (cell.completeProducer index completion).1 := by
  unfold completeProducer
  have hcheck := trace_of_frame (@check_frame cell
    (cell.connection.generation == completion.task.generation) .complete nofun)
  dsimp only
  generalize cell.check _ .complete = checked at hcheck ⊢
  generalize hreturned : checked.setConnection _ = returned
  have htrace : returned.trace = cell.trace := by
    rw [← hreturned]
    exact hcheck
  generalize hmiddle : (if completion.expired = true then returned.timeoutApplication else returned) =
    middle
  have hlast : middle.trace = cell.trace := by
    rw [← hmiddle]
    split
    · exact (trace_of_frame (timeoutApplication_frame returned)).trans htrace
    · exact htrace
  refine Follows.of ?_ hlast
  split
  · exact forceClose_follows index middle
  · exact .refl middle

theorem completeStream_follows {streamChoice : StreamChoice} {address : Nat} {completion : Completion}
    (h : completion.task.stage = .response → completion.response.isSome = true ∨
      completion.expired = true ∨
        ∀ stream ∈ cell.connection.streams, stream.address = address → stream.closed = true) :
    cell.Follows (cell.completeStream config streamChoice index address completion).1 := by
  unfold completeStream
  have hcheck := trace_of_frame (@check_frame cell
    (cell.connection.generation == completion.task.generation) .complete (by rintro ⟨⟩))
  dsimp only
  generalize cell.check _ .complete = checked at hcheck ⊢
  generalize hreturned : checked.setConnection _ = returned
  have htrace : returned.trace = cell.trace := by
    rw [← hreturned]
    exact hcheck
  have hsame : returned.connection.streams = cell.connection.streams := congrArg Prod.snd htrace
  refine Follows.of ?_ htrace
  split
  · have hnone := trace_of_frame (@check_frame returned false .complete (by rintro ⟨⟩))
    exact .same hnone
  · rename_i session hsession
    have hstreams : returned.connection.streams = session.streams := by
      rw [Connection.streams, hsession]
    have hdrives := @onStream_drives (fun stream => stream.address == address)
      (StreamCell.complete config streamChoice index completion.task.stage completion.response
        completion.expired) session.streams returned (by
      intro stream hmem hfound
      refine StreamCell.complete_descends _ _ _ ?_
      by_cases hstage : completion.task.stage = .response
      · rcases h hstage with hsome | hexpired | hclosed
        · exact Or.inr (Or.inr (Or.inl hsome))
        · exact Or.inr (Or.inl hexpired)
        · refine Or.inl (hclosed stream ?_ (beq_iff_eq.mp hfound))
          rw [← hsame, hstreams]
          exact hmem
      · exact Or.inr (Or.inr (Or.inr hstage)))
    generalize onStream _ _ session.streams returned = driven at hdrives ⊢
    obtain ⟨hframe, hstems, htold⟩ := @Rounds.of_drives returned _ _ (driven.2.2 == .ok) hstreams
      hdrives (fun hok => by rw [beq_iff_eq.mp hok]; rintro ⟨⟩)
    have hrest : (driven.1.setStreams driven.2.1).shared.frame.2 = returned.shared.frame.2 :=
      congrArg Prod.snd hframe
    split
    · exact forceClose_follows_of hrest hstems
    · rename_i hok
      rw [Decidable.not_not] at hok
      have hfollows : returned.Follows (driven.1.setStreams driven.2.1) :=
        ⟨Prod.mk.inj hrest, hstems, htold (beq_iff_eq.mpr hok)⟩
      split
      · exact hfollows.finishClose index
      · exact hfollows

theorem finishApplication_follows {streamChoice : StreamChoice} {outcome : Cell × Next}
    (hfinish : cell.finishApplication config streamChoice index = some outcome)
    (h : ∀ completion, cell.shared.executor.completions.head? = some completion →
      completion.task.index = index → completion.Excused cell.connection) :
    cell.Follows outcome.1 := by
  unfold finishApplication at hfinish
  split at hfinish
  · cases hfinish
  · rename_i completion rest hcompletions
    split at hfinish
    · cases hfinish
    · rename_i hindex
      have hexcused := h completion (by rw [hcompletions]; rfl) (Decidable.not_not.mp hindex)
      unfold Completion.Excused Task.Dropped at hexcused
      have htaken : (cell.takeCompletion completion.task.ticket rest).trace = cell.trace := rfl
      dsimp only at hfinish
      split at hfinish
      · rename_i address hstream
        obtain rfl := Option.some.inj hfinish
        rw [hstream] at hexcused
        refine Follows.of ?_ htaken
        exact completeStream_follows fun hstage => hexcused (Or.inl hstage)
      · rename_i hstream
        rw [hstream] at hexcused
        split at hfinish
        · obtain rfl := Option.some.inj hfinish
          exact (completeProducer_follows completion).of htaken
        · rename_i hstage
          split at hfinish
          · obtain rfl := Option.some.inj hfinish
            exact .refl cell
          · obtain rfl := Option.some.inj hfinish
            refine Follows.of ?_ htaken
            exact completeApplication_follows hstage hexcused

theorem timeout_follows (clock : Clock) : cell.Follows (cell.timeout config clock index).1 := by
  have htimed := trace_of_frame (timeoutApplication_frame cell)
  unfold timeout
  dsimp only
  split_ifs
  · exact forceClose_follows index cell
  · exact .refl cell
  · exact forceClose_follows index cell
  · exact .same htimed
  · exact (forceClose_follows index _).of htimed
  · exact .same (trace_of_frame (cancelReceive_frame cell))
  · exact forceClose_follows index cell

theorem tick_follows (clock : Clock) : cell.Follows (cell.tick config clock index).1 := by
  unfold tick
  dsimp only
  split_ifs
  · exact .refl cell
  · exact forceClose_follows index cell
  · exact forceClose_follows index cell
  · exact .refl cell
  · exact timeout_follows clock

theorem shutdownSlot_follows (keepalive : Bool) :
    cell.Follows (cell.shutdownSlot keepalive index).1 := by
  unfold shutdownSlot
  split
  · exact (Follows.refl cell).rest rfl (Or.inl (drainSession_streams cell))
  · dsimp only
    split_ifs
    · exact .same rfl
    · exact .same rfl
    · exact (forceClose_follows index _).of rfl

theorem visit_follows {visit : Visit} {outcome : Cell × Next}
    (hvisit : cell.visit config index visit = some outcome)
    (h : ∀ completion, cell.shared.executor.completions.head? = some completion →
      completion.task.index = index → completion.Excused cell.connection) :
    cell.Follows outcome.1 := by
  cases visit with
  | accept fd redirect secured choice => exact acceptConnection_follows hvisit
  | complete position result => exact complete_follows hvisit
  | finishApplication choice =>
      simp only [visit] at hvisit
      split at hvisit
      · cases hvisit
      · exact finishApplication_follows hvisit h
  | pumpApplication =>
      simp only [visit] at hvisit
      split at hvisit
      · cases hvisit
      · obtain rfl := Option.some.inj hvisit
        unfold pumpApplication
        split_ifs <;> exact .refl cell
  | tick clock =>
      simp only [visit] at hvisit
      split at hvisit
      · cases hvisit
      · obtain rfl := Option.some.inj hvisit
        exact tick_follows clock
  | inspected status response =>
      simp only [visit] at hvisit
      split at hvisit
      · cases hvisit
      · split at hvisit
        · obtain rfl := Option.some.inj hvisit
          exact .refl cell
        · obtain rfl := Option.some.inj hvisit
          exact .refl cell
  | reclaim =>
      simp only [visit] at hvisit
      split at hvisit
      · cases hvisit
      · obtain rfl := Option.some.inj hvisit
        exact forceClose_follows index cell
  | shutdown keepalive =>
      simp only [visit] at hvisit
      split at hvisit
      · cases hvisit
      · obtain rfl := Option.some.inj hvisit
        exact shutdownSlot_follows keepalive

end Cell

/-! ### Steps of the worker -/

/-- What the worker leaves to the threads. -/
def Follows (w next : Worker n) : Prop :=
  (next.shared.executor.running = w.shared.executor.running ∧
      next.shared.missed = w.shared.missed) ∧
    ∀ i, Stems (w.slots i).streams (next.slots i).streams ∧
      (AllTold (w.slots i).streams → AllTold (next.slots i).streams)

theorem Follows.refl (w : Worker n) : w.Follows w :=
  ⟨⟨rfl, rfl⟩, fun _ => ⟨(Inherits.refl _).stems, fun h => h⟩⟩

theorem Follows.put {middle : Worker n} {cell : Cell} (h : w.Follows middle)
    (hcell : (w.cell i).Follows cell) : w.Follows (middle.put i cell) := by
  refine ⟨hcell.1, fun j => ?_⟩
  by_cases hj : j = i
  · subst hj
    rw [show (middle.put j cell).slots j = cell.connection from Function.update_self ..]
    exact hcell.2
  · rw [show (middle.put i cell).slots j = middle.slots j from Function.update_of_ne hj ..]
    exact h.2 j

theorem Follows.closeAll {middle : Worker n} (h : w.Follows middle) (slots : List (Fin n)) :
    w.Follows (middle.closeAll slots) := by
  induction slots generalizing middle with
  | nil => exact h
  | cons j slots ih =>
      unfold Worker.closeAll
      rw [List.foldl_cons]
      split
      · obtain ⟨⟨hrunning, hmissed⟩, hslots⟩ := id h
        exact ih (h.put (Cell.forceClose_follows_of (Prod.ext hrunning hmissed) (hslots j).1))
      · exact ih h

/-- A thread of the executor, not the worker, takes this step. -/
def Event.threaded : Event n → Bool
  | .takeTask _ | .pushCompletion .. => true
  | _ => false

/-- Every completion is excused. -/
def Excuses (w : Worker n) : Prop :=
  ∀ completion ∈ w.shared.executor.completions, ∀ i : Fin n, completion.task.index = i.val →
    completion.Excused (w.slots i)

theorem step_follows {event : Event n} (hstep : w.step config event = some next)
    (hevent : event.threaded = false) (hexcuses : w.Excuses) : w.Follows next := by
  cases event with
  | call choice =>
      obtain ⟨⟨i, call⟩, hcurrent, rfl⟩ := Option.map_eq_some_iff.mp hstep
      exact (Follows.refl w).put (Cell.dispatch_follows call)
  | visit i visit =>
      simp only [step] at hstep
      split at hstep
      · cases hstep
      · obtain ⟨outcome, hvisit, rfl⟩ := Option.map_eq_some_iff.mp hstep
        refine (Follows.refl w).put (Cell.visit_follows hvisit fun completion hhead hindex => ?_)
        exact hexcuses completion (List.mem_of_mem_head? hhead) i hindex
  | refill now =>
      simp only [step] at hstep
      split at hstep
      · cases hstep
      · cases hstep
        exact Follows.refl w
  | beginShutdown =>
      simp only [step] at hstep
      split at hstep
      · cases hstep
      · cases hstep
        exact Follows.refl w
  | stopOperations late =>
      simp only [step] at hstep
      split at hstep
      · cases hstep
      · cases hstep
        have hsame : w.Follows { w with shared := { w.shared with stopping := true } } :=
          Follows.refl w
        exact hsame.closeAll _
  | takeTask lane => cases hevent
  | pushCompletion index position response expired => cases hevent

/-! ### Dropped tasks -/

theorem Task.Final.loan {task : Task} (h : task.Final) (hstream : task.stream = none) :
    task.loan = .application := by
  rw [Task.loan, hstream]
  refine if_neg ?_
  rcases h with h | h
  · rw [h]
    rintro ⟨⟩
  · rw [h]
    rintro ⟨⟩

/-- A timeout lasts as long as the hook borrows the request. -/
theorem timedOut_step (h : w.Consistent config publicSlots) {event : Event n}
    (hstep : w.step config event = some next) {task : Task}
    (hbefore : task ∈ w.shared.executor.outstanding)
    (hafter : task ∈ next.shared.executor.outstanding) (hindex : task.index = i.val)
    (hloan : task.loan = .application) (hlate : (w.slots i).applicationTimedOut = true) :
    (next.slots i).applicationTimedOut = true := by
  have hnext := step_consistent h hstep
  obtain ⟨hcurrent, hfd, hphase, -⟩ := h.application_rest hbefore hindex hloan
  cases event with
  | call choice =>
      obtain ⟨⟨j, call⟩, hj, rfl⟩ := Option.map_eq_some_iff.mp hstep
      have hne : i ≠ j := by
        rintro rfl
        exact hcurrent call hj
      rw [show (w.resume j _).slots i = w.slots i from Function.update_of_ne hne ..]
      exact hlate
  | visit j visit =>
      simp only [step] at hstep
      split at hstep
      · cases hstep
      · rename_i hidle
        have hnone : w.current = none := by simpa using hidle
        obtain ⟨outcome, hvisit, rfl⟩ := Option.map_eq_some_iff.mp hstep
        by_cases hji : i = j
        · subst hji
          have hother : ∀ choice, visit ≠ .finishApplication choice := by
            rintro choice rfl
            obtain ⟨completion, rest, hcompletions, hown⟩ := (Cell.finishApplication_head hvisit).2
            have hcompletions : w.shared.executor.completions = completion :: rest := hcompletions
            have htaken : completion.task ∈ w.shared.executor.outstanding :=
              Consistent.mem_outstanding (by rw [hcompletions]; exact List.mem_cons_self)
            have hsame := h.hook_alone hbefore hindex htaken hown hloan
            exact h.taken_gone hnone hvisit hnext hcompletions hown (hsame ▸ hafter)
          rw [show (w.resume i outcome).slots i = outcome.1.connection from Function.update_self ..]
          exact (Cell.visit_application (h.rests hnone i (Consistent.honors_nothing (w.slots i)))
            hfd hphase hvisit hother).2.2.2.2 hlate
        · rw [show (w.resume j outcome).slots i = w.slots i from Function.update_of_ne hji ..]
          exact hlate
  | refill now =>
      simp only [step] at hstep
      split at hstep
      · cases hstep
      · cases hstep
        exact hlate
  | beginShutdown =>
      simp only [step] at hstep
      split at hstep
      · cases hstep
      · cases hstep
        exact hlate
  | stopOperations late =>
      simp only [step] at hstep
      split at hstep
      · cases hstep
      · rename_i hready
        simp only [not_or, Bool.not_eq_true', Bool.not_eq_false, Bool.or_eq_true,
          Bool.and_eq_true, List.isEmpty_iff] at hready
        obtain ⟨hidle, -, -, hquiet⟩ := hready
        exact absurd hphase
          (h.not_application (by simpa using hidle) (hquiet.imp_right fun hlate => hlate.2) hfd)
  | takeTask lane =>
      obtain ⟨executor, -, rfl⟩ := Option.map_eq_some_iff.mp hstep
      exact hlate
  | pushCompletion index position response expired =>
      simp only [step] at hstep
      split at hstep
      · cases hstep
      · split at hstep
        · cases hstep
        · cases hstep
          exact hlate

/-- A task that was dropped stays dropped while it is outstanding. -/
theorem dropped_step (h : w.Consistent config publicSlots) {event : Event n}
    (hstep : w.step config event = some next) (hfollows : w.Follows next) {task : Task}
    (hbefore : task ∈ w.shared.executor.outstanding)
    (hafter : task ∈ next.shared.executor.outstanding) (hindex : task.index = i.val)
    (hfinal : task.Final) (hdropped : task.Dropped (w.slots i)) : task.Dropped (next.slots i) := by
  unfold Task.Dropped at hdropped ⊢
  cases hstream : task.stream with
  | none =>
      rw [hstream] at hdropped
      exact timedOut_step h hstep hbefore hafter hindex (hfinal.loan hstream) hdropped
  | some address =>
      rw [hstream] at hdropped
      have hloan : task.loan = .stream address task.stage := by rw [Task.loan, hstream]
      have hnext := step_consistent h hstep
      have hretains := (h.step_retains hstep hbefore hafter hindex).2
      rw [hloan] at hretains
      obtain ⟨old, hold, haddress, -⟩ :=
        Consistent.mem_stream_loans (hloan ▸ (Consistent.loan_mem h.1 hbefore hindex).1)
      obtain ⟨kept, hkept, hbusy, hview⟩ := hretains old hold haddress
      have hsame : kept.address = address := (congrArg (fun v => v.1.1) hview).trans haddress
      intro stream hmem hfound
      -- The stream at this address is the one that was lent, and so it did not begin just now.
      have heq : stream = kept :=
        Consistent.stream_unique hnext.1 hmem hkept (hfound.trans hsame.symm)
      rcases (hfollows.2 i).1 stream hmem with ⟨before, hin, hwhere, -, hclosed⟩ | hfree
      · exact hclosed (hdropped before hin (hwhere.trans hfound))
      · rw [heq, hbusy] at hfree
        cases hfree

end Worker

end Zhtps
