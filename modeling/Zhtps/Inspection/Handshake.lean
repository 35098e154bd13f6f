import Zhtps.Inspection.Listing

/-!
How worker zero asks another worker for a page, after `inspectConnections`, `captureInspection` and
`finishInspections` of `src/server/worker.zig`.

Worker zero and each inspected worker take their steps in any order.  A function that shares memory
with another thread is cut where it loads the phase and where it stores it: between the two steps its
worker reads or writes what the phase guards.
-/

namespace Zhtps.Inspection

/-- The values of `inspection.phase`. -/
inductive Stage
  | idle
  | requested
  | ready
  deriving DecidableEq

/-- What asked for a page; the ticket is the number of the request. -/
structure Requester where
  index : Nat
  generation : UInt32
  ticket : Nat

end Zhtps.Inspection

namespace Zhtps

open Inspection in
/-- What worker zero and one inspected worker share. -/
structure Inspection where
  phase : Stage := .idle
  requester : Option Requester := none
  start : Nat := 0
  page : Option Page := none

namespace Inspection

/-- A request for a listing: the connection that made it and the position it is for. -/
structure Request where
  index : Nat
  generation : UInt32
  query : Bytes

inductive Reply
  | page (page : Page)
  | status (status : Nat)

/-- An answer, and the worker that was asked for it. -/
structure Response where
  ticket : Nat
  worker : Option Nat
  reply : Reply

/-- Where worker zero stands. -/
inductive Control
  | away
  /-- An idle worker was found, and `requested` is not stored yet. -/
  | claiming (id start : Nat) (requester : Requester)
  /-- A page was found ready, and `idle` is not stored yet. -/
  | answering (id : Nat)

/-- The connections of worker zero, the inspection of each worker, which workers are writing a page,
and what was requested and answered. -/
structure State where
  connections : List Slot
  inspections : Nat → Inspection := fun _ => {}
  control : Control := .away
  capturing : Nat → Bool := fun _ => false
  requests : List Request := []
  responses : List Response := []

inductive Action
  /-- Worker zero reaches `inspectConnections`. -/
  | inspect (index : Nat) (query : Bytes) (now : Nat) (fits : Bool) (phase : Worker.Phase)
      (closed : Bool)
  /-- The rest of `inspectConnections`. -/
  | request
  /-- Worker zero finds a page in `finishInspections`. -/
  | find (id : Nat)
  /-- The rest of that pass of the loop. -/
  | finish (fits : Bool) (phase : Worker.Phase) (closed : Bool)
  /-- A worker finds a request in `captureInspection`. -/
  | capture (id : Nat)
  /-- The rest of `captureInspection`. -/
  | publish (id now : Nat) (slots : List Slot)
  /-- Worker zero takes a free slot for a new connection. -/
  | accept (index fd : Nat) (phase : Worker.Phase)
  /-- Anything else that happens to a connection: progress, a timeout, its end. -/
  | move (index : Nat) (phase : Worker.Phase) (closed : Bool)

/-- A connection goes on in another phase or is closed. -/
def Slot.leave (slot : Slot) (phase : Worker.Phase) (closed : Bool) : Slot :=
  { slot with phase := phase, fd := if closed then none else slot.fd }

/-- `respondPage`; without room for its text it responds with a status. -/
def respondPage (page : Page) (fits : Bool) : Reply := if fits then .page page else .status 500

namespace State

def setInspection (s : State) (id : Nat) (inspection : Inspection) : State :=
  { s with inspections := fun other => if other = id then inspection else s.inspections other }

/-- A response to a connection, which goes on in another phase. -/
def respond (s : State) (response : Response) (index : Nat) (slot : Slot) : State :=
  { s with
    connections := s.connections.set index slot
    responses := s.responses ++ [response] }

/-- `inspectConnections` up to the load of the phase. -/
def inspect (layout : Layout) (s : State) (index : Nat) (slot : Slot) (query : Bytes) (now : Nat)
    (fits : Bool) (phase : Worker.Phase) (closed : Bool) : State :=
  let ticket := s.requests.length
  let s : State := { s with requests := s.requests ++ [⟨index, slot.generation, query⟩] }
  match connectionStart layout query with
  | none => s.respond ⟨ticket, none, .status 400⟩ index (slot.leave phase closed)
  | some position =>
      let (id, start) := layout.locate position
      if id = 0 then
        let page := connectionPage layout 0 now s.connections start
        s.respond ⟨ticket, none, respondPage page fits⟩ index (slot.leave phase closed)
      else if (s.inspections id).phase ≠ .idle then
        s.respond ⟨ticket, none, .status 503⟩ index (slot.leave phase closed)
      else { s with control := .claiming id start ⟨index, slot.generation, ticket⟩ }

/-- `inspectConnections` from the load of the phase on. -/
def request (s : State) (id start : Nat) (requester : Requester) (slot : Slot) : State :=
  { s.setInspection id
      { s.inspections id with phase := .requested, requester := some requester, start := start } with
    connections := s.connections.set requester.index { slot with phase := .inspecting }
    control := .away }

/-- `finishInspections` for a worker whose page is ready. -/
def finish (s : State) (id : Nat) (requester : Requester) (page : Page) (slot : Slot) (fits : Bool)
    (phase : Worker.Phase) (closed : Bool) : State :=
  let s := { s.setInspection id { s.inspections id with phase := .idle, requester := none } with
    control := .away }
  if slot.fd.isNone ∨ slot.generation ≠ requester.generation ∨ slot.phase ≠ .inspecting then s
  else
    s.respond ⟨requester.ticket, some id, respondPage page fits⟩ requester.index
      (slot.leave phase closed)

/-- An action, when it can happen. -/
def step (layout : Layout) (s : State) : Action → Option State
  | .inspect index query now fits phase closed =>
      match s.control, s.connections[index]? with
      | .away, some slot =>
          if slot.fd.isNone ∨ slot.phase = .inspecting ∨ phase = .inspecting then none
          else some (s.inspect layout index slot query now fits phase closed)
      | _, _ => none
  | .request =>
      match s.control with
      | .claiming id start requester =>
          (s.connections[requester.index]?).map fun slot => s.request id start requester slot
      | _ => none
  | .find id =>
      match s.control with
      | .away =>
          if 0 < id ∧ id < layout.workers ∧ (s.inspections id).phase = .ready then
            some { s with control := .answering id }
          else none
      | _ => none
  | .finish fits phase closed =>
      match s.control with
      | .answering id => do
          let requester ← (s.inspections id).requester
          let page ← (s.inspections id).page
          let slot ← s.connections[requester.index]?
          if phase = .inspecting then none
          else some (s.finish id requester page slot fits phase closed)
      | _ => none
  | .capture id =>
      if id < layout.workers ∧ (s.inspections id).phase = .requested then
        some { s with capturing := fun other => if other = id then true else s.capturing other }
      else none
  | .publish id now slots =>
      if s.capturing id then
        some { s.setInspection id
            { s.inspections id with
              phase := .ready
              page := some (connectionPage layout id now slots (s.inspections id).start) } with
          capturing := fun other => if other = id then false else s.capturing other }
      else none
  | .accept index fd phase =>
      match s.control, s.connections[index]? with
      | .away, some slot =>
          if slot.fd.isSome ∨ phase = .inspecting then none
          else
            some { s with
              connections := s.connections.set index
                { slot with fd := some fd, generation := slot.generation + 1, phase := phase } }
      | _, _ => none
  | .move index phase closed =>
      match s.control, s.connections[index]? with
      | .away, some slot =>
          if phase = .inspecting then none
          else some { s with connections := s.connections.set index (slot.leave phase closed) }
      | _, _ => none

end State

/-- The states that a server with some slots can get into. -/
inductive Reachable (layout : Layout) : State → Prop
  | start (connections : List Slot) : Reachable layout { connections := connections }
  | step {s next : State} (action : Action) (h : Reachable layout s)
      (hstep : s.step layout action = some next) : Reachable layout next

/-! ### What stays true -/

/-- A request for slots of a worker that is not answered yet. -/
structure Asked (layout : Layout) (s : State) (id start : Nat) (requester : Requester) : Prop where
  request : ∃ query position, s.requests[requester.ticket]? =
      some ⟨requester.index, requester.generation, query⟩ ∧
    connectionStart layout query = some position ∧ layout.locate position = (id, start)
  connection : requester.index < s.connections.length
  unanswered : requester.ticket ∉ s.responses.map Response.ticket

/-- What worker zero and another worker share is in order. -/
structure Sound (layout : Layout) (s : State) (id : Nat) (inspection : Inspection)
    (capturing : Bool) : Prop where
  capturing : capturing = true → inspection.phase = .requested
  requester : inspection.requester.isSome ↔ inspection.phase ≠ .idle
  page : inspection.phase = .ready → ∃ now slots, inspection.page =
    some (connectionPage layout id now slots inspection.start)
  asked : ∀ requester, inspection.requester = some requester →
    Asked layout s id inspection.start requester

/-- Worker zero stands where the phase lets it be. -/
def Standing (layout : Layout) (s : State) : Control → Prop
  | .away => True
  | .claiming id start requester =>
      (s.inspections id).phase = .idle ∧ Asked layout s id start requester
  | .answering id => (s.inspections id).phase = .ready

structure Invariant (layout : Layout) (s : State) : Prop where
  sound : ∀ id, Sound layout s id (s.inspections id) (s.capturing id)
  standing : Standing layout s s.control
  once : (s.responses.map Response.ticket).Nodup
  answered : ∀ response ∈ s.responses, response.ticket < s.requests.length

variable {layout : Layout} {s next : State}

/-- A ticket is for one worker. -/
theorem Asked.worker_eq {first second i j : Nat} {r q : Requester}
    (hfirst : Asked layout s first i r) (hsecond : Asked layout s second j q)
    (h : r.ticket = q.ticket) : first = second := by
  obtain ⟨query, position, hquery, hposition, hlocate⟩ := hfirst.request
  obtain ⟨query', position', hquery', hposition', hlocate'⟩ := hsecond.request
  rw [h, hquery'] at hquery
  obtain ⟨-, -, rfl⟩ := Request.mk.inj (Option.some.inj hquery)
  rw [hposition'] at hposition
  obtain rfl := Option.some.inj hposition
  rw [hlocate'] at hlocate
  exact (Prod.mk.inj hlocate).1.symm

theorem Asked.ticket_lt {id start : Nat} {r : Requester} (h : Asked layout s id start r) :
    r.ticket < s.requests.length := by
  obtain ⟨query, position, hquery, -⟩ := h.request
  exact (List.getElem?_eq_some_iff.mp hquery).1

/-- A request stays asked while requests are added, slots stay, and it is not answered. -/
theorem Asked.mono {id start : Nat} {r : Requester} (h : Asked layout s id start r)
    {more : List Request} (hrequests : next.requests = s.requests ++ more)
    (hconnections : next.connections.length = s.connections.length)
    (hresponses : r.ticket ∉ next.responses.map Response.ticket) :
    Asked layout next id start r := by
  refine ⟨?_, hconnections ▸ h.connection, hresponses⟩
  obtain ⟨query, position, hquery, hrest⟩ := h.request
  refine ⟨query, position, ?_, hrest⟩
  rw [hrequests, List.getElem?_append_left h.ticket_lt, hquery]

theorem Sound.mono {id : Nat} {inspection : Inspection} {capturing : Bool}
    (h : Sound layout s id inspection capturing)
    (hasked : ∀ start requester, inspection.requester = some requester →
      Asked layout s id start requester → Asked layout next id start requester) :
    Sound layout next id inspection capturing :=
  ⟨h.capturing, h.requester, h.page, fun r hr => hasked _ r hr (h.asked r hr)⟩

theorem invariant_start (layout : Layout) (connections : List Slot) :
    Invariant layout { connections := connections } where
  sound id :=
    ⟨fun h => Bool.noConfusion h, by simp, fun h => Stage.noConfusion h, fun _ h => by cases h⟩
  standing := trivial
  once := List.nodup_nil
  answered _ h := absurd h List.not_mem_nil

/-- No answer was given yet to a request that is noted now. -/
theorem Invariant.new (h : Invariant layout s) :
    s.requests.length ∉ s.responses.map Response.ticket := by
  intro hmem
  obtain ⟨response, hresponse, hticket⟩ := List.mem_map.mp hmem
  have hlt := h.answered response hresponse
  rw [hticket] at hlt
  exact Nat.lt_irrefl _ hlt

/-- An answer to a request that was not answered yet. -/
theorem once_append {responses : List Response} {response : Response}
    (h : (responses.map Response.ticket).Nodup)
    (hnew : response.ticket ∉ responses.map Response.ticket) :
    ((responses ++ [response]).map Response.ticket).Nodup := by
  rw [List.map_append]
  refine h.append (List.nodup_singleton _) fun ticket hmem hlast => ?_
  rw [List.mem_singleton.mp hlast] at hmem
  exact hnew hmem

/-- Worker zero responds to a new request without asking another worker. -/
theorem Invariant.respondNew (h : Invariant layout s) (haway : s.control = .away)
    (request : Request) (reply : Reply) (index : Nat) (slot : Slot) :
    Invariant layout (State.respond { s with requests := s.requests ++ [request] }
      ⟨s.requests.length, none, reply⟩ index slot) where
  sound id := by
    refine (h.sound id).mono fun start requester _ hasked =>
      hasked.mono rfl (List.length_set ..) fun hmem => ?_
    rw [State.respond, List.map_append, List.mem_append] at hmem
    rcases hmem with hold | hlast
    · exact hasked.unanswered hold
    · have hlt := hasked.ticket_lt
      rw [List.mem_singleton.mp hlast] at hlt
      exact Nat.lt_irrefl _ hlt
  standing := by
    change Standing layout _ s.control
    rw [haway]
    trivial
  once := once_append h.once h.new
  answered response hmem := by
    simp only [State.respond, List.length_append, List.length_singleton]
    rcases List.mem_append.mp hmem with hold | hlast
    · exact Nat.lt_succ_of_lt (h.answered response hold)
    · rw [List.mem_singleton.mp hlast]
      exact Nat.lt_succ_self _

theorem Invariant.inspect (h : Invariant layout s) (haway : s.control = .away) {index : Nat}
    {slot : Slot} (hslot : s.connections[index]? = some slot) (query : Bytes) (now : Nat)
    (fits : Bool) (phase : Worker.Phase) (closed : Bool) :
    Invariant layout (s.inspect layout index slot query now fits phase closed) := by
  unfold State.inspect
  cases hquery : connectionStart layout query with
  | none => exact h.respondNew haway ..
  | some position =>
      dsimp only
      split_ifs with hzero hidle
      · exact h.respondNew haway ..
      · exact h.respondNew haway ..
      · refine ⟨fun id => ?_, ⟨not_not.mp hidle, ?_⟩, h.once, fun response hmem => ?_⟩
        · exact (h.sound id).mono fun start requester _ hasked =>
            hasked.mono rfl rfl hasked.unanswered
        · -- the new request is the last one that was noted
          exact ⟨⟨query, position, List.getElem?_concat_length, hquery, rfl⟩,
            (List.getElem?_eq_some_iff.mp hslot).1, h.new⟩
        · rw [List.length_append]
          exact Nat.lt_add_right _ (h.answered response hmem)

/-- One inspection changes, and the others stay in order. -/
theorem sound_set {id : Nat} {inspection : Inspection}
    (hinspections : next.inspections = (s.setInspection id inspection).inspections)
    (hcapturing : ∀ other, other ≠ id → next.capturing other = s.capturing other)
    (hthis : Sound layout next id inspection (next.capturing id))
    (hothers : ∀ other, other ≠ id →
      Sound layout next other (s.inspections other) (s.capturing other)) (other : Nat) :
    Sound layout next other (next.inspections other) (next.capturing other) := by
  rw [hinspections, State.setInspection]
  dsimp only
  split_ifs with heq
  · exact heq ▸ hthis
  · rw [hcapturing other heq]
    exact hothers other heq

/-- What is shared stays in order when connections change and no answer is given. -/
theorem Sound.connections {id : Nat} {inspection : Inspection} {capturing : Bool}
    (h : Sound layout s id inspection capturing) (hrequests : next.requests = s.requests)
    (hlength : next.connections.length = s.connections.length)
    (hresponses : next.responses = s.responses) : Sound layout next id inspection capturing := by
  refine h.mono fun start requester _ hasked => ?_
  refine hasked.mono (hrequests.trans (List.append_nil _).symm) hlength ?_
  rw [hresponses]
  exact hasked.unanswered

theorem Invariant.request (h : Invariant layout s) {id start : Nat} {requester : Requester}
    (hcontrol : s.control = .claiming id start requester) (slot : Slot) :
    Invariant layout (s.request id start requester slot) := by
  have hstanding := h.standing
  rw [hcontrol] at hstanding
  obtain ⟨hidle, hasked⟩ := hstanding
  have hlength : (s.request id start requester slot).connections.length = s.connections.length :=
    List.length_set ..
  refine ⟨sound_set rfl (fun _ _ => rfl) ?_ fun other _ => ?_, trivial, h.once, h.answered⟩
  · refine ⟨fun _ => rfl, by simp, fun hready => Stage.noConfusion hready, fun other hother => ?_⟩
    obtain rfl := Option.some.inj hother
    exact hasked.mono (List.append_nil _).symm hlength hasked.unanswered
  · exact (h.sound other).connections rfl hlength rfl

/-- A worker whose page is ready is not writing it. -/
theorem Invariant.over (h : Invariant layout s) {id : Nat}
    (hready : (s.inspections id).phase = .ready) (next : State) :
    Sound layout next id { s.inspections id with phase := .idle, requester := none }
      (s.capturing id) := by
  refine ⟨fun hcapturing => ?_, by simp, fun h => Stage.noConfusion h, fun _ h => by cases h⟩
  have hphase := (h.sound id).capturing hcapturing
  rw [hready] at hphase
  cases hphase

theorem Invariant.finish (h : Invariant layout s) {id : Nat} (hcontrol : s.control = .answering id)
    {requester : Requester} (hrequester : (s.inspections id).requester = some requester)
    (page : Page) (slot : Slot) (fits : Bool) (phase : Worker.Phase) (closed : Bool) :
    Invariant layout (s.finish id requester page slot fits phase closed) := by
  have hready : (s.inspections id).phase = .ready := by
    have hstanding := h.standing
    rw [hcontrol] at hstanding
    exact hstanding
  have hasked := (h.sound id).asked requester hrequester
  unfold State.finish
  dsimp only
  split_ifs with hgone
  · refine ⟨sound_set rfl (fun _ _ => rfl) (h.over hready _) fun other _ => ?_, trivial, h.once,
      h.answered⟩
    exact (h.sound other).connections rfl rfl rfl
  · refine ⟨sound_set rfl (fun _ _ => rfl) (h.over hready _) fun other hother => ?_, trivial,
      once_append h.once hasked.unanswered, fun response hmem => ?_⟩
    · -- another worker has another ticket
      refine (h.sound other).mono fun start r _ hthis => ?_
      refine hthis.mono (List.append_nil _).symm (List.length_set ..) fun hmem => ?_
      rw [State.respond, List.map_append, List.mem_append] at hmem
      rcases hmem with hold | hlast
      · exact hthis.unanswered hold
      · exact hother (hthis.worker_eq hasked (List.mem_singleton.mp hlast))
    · rcases List.mem_append.mp hmem with hold | hlast
      · exact h.answered response hold
      · rw [List.mem_singleton.mp hlast]
        exact hasked.ticket_lt

/-- Where worker zero stands, the phase is not `requested`. -/
theorem Standing.mono {control : Control} (h : Standing layout s control)
    (hphase : ∀ id, (s.inspections id).phase ≠ .requested →
      (next.inspections id).phase = (s.inspections id).phase)
    (hasked : ∀ id start requester, Asked layout s id start requester →
      Asked layout next id start requester) : Standing layout next control := by
  cases control with
  | away => trivial
  | claiming id start requester =>
      have hthis := h.1
      exact ⟨(hphase id (by rw [hthis]; decide)).trans hthis, hasked id start requester h.2⟩
  | answering id =>
      have hthis : (s.inspections id).phase = .ready := h
      exact (hphase id (by rw [hthis]; decide)).trans hthis

theorem Invariant.capture (h : Invariant layout s) {id : Nat}
    (hrequested : (s.inspections id).phase = .requested) :
    Invariant layout { s with
      capturing := fun other => if other = id then true else s.capturing other } where
  sound other := by
    dsimp only
    split_ifs with heq
    · have hsound := h.sound other
      rw [heq] at hsound ⊢
      exact ⟨fun _ => hrequested, hsound.requester, hsound.page, fun r hr =>
        (hsound.asked r hr).mono (List.append_nil _).symm rfl (hsound.asked r hr).unanswered⟩
    · exact (h.sound other).connections rfl rfl rfl
  standing := h.standing.mono (fun _ _ => rfl) fun _ _ _ hasked =>
    hasked.mono (List.append_nil _).symm rfl hasked.unanswered
  once := h.once
  answered := h.answered

theorem Invariant.publish (h : Invariant layout s) {id : Nat} (hcapturing : s.capturing id = true)
    (now : Nat) (slots : List Slot) :
    Invariant layout { s.setInspection id
        { s.inspections id with
          phase := .ready
          page := some (connectionPage layout id now slots (s.inspections id).start) } with
      capturing := fun other => if other = id then false else s.capturing other } := by
  have hsound := h.sound id
  have hrequested := hsound.capturing hcapturing
  refine ⟨sound_set rfl (fun _ hother => if_neg hother) ?_ fun other _ => ?_, ?_, h.once,
    h.answered⟩
  · refine ⟨by simp, ?_, fun _ => ⟨now, slots, rfl⟩, fun r hr => ?_⟩
    · have := hsound.requester
      rw [hrequested] at this
      simpa using this
    · have hasked := hsound.asked r hr
      exact hasked.mono (List.append_nil _).symm rfl hasked.unanswered
  · exact (h.sound other).connections rfl rfl rfl
  · refine h.standing.mono (fun other hother => ?_) fun _ _ _ hasked =>
      hasked.mono (List.append_nil _).symm rfl hasked.unanswered
    have hne : other ≠ id := fun heq => hother (heq ▸ hrequested)
    simp [State.setInspection, hne]

theorem Invariant.setConnection (h : Invariant layout s) (index : Nat) (slot : Slot) :
    Invariant layout { s with connections := s.connections.set index slot } where
  sound id := (h.sound id).connections rfl (List.length_set ..) rfl
  standing := h.standing.mono (fun _ _ => rfl) fun _ _ _ hasked =>
    hasked.mono (List.append_nil _).symm (List.length_set ..) hasked.unanswered
  once := h.once
  answered := h.answered

theorem Invariant.step (h : Invariant layout s) {action : Action}
    (hstep : s.step layout action = some next) : Invariant layout next := by
  cases action with
  | inspect index query now fits phase closed =>
      simp only [State.step] at hstep
      split at hstep
      case h_1 slot hcontrol hslot =>
        split_ifs at hstep
        obtain rfl := Option.some.inj hstep
        exact h.inspect hcontrol hslot query now fits phase closed
      case h_2 => cases hstep
  | request =>
      simp only [State.step] at hstep
      split at hstep
      case h_1 id start requester hcontrol =>
        obtain ⟨slot, -, rfl⟩ := Option.map_eq_some_iff.mp hstep
        exact h.request hcontrol slot
      case h_2 => cases hstep
  | find id =>
      simp only [State.step] at hstep
      split at hstep
      case h_1 hcontrol =>
        split_ifs at hstep with hready
        obtain rfl := Option.some.inj hstep
        exact ⟨fun other => (h.sound other).connections rfl rfl rfl, hready.2.2, h.once, h.answered⟩
      case h_2 => cases hstep
  | finish fits phase closed =>
      simp only [State.step] at hstep
      split at hstep
      case h_1 id hcontrol =>
        obtain ⟨requester, hrequester, hstep⟩ := Option.bind_eq_some_iff.mp hstep
        obtain ⟨page, -, hstep⟩ := Option.bind_eq_some_iff.mp hstep
        obtain ⟨slot, -, hstep⟩ := Option.bind_eq_some_iff.mp hstep
        split_ifs at hstep
        obtain rfl := Option.some.inj hstep
        exact h.finish hcontrol hrequester page slot fits phase closed
      case h_2 => cases hstep
  | capture id =>
      simp only [State.step] at hstep
      split_ifs at hstep with hrequested
      obtain rfl := Option.some.inj hstep
      exact h.capture hrequested.2
  | publish id now slots =>
      simp only [State.step] at hstep
      split_ifs at hstep with hcapturing
      obtain rfl := Option.some.inj hstep
      exact h.publish hcapturing now slots
  | accept index fd phase =>
      simp only [State.step] at hstep
      split at hstep
      case h_1 slot hcontrol hslot =>
        split_ifs at hstep
        obtain rfl := Option.some.inj hstep
        exact h.setConnection ..
      case h_2 => cases hstep
  | move index phase closed =>
      simp only [State.step] at hstep
      split at hstep
      case h_1 slot hcontrol hslot =>
        split_ifs at hstep
        obtain rfl := Option.some.inj hstep
        exact h.setConnection ..
      case h_2 => cases hstep

theorem Reachable.invariant (h : Reachable layout s) : Invariant layout s := by
  induction h with
  | start connections => exact invariant_start layout connections
  | step action _ hstep ih => exact ih.step hstep

/-! ### Answers -/

/-- A new answer goes to the connection that made the request, which has not changed hands.  The one
to a page of another worker has that page, and the connection still waits for it. -/
def Proper (layout : Layout) (s next : State) (response : Response) : Prop :=
  ∃ request slot, next.requests[response.ticket]? = some request ∧
    s.connections[request.index]? = some slot ∧ slot.fd.isSome ∧
    slot.generation = request.generation ∧
    ∀ id, response.worker = some id → s.control = .answering id ∧ slot.phase = .inspecting ∧
      ∃ position, connectionStart layout request.query = some position ∧
        (layout.locate position).1 = id ∧ ∃ now slots fits, response.reply =
          respondPage (connectionPage layout id now slots (layout.locate position).2) fits

theorem proper_local {index : Nat} {slot : Slot} {query : Bytes} {response : Response}
    (hrequests : next.requests = s.requests ++ [⟨index, slot.generation, query⟩])
    (hslot : s.connections[index]? = some slot) (hopen : slot.fd.isSome)
    (hticket : response.ticket = s.requests.length) (hworker : response.worker = none) :
    Proper layout s next response := by
  refine ⟨⟨index, slot.generation, query⟩, slot, ?_, hslot, hopen, rfl, fun id hid => ?_⟩
  · rw [hrequests, hticket, List.getElem?_concat_length]
  · rw [hworker] at hid
    cases hid

theorem inspect_proper {index : Nat} {slot : Slot} (hslot : s.connections[index]? = some slot)
    (hopen : slot.fd.isSome) (query : Bytes) (now : Nat) (fits : Bool) (phase : Worker.Phase)
    (closed : Bool) {response : Response}
    (hmem : response ∈ (s.inspect layout index slot query now fits phase closed).responses) :
    response ∈ s.responses ∨
      Proper layout s (s.inspect layout index slot query now fits phase closed) response := by
  have hlocal (reply : Reply) (hnew : response ∈ s.responses ++ [⟨s.requests.length, none, reply⟩])
      (last : State) (hrequests : last.requests = s.requests ++ [⟨index, slot.generation, query⟩]) :
      response ∈ s.responses ∨ Proper layout s last response := by
    rcases List.mem_append.mp hnew with hold | hlast
    · exact Or.inl hold
    · obtain rfl := List.mem_singleton.mp hlast
      exact Or.inr (proper_local hrequests hslot hopen rfl rfl)
  revert hmem
  unfold State.inspect
  cases hquery : connectionStart layout query with
  | none => exact fun hmem => hlocal _ hmem _ rfl
  | some position =>
      dsimp only
      split_ifs with hzero hidle
      · exact fun hmem => hlocal _ hmem _ rfl
      · exact fun hmem => hlocal _ hmem _ rfl
      · exact fun hmem => Or.inl hmem

theorem finish_proper (h : Invariant layout s) {id : Nat} (hcontrol : s.control = .answering id)
    {requester : Requester} (hrequester : (s.inspections id).requester = some requester)
    {page : Page} (hpage : (s.inspections id).page = some page) {slot : Slot}
    (hslot : s.connections[requester.index]? = some slot) (fits : Bool) (phase : Worker.Phase)
    (closed : Bool) {response : Response}
    (hmem : response ∈ (s.finish id requester page slot fits phase closed).responses) :
    response ∈ s.responses ∨
      Proper layout s (s.finish id requester page slot fits phase closed) response := by
  have hready : (s.inspections id).phase = .ready := by
    have hstanding := h.standing
    rw [hcontrol] at hstanding
    exact hstanding
  obtain ⟨now, slots, hthis⟩ := (h.sound id).page hready
  obtain rfl := Option.some.inj (hpage.symm.trans hthis)
  obtain ⟨query, position, hquery, hposition, hlocate⟩ :=
    ((h.sound id).asked requester hrequester).request
  revert hmem
  unfold State.finish
  dsimp only
  split_ifs with hgone
  · exact fun hmem => Or.inl hmem
  · intro hmem
    obtain ⟨hopen, hgeneration, hphase⟩ : slot.fd.isSome ∧ slot.generation = requester.generation ∧
        slot.phase = .inspecting := by
      simpa [not_or, Option.isSome_iff_ne_none] using hgone
    rcases List.mem_append.mp hmem with hold | hlast
    · exact Or.inl hold
    · obtain rfl := List.mem_singleton.mp hlast
      refine Or.inr ⟨_, slot, hquery, hslot, hopen, hgeneration, fun other hother => ?_⟩
      obtain rfl := Option.some.inj hother
      refine ⟨hcontrol, hphase, position, hposition, by rw [hlocate], now, slots, fits, ?_⟩
      rw [hlocate]

theorem step_proper (h : Invariant layout s) {action : Action}
    (hstep : s.step layout action = some next) {response : Response}
    (hmem : response ∈ next.responses) :
    response ∈ s.responses ∨ Proper layout s next response := by
  cases action with
  | inspect index query now fits phase closed =>
      simp only [State.step] at hstep
      split at hstep
      case h_1 slot hcontrol hslot =>
        split_ifs at hstep with hbad
        obtain rfl := Option.some.inj hstep
        have hopen : slot.fd.isSome := by
          simpa [Option.isSome_iff_ne_none] using (not_or.mp hbad).1
        exact inspect_proper hslot hopen query now fits phase closed hmem
      case h_2 => cases hstep
  | request =>
      simp only [State.step] at hstep
      split at hstep
      case h_1 id start requester hcontrol =>
        obtain ⟨slot, -, rfl⟩ := Option.map_eq_some_iff.mp hstep
        exact Or.inl hmem
      case h_2 => cases hstep
  | find id =>
      simp only [State.step] at hstep
      split at hstep
      case h_1 hcontrol =>
        split_ifs at hstep
        obtain rfl := Option.some.inj hstep
        exact Or.inl hmem
      case h_2 => cases hstep
  | finish fits phase closed =>
      simp only [State.step] at hstep
      split at hstep
      case h_1 id hcontrol =>
        obtain ⟨requester, hrequester, hstep⟩ := Option.bind_eq_some_iff.mp hstep
        obtain ⟨page, hpage, hstep⟩ := Option.bind_eq_some_iff.mp hstep
        obtain ⟨slot, hslot, hstep⟩ := Option.bind_eq_some_iff.mp hstep
        split_ifs at hstep
        obtain rfl := Option.some.inj hstep
        exact finish_proper h hcontrol hrequester hpage hslot fits phase closed hmem
      case h_2 => cases hstep
  | capture id =>
      simp only [State.step] at hstep
      split_ifs at hstep
      obtain rfl := Option.some.inj hstep
      exact Or.inl hmem
  | publish id now slots =>
      simp only [State.step] at hstep
      split_ifs at hstep
      obtain rfl := Option.some.inj hstep
      exact Or.inl hmem
  | accept index fd phase =>
      simp only [State.step] at hstep
      split at hstep
      case h_1 slot hcontrol hslot =>
        split_ifs at hstep
        obtain rfl := Option.some.inj hstep
        exact Or.inl hmem
      case h_2 => cases hstep
  | move index phase closed =>
      simp only [State.step] at hstep
      split at hstep
      case h_1 slot hcontrol hslot =>
        split_ifs at hstep
        obtain rfl := Option.some.inj hstep
        exact Or.inl hmem
      case h_2 => cases hstep

/-- What `finishInspections` takes for granted is there. -/
theorem Invariant.finish_isSome (h : Invariant layout s) {id : Nat}
    (hcontrol : s.control = .answering id) (fits : Bool) {phase : Worker.Phase}
    (hphase : phase ≠ .inspecting) (closed : Bool) :
    (s.step layout (.finish fits phase closed)).isSome := by
  have hready : (s.inspections id).phase = .ready := by
    have hstanding := h.standing
    rw [hcontrol] at hstanding
    exact hstanding
  have hsound := h.sound id
  obtain ⟨now, slots, hpage⟩ := hsound.page hready
  obtain ⟨requester, hrequester⟩ :=
    Option.isSome_iff_exists.mp (hsound.requester.mpr (by rw [hready]; decide))
  have hslot := List.getElem?_eq_getElem (hsound.asked requester hrequester).connection
  simp [State.step, hcontrol, hrequester, hpage, hslot, hphase]

/-- In every state of the server, worker zero reads no page and writes no request that another worker
is working on, each request has at most one answer, and an answer is for the connection that asked;
one with a page of another worker finds that connection still waiting. -/
theorem handshake_safe {s : State} (h : Reachable layout s) :
    (∀ id, s.control = .answering id → s.capturing id = false) ∧
    (∀ id start requester, s.control = .claiming id start requester → s.capturing id = false) ∧
    (∀ id fits phase closed, s.control = .answering id → phase ≠ Worker.Phase.inspecting →
      (s.step layout (.finish fits phase closed)).isSome) ∧
    (s.responses.map Response.ticket).Nodup ∧
    ∀ action next, s.step layout action = some next → ∀ response ∈ next.responses,
      response ∈ s.responses ∨ Proper layout s next response := by
  have hinv := h.invariant
  have hfree (id : Nat) (hphase : (s.inspections id).phase ≠ .requested) :
      s.capturing id = false := by
    cases hcapturing : s.capturing id with
    | false => rfl
    | true => exact absurd ((hinv.sound id).capturing hcapturing) hphase
  have hstanding := hinv.standing
  refine ⟨fun id hcontrol => ?_, fun id start requester hcontrol => ?_,
    fun id fits phase closed hcontrol hphase => hinv.finish_isSome hcontrol fits hphase closed,
    hinv.once, fun action next hstep response hmem => step_proper hinv hstep hmem⟩
  · rw [hcontrol] at hstanding
    exact hfree id (by rw [show (s.inspections id).phase = .ready from hstanding]; decide)
  · rw [hcontrol] at hstanding
    exact hfree id (by rw [hstanding.1]; decide)

/-- The connection of the administration asks for the slot of the other worker. -/
def askOther : List Action :=
  [.inspect 1 [0x73, 0x74, 0x61, 0x72, 0x74, 0x3d, 0x32] 0 true .writing false, .request, .capture 1,
    .publish 1 0 [{ fd := some 5 }], .find 1]

theorem reachable_run {s last : State} (h : Reachable layout s) {actions : List Action}
    (hrun : actions.foldlM (State.step layout) s = some last) : Reachable layout last := by
  induction actions generalizing s with
  | nil => exact Option.some.inj hrun ▸ h
  | cons action actions ih =>
      rw [List.foldlM_cons] at hrun
      obtain ⟨next, hnext, hrest⟩ := Option.bind_eq_some_iff.mp hrun
      exact ih (.step action h hnext) hrest

theorem handshake_safe_asked : ∃ s : State, Reachable twoWorkers s ∧ s.control = .answering 1 ∧
    s.capturing 1 = false := by
  obtain ⟨s, hrun, hcontrol⟩ : ∃ s : State, askOther.foldlM (State.step twoWorkers)
      { connections := [{ fd := some 3 }, { fd := some 4, admin := true }] } = some s ∧
      s.control = .answering 1 := ⟨_, rfl, rfl⟩
  have h := reachable_run (.start _) hrun
  exact ⟨s, h, hcontrol, (handshake_safe h).1 1 hcontrol⟩

end Inspection

end Zhtps
