import Zhtps.Endpoint.Routing
import Zhtps.Http.Request
import Zhtps.Lib.Memory

/-!
The body, the scratch memory and the cleanup of an exchange, after `prepareHead`, `runHead`,
`receiveBody`, `runBody`, `respond`, `runStream`, `releaseApplication` and `bodyScratch` of
`src/endpoint.zig`.

Body and scratch share one storage: the body grows from its front, and once a hook has been given the
rest as scratch memory the boundary stays.  Nothing stands for a failed assertion, and for an index or
a subtraction out of range.  What a hook does with its scratch memory is a function on its bytes.
-/

namespace Zhtps.Hooks

open Lib (Slice)

/-- `routing.Body`. -/
inductive Body
  | none
  | bytes
  | json
  | stream
  deriving DecidableEq, Repr

structure Route where
  body : Body
  maxBodyBytes : Nat
  deriving DecidableEq, Repr

inductive HandlerError
  | invalidInput
  | other
  deriving DecidableEq, Repr

/-- User code: what it returns, and what it leaves in the scratch bytes. -/
structure Hook (α : Type) where
  result : Except HandlerError α
  fill : Bytes → Bytes
  length_fill : ∀ bytes, (fill bytes).length = bytes.length

inductive Stage
  | middleware
  | consume
  | handler
  | producer
  | release
  deriving DecidableEq, Repr

/-- What a hook was given: the body, a chunk, and its scratch memory; middleware has its own. -/
structure Called where
  stage : Stage
  body : Bytes
  chunk : Bytes := []
  scratch : Option Slice := .none
  deriving DecidableEq, Repr

inductive Response
  | failure (status : Nat) (close : Bool)
  | options (close : Bool)
  | application
  deriving DecidableEq, Repr

/-- An exchange.  The last three fields are its history: the chunks that the body is made of, those
that a consumer was given, and every call of a hook. -/
structure Exchange where
  storage : Bytes
  used : Nat := 0
  streamedBytes : Nat := 0
  scratch : Option Slice := .none
  selected : Option Route := .none
  automaticStatus : Option Nat := .none
  releasePending : Bool := false
  accepted : List Bytes := []
  consumed : List Bytes := []
  called : List Called := []
  deriving DecidableEq, Repr

def implementedMethod (method : Bytes) : Bool := Endpoint.methodTexts.contains method

/-- The media type of a `Content-Type` value, without its parameters. -/
def mediaType (contentType : Bytes) : Bytes :=
  Syntax.trim (contentType.take ((Mem.indexOfScalar contentType 0x3b).getD contentType.length))

def isJson (request : Request) : Bool :=
  match request.getHeader (ascii "Content-Type") with
  | .none => false
  | some contentType => Syntax.eql (mediaType contentType) (ascii "application/json")

namespace Exchange

def handlerFailure (error : HandlerError) (close : Bool) : Response :=
  .failure (if error = .invalidInput then 400 else 500) close

def reset (exchange : Exchange) : Exchange :=
  { exchange with
    used := 0
    streamedBytes := 0
    scratch := .none
    selected := .none
    automaticStatus := .none
    accepted := []
    consumed := [] }

/-- `prepareHead`; what `find` selects for the request is given. -/
def prepareHead (exchange : Exchange) (request : Request) (found : Option (Route × Option Nat)) :
    Exchange × Option Response :=
  let exchange := exchange.reset
  if !implementedMethod request.method then (exchange, some (.failure 501 request.hasBody))
  else if request.method = ascii "OPTIONS" ∧ request.path = ascii "*" then
    (exchange, some (.options request.hasBody))
  else
    match found with
    | .none => (exchange, some (.failure 404 request.hasBody))
    | some (route, automatic) =>
        let exchange := { exchange with selected := some route, automaticStatus := automatic }
        if automatic.isSome then (exchange, .none)
        else if route.body = .none ∧ request.hasBody then (exchange, some (.failure 400 true))
        else if (request.contentLength.any fun length =>
            decide (route.maxBodyBytes < length ∨
              route.body ≠ .stream ∧ exchange.storage.length < length)) then
          (exchange, some (.failure 413 true))
        else if route.body = .json ∧ request.hasBody ∧ !isJson request then
          (exchange, some (.failure 415 true))
        else (exchange, .none)

/-- `makeCall` and the call of a hook. -/
def call {α : Type} (exchange : Exchange) (stage : Stage) (scratch : Option Slice) (chunk : Bytes)
    (hook : Hook α) : Option (Exchange × Except HandlerError α) :=
  if exchange.used ≤ exchange.storage.length then
    some ({ exchange with
      storage :=
        match scratch with
        | .none => exchange.storage
        | some region =>
            exchange.storage.take region.ptr ++
              hook.fill ((exchange.storage.drop region.ptr).take region.len) ++
              exchange.storage.drop (region.ptr + region.len)
      called := exchange.called ++
        [{ stage, body := exchange.storage.take exchange.used, chunk, scratch }] }, hook.result)
  else .none

/-- Freezes the boundary on first use. -/
def bodyScratch (exchange : Exchange) : Option (Exchange × Slice) :=
  match exchange.scratch with
  | some region => some (exchange, region)
  | .none =>
      if exchange.used ≤ exchange.storage.length then
        let region : Slice := ⟨exchange.used, exchange.storage.length - exchange.used⟩
        some ({ exchange with scratch := some region }, region)
      else .none

/-- The loop of `runHead` over the middleware; the flag of a result is an early response. -/
def runMiddleware (hasBody : Bool) : List (Hook Bool) → Exchange →
    Option (Exchange × Option Response)
  | [], exchange => some (exchange, .none)
  | hook :: hooks, exchange => do
      match ← exchange.call .middleware .none [] hook with
      | (exchange, .error error) => return (exchange, some (handlerFailure error hasBody))
      | (exchange, .ok true) => return (exchange, some .application)
      | (exchange, .ok false) => runMiddleware hasBody hooks exchange

def runHead (exchange : Exchange) (request : Request) (middleware : List (Hook Bool)) :
    Option (Exchange × Option Response) :=
  if exchange.storage.length < exchange.used then .none
  else do
    let (exchange, early) ←
      runMiddleware request.hasBody middleware { exchange with releasePending := true }
    if early.isSome then return (exchange, early)
    else
      return (exchange, exchange.automaticStatus.map fun status =>
        if status = 204 then .options request.hasBody else .failure status request.hasBody)

/-- The release hook has no result. -/
def releaseApplication (exchange : Exchange) (hook : Hook Unit) : Option Exchange :=
  if !exchange.releasePending then some exchange
  else do
    let (exchange, region) ← bodyScratch { exchange with releasePending := false }
    let (exchange, _) ← exchange.call .release region [] hook
    return { exchange with scratch := .none, used := 0, accepted := [] }

def streamsBody (exchange : Exchange) : Bool :=
  exchange.selected.any fun route => route.body = .stream

/-- Whether the chunk was copied; otherwise `error.BodyTooLarge`. -/
def receiveBody (exchange : Exchange) (bytes : Bytes) : Option (Exchange × Bool) :=
  if exchange.streamsBody ∨ exchange.scratch.isSome then .none
  else
    match exchange.selected with
    | .none => some (exchange, false)
    | some route =>
        if route.maxBodyBytes < exchange.used then .none
        else if route.maxBodyBytes - exchange.used < bytes.length then some (exchange, false)
        else if exchange.storage.length < exchange.used then .none
        else if exchange.storage.length - exchange.used < bytes.length then some (exchange, false)
        else
          some ({ exchange with
            storage := exchange.storage.take exchange.used ++ bytes ++
              exchange.storage.drop (exchange.used + bytes.length)
            used := exchange.used + bytes.length
            accepted := exchange.accepted ++ [bytes] }, true)

def runBody (exchange : Exchange) (bytes : Bytes) (hook : Hook Unit) :
    Option (Exchange × Option Response) :=
  match exchange.selected with
  | .none => .none
  | some route =>
      if route.body ≠ .stream ∨ !exchange.releasePending then .none
      else if route.maxBodyBytes < exchange.streamedBytes then .none
      else if route.maxBodyBytes - exchange.streamedBytes < bytes.length then
        some (exchange, some (.failure 413 true))
      else do
        let (exchange, region) ← bodyScratch { exchange with
          streamedBytes := exchange.streamedBytes + bytes.length
          consumed := exchange.consumed ++ [bytes] }
        match ← exchange.call .consume region bytes hook with
        | (exchange, .error error) => return (exchange, some (handlerFailure error true))
        | (exchange, .ok ()) => return (exchange, .none)

def respond (exchange : Exchange) (hook : Hook Unit) : Option (Exchange × Response) :=
  match exchange.selected with
  | .none => some (exchange, .failure 404 true)
  | some _ => do
      let (exchange, region) ← exchange.bodyScratch
      match ← exchange.call .handler region [] hook with
      | (exchange, .error error) => return (exchange, handlerFailure error false)
      | (exchange, .ok ()) => return (exchange, .application)

/-- `runStream`, with the producer that the handler left. -/
def runStream (exchange : Exchange) (producer : Option (Hook Unit)) : Option Exchange :=
  match producer with
  | .none => some exchange
  | some hook => do
      let (exchange, region) ← exchange.bodyScratch
      let (exchange, _) ← exchange.call .producer region [] hook
      return exchange

end Exchange

/-- The consumer is given one chunk after the other until there is a response. -/
def Exchange.runBodies (exchange : Exchange) :
    List (Bytes × Hook Unit) → Option (Exchange × Option Response)
  | [] => some (exchange, .none)
  | (bytes, hook) :: rest => do
      match ← exchange.runBody bytes hook with
      | (exchange, some response) => return (exchange, some response)
      | (exchange, .none) => runBodies exchange rest

/-! ### Runs -/

inductive Op
  | prepareHead (request : Request) (found : Option (Route × Option Nat))
  | runHead (request : Request) (middleware : List (Hook Bool))
  | receiveBody (bytes : Bytes)
  | runBody (bytes : Bytes) (hook : Hook Unit)
  | respond (hook : Hook Unit)
  | runStream (producer : Option (Hook Unit))
  | release (hook : Hook Unit)

def Op.isRunHead : Op → Bool
  | .runHead .. => true
  | _ => false

def Op.isRelease : Op → Bool
  | .release _ => true
  | _ => false

/-- What the code asserts of its callers. -/
def Allowed (exchange : Exchange) : Op → Prop
  | .receiveBody _ => exchange.streamsBody = false ∧ exchange.scratch = .none
  | .runBody _ _ => exchange.streamsBody = true ∧ exchange.releasePending = true
  | _ => True

def step (exchange : Exchange) : Op → Option Exchange
  | .prepareHead request found => some (exchange.prepareHead request found).1
  | .runHead request middleware => (exchange.runHead request middleware).map (·.1)
  | .receiveBody bytes => (exchange.receiveBody bytes).map (·.1)
  | .runBody bytes hook => (exchange.runBody bytes hook).map (·.1)
  | .respond hook => (exchange.respond hook).map (·.1)
  | .runStream producer => exchange.runStream producer
  | .release hook => exchange.releaseApplication hook

/-- The calls on an exchange over some storage, each of them allowed. -/
inductive Run (storage : Bytes) : List Op → Exchange → Prop
  | init : Run storage [] { storage := storage }
  | step {ops : List Op} {exchange next : Exchange} (op : Op) (h : Run storage ops exchange)
      (hallowed : Allowed exchange op) (hstep : Hooks.step exchange op = some next) :
      Run storage (ops ++ [op]) next

/-! ### What stays true -/

/-- The rest of the storage behind the body. -/
def Exchange.rest (exchange : Exchange) : Slice :=
  ⟨exchange.used, exchange.storage.length - exchange.used⟩

/-- A call of a hook was given no scratch memory of the body. -/
def Called.Apart (called : Called) (size : Nat) : Prop :=
  ∀ region, called.scratch = some region →
    called.body.length ≤ region.ptr ∧ region.ptr + region.len ≤ size

structure Invariant (exchange : Exchange) : Prop where
  used_le : exchange.used ≤ exchange.storage.length
  body : exchange.storage.take exchange.used = exchange.accepted.flatten
  streamed : exchange.streamedBytes = exchange.consumed.flatten.length
  scratch : ∀ region, exchange.scratch = some region → region = exchange.rest
  route : ∀ route, exchange.selected = some route →
    exchange.used ≤ route.maxBodyBytes ∧ exchange.streamedBytes ≤ route.maxBodyBytes
  called : ∀ called ∈ exchange.called, called.Apart exchange.storage.length

variable {exchange next : Exchange} {α : Type}

theorem Invariant.used_eq (h : Invariant exchange) :
    exchange.used = exchange.accepted.flatten.length := by
  rw [← h.body, List.length_take, Nat.min_eq_left h.used_le]

theorem invariant_init (storage : Bytes) : Invariant { storage := storage } where
  used_le := Nat.zero_le _
  body := rfl
  streamed := rfl
  scratch _ h := by cases h
  route _ h := by cases h
  called _ h := absurd h List.not_mem_nil

theorem Invariant.reset (h : Invariant exchange) : Invariant exchange.reset where
  used_le := Nat.zero_le _
  body := rfl
  streamed := rfl
  scratch _ h := by cases h
  route _ h := by cases h
  called := h.called

/-- A hook changes nothing but its scratch memory. -/
theorem call_spec (h : Invariant exchange) (stage : Stage) {scratch : Option Slice}
    (hscratch : ∀ region, scratch = some region → region = exchange.rest) (chunk : Bytes)
    (hook : Hook α) : ∃ storage, storage.length = exchange.storage.length ∧
      storage.take exchange.used = exchange.storage.take exchange.used ∧
      exchange.call stage scratch chunk hook = some ({ exchange with
        storage := storage
        called := exchange.called ++
          [⟨stage, exchange.storage.take exchange.used, chunk, scratch⟩] }, hook.result) := by
  unfold Exchange.call
  rw [if_pos h.used_le]
  refine ⟨_, ?_, ?_, rfl⟩
  · cases scratch with
    | none => rfl
    | some region =>
        have hle := h.used_le
        simp only [hscratch region rfl, Exchange.rest, List.length_append, List.length_take,
          List.length_drop, hook.length_fill]
        omega
  · cases scratch with
    | none => rfl
    | some region =>
        simp only [hscratch region rfl, Exchange.rest, List.append_assoc]
        rw [List.take_left' (by rw [List.length_take, Nat.min_eq_left h.used_le])]

theorem Invariant.called_with (h : Invariant exchange) {storage : Bytes}
    (hlength : storage.length = exchange.storage.length)
    (hbody : storage.take exchange.used = exchange.storage.take exchange.used) {called : Called}
    (hcalled : called.Apart exchange.storage.length) :
    Invariant { exchange with storage := storage, called := exchange.called ++ [called] } where
  used_le := hlength ▸ h.used_le
  body := hbody.trans h.body
  streamed := h.streamed
  scratch region hregion := by
    rw [h.scratch region hregion]
    simp only [Exchange.rest, hlength]
  route := h.route
  called other hother := by
    dsimp only
    rw [hlength]
    rcases List.mem_append.mp hother with hold | hlast
    · exact h.called other hold
    · exact List.mem_singleton.mp hlast ▸ hcalled

/-- The scratch memory is the rest of the storage, whether it was frozen before or not. -/
theorem bodyScratch_spec (h : Invariant exchange) :
    exchange.bodyScratch = some ({ exchange with scratch := some exchange.rest }, exchange.rest) := by
  unfold Exchange.bodyScratch
  cases hscratch : exchange.scratch with
  | none => simp only [if_pos h.used_le, Exchange.rest]
  | some region =>
      obtain rfl := h.scratch region hscratch
      have hsame : { exchange with scratch := some exchange.rest } = exchange := by rw [← hscratch]
      simp only [hsame]

theorem Invariant.freeze (h : Invariant exchange) :
    Invariant { exchange with scratch := some exchange.rest } where
  used_le := h.used_le
  body := h.body
  streamed := h.streamed
  scratch _ hregion := (Option.some.inj hregion).symm
  route := h.route
  called := h.called

theorem apart_rest (h : Invariant exchange) (stage : Stage) (chunk : Bytes) :
    Called.Apart ⟨stage, exchange.storage.take exchange.used, chunk, some exchange.rest⟩
      exchange.storage.length := by
  have hle := h.used_le
  intro region hregion
  obtain rfl := Option.some.inj hregion
  simp only [List.length_take, Exchange.rest]
  omega

/-- Hooks ran; the body and what was decided about the request are as they were. -/
structure Hooked (exchange : Exchange) (calls : List Called) (last : Exchange) : Prop where
  invariant : Invariant last
  length : last.storage.length = exchange.storage.length
  accepted : last.accepted = exchange.accepted
  consumed : last.consumed = exchange.consumed
  selected : last.selected = exchange.selected
  automatic : last.automaticStatus = exchange.automaticStatus
  pending : last.releasePending = exchange.releasePending
  called : last.called = exchange.called ++ calls

theorem Hooked.trans {middle last : Exchange} {first second : List Called}
    (h : Hooked exchange first middle) (h' : Hooked middle second last) :
    Hooked exchange (first ++ second) last where
  invariant := h'.invariant
  length := h'.length.trans h.length
  accepted := h'.accepted.trans h.accepted
  consumed := h'.consumed.trans h.consumed
  selected := h'.selected.trans h.selected
  automatic := h'.automatic.trans h.automatic
  pending := h'.pending.trans h.pending
  called := by rw [h'.called, h.called, List.append_assoc]

/-- A hook that is given the rest of the storage. -/
theorem body_hook (h : Invariant exchange) (stage : Stage) (chunk : Bytes) (hook : Hook α) :
    ∃ called frozen region last, called.stage = stage ∧
      exchange.bodyScratch = some (frozen, region) ∧
      frozen.call stage (some region) chunk hook = some (last, hook.result) ∧
      Hooked exchange [called] last := by
  have hfrozen := h.freeze
  have hrest : ∀ region, some exchange.rest = some region →
      region = Exchange.rest { exchange with scratch := some exchange.rest } :=
    fun _ hregion => (Option.some.inj hregion).symm
  obtain ⟨storage, hlength, hbody, hcall⟩ := call_spec hfrozen stage hrest chunk hook
  have hinvariant := hfrozen.called_with hlength hbody (apart_rest h stage chunk)
  exact ⟨_, _, _, _, rfl, bodyScratch_spec h, hcall,
    ⟨hinvariant, hlength, rfl, rfl, rfl, rfl, rfl, rfl⟩⟩

/-- Middleware has its own scratch memory. -/
theorem runMiddleware_spec (hasBody : Bool) (hooks : List (Hook Bool)) (h : Invariant exchange) :
    ∃ calls last response,
      Exchange.runMiddleware hasBody hooks exchange = some (last, response) ∧
      Hooked exchange calls last ∧ ∀ called ∈ calls, called.stage = .middleware := by
  induction hooks generalizing exchange with
  | nil =>
      exact ⟨[], exchange, .none, rfl,
        ⟨h, rfl, rfl, rfl, rfl, rfl, rfl, (List.append_nil _).symm⟩, fun _ h => by cases h⟩
  | cons hook hooks ih =>
      obtain ⟨storage, hlength, hbody, hcall⟩ :=
        @call_spec exchange Bool h .middleware .none (fun _ h => by cases h) [] hook
      generalize hthis : (⟨.middleware, exchange.storage.take exchange.used, [], .none⟩ : Called) =
        this at hcall
      have hapart : this.Apart exchange.storage.length := by
        intro region hregion
        rw [← hthis] at hregion
        cases hregion
      have hnext := h.called_with hlength hbody hapart
      have hone : Hooked exchange [this]
          { exchange with storage := storage, called := exchange.called ++ [this] } :=
        ⟨hnext, hlength, rfl, rfl, rfl, rfl, rfl, rfl⟩
      have hstage : ∀ called ∈ [this], called.stage = .middleware := by
        intro called hmem
        rw [List.mem_singleton.mp hmem, ← hthis]
      simp only [Exchange.runMiddleware, hcall, bind, Option.bind]
      cases hook.result with
      | error error => exact ⟨_, _, _, rfl, hone, hstage⟩
      | ok early =>
          cases early with
          | true => exact ⟨_, _, _, rfl, hone, hstage⟩
          | false =>
              obtain ⟨calls, last, response, hrun, hhooked, hstages⟩ := ih hnext
              refine ⟨_, last, response, hrun, hone.trans hhooked, fun called hmem => ?_⟩
              rcases List.mem_append.mp hmem with hfirst | hrest
              · exact hstage called hfirst
              · exact hstages called hrest

/-! ### What a call does -/

/-- The body still fits with a chunk more. -/
def Exchange.Admits (exchange : Exchange) (bytes : Bytes) : Prop :=
  ∃ route, exchange.selected = some route ∧
    exchange.accepted.flatten.length + bytes.length ≤ route.maxBodyBytes ∧
    exchange.accepted.flatten.length + bytes.length ≤ exchange.storage.length

/-- A chunk becomes the end of the body, or changes nothing. -/
theorem receiveBody_spec (h : Invariant exchange) (hstream : exchange.streamsBody = false)
    (hscratch : exchange.scratch = .none) (bytes : Bytes) :
    (exchange.Admits bytes ∧ ∃ storage, storage.length = exchange.storage.length ∧
      Invariant { exchange with
        storage := storage
        used := exchange.used + bytes.length
        accepted := exchange.accepted ++ [bytes] } ∧
      exchange.receiveBody bytes = some ({ exchange with
        storage := storage
        used := exchange.used + bytes.length
        accepted := exchange.accepted ++ [bytes] }, true)) ∨
    ¬exchange.Admits bytes ∧ exchange.receiveBody bytes = some (exchange, false) := by
  have hle := h.used_le
  have hused := h.used_eq
  unfold Exchange.receiveBody Exchange.Admits
  rw [← hused]
  have hassert : ¬(exchange.streamsBody = true ∨ exchange.scratch.isSome = true) := by
    rw [hstream, hscratch]
    decide
  rw [if_neg hassert]
  cases hselected : exchange.selected with
  | none =>
      refine Or.inr ⟨?_, rfl⟩
      rintro ⟨route, hroute, -⟩
      cases hroute
  | some route =>
      have hroute := (h.route route hselected).1
      have hiff : (∃ other, some route = some other ∧
          exchange.used + bytes.length ≤ other.maxBodyBytes ∧
          exchange.used + bytes.length ≤ exchange.storage.length) ↔
          exchange.used + bytes.length ≤ route.maxBodyBytes ∧
          exchange.used + bytes.length ≤ exchange.storage.length := by
        constructor
        · rintro ⟨other, hother, hfits⟩
          obtain rfl := Option.some.inj hother
          exact hfits
        · exact fun hfits => ⟨route, rfl, hfits⟩
      rw [hiff]
      dsimp only
      rw [if_neg (by omega)]
      split_ifs with hlimit hspace hroom
      · exact Or.inr ⟨by omega, rfl⟩
      · omega
      · exact Or.inr ⟨by omega, rfl⟩
      · refine Or.inl ⟨by omega, _, ?_, ⟨?_, ?_, h.streamed, fun region hregion => ?_, ?_, ?_⟩, rfl⟩
        · simp only [List.length_append, List.length_take, List.length_drop]
          omega
        · simp only [List.length_append, List.length_take, List.length_drop]
          omega
        · rw [List.take_left' (by simp only [List.length_append, List.length_take]; omega), h.body,
            List.flatten_append, List.flatten_singleton]
        · rw [hscratch] at hregion
          cases hregion
        · intro other hother
          obtain rfl := Option.some.inj hother
          refine ⟨?_, (h.route _ hselected).2⟩
          dsimp only
          omega
        · intro called hcalled
          have hapart := h.called called hcalled
          simp only [List.length_append, List.length_take, List.length_drop]
          rw [show min exchange.used exchange.storage.length + bytes.length +
            (exchange.storage.length - (exchange.used + bytes.length)) =
              exchange.storage.length by omega]
          exact hapart

/-- What a consumer's result becomes. -/
def consumerResponse : Except HandlerError Unit → Option Response
  | .error error => some (Exchange.handlerFailure error true)
  | .ok () => .none

/-- A consumer is given a chunk that is within the limit with those before it. -/
theorem runBody_spec (h : Invariant exchange) {route : Route}
    (hselected : exchange.selected = some route) (hbody : route.body = .stream)
    (hpending : exchange.releasePending = true) (bytes : Bytes) (hook : Hook Unit) :
    (exchange.consumed.flatten.length + bytes.length ≤ route.maxBodyBytes ∧
      ∃ called last, called.stage = .consume ∧ Hooked { exchange with
        streamedBytes := exchange.streamedBytes + bytes.length
        consumed := exchange.consumed ++ [bytes] } [called] last ∧
        exchange.runBody bytes hook = some (last, consumerResponse hook.result)) ∨
    route.maxBodyBytes < exchange.consumed.flatten.length + bytes.length ∧
      exchange.runBody bytes hook = some (exchange, some (.failure 413 true)) := by
  have hroute := h.route route hselected
  have hstreamed := h.streamed
  have hassert : ¬(route.body ≠ .stream ∨ (!exchange.releasePending) = true) := by
    rw [hbody, hpending]
    decide
  unfold Exchange.runBody
  rw [hselected]
  dsimp only
  rw [if_neg hassert, if_neg (by omega)]
  split_ifs with hlimit
  · exact Or.inr ⟨by omega, rfl⟩
  · have hnext : Invariant { exchange with
        streamedBytes := exchange.streamedBytes + bytes.length
        consumed := exchange.consumed ++ [bytes] } := by
      refine ⟨h.used_le, h.body, ?_, h.scratch, ?_, h.called⟩
      · rw [List.flatten_append, List.flatten_singleton, List.length_append, hstreamed]
      · intro other hother
        dsimp only at hother ⊢
        rw [hselected] at hother
        obtain rfl := Option.some.inj hother
        exact ⟨hroute.1, by omega⟩
    obtain ⟨called, frozen, region, last, hstage, hfreeze, hcall, hhooked⟩ :=
      body_hook hnext .consume bytes hook
    rw [hselected] at hfreeze hhooked
    refine Or.inl ⟨by omega, called, last, hstage, hhooked, ?_⟩
    simp only [hfreeze, hcall, bind, Option.bind]
    cases hook.result with
    | error error => rfl
    | ok => rfl

/-- How far a call brings the exchange: what a caller may count on afterwards. -/
structure Progress (exchange : Exchange) (pending : Bool) (releases : Nat) (last : Exchange) :
    Prop where
  invariant : Invariant last
  length : last.storage.length = exchange.storage.length
  pending : last.releasePending = pending
  releases : last.called.countP (fun called => called.stage = .release) =
    exchange.called.countP (fun called => called.stage = .release) + releases

theorem Hooked.progress {calls : List Called} {last : Exchange} (h : Hooked exchange calls last)
    (hstage : ∀ called ∈ calls, called.stage ≠ .release) :
    Progress exchange exchange.releasePending 0 last := by
  refine ⟨h.invariant, h.length, h.pending, ?_⟩
  have hnone : calls.countP (fun called => called.stage = .release) = 0 :=
    List.countP_eq_zero.mpr fun called hmem => by simpa using hstage called hmem
  rw [h.called, List.countP_append, hnone]

theorem Hooked.progress_one {called : Called} {last : Exchange} (h : Hooked exchange [called] last)
    {stage : Stage} (hstage : called.stage = stage) (hne : stage ≠ .release) :
    Progress exchange exchange.releasePending 0 last := by
  refine h.progress fun other hmem => ?_
  rw [List.mem_singleton.mp hmem, hstage]
  exact hne

theorem prepareHead_spec (h : Invariant exchange) (request : Request)
    (found : Option (Route × Option Nat)) :
    Progress exchange exchange.releasePending 0 (exchange.prepareHead request found).1 := by
  have hreset : Progress exchange exchange.releasePending 0 exchange.reset :=
    ⟨h.reset, rfl, rfl, rfl⟩
  have hselect (route : Route) (automatic : Option Nat) :
      Progress exchange exchange.releasePending 0
        { exchange.reset with selected := some route, automaticStatus := automatic } := by
    have hinvariant := h.reset
    exact ⟨⟨hinvariant.used_le, hinvariant.body, hinvariant.streamed, hinvariant.scratch,
      fun _ _ => ⟨Nat.zero_le _, Nat.zero_le _⟩, hinvariant.called⟩, rfl, rfl, rfl⟩
  unfold Exchange.prepareHead
  dsimp only
  split_ifs
  · exact hreset
  · exact hreset
  · cases found with
    | none => exact hreset
    | some selection =>
        dsimp only
        split_ifs
        all_goals exact hselect ..

theorem runHead_spec (h : Invariant exchange) (request : Request) (middleware : List (Hook Bool)) :
    ∃ last response, exchange.runHead request middleware = some (last, response) ∧
      Progress exchange true 0 last := by
  have hle := h.used_le
  have hpending : Invariant { exchange with releasePending := true } :=
    ⟨h.used_le, h.body, h.streamed, h.scratch, h.route, h.called⟩
  obtain ⟨calls, last, response, hrun, hhooked, hstage⟩ :=
    runMiddleware_spec request.hasBody middleware hpending
  have hprogress := hhooked.progress fun called hmem => by
    rw [hstage called hmem]
    decide
  unfold Exchange.runHead
  rw [if_neg (by omega)]
  simp only [hrun, bind, Option.bind]
  have hthis : Progress exchange true 0 last :=
    ⟨hprogress.invariant, hprogress.length, hprogress.pending, hprogress.releases⟩
  split_ifs
  · exact ⟨_, _, rfl, hthis⟩
  · exact ⟨_, _, rfl, hthis⟩

theorem respond_spec (h : Invariant exchange) (hook : Hook Unit) :
    ∃ last response, exchange.respond hook = some (last, response) ∧
      Progress exchange exchange.releasePending 0 last := by
  unfold Exchange.respond
  cases hselected : exchange.selected with
  | none => exact ⟨_, _, rfl, h, rfl, rfl, rfl⟩
  | some route =>
      obtain ⟨called, frozen, region, last, hstage, hfreeze, hcall, hhooked⟩ :=
        body_hook h .handler [] hook
      have hprogress := hhooked.progress_one hstage (by decide)
      simp only [hfreeze, hcall, bind, Option.bind]
      cases hook.result with
      | error error => exact ⟨_, _, rfl, hprogress⟩
      | ok => exact ⟨_, _, rfl, hprogress⟩

theorem runStream_spec (h : Invariant exchange) (producer : Option (Hook Unit)) :
    ∃ last, exchange.runStream producer = some last ∧
      Progress exchange exchange.releasePending 0 last := by
  cases producer with
  | none => exact ⟨exchange, rfl, h, rfl, rfl, rfl⟩
  | some hook =>
      obtain ⟨called, frozen, region, last, hstage, hfreeze, hcall, hhooked⟩ :=
        body_hook h .producer [] hook
      refine ⟨last, ?_, hhooked.progress_one hstage (by decide)⟩
      simp only [Exchange.runStream, hfreeze, hcall, bind, Option.bind]
      rfl

/-- The hook runs when a release is pending, which it is not any more. -/
theorem release_spec (h : Invariant exchange) (hook : Hook Unit) :
    ∃ last, exchange.releaseApplication hook = some last ∧
      Progress exchange false (if exchange.releasePending then 1 else 0) last := by
  unfold Exchange.releaseApplication
  cases hpending : exchange.releasePending with
  | false => exact ⟨exchange, rfl, h, rfl, hpending, rfl⟩
  | true =>
      have hover : Invariant { exchange with releasePending := false } :=
        ⟨h.used_le, h.body, h.streamed, h.scratch, h.route, h.called⟩
      obtain ⟨called, frozen, region, last, hstage, hfreeze, hcall, hhooked⟩ :=
        body_hook hover .release [] hook
      refine ⟨{ last with scratch := .none, used := 0, accepted := [] }, ?_, ?_⟩
      · simp [hfreeze, hcall]
      · have hlast := hhooked.invariant
        have hended : Invariant { last with scratch := .none, used := 0, accepted := [] } := by
          refine ⟨Nat.zero_le _, rfl, hlast.streamed, fun _ hregion => ?_, fun route hroute => ?_,
            hlast.called⟩
          · cases hregion
          · exact ⟨Nat.zero_le _, (hlast.route route hroute).2⟩
        refine ⟨hended, hhooked.length, hhooked.pending, ?_⟩
        dsimp only
        rw [hhooked.called, List.countP_append, List.countP_singleton, hstage]
        rfl

/-! ### Runs of calls -/

theorem streamsBody_route (h : exchange.streamsBody = true) :
    ∃ route, exchange.selected = some route ∧ route.body = .stream := by
  unfold Exchange.streamsBody at h
  cases hselected : exchange.selected with
  | none =>
      rw [hselected] at h
      cases h
  | some route =>
      rw [hselected] at h
      exact ⟨route, rfl, of_decide_eq_true h⟩

/-- Whether a release is pending after a call. -/
def pendingAfter (pending : Bool) (op : Op) : Bool :=
  if op.isRunHead then true else if op.isRelease then false else pending

/-- A call that is allowed does not fail, and its part in the cleanup is known. -/
theorem step_spec (h : Invariant exchange) {op : Op} (hallowed : Allowed exchange op) :
    ∃ last, step exchange op = some last ∧
      Progress exchange (pendingAfter exchange.releasePending op)
        (if op.isRelease ∧ exchange.releasePending then 1 else 0) last := by
  cases op with
  | prepareHead request found => exact ⟨_, rfl, prepareHead_spec h request found⟩
  | runHead request middleware =>
      obtain ⟨last, response, hrun, hprogress⟩ := runHead_spec h request middleware
      exact ⟨last, by rw [step, hrun]; rfl, hprogress⟩
  | receiveBody bytes =>
      rcases receiveBody_spec h hallowed.1 hallowed.2 bytes with
        ⟨-, storage, hlength, hinvariant, hreceive⟩ | ⟨-, hreceive⟩
      · exact ⟨_, by rw [step, hreceive]; rfl, hinvariant, hlength, rfl, rfl⟩
      · exact ⟨exchange, by rw [step, hreceive]; rfl, h, rfl, rfl, rfl⟩
  | runBody bytes hook =>
      obtain ⟨hstream, hpending⟩ := hallowed
      obtain ⟨route, hselected, hbody⟩ := streamsBody_route hstream
      rcases runBody_spec h hselected hbody hpending bytes hook with
        ⟨-, called, last, hstage, hhooked, hrun⟩ | ⟨-, hrun⟩
      · have hprogress := hhooked.progress_one hstage (by decide)
        exact ⟨last, by rw [step, hrun]; rfl, hprogress.invariant, hprogress.length,
          hprogress.pending, hprogress.releases⟩
      · exact ⟨exchange, by rw [step, hrun]; rfl, h, rfl, rfl, rfl⟩
  | respond hook =>
      obtain ⟨last, response, hrespond, hprogress⟩ := respond_spec h hook
      exact ⟨last, by rw [step, hrespond]; rfl, hprogress⟩
  | runStream producer => exact runStream_spec h producer
  | release hook =>
      obtain ⟨last, hrelease, hprogress⟩ := release_spec h hook
      refine ⟨last, hrelease, ?_⟩
      simpa [pendingAfter, Op.isRunHead, Op.isRelease] using hprogress

/-- `runHead` makes a release pending, and the cleanup carries it out. -/
theorem pendingAfter_add (pending : Bool) (op : Op) :
    (if op.isRelease ∧ pending then 1 else 0) + (pendingAfter pending op).toNat =
      if op.isRunHead then 1 else pending.toNat := by
  cases op
  all_goals
    cases pending
    all_goals rfl

def releases (exchange : Exchange) : Nat :=
  exchange.called.countP fun called => called.stage = .release

/-- After a run a release is pending if the last call of `runHead` came after the last cleanup; it has
run no more often than `runHead`, and not less if that ran once. -/
structure Kept (storage : Bytes) (ops : List Op) (exchange : Exchange) : Prop where
  invariant : Invariant exchange
  length : exchange.storage.length = storage.length
  pending : exchange.releasePending = ops.foldl pendingAfter false
  releases_le : releases exchange + exchange.releasePending.toNat ≤ ops.countP Op.isRunHead
  releases_pos : 0 < ops.countP Op.isRunHead →
    0 < releases exchange + exchange.releasePending.toNat

theorem run_kept {storage : Bytes} {ops : List Op} (h : Run storage ops exchange) :
    Kept storage ops exchange := by
  induction h with
  | init => exact ⟨invariant_init storage, rfl, rfl, Nat.le_refl _, fun h => h⟩
  | step op hrun hallowed hstep ih =>
      rename_i ops before next
      obtain ⟨last, hlast, hprogress⟩ := step_spec ih.invariant hallowed
      obtain rfl := Option.some.inj (hstep.symm.trans hlast)
      have hle := ih.releases_le
      have hpos := ih.releases_pos
      have htotal : releases next + next.releasePending.toNat = releases before +
          if op.isRunHead then 1 else before.releasePending.toNat := by
        rw [← pendingAfter_add, hprogress.pending, ← Nat.add_assoc]
        exact congrArg (· + _) hprogress.releases
      have hcount : (ops ++ [op]).countP Op.isRunHead =
          ops.countP Op.isRunHead + if op.isRunHead then 1 else 0 := by
        rw [List.countP_append, List.countP_singleton]
      have htoNat := Bool.toNat_le before.releasePending
      refine ⟨hprogress.invariant, hprogress.length.trans ih.length, ?_, ?_, ?_⟩
      · rw [List.foldl_append, hprogress.pending, ih.pending]
        rfl
      · rw [htotal, hcount]
        split_ifs <;> omega
      · rw [htotal, hcount]
        split_ifs <;> omega

/-- Without a call of `runHead`, a release stays pending until the first cleanup. -/
theorem foldl_pendingAfter {ops : List Op} (hnone : ops.countP Op.isRunHead = 0) (pending : Bool) :
    ops.foldl pendingAfter pending = (pending && !ops.any Op.isRelease) := by
  induction ops generalizing pending with
  | nil => rw [List.foldl_nil, List.any_nil, Bool.not_false, Bool.and_true]
  | cons op ops ih =>
      rw [List.countP_cons] at hnone
      have hhead : op.isRunHead = false := by
        cases hop : op.isRunHead with
        | false => rfl
        | true =>
            rw [hop] at hnone
            cases hnone
      have hrest : ops.countP Op.isRunHead = 0 := by omega
      rw [List.foldl_cons, ih hrest, pendingAfter, hhead, List.any_cons]
      cases op.isRelease with
      | true => simp
      | false => simp

/-- The consumer is given the chunks up to the limit, or up to one that it fails on. -/
theorem runBodies_spec (h : Invariant exchange) {route : Route}
    (hselected : exchange.selected = some route) (hbody : route.body = .stream)
    (hpending : exchange.releasePending = true) (chunks : List (Bytes × Hook Unit)) :
    ∃ given rest last response, chunks = given ++ rest ∧
      exchange.runBodies chunks = some (last, response) ∧
      last.consumed = exchange.consumed ++ given.map Prod.fst ∧
      last.consumed.flatten.length ≤ route.maxBodyBytes ∧
      ((rest = [] ∧ response = .none ∧ ∀ item ∈ given, item.2.result = .ok ()) ∨
      (∃ item others, rest = item :: others ∧
        route.maxBodyBytes < last.consumed.flatten.length + item.1.length ∧
        response = some (.failure 413 true) ∧ ∀ item ∈ given, item.2.result = .ok ()) ∨
      ∃ before item error, given = before ++ [item] ∧ item.2.result = .error error ∧
        response = some (Exchange.handlerFailure error true) ∧
        ∀ item ∈ before, item.2.result = .ok ()) := by
  induction chunks generalizing exchange with
  | nil =>
      refine ⟨[], [], exchange, .none, rfl, rfl, (List.append_nil _).symm, ?_,
        Or.inl ⟨rfl, rfl, fun _ h => by cases h⟩⟩
      exact h.streamed ▸ (h.route route hselected).2
  | cons item chunks ih =>
      obtain ⟨bytes, hook⟩ := item
      rcases runBody_spec h hselected hbody hpending bytes hook with
        ⟨-, called, next, -, hhooked, hrun⟩ | ⟨hlimit, hrun⟩
      · have hroute := hhooked.selected.trans hselected
        have hstill := hhooked.pending.trans hpending
        have hconsumed : next.consumed = exchange.consumed ++ [bytes] := hhooked.consumed
        have hle := (hhooked.invariant.route route hroute).2
        rw [hhooked.invariant.streamed] at hle
        cases hresult : hook.result with
        | error error =>
            rw [hresult] at hrun
            refine ⟨[(bytes, hook)], chunks, next, _, rfl, ?_, hconsumed, hle,
              Or.inr (Or.inr ⟨[], (bytes, hook), error, rfl, hresult, rfl, fun _ h => by cases h⟩)⟩
            simp only [Exchange.runBodies, hrun, bind, Option.bind]
            rfl
        | ok value =>
            rw [hresult] at hrun
            obtain ⟨given, rest, last, response, hsplit, hruns, hlast, hlimit, hend⟩ :=
              ih hhooked.invariant hroute hstill
            refine ⟨(bytes, hook) :: given, rest, last, response, by rw [hsplit]; rfl, ?_, ?_, hlimit, ?_⟩
            · simp only [Exchange.runBodies, hrun, bind, Option.bind]
              exact hruns
            · rw [hlast, hconsumed, List.append_assoc, List.map_cons]
              rfl
            · have hcons {items : List (Bytes × Hook Unit)}
                  (hall : ∀ item ∈ items, item.2.result = .ok ()) :
                  ∀ item ∈ (bytes, hook) :: items, item.2.result = .ok () := by
                intro item hmem
                rcases List.mem_cons.mp hmem with rfl | hmem
                · exact hresult
                · exact hall item hmem
              rcases hend with ⟨hrest, hnone, hall⟩ | ⟨item, others, hrest, hover, hfail, hall⟩ |
                ⟨before, item, error, hgiven, herror, hfail, hall⟩
              · exact Or.inl ⟨hrest, hnone, hcons hall⟩
              · exact Or.inr (Or.inl ⟨item, others, hrest, hover, hfail, hcons hall⟩)
              · exact Or.inr (Or.inr ⟨(bytes, hook) :: before, item, error, by rw [hgiven]; rfl,
                  herror, hfail, hcons hall⟩)
      · refine ⟨[], (bytes, hook) :: chunks, exchange, _, rfl, ?_, (List.append_nil _).symm, ?_,
          Or.inr (Or.inl ⟨(bytes, hook), chunks, rfl, hlimit, rfl, fun _ h => by cases h⟩)⟩
        · simp only [Exchange.runBodies, hrun, bind, Option.bind]
          rfl
        · exact h.streamed ▸ (h.route route hselected).2

/-- A body of a declared length that `prepareHead` accepts fits its route and the storage. -/
theorem prepareHead_declared (exchange : Exchange) (request : Request) {route : Route}
    (hnone : (exchange.prepareHead request (some (route, .none))).2 = .none) {length : Nat}
    (hlength : request.contentLength = some length) :
    length ≤ route.maxBodyBytes ∧ (route.body ≠ .stream → length ≤ exchange.storage.length) := by
  unfold Exchange.prepareHead at hnone
  dsimp only at hnone
  split_ifs at hnone with hmethod hoptions hsome hbodyless hlimit hjson
  · cases hsome
  · have hfits : ¬(route.maxBodyBytes < length ∨
        route.body ≠ .stream ∧ exchange.reset.storage.length < length) := by
      simpa [hlength] using hlimit
    obtain ⟨hroute, hstorage⟩ := not_or.mp hfits
    exact ⟨by omega, fun hstream => Nat.le_of_not_lt (not_and.mp hstorage hstream)⟩

/-- Whatever the calls on an exchange and the results of its hooks.  No call fails that its callers
are allowed.  The body is the chunks that were accepted, and one is accepted if and only if the body
then still fits the route and the storage.  A consumer is given the chunks up to the limit of the
route.  The scratch memory of a hook lies behind the body.  The release hook runs once if `runHead`
ran once and a cleanup came after it, and never if it did not run. -/
theorem exchange_safe {storage : Bytes} {ops : List Op} (h : Run storage ops exchange) :
    (∀ op, Allowed exchange op → (step exchange op).isSome) ∧
    exchange.storage.take exchange.used = exchange.accepted.flatten ∧
    exchange.used = exchange.accepted.flatten.length ∧
    (∀ bytes, exchange.streamsBody = false → exchange.scratch = .none →
      (exchange.Admits bytes ∧ ∃ next, exchange.receiveBody bytes = some (next, true) ∧
        next.accepted = exchange.accepted ++ [bytes] ∧
        next.storage.take next.used = exchange.accepted.flatten ++ bytes) ∨
      ¬exchange.Admits bytes ∧ exchange.receiveBody bytes = some (exchange, false)) ∧
    (∀ request route length, (exchange.prepareHead request (some (route, .none))).2 = .none →
      request.contentLength = some length →
      length ≤ route.maxBodyBytes ∧ (route.body ≠ .stream → length ≤ exchange.storage.length)) ∧
    (∀ route chunks, exchange.selected = some route → route.body = .stream →
      exchange.releasePending = true →
      ∃ given rest last response, chunks = given ++ rest ∧
        exchange.runBodies chunks = some (last, response) ∧
        last.consumed = exchange.consumed ++ given.map Prod.fst ∧
        last.consumed.flatten.length ≤ route.maxBodyBytes ∧
        ((rest = [] ∧ response = .none ∧ ∀ item ∈ given, item.2.result = .ok ()) ∨
        (∃ item others, rest = item :: others ∧
          route.maxBodyBytes < last.consumed.flatten.length + item.1.length ∧
          response = some (.failure 413 true) ∧ ∀ item ∈ given, item.2.result = .ok ()) ∨
        ∃ before item error, given = before ++ [item] ∧ item.2.result = .error error ∧
          response = some (Exchange.handlerFailure error true) ∧
          ∀ item ∈ before, item.2.result = .ok ())) ∧
    (∀ called ∈ exchange.called, ∀ region, called.scratch = some region →
      called.body.length ≤ region.ptr ∧ region.ptr + region.len ≤ storage.length) ∧
    releases exchange ≤ ops.countP Op.isRunHead ∧
    (∀ first second, ops = first ++ second → first.countP Op.isRunHead = 1 →
      second.countP Op.isRunHead = 0 → second.any Op.isRelease = true →
      releases exchange = 1) := by
  have hkept := run_kept h
  have hinvariant := hkept.invariant
  refine ⟨fun op hallowed => ?_, hinvariant.body, hinvariant.used_eq,
    fun bytes hstream hscratch => ?_, fun request route length hnone hlength =>
      prepareHead_declared exchange request hnone hlength,
    fun route chunks hselected hbody hpending =>
      runBodies_spec hinvariant hselected hbody hpending chunks,
    fun called hcalled => hkept.length ▸ hinvariant.called called hcalled,
    Nat.le_trans (Nat.le_add_right ..) hkept.releases_le, ?_⟩
  · obtain ⟨last, hlast, -⟩ := step_spec hinvariant hallowed
    rw [hlast]
    rfl
  · rcases receiveBody_spec hinvariant hstream hscratch bytes with
      ⟨hadmits, chunk, -, hnext, hreceive⟩ | hrefused
    · refine Or.inl ⟨hadmits, _, hreceive, rfl, ?_⟩
      have hbody := hnext.body
      rw [List.flatten_append, List.flatten_singleton] at hbody
      exact hbody
    · exact Or.inr hrefused
  · intro first second hops hfirst hsecond hrelease
    have hpending := hkept.pending
    rw [hops, List.foldl_append, foldl_pendingAfter hsecond, hrelease, Bool.not_true,
      Bool.and_false] at hpending
    have hcount : ops.countP Op.isRunHead = 1 := by
      rw [hops, List.countP_append, hfirst, hsecond]
    have hle := hkept.releases_le
    have hpos := hkept.releases_pos (by omega)
    rw [hpending, Bool.toNat_false] at hle hpos
    omega

/-- A hook that succeeds and leaves its scratch memory alone. -/
def quiet : Hook Unit := ⟨.ok (), id, fun _ => rfl⟩

def postRequest : Request := { method := ascii "POST" }

def postRoute : Route := ⟨.bytes, 3⟩

def postOps : List Op :=
  [.prepareHead postRequest (some (postRoute, .none)), .runHead postRequest [], .receiveBody [7, 8]]

/-- Behind the first chunk of a body of at most three bytes. -/
def postExchange : Exchange where
  storage := [7, 8, 3, 4, 5, 6]
  used := 2
  selected := some postRoute
  releasePending := true
  accepted := [[7, 8]]

/-- A chunk that fits the storage and not the route is refused; the handler is given the one before
it, with the rest of the storage, and the release hook runs once. -/
theorem exchange_safe_released :
    ∃ last, Run [1, 2, 3, 4, 5, 6] postOps postExchange ∧
      postExchange.storage.take postExchange.used = [[7, 8]].flatten ∧
      postExchange.receiveBody [9, 9] = some (postExchange, false) ∧
      Run [1, 2, 3, 4, 5, 6] (postOps ++ [.receiveBody [9, 9]] ++ [.respond quiet] ++
        [.release quiet]) last ∧
      last.called = [⟨.handler, [7, 8], [], some ⟨2, 4⟩⟩, ⟨.release, [7, 8], [], some ⟨2, 4⟩⟩] ∧
      (∀ called ∈ last.called, ∀ region, called.scratch = some region →
        called.body.length ≤ region.ptr ∧ region.ptr + region.len ≤ 6) ∧
      releases last = 1 := by
  have hposted : Run [1, 2, 3, 4, 5, 6] postOps postExchange :=
    .step (.receiveBody [7, 8]) (.step (.runHead postRequest [])
      (.step (.prepareHead postRequest (some (postRoute, .none))) .init trivial rfl) trivial rfl)
      ⟨rfl, rfl⟩ rfl
  obtain ⟨-, hbody, -, hchunk, -⟩ := exchange_safe hposted
  have hrefused : postExchange.receiveBody [9, 9] = some (postExchange, false) := by
    rcases hchunk [9, 9] rfl rfl with ⟨-, next, hnext, -⟩ | ⟨-, hrefused⟩
    · cases hnext
    · exact hrefused
  let answered : Exchange := { postExchange with
    scratch := some ⟨2, 4⟩
    called := [⟨.handler, [7, 8], [], some ⟨2, 4⟩⟩] }
  have hanswered : Run [1, 2, 3, 4, 5, 6] (postOps ++ [.receiveBody [9, 9]] ++ [.respond quiet])
      answered :=
    .step (.respond quiet) (.step (.receiveBody [9, 9]) hposted ⟨rfl, rfl⟩ rfl) trivial rfl
  let last : Exchange := { postExchange with
    used := 0
    releasePending := false
    accepted := []
    called := [⟨.handler, [7, 8], [], some ⟨2, 4⟩⟩, ⟨.release, [7, 8], [], some ⟨2, 4⟩⟩] }
  have hlast : Run [1, 2, 3, 4, 5, 6] (postOps ++ [.receiveBody [9, 9]] ++ [.respond quiet] ++
      [.release quiet]) last :=
    .step (.release quiet) hanswered trivial rfl
  obtain ⟨-, -, -, -, -, -, hcalled, -, hreleases⟩ := exchange_safe hlast
  exact ⟨last, hposted, hbody, hrefused, hlast, rfl, hcalled,
    hreleases (postOps ++ [.receiveBody [9, 9]] ++ [.respond quiet]) [.release quiet] rfl rfl rfl rfl⟩

end Zhtps.Hooks
