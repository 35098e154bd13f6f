import Mathlib.Tactic.SplitIfs
import Zhtps.Http.Syntax

/-!
The transport of an HTTP/2 connection, after `pumpHttp2` and `completedHttp2` of
`src/server/worker.zig`, `output` of `src/server/http2.zig` and `Session` of `src/Tls.zig`.

What OpenSSL and the engine answer is a choice: how many bytes are taken, which ciphertext a call
leaves for the socket, which frames come out.  Both keep to what they promise: the ciphertext that
waits is no more than the BIO holds, and a borrowed frame stays until the next one is asked for.
-/

namespace Zhtps.Pump

/-- Why a connection is closed.  The peer's end and its errors are closed alike. -/
inductive Cause
  | deadline
  | failure
  | complete
  | trap
  deriving DecidableEq

/-- A call of OpenSSL that may not come between a write and its retry, or is one. -/
inductive SslCall
  | read
  | write (bytes : Bytes) (accepted : Bool)
  | shutdown
  deriving DecidableEq

inductive Operation
  | idle
  | shutdown
  deriving DecidableEq

/-- The size of `incoming` and `outgoing`, and of each direction of the BIO pair. -/
def networkSize : Nat := 18 * 1024

/-- The size of `plaintext_output`. -/
def batchSize : Nat := 16 * 1024

/-- The transport state of a session and its connection.  The last fields are its history: frames that
the engine put out, plaintext that OpenSSL accepted, its calls, ciphertext that was taken from it, what
the socket took of that, and what the send that is pending was given. -/
structure Session where
  incoming : Bytes := []
  outgoing : Bytes
  outgoingStart : Nat := 0
  outgoingEnd : Nat := 0
  plaintextOutput : Bytes
  pendingFrame : Bytes := []
  pendingStart : Nat := 0
  pendingEnd : Nat := 0
  writeRetry : Bool := false
  closing : Bool := false
  receivePending : Bool := false
  sendPending : Bool := false
  closed : Option Cause := none
  network : Bytes := []
  operation : Operation := .idle
  result : Bool := false
  failed : Bool := false
  frames : List Bytes := []
  accepted : Bytes := []
  ssl : List SslCall := []
  taken : Bytes := []
  delivered : Bytes := []
  submitted : Bytes := []
  deriving DecidableEq

/-- `buffer[start..stop]`. -/
def slice (buffer : Bytes) (start stop : Nat) : Bytes := (buffer.drop start).take (stop - start)

/-- `@memcpy` to a place of a buffer. -/
def copyTo (buffer : Bytes) (start : Nat) (bytes : Bytes) : Bytes :=
  buffer.take start ++ bytes ++ buffer.drop (start + bytes.length)

/-! ### Choices -/

inductive ReadResult
  | waits
  | ended
  | failed
  | plaintext (engineFails : Bool)

inductive WriteResult
  | retry
  | failed
  | accepted

inductive ShutdownResult
  | done
  | wantRead (room : Bool)
  | wantWrite
  | failed

/-- The answers in one round of the loop. -/
structure Round where
  fed : Nat := 0
  driveFails : Bool := false
  read : ReadResult := .waits
  readProduced : Bytes := []
  /-- What the engine puts out, one answer for each round of `output`; nothing is an error. -/
  frames : Nat → Option Bytes := fun _ => some []
  guarantee : Bool := true
  write : WriteResult := .accepted
  writeProduced : Bytes := []
  drained : Nat := networkSize
  shutdown : ShutdownResult := .done
  shutdownProduced : Bytes := []
  /-- One less than the length of the slice that `BIO_nread0` finds. -/
  chunk : Nat := networkSize

/-- The answers in one pass of `pumpHttp2`. -/
structure Pass where
  expired : Bool := false
  shutdownFails : Bool := false
  rounds : Nat → Round := fun _ => {}
  /-- The engine wants no more input, or the session is draining without streams. -/
  ended : Bool := false

namespace Session

def forceClose (s : Session) (cause : Cause) : Session := { s with closed := some cause }

def plaintext (s : Session) : Bytes := slice s.plaintextOutput s.pendingStart s.pendingEnd

def unsent (s : Session) : Bytes := slice s.outgoing s.outgoingStart s.outgoingEnd

/-! ### `Tls.Session` -/

/-- Ciphertext for the socket, as far as the BIO has room. -/
def produce (s : Session) (bytes : Bytes) : Session :=
  { s with network := s.network ++ bytes.take (networkSize - s.network.length) }

inductive Advance
  | send (bytes : Bytes)
  | receive
  | complete
  | error
  | trap

/-- The tests at the head of the loop of `advance`; nothing where it goes on to the operation. -/
def settle (s : Session) (chunk : Nat) : Option (Session × Advance) :=
  if s.network ≠ [] then some (s, .send (s.network.take (chunk + 1)))
  else if s.failed then some (s, .error)
  else if s.result then some ({ s with operation := .idle, result := false }, .complete)
  else none

/-- `SSL_shutdown` and what `advance` makes of its result. -/
def shutdownOnce (s : Session) (r : Round) : Session × Advance :=
  match s.operation with
  | .idle => (s, .trap)
  | .shutdown =>
      let s := { s.produce r.shutdownProduced with ssl := s.ssl ++ [SslCall.shutdown] }
      match r.shutdown with
      | .done => ({ s with result := true } |>.settle r.chunk).getD (s, .trap)
      | .wantRead room =>
          (s.settle r.chunk).getD (if room then (s, .receive) else (s, .error))
      | .wantWrite => (s.settle r.chunk).getD (s, .error)
      | .failed => ({ s with failed := true } |>.settle r.chunk).getD (s, .trap)

def advance (s : Session) (r : Round) : Session × Advance :=
  (s.settle r.chunk).getD (s.shutdownOnce r)

/-! ### `output` -/

/-- Asks the engine for a frame. -/
def nextFrame (s : Session) (frame : Option Bytes) : Option Session :=
  if s.pendingFrame = [] then
    frame.map fun frame => { s with pendingFrame := frame, frames := s.frames ++ [frame] }
  else some s

/-- How much of the frame the batch has room for. -/
def room (s : Session) (used : Nat) : Nat :=
  min s.pendingFrame.length (s.plaintextOutput.length - used)

def copyFrame (s : Session) (used : Nat) : Session :=
  { s with
    plaintextOutput := copyTo s.plaintextOutput used (s.pendingFrame.take (s.room used))
    pendingFrame := s.pendingFrame.drop (s.room used) }

/-- The loop of `output`: how much of the batch is used, nothing where the engine fails. -/
def fillBatch (next : Nat → Option Bytes) : Nat → Nat → Session → Session × Option Nat
  | 0, used, s => (s, some used)
  | fuel + 1, used, s =>
      match s.nextFrame (next fuel) with
      | none => (s, none)
      | some s =>
          if s.pendingFrame = [] then (s, some used)
          else if used + s.room used = s.plaintextOutput.length then
            (s.copyFrame used, some (used + s.room used))
          else fillBatch next fuel (used + s.room used) (s.copyFrame used)

def output (s : Session) (next : Nat → Option Bytes) : Session :=
  match fillBatch next 64 0 s with
  | (s, none) => s.forceClose .failure
  | (s, some used) => { s with pendingStart := 0, pendingEnd := used }

/-! ### `pumpHttp2` -/

/-- Gives received bytes to OpenSSL, and whether that was any. -/
def feed (s : Session) (r : Round) : Session × Bool :=
  if !s.receivePending ∧ s.incoming ≠ [] then
    let consumed := min r.fed s.incoming.length
    ({ s with incoming := s.incoming.drop consumed }, consumed ≠ 0)
  else (s, false)

/-- The branch of the loop after the TLS shutdown has begun; the loop ends there. -/
def closeRound (s : Session) (r : Round) : Session :=
  if s.sendPending then s
  else
    match s.advance r with
    | (s, .error) => s.forceClose .failure
    | (s, .trap) => s.forceClose .trap
    | (s, .receive) => s
    | (s, .complete) => s.forceClose .complete
    | (s, .send bytes) =>
        if bytes.length ≤ s.outgoing.length then
          { s with
            outgoing := copyTo s.outgoing 0 bytes
            outgoingStart := 0
            outgoingEnd := bytes.length
            network := s.network.drop bytes.length
            taken := s.taken ++ bytes }
        else s.forceClose .trap

/-- Plaintext goes to the engine, and frames of the engine to the batch, unless a write is to be
retried. -/
def readRound (s : Session) (r : Round) : Session × Bool :=
  if r.driveFails then (s.forceClose .failure, false)
  else if s.writeRetry then (s, false)
  else
    let s := { s.produce r.readProduced with ssl := s.ssl ++ [.read] }
    match r.read with
    | .failed | .ended | .plaintext true => (s.forceClose .failure, false)
    | .plaintext false => (if s.plaintext = [] then s.output r.frames else s, true)
    | .waits => (if s.plaintext = [] then s.output r.frames else s, false)

/-- Offers the batch to OpenSSL. -/
def writeRound (s : Session) (r : Round) : Session × Bool :=
  if s.plaintext = [] then (s, false)
  else if !s.writeRetry ∧ !r.guarantee then (s, false)
  else
    let bytes := s.plaintext.take batchSize
    match r.write with
    | .failed => (s.forceClose .failure, false)
    | .retry =>
        ({ s.produce r.writeProduced with
          ssl := s.ssl ++ [.write bytes false]
          writeRetry := true }, false)
    | .accepted =>
        ({ s.produce r.writeProduced with
          ssl := s.ssl ++ [.write bytes true]
          accepted := s.accepted ++ bytes
          pendingStart := s.pendingStart + bytes.length
          writeRetry := false }, true)

/-- Takes ciphertext from OpenSSL when everything before is sent. -/
def drainRound (s : Session) (r : Round) : Session × Bool :=
  if !s.sendPending ∧ s.outgoingStart = s.outgoingEnd then
    let bytes := s.network.take (min r.drained s.outgoing.length)
    ({ s with
      outgoing := copyTo s.outgoing 0 bytes
      outgoingStart := 0
      outgoingEnd := bytes.length
      network := s.network.drop bytes.length
      taken := s.taken ++ bytes }, bytes ≠ [])
  else (s, false)

/-- One round of the loop, and whether another one follows. -/
def round (s : Session) (r : Round) : Session × Bool :=
  let (s, fed) := s.feed r
  if s.closing then (s.closeRound r, false)
  else
    let (s, received) := s.readRound r
    if s.closed.isSome then (s, false)
    else
      let (s, written) := s.writeRound r
      if s.closed.isSome then (s, false)
      else
        let (s, drained) := s.drainRound r
        (s, fed || received || written || drained)

def rounds (choice : Nat → Round) : Nat → Session → Session
  | 0, s => s
  | fuel + 1, s =>
      match s.round (choice fuel) with
      | (s, true) => rounds choice fuel s
      | (s, false) => s

def submitSend (s : Session) : Session :=
  if !s.sendPending ∧ s.outgoingStart < s.outgoingEnd then
    { s with sendPending := true, submitted := s.unsent }
  else s

def submitReceive (s : Session) : Session :=
  if !s.receivePending ∧ s.incoming = [] then { s with receivePending := true } else s

/-- `start(.shutdown)`. -/
def startShutdown (s : Session) : Session :=
  if s.operation = .idle then { s with closing := true, operation := .shutdown, result := false }
  else s.forceClose .trap

/-- A pass of `pumpHttp2`, and whether it calls itself again. -/
def pass (s : Session) (p : Pass) : Session × Bool :=
  if p.expired then (s.forceClose .deadline, false)
  else if p.shutdownFails then (s.forceClose .failure, false)
  else
    let s := s.rounds p.rounds 64
    if s.closed.isSome then (s, false)
    else
      let s := s.submitSend
      if !s.closing ∧ !s.sendPending ∧ s.plaintext = [] ∧ s.pendingFrame = [] ∧ p.ended then
        (s.startShutdown, true)
      else (s.submitReceive, false)

/-- `pumpHttp2`; the second pass is one of a closing session, which is the last. -/
def pump (s : Session) (p q : Pass) : Session :=
  match s.pass p with
  | (s, true) => if s.closed.isSome then s else (s.pass q).1
  | (s, false) => s

end Session

/-! ### Runs -/

inductive Event
  /-- A tick, a completed task or the start of the shutdown. -/
  | pump (p q : Pass)
  /-- A send completes for some bytes. -/
  | sent (count : Nat) (p q : Pass)
  /-- A receive completes with some bytes. -/
  | received (bytes : Bytes) (p q : Pass)
  /-- The connection is closed from outside. -/
  | forceClose (expired : Bool)

/-- `completedHttp2` for a send; the connection may be closed already. -/
def Session.sent (s : Session) (count : Nat) (p q : Pass) : Session :=
  let s := { s with sendPending := false, delivered := s.delivered ++ s.submitted.take count }
  if s.closed.isSome then s
  else if count = 0 then s.forceClose .failure
  else Session.pump { s with outgoingStart := s.outgoingStart + count } p q

def Session.received (s : Session) (bytes : Bytes) (p q : Pass) : Session :=
  let s := { s with receivePending := false }
  if s.closed.isSome then s
  else if bytes = [] then s.forceClose .failure
  else Session.pump { s with incoming := bytes } p q

/-- An event, when it can happen.  A send completes for no more bytes than it was given. -/
def step (s : Session) : Event → Option Session
  | .pump p q => if s.closed.isSome then none else some (s.pump p q)
  | .sent count p q =>
      if s.sendPending ∧ count ≤ s.submitted.length then some (s.sent count p q) else none
  | .received bytes p q => if s.receivePending then some (s.received bytes p q) else none
  | .forceClose expired =>
      if s.closed.isSome then none
      else some (s.forceClose (if expired then .deadline else .failure))

/-- A session after its handshake, which may have left ciphertext for the socket. -/
def initial (network : Bytes) : Session where
  outgoing := List.replicate networkSize 0
  plaintextOutput := List.replicate batchSize 0
  network := network.take networkSize

/-! ### Buffers -/

theorem length_slice (buffer : Bytes) {start stop : Nat} (h : stop ≤ buffer.length) :
    (slice buffer start stop).length = stop - start := by
  rw [slice, List.length_take, List.length_drop]
  omega

theorem slice_empty (buffer : Bytes) {start stop : Nat} (h : stop ≤ start) :
    slice buffer start stop = [] := by
  rw [slice, Nat.sub_eq_zero_of_le h, List.take_zero]

/-- What is left of a slice without its first bytes. -/
theorem slice_drop (buffer : Bytes) (start stop n : Nat) :
    (slice buffer start stop).drop n = slice buffer (start + n) stop := by
  rw [slice, slice, List.drop_take, List.drop_drop, Nat.sub_add_eq]

theorem length_copyTo {buffer bytes : Bytes} {start : Nat}
    (h : start + bytes.length ≤ buffer.length) :
    (copyTo buffer start bytes).length = buffer.length := by
  simp only [copyTo, List.length_append, List.length_take, List.length_drop]
  omega

/-- A copy to the end of what is used makes that longer. -/
theorem slice_copyTo {buffer bytes : Bytes} {start : Nat} (h : start ≤ buffer.length) :
    slice (copyTo buffer start bytes) 0 (start + bytes.length) = slice buffer 0 start ++ bytes := by
  have hlength : (buffer.take start ++ bytes).length = start + bytes.length := by
    rw [List.length_append, List.length_take, Nat.min_eq_left h]
  simp only [slice, copyTo, List.drop_zero, Nat.sub_zero]
  exact List.take_left' hlength

theorem slice_copyTo_zero (buffer bytes : Bytes) :
    slice (copyTo buffer 0 bytes) 0 bytes.length = bytes := by
  have h := @slice_copyTo buffer bytes 0 (Nat.zero_le _)
  rw [Nat.zero_add] at h
  rw [h, slice_empty _ (Nat.le_refl 0), List.nil_append]

/-! ### Steps -/

theorem step_pump {s next : Session} {p q : Pass} (h : step s (.pump p q) = some next) :
    s.closed = none ∧ next = s.pump p q := by
  rw [step] at h
  split_ifs at h with hclosed
  exact ⟨Option.not_isSome_iff_eq_none.mp hclosed, (Option.some.inj h).symm⟩

theorem step_forceClose {s next : Session} {expired : Bool}
    (h : step s (.forceClose expired) = some next) :
    s.closed = none ∧ next = s.forceClose (if expired then .deadline else .failure) := by
  rw [step] at h
  by_cases hclosed : s.closed.isSome = true
  · rw [if_pos hclosed] at h
    cases h
  · rw [if_neg hclosed] at h
    exact ⟨Option.not_isSome_iff_eq_none.mp hclosed, (Option.some.inj h).symm⟩

theorem step_sent {s next : Session} {count : Nat} {p q : Pass}
    (h : step s (.sent count p q) = some next) :
    s.sendPending = true ∧ count ≤ s.submitted.length ∧ next = s.sent count p q := by
  rw [step] at h
  split_ifs at h with hpending
  exact ⟨hpending.1, hpending.2, (Option.some.inj h).symm⟩

theorem step_received {s next : Session} {bytes : Bytes} {p q : Pass}
    (h : step s (.received bytes p q) = some next) :
    s.receivePending = true ∧ next = s.received bytes p q := by
  rw [step] at h
  split_ifs at h with hpending
  exact ⟨hpending, (Option.some.inj h).symm⟩

namespace Session

theorem feed_closed (s : Session) (r : Round) : (s.feed r).1.closed = s.closed := by
  unfold feed
  split_ifs <;> rfl

theorem drainRound_closed (s : Session) (r : Round) : (s.drainRound r).1.closed = s.closed := by
  unfold drainRound
  split_ifs <;> rfl

theorem submitSend_closed (s : Session) : s.submitSend.closed = s.closed := by
  unfold submitSend
  split_ifs <;> rfl

/-- Another round follows only when the connection is open. -/
theorem round_again (s : Session) (r : Round) (h : (s.round r).2 = true) :
    (s.round r).1.closed = none := by
  unfold round at h ⊢
  dsimp only at h ⊢
  split_ifs at h ⊢ with hclosing hread hwrite
  rw [drainRound_closed]
  exact Option.not_isSome_iff_eq_none.mp hwrite

end Session

/-! ### The shutdown -/

namespace Session

/-- What a part of `advance` does, with its calls of OpenSSL: what the BIO holds is sent first. -/
structure Advanced (s : Session) (chunk : Nat) (calls : List SslCall) (last : Session)
    (answer : Advance) : Prop where
  same : last = { s with
    network := last.network
    operation := last.operation
    result := last.result
    failed := last.failed
    ssl := s.ssl ++ calls }
  room : s.network.length ≤ networkSize → last.network.length ≤ networkSize
  send : ∀ bytes, answer = .send bytes → bytes = last.network.take (chunk + 1)
  operation : answer = .complete ∨ last.operation = s.operation
  trap : answer = .trap → s.operation = .idle

theorem length_produce (s : Session) (bytes : Bytes) (h : s.network.length ≤ networkSize) :
    (s.produce bytes).network.length ≤ networkSize := by
  rw [produce, List.length_append, List.length_take]
  omega

variable {s : Session} {chunk : Nat}

theorem Advanced.answer (s : Session) (chunk : Nat) {answer : Advance}
    (hsend : ∀ bytes, answer = .send bytes → bytes = s.network.take (chunk + 1))
    (htrap : answer ≠ .trap) : Advanced s chunk [] s answer :=
  ⟨by rw [List.append_nil], id, hsend, Or.inr rfl, fun heq => absurd heq htrap⟩

/-- The tests at the head of the loop go on only when there is no result. -/
theorem settle_spec (s : Session) (chunk : Nat) :
    (s.settle chunk = none ∧ s.result = false ∧ s.failed = false) ∨
    ∃ last answer, s.settle chunk = some (last, answer) ∧ Advanced s chunk [] last answer := by
  unfold settle
  split_ifs with hnetwork hfailed hresult
  · refine Or.inr ⟨_, _, rfl, Advanced.answer s chunk (fun bytes heq => ?_) nofun⟩
    exact (Advance.send.inj heq).symm
  · exact Or.inr ⟨_, _, rfl, Advanced.answer s chunk nofun nofun⟩
  · refine Or.inr ⟨_, _, rfl, ⟨?_, id, nofun, Or.inl rfl, nofun⟩⟩
    rw [List.append_nil]
  · exact Or.inl ⟨rfl, by simpa using hresult, by simpa using hfailed⟩

/-- The tests follow a change of the state of OpenSSL. -/
theorem Advanced.settled {middle : Session} {calls : List SslCall} {other : Session × Advance}
    (hsame : middle = { s with
      network := middle.network
      result := middle.result
      failed := middle.failed
      ssl := s.ssl ++ calls })
    (hroom : s.network.length ≤ networkSize → middle.network.length ≤ networkSize)
    (hother : middle.result = false → middle.failed = false →
      Advanced s chunk calls other.1 other.2) :
    Advanced s chunk calls ((middle.settle chunk).getD other).1
      ((middle.settle chunk).getD other).2 := by
  rcases settle_spec middle chunk with ⟨hnone, hresult, hfailed⟩ | ⟨last, answer, hsome, h⟩
  · rw [hnone]
    exact hother hresult hfailed
  · rw [hsome]
    have hoperation : middle.operation = s.operation := by rw [hsame]
    refine ⟨?_, fun hle => h.room (hroom hle), h.send, ?_, ?_⟩
    · have hlast := h.same
      rw [List.append_nil, hsame] at hlast
      exact hlast
    · exact h.operation.imp_right (·.trans hoperation)
    · exact fun htrap => hoperation ▸ h.trap htrap

theorem shutdownOnce_spec (s : Session) (r : Round) :
    ∃ calls, (calls = [] ∨ calls = [.shutdown]) ∧
      Advanced s r.chunk calls (s.shutdownOnce r).1 (s.shutdownOnce r).2 := by
  unfold shutdownOnce
  cases hoperation : s.operation with
  | idle =>
      refine ⟨[], Or.inl rfl, ⟨?_, id, nofun, Or.inr rfl, fun _ => hoperation⟩⟩
      rw [List.append_nil]
  | shutdown =>
      refine ⟨[.shutdown], Or.inr rfl, ?_⟩
      have hroom := length_produce s r.shutdownProduced
      have hcalled (answer : Advance) (hsend : ∀ bytes, answer ≠ .send bytes)
          (htrap : answer ≠ .trap) : Advanced s r.chunk [.shutdown]
          { s.produce r.shutdownProduced with ssl := s.ssl ++ [SslCall.shutdown] } answer :=
        ⟨rfl, hroom, fun bytes heq => absurd heq (hsend bytes), Or.inr rfl,
          fun heq => absurd heq htrap⟩
      cases r.shutdown with
      | done => exact Advanced.settled rfl hroom fun hresult => Bool.noConfusion hresult
      | failed => exact Advanced.settled rfl hroom fun _ hfailed => Bool.noConfusion hfailed
      | wantWrite => exact Advanced.settled rfl hroom fun _ _ => hcalled .error nofun nofun
      | wantRead room =>
          refine Advanced.settled rfl hroom fun _ _ => ?_
          cases room with
          | true => exact hcalled .receive nofun nofun
          | false => exact hcalled .error nofun nofun

theorem advance_spec (s : Session) (r : Round) :
    ∃ calls, (calls = [] ∨ calls = [.shutdown]) ∧
      Advanced s r.chunk calls (s.advance r).1 (s.advance r).2 := by
  unfold advance
  rcases settle_spec s r.chunk with ⟨hnone, -⟩ | ⟨last, answer, hsome, h⟩
  · rw [hnone]
    exact shutdownOnce_spec s r
  · rw [hsome]
    exact ⟨[], Or.inl rfl, h⟩

end Session

end Zhtps.Pump
