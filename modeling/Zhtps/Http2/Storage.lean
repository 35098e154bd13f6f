import Zhtps.Http.Parser
import Zhtps.Http.Syntax
import Zhtps.Lib.Memory

/-!
The metadata of HTTP/2 streams, after `src/server/http2.zig`.

Names and values are slices of byte storage that starts out inside the stream and moves to larger
blocks as fields arrive.  What moves is found again by its address.
-/

namespace Zhtps

namespace Http2

open Lib

inductive Fault
  | outOfMemory
  | headerListTooLarge
  | protocol
  /-- An assertion that fails, or an access out of bounds. -/
  | panic
  deriving DecidableEq, Repr

structure Config where
  headerBytes : Nat
  trailerBytes : Nat
  responseBytes : Nat

/-- A field as the engine delivers it: the name is a token, with a colon in front of that of a
pseudo field. -/
structure Decoded where
  name : Bytes
  value : Bytes
  valid : Syntax.isToken name = true ∨ ∃ rest, name = 0x3a :: rest ∧ Syntax.isToken rest = true

/-- `http.Header`, which borrows its text. -/
structure Field where
  name : Slice := ⟨0, 0⟩
  value : Slice := ⟨0, 0⟩
  deriving DecidableEq, Repr

/-- What a stream has allocated; an empty slice or array stands for nothing. -/
structure Storage where
  head : Slice := ⟨0, 0⟩
  trailers : Slice := ⟨0, 0⟩
  output : Slice := ⟨0, 0⟩
  fields : List Field := []
  trailerFields : List Field := []

/-- `Stream`; the array of fields that `request.headers` borrows is cut off at `published`. -/
structure Stream where
  storage : Storage
  headBuffer : Slice
  outputBuffer : Slice
  fieldBuffer : List Field
  method : Slice := ⟨0, 0⟩
  target : Slice := ⟨0, 0⟩
  authority : Slice := ⟨0, 0⟩
  scheme : Option Slice := none
  contentLength : Option Nat := none
  bodyFollows : Bool := false
  published : Nat := 0
  fieldCount : Nat := 0
  trailerCount : Nat := 0
  headLen : Nat := 0
  trailerLen : Nat := 0
  trailers : Bool := false
  headReady : Bool := false
  closed : Bool := false
  busy : Bool := false

structure State where
  memory : Memory UInt8
  stream : Stream

/-- The answers of the allocator in one call: for bytes, and for an array of fields. -/
structure Allocation where
  bytes : Memory.Allocator UInt8
  fields : Bool

namespace Stream

/-- A stream that has just begun, over storage that is new or was used before; its buffers are the
arrays of 1024 and 256 bytes inside it. -/
def begin (storage : Storage) (headBuffer outputBuffer : Slice) (fieldBuffer : Vector Field 16) :
    Stream :=
  { storage, headBuffer, outputBuffer, fieldBuffer := fieldBuffer.toList }

def headBytes (stream : Stream) : Slice :=
  if stream.storage.head.len = 0 then stream.headBuffer else stream.storage.head

def outputBytes (stream : Stream) : Slice :=
  if stream.storage.output.len = 0 then stream.outputBuffer else stream.storage.output

def fields (stream : Stream) : List Field :=
  if stream.storage.fields.length = 0 then stream.fieldBuffer else stream.storage.fields

/-- Writes to the array that `fields` answers. -/
def setFields (stream : Stream) (fields : List Field) : Stream :=
  if stream.storage.fields.length = 0 then { stream with fieldBuffer := fields }
  else { stream with storage := { stream.storage with fields } }

/-- `request.headers`. -/
def headers (stream : Stream) : List Field := stream.fields.take stream.published

end Stream

def Field.read (memory : Memory UInt8) (field : Field) : Header :=
  ⟨memory.read field.name, memory.read field.value⟩

def Field.map (f : Slice → Slice) (field : Field) : Field := ⟨f field.name, f field.value⟩

/-- `stream.request`, with the text that it borrows. -/
def State.request (state : State) : Request :=
  { method := state.memory.read state.stream.method
    target := state.memory.read state.stream.target
    authority := state.memory.read state.stream.authority
    scheme := state.stream.scheme.map state.memory.read
    version := .http2
    headers := state.stream.headers.map (Field.read state.memory)
    contentLength := state.stream.contentLength
    bodyFollows := state.stream.bodyFollows }

/-- Moves what is used of some bytes to a new block and frees the block they were in. -/
def growBytes (alloc : Memory.Allocator UInt8) (memory : Memory UInt8) (owned previous : Slice)
    (capacity : Nat) : Option (Memory UInt8 × Slice) :=
  match alloc memory capacity with
  | none => none
  | some place =>
      let next := (memory.alloc capacity place).write place.val (memory.read previous)
      some (next.free owned, ⟨place.val, capacity⟩)

/-- The slice at the same place of the next block, if it is one of the previous bytes. -/
def relocated (previous next bytes : Slice) : Slice :=
  if bytes.len = 0 ∨ bytes.ptr < previous.ptr ∨ previous.len ≤ bytes.ptr - previous.ptr then bytes
  else ⟨next.ptr + (bytes.ptr - previous.ptr), bytes.len⟩

/-- The first fields of an array, with their text moved. -/
def moveFields (f : Slice → Slice) (count : Nat) (fields : List Field) : List Field :=
  (fields.take count).map (Field.map f) ++ fields.drop count

namespace Stream

/-- The text of a head, moved. -/
def moveHead (f : Slice → Slice) (stream : Stream) : Stream :=
  let stream := stream.setFields (moveFields f stream.fieldCount stream.fields)
  { stream with
    method := f stream.method
    target := f stream.target
    authority := f stream.authority
    scheme := stream.scheme.map f }

end Stream

section Calls

variable (config : Config) (alloc : Allocation)

def reserveHead (state : State) (extra : Nat) : Except Fault State :=
  let stream := state.stream
  let maximum := 2 * config.headerBytes
  if extra > maximum - stream.headLen then .error .headerListTooLarge
  else
    let previous := stream.headBytes
    let needed := stream.headLen + extra
    if needed ≤ previous.len then .ok state
    else if stream.headReady || stream.busy then .error .panic
    else
      let used : Slice := ⟨previous.ptr, stream.headLen⟩
      match growBytes alloc.bytes state.memory stream.storage.head used
          (min maximum (max needed (previous.len * 2))) with
      | none => .error .outOfMemory
      | some (memory, head) =>
          let stream := { stream with storage := { stream.storage with head } }
          .ok ⟨memory, stream.moveHead (relocated used stream.headBytes)⟩

def reserveTrailers (state : State) (extra : Nat) : Except Fault State :=
  let stream := state.stream
  let maximum := config.trailerBytes
  if extra > maximum - stream.trailerLen then .error .headerListTooLarge
  else
    let previous := stream.storage.trailers
    let needed := stream.trailerLen + extra
    if needed ≤ previous.len then .ok state
    else
      let used : Slice := ⟨previous.ptr, stream.trailerLen⟩
      match growBytes alloc.bytes state.memory previous used
          (min maximum (max needed (max 512 (previous.len * 2)))) with
      | none => .error .outOfMemory
      | some (memory, trailers) =>
          let trailerFields := moveFields (relocated used trailers) stream.trailerCount
            stream.storage.trailerFields
          .ok ⟨memory, { stream with
            storage := { stream.storage with trailers, trailerFields } }⟩

/-- A larger array; what is behind the fields in use is undefined. -/
def growFields (count : Nat) (previous : List Field) : List Field :=
  previous.take count ++
    List.replicate (min 128 (max 8 (previous.length * 2)) - (previous.take count).length) ({} : Field)

def reserveFields (stream : Stream) : Except Fault Stream :=
  let count := if stream.trailers then stream.trailerCount else stream.fieldCount
  if count = 128 then .error .protocol
  else
    let previous := if stream.trailers then stream.storage.trailerFields else stream.fields
    if count < previous.length then .ok stream
    else if !alloc.fields then .error .outOfMemory
    else
      let next := growFields count previous
      .ok (if stream.trailers then
          { stream with storage := { stream.storage with trailerFields := next } }
        else { stream with storage := { stream.storage with fields := next } })

/-- Room for a field in the block that it belongs to. -/
def reserve (state : State) (extra : Nat) : Except Fault State :=
  if state.stream.trailers then reserveTrailers config alloc state extra
  else reserveHead config alloc state extra

/-- Copies a field behind what is used of a block: the state, the name and the value. -/
def copy (state : State) (field : Decoded) : State × Slice × Slice :=
  let stream := state.stream
  let storage := if stream.trailers then stream.storage.trailers else stream.headBytes
  let used := if stream.trailers then stream.trailerLen else stream.headLen
  let key : Slice := ⟨storage.ptr + used, field.name.length⟩
  let text : Slice := ⟨storage.ptr + (used + field.name.length), field.value.length⟩
  let used := used + field.name.length + field.value.length
  let memory := (state.memory.write key.ptr field.name).write text.ptr field.value
  (⟨memory, if stream.trailers then { stream with trailerLen := used }
    else { stream with headLen := used }⟩, key, text)

/-- Adds a trailer that the request permits. -/
def addTrailer (state : State) (field : Decoded) (key text : Slice) :
    State × Except Fault Unit :=
  match field.name.head? with
  | none => (state, .error .panic)
  | some first =>
      if first == 0x3a || state.request.forbidsTrailer field.name then (state, .error .protocol)
      else
        match reserveFields alloc state.stream with
        | .error fault => (state, .error fault)
        | .ok stream =>
            let trailerFields := stream.storage.trailerFields.set stream.trailerCount ⟨key, text⟩
            (⟨state.memory, { stream with
              storage := { stream.storage with trailerFields }
              trailerCount := stream.trailerCount + 1 }⟩, .ok ())

/-- Adds a field that is not a pseudo field. -/
def addField (state : State) (field : Decoded) (key text : Slice) : State × Except Fault Unit :=
  match field.name.head? with
  | none => (state, .error .panic)
  | some first =>
      if first == 0x3a then (state, .error .protocol)
      else
        match reserveFields alloc state.stream with
        | .error fault => (state, .error fault)
        | .ok stream =>
            let stream := stream.setFields (stream.fields.set stream.fieldCount ⟨key, text⟩)
            let stream := { stream with fieldCount := stream.fieldCount + 1 }
            if field.name = ascii "content-length" then
              match Fmt.parseInt (state.memory.read text) 10 with
              | none => (⟨state.memory, stream⟩, .error .protocol)
              | some length =>
                  (⟨state.memory, { stream with contentLength := some length }⟩, .ok ())
            else (⟨state.memory, stream⟩, .ok ())

/-- Puts a field that has been copied where it belongs. -/
def place (state : State) (field : Decoded) (key text : Slice) : State × Except Fault Unit :=
  let stream := state.stream
  if stream.trailers then addTrailer alloc state field key text
  else if field.name = ascii ":method" then
    (⟨state.memory, { stream with method := text }⟩, .ok ())
  else if field.name = ascii ":path" then
    (⟨state.memory, { stream with target := text }⟩, .ok ())
  else if field.name = ascii ":authority" then
    (⟨state.memory, { stream with authority := text }⟩, .ok ())
  else if field.name = ascii ":scheme" then
    (⟨state.memory, { stream with scheme := some text }⟩, .ok ())
  else addField alloc state field key text

/-- Copies a decoded field into the storage of its stream. -/
def header (state : State) (field : Decoded) : State × Except Fault Unit :=
  if state.stream.closed then (state, .ok ())
  else
    match reserve config alloc state (field.name.length + field.value.length) with
    | .error fault => (state, .error fault)
    | .ok state =>
        let stream := state.stream
        let storage := if stream.trailers then stream.storage.trailers else stream.headBytes
        let used := if stream.trailers then stream.trailerLen else stream.headLen
        if field.name.length + field.value.length > storage.len - used then
          (state, .error .headerListTooLarge)
        else
          let (state, key, text) := copy state field
          place alloc state field key text

end Calls

/-- The stream whose trailer block begins. -/
def beginTrailers (stream : Stream) : Except Fault Stream :=
  if stream.trailers then .error .protocol else .ok { stream with trailers := true }

/-! ### Cookies -/

def cookie : Bytes := ascii "cookie"

def separator : Bytes := ascii "; "

/-- The locals of the loop that joins cookies: the writer has filled `written` bytes from `base`. -/
structure Join where
  memory : Memory UInt8
  written : Nat := 0
  fields : List Field
  count : Nat := 0
  seen : Nat := 0

namespace Join

/-- `writeAll` into the room for the joined value. -/
def writeAll (join : Join) (base room : Nat) (bytes : Bytes) : Option Join :=
  if join.written + bytes.length ≤ room then
    some { join with
      memory := join.memory.write (base + join.written) bytes
      written := join.written + bytes.length }
  else none

/-- A field stays in the array, behind those that stayed before it. -/
def keep (join : Join) (field : Field) : Join :=
  { join with fields := join.fields.set join.count field, count := join.count + 1 }

/-- One turn of the loop. -/
def turn (base room : Nat) (join : Join) (field : Field) : Option Join :=
  if join.memory.read field.name = cookie then do
    let join ← if join.seen ≠ 0 then join.writeAll base room separator else some join
    let join ← join.writeAll base room (join.memory.read field.value)
    let join := { join with seen := join.seen + 1 }
    return if join.seen > 1 then join else join.keep field
  else some (join.keep field)

/-- The loop over an array that it writes to. -/
def loop (base room : Nat) : Nat → Nat → Join → Option Join
  | 0, _, join => some join
  | n + 1, index, join =>
      (turn base room join (join.fields.getD index ({} : Field))).bind (loop base room n (index + 1))

end Join

/-- Completes a head or a trailer block. -/
def headComplete (config : Config) (alloc : Allocation) (state : State) (trailers ended : Bool) :
    State × Except Fault Unit :=
  if trailers then (state, if ended then .ok () else .error .protocol)
  else
    let finish (state : State) : State × Except Fault Unit :=
      (⟨state.memory, { state.stream with
        published := state.stream.fieldCount
        bodyFollows := !ended
        headReady := true }⟩, .ok ())
    let isCookie (field : Field) : Bool := state.memory.read field.name == cookie
    let fields := state.stream.fields.take state.stream.fieldCount
    let cookies := fields.filter isCookie
    if cookies.length > 1 then
      let first := fields.findIdx isCookie
      let room := (cookies.map fun field => field.value.len).sum + (cookies.length - 1) * 2
      match reserveHead config alloc state room with
      | .error fault => (state, .error fault)
      | .ok state =>
          let base := state.stream.headBytes.ptr + state.stream.headLen
          match Join.loop base room state.stream.fieldCount 0
              { memory := state.memory, fields := state.stream.fields } with
          | none => (state, .error .panic)
          | some join =>
              let fields := join.fields.modify first fun field =>
                { field with value := ⟨base, room⟩ }
              let stream := state.stream.setFields fields
              finish ⟨join.memory, { stream with
                fieldCount := join.count
                headLen := stream.headLen + room }⟩
    else finish state

/-! ### The session -/

/-- `Session.header`: what the engine has decoded of a block is charged against its limit before the
stream sees it. -/
structure Session where
  headerBytes : Nat := 0
  state : State

def Session.header (config : Config) (alloc : Allocation) (session : Session) (field : Decoded) :
    Session × Except Fault Unit :=
  let charge := field.name.length + field.value.length + 32
  if charge > config.headerBytes - session.headerBytes then
    (session, .error .headerListTooLarge)
  else
    let (state, result) := Http2.header config alloc session.state field
    ({ headerBytes := session.headerBytes + charge, state }, result)

end Http2

end Zhtps
