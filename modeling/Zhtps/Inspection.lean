import Zhtps.Worker.State

/-!
The listing of connections, after `connectionPage` and `inspectConnections` of
`src/server/worker.zig`.

A position counts the slots of all workers: first the slots of worker zero, which has the ones of the
administration as well, then those of the other workers in turn.  A page lists slots of one worker.
-/

namespace Zhtps.Inspection

/-- What a checked configuration says about slots. -/
structure Layout where
  workers : Nat
  maxConnections : Nat
  adminConnections : Nat
  workers_pos : 0 < workers
  workers_le : workers ≤ 256
  maxConnections_pos : 0 < maxConnections
  slots_le : maxConnections + adminConnections ≤ 8176

namespace Layout

variable (layout : Layout)

def capacity : Nat := layout.workers * layout.maxConnections + layout.adminConnections

/-- `connections.len` of a worker. -/
def count (worker : Nat) : Nat :=
  layout.maxConnections + if worker = 0 then layout.adminConnections else 0

/-- The position of the first slot of a worker. -/
def base (worker : Nat) : Nat :=
  worker * layout.maxConnections + if worker = 0 then 0 else layout.adminConnections

def firstCount : Nat := layout.maxConnections + layout.adminConnections

/-- The worker that lists the slots from a position on, and the slot there. -/
def locate (start : Nat) : Nat × Nat :=
  if start < layout.firstCount ∨ layout.workers = 1 then (0, start)
  else
    let id := min (1 + (start - layout.firstCount) / layout.maxConnections) (layout.workers - 1)
    (id, start - layout.firstCount - (id - 1) * layout.maxConnections)

end Layout

/-- The fields of a connection that a page reads. -/
structure Slot where
  fd : Option Nat := none
  generation : UInt32 := 0
  admin : Bool := false
  phase : Worker.Phase := .reading
  requests : Nat := 0
  requestStarted : Bool := false
  requestId : Nat := 0
  permit : Option Decision := none
  pending : Nat := 0
  deadline : Nat := 0
  startedNs : Nat := 0

def Slot.occupied (slot : Slot) : Bool := slot.fd.isSome

/-- `Page.Entry`. -/
structure Entry where
  id : Nat
  worker : Nat
  admin : Bool
  phase : Worker.Phase
  requests : Nat
  request : Option Nat
  permit : Option Decision
  pending : Nat
  deadlineRemainingNs : Nat
  elapsedNs : Nat

structure Page where
  worker : Nat
  capacity : Nat
  connections : List Entry := []
  next : Option Nat := none

/-- `page.connections.len`, the room of a page. -/
def pageRoom : Nat := 32

/-- `@intFromEnum(Kind.receive)`. -/
def receive : Nat := 6

def token (kind index : Nat) (generation : UInt32) : Nat :=
  generation.toNat <<< 32 ||| index <<< 8 ||| kind

def entry (worker now index : Nat) (slot : Slot) : Entry where
  id := token receive index slot.generation &&& (2 ^ 64 - 1 - 255)
  worker := worker
  admin := slot.admin
  phase := slot.phase
  requests := slot.requests
  request := if slot.requestStarted then some slot.requestId else none
  permit := slot.permit
  pending := slot.pending
  deadlineRemainingNs := slot.deadline - now
  elapsedNs := if slot.requestStarted then now - slot.startedNs else 0

/-- The loop of `connectionPage` over the slots from an index on: the entries, and the index at which
it stops. -/
def scan (worker now : Nat) : Nat → List Slot → List Entry → List Entry × Nat
  | index, [], entries => (entries, index)
  | index, slot :: rest, entries =>
      if entries.length < pageRoom then
        scan worker now (index + 1) rest
          (if slot.occupied then entries ++ [entry worker now index slot] else entries)
      else (entries, index)

def connectionPage (layout : Layout) (worker now : Nat) (slots : List Slot) (start : Nat) : Page :=
  let (entries, index) := scan worker now start (slots.drop start) []
  { worker := worker
    capacity := layout.capacity
    connections := entries
    next :=
      if layout.base worker + index < layout.capacity then some (layout.base worker + index)
      else none }

/-- `parseStart`; nothing is its `error.InvalidQuery`. -/
def parseStart (query : Bytes) (limit : Nat) : Option Nat :=
  if query = [] then some 0
  else if !(ascii "start=").isPrefixOf query then none
  else (Fmt.parseInt (query.drop 6) 10).filter (· ≤ limit)

def connectionStart (layout : Layout) (query : Bytes) : Option Nat :=
  parseStart query layout.capacity

/-- The slots of all workers at one moment, with some of them open. -/
structure Snapshot (layout : Layout) (occupied : Nat → List Bool) where
  now : Nat
  slots : Nat → List Slot
  length_eq : ∀ worker < layout.workers, (slots worker).length = layout.count worker
  occupied_eq : ∀ worker < layout.workers, (slots worker).map Slot.occupied = occupied worker

/-- The page that answers a valid request. -/
def answer {layout : Layout} {occupied : Nat → List Bool} (snapshot : Snapshot layout occupied)
    (query : Bytes) : Option Page :=
  (connectionStart layout query).map fun start =>
    let (worker, index) := layout.locate start
    connectionPage layout worker snapshot.now (snapshot.slots worker) index

/-- The query for the slots from a position on. -/
def startQuery (start : Nat) : Bytes := ascii "start=" ++ Response.digits 10 start

end Zhtps.Inspection
