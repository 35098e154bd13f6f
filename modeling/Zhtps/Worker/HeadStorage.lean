import Zhtps.Http.HeadStorage
import Zhtps.Worker.Call

/-!
Adaptive head storage: the worker reads a head into the slot's own small buffer, hands the parser no
more than that buffer holds, and leases a full-size one when it is full.  The storage check in front
of `feed` repeats the parser's own, one byte earlier.  Neither shows: the worker finds the same head,
the same boundary and the same rejection as a parser over full-size storage.
-/

namespace Zhtps.Worker

namespace Cell

/-- The rounds of `processInput`'s loop over one received window, up to the first that does not go
round again. -/
def parseHead (config : Config) (choice : Choice) : Nat → Cell → Cell × Next
  | 0, cell => (cell, .call .processInput)
  | fuel + 1, cell =>
      match cell.growHead config choice with
      | (next, .call .processInput) => parseHead config choice fuel next
      | result => result

/-- Inside the loop a started request goes straight to the round, unless admission is exhausted. -/
theorem processInput_growHead {config : Config} {choice : Choice} {index : Nat} {cell : Cell}
    (hphase : cell.connection.phase = .reading) (hstarted : cell.connection.requestStarted = true)
    (hlease : cell.connection.lease = true)
    (hadmission : cell.shared.admission.exhausted (cell.shared.draining && choice.final) = false) :
    cell.processInput config choice index = (cell, .call .parseInput) ∧
      cell.parseInput config choice index = cell.growHead config choice := by
  refine ⟨?_, ?_⟩
  · rw [processInput, Connection.acquireRequest, if_pos hlease]
    simp [hphase, hstarted, setConnection]
  · simp only [parseInput, hadmission]
    simp

/-- The slot reads a head, its parser being the small twin of a parser over full-size storage. -/
def ReadsHead (config : Config) (cell : Cell) (big : Parser) : Prop :=
  Parser.Twin (cell.connection.capacity config .head) (config.full .head) cell.connection.parser
    big ∧ cell.connection.parser.phase = .head

/-- The buffer budget admits a full-size head buffer. -/
def Grows (config : Config) (choice : Choice) (cell : Cell) : Prop :=
  (cell.lease config choice .head).2 = true

theorem ReadsHead.capacity {config : Config} {cell : Cell} {big : Parser}
    (h : cell.ReadsHead config big) :
    cell.connection.parser.headStorage.capacity = cell.connection.capacity config .head ∧
      cell.connection.capacity config .head ≤ config.full .head := by
  obtain ⟨storage, hparser, _, hsize, _, hle⟩ := h.1
  rw [hparser]
  exact ⟨hsize, hle⟩

/-- The lease of a full-size buffer: the parser moves into it and everything else stays. -/
theorem ReadsHead.grow {config : Config} {choice : Choice} {cell : Cell} {big : Parser}
    (h : cell.ReadsHead config big) (hgrows : cell.Grows config choice)
    (hsmall : cell.connection.parser.headStorage.capacity ≠ config.full .head) :
    ∃ next, cell.lease config choice .head = (next, true) ∧
      next.ReadsHead config big ∧ next.Grows config choice ∧
      next.connection.input = cell.connection.input ∧
      0 < next.connection.parser.headStorage.room := by
  obtain ⟨hcapacity, hle⟩ := h.capacity
  obtain ⟨next, block, hnext, hconnection⟩ : ∃ next block,
      cell.lease config choice .head = (next, true) ∧
        next.connection = cell.connection.useBlock config .head block := by
    unfold Grows lease ensureBuffer at hgrows
    unfold lease ensureBuffer
    dsimp only at hgrows ⊢
    rw [if_neg (by omega)] at hgrows ⊢
    split at hgrows
    · cases hgrows
    · rename_i hbudget
      rw [if_neg hbudget]
      split at hgrows
      · cases hgrows
      · exact ⟨_, _, rfl, rfl⟩
  have hfull : (cell.connection.useBlock config .head block).capacity config .head =
      config.full .head := by
    simp [Connection.capacity, Connection.useBlock, Connection.leases]
  have hlen := cell.connection.parser.headStorage.len_le_capacity
  refine ⟨next, hnext, ?_, ?_, by rw [hconnection]; rfl, ?_⟩
  · unfold ReadsHead
    rw [hconnection, hfull]
    exact ⟨h.1.grow, h.2⟩
  · unfold Grows lease ensureBuffer
    simp only [hconnection, hfull]
    rw [if_pos (Nat.le_refl _)]
  · rw [hconnection]
    show 0 < (cell.connection.parser.headStorage.grow (config.full .head) 0).room
    rw [Lib.Buffer.room, Lib.Buffer.capacity_grow (by omega), Lib.Buffer.len_grow]
    omega

/-! ### One round -/

/-- The slot after the parser has consumed part of its input. -/
def consume (cell : Cell) (parser : Parser) (count : Nat) : Cell :=
  cell.setConnection
    { cell.connection with
      parser := parser
      input := cell.connection.input.drop count
      message := cell.connection.message ++ cell.connection.input.take count }

/-- A round that feeds the parser leaves the leases and the budget alone. -/
theorem Grows.consume {config : Config} {choice : Choice} {cell : Cell}
    (h : cell.Grows config choice) (parser : Parser) (count : Nat) :
    (cell.consume parser count).Grows config choice := by
  have hcapacity : (cell.consume parser count).connection.capacity config .head =
      cell.connection.capacity config .head := rfl
  have hshared : (cell.consume parser count).shared = cell.shared := rfl
  unfold Grows lease ensureBuffer at h ⊢
  dsimp only at h ⊢
  rw [hcapacity, hshared]
  split
  · rfl
  · rename_i hsmall
    rw [if_neg hsmall] at h
    split
    · rename_i hbudget
      rw [if_pos hbudget] at h
      cases h
    · rename_i hbudget
      rw [if_neg hbudget] at h
      split
      · rename_i pool hlend
        rw [hlend] at h
        cases h
      · rfl

/-- What a round makes of the walk over the part of the input that the storage has room for. -/
def afterWalk (cell : Cell) (clip : Bytes) : Parser.Walk → Cell × Next
  | .more next =>
      (cell.consume next clip.length,
        .call (afterEvent (cell.connection.input.drop clip.length) .needInput))
  | .stop next event rest =>
      (cell.consume next (clip.length - rest.length),
        .call (afterEvent (cell.connection.input.drop (clip.length - rest.length)) event))
  | .fail next err =>
      (cell.setConnection { cell.connection with parser := { next with phase := .invalid } },
        .call (.reject (Parser.status err)))

theorem feedInput_walk {cell : Cell} (h : cell.connection.parser.phase = .head) :
    cell.feedInput =
      cell.afterWalk (cell.connection.input.take cell.connection.parser.headStorage.room)
        (Parser.walk cell.connection.parser
          (cell.connection.input.take cell.connection.parser.headStorage.room)) := by
  rw [feedInput, if_pos h, Parser.feed_walk _ h]
  cases Parser.walk cell.connection.parser
    (cell.connection.input.take cell.connection.parser.headStorage.room) with
  | more next => rfl
  | stop next event rest => rfl
  | fail next err => rfl

/-- What a round, or a loop of rounds, over the slot's input has to end with, by the walk of the
full-size parser over the same bytes. -/
def HeadResult (config : Config) : Parser.Walk → Cell × Next → Prop
  | .more big, (last, next) =>
      next = .call .queueReceive ∧ last.ReadsHead config big ∧ last.connection.input = []
  | .stop big _ rest, (last, next) =>
      next = .call .receiveHead ∧ last.connection.input = rest ∧
        last.connection.parser.headStorage.used = big.headStorage.used ∧
        last.connection.parser.request = big.request
  | .fail _ err, (last, next) =>
      next = .call (.reject (Parser.status err)) ∧
        (last.connection.parser.phase = .head ↔ err = .headersTooLarge)

/-- Another round follows, over less input. -/
def GoesRound (config : Config) (choice : Choice) (cell : Cell) (walk : Parser.Walk)
    (result : Cell × Next) : Prop :=
  ∃ next other, result = (next, .call .processInput) ∧ next.ReadsHead config other ∧
    next.Grows config choice ∧
    next.connection.input.length < cell.connection.input.length ∧
    walk = Parser.walk other next.connection.input

/-- A round that the storage has room to start: it settles the window or goes round again. -/
theorem feedInput_headResult {config : Config} {choice : Choice} {cell : Cell} {big : Parser}
    (h : cell.ReadsHead config big) (hgrows : cell.Grows config choice)
    (hroom : cell.connection.input = [] ∨ 0 < cell.connection.parser.headStorage.room) :
    HeadResult config (Parser.walk big cell.connection.input) cell.feedInput ∨
      GoesRound config choice cell (Parser.walk big cell.connection.input) cell.feedInput := by
  obtain ⟨hcapacity, _⟩ := h.capacity
  rw [feedInput_walk h.2]
  -- The part of the input that the storage has room for, and the rest.
  generalize hclip : cell.connection.input.take cell.connection.parser.headStorage.room = clip
  generalize hrest : cell.connection.input.drop cell.connection.parser.headStorage.room = rest
  have hinput : cell.connection.input = clip ++ rest := by
    rw [← hclip, ← hrest, List.take_append_drop]
  have hfits : cell.connection.parser.headStorage.len + clip.length ≤
      cell.connection.capacity config .head := by
    have hlen := cell.connection.parser.headStorage.len_le_capacity
    rw [← hclip, List.length_take, Lib.Buffer.room, hcapacity]
    omega
  have htwins := Parser.walk_twins clip h.1 h.2 hfits
  have hdrop (left taken : Bytes) (hsplit : clip = taken ++ left) :
      cell.connection.input.drop (clip.length - left.length) = left ++ rest := by
    rw [hinput, hsplit, List.length_append, Nat.add_sub_cancel, List.append_assoc, List.drop_left]
  have hwalk : Parser.walk big cell.connection.input = (Parser.walk big clip).andThen rest := by
    rw [hinput, Parser.walk_append]
  rw [hwalk]
  cases hsmall : Parser.walk cell.connection.parser clip with
  | more small =>
      rw [hsmall] at htwins
      cases hbig : Parser.walk big clip with
      | more other =>
          rw [hbig] at htwins
          have hnext : cell.connection.input.drop clip.length = rest := by
            simpa using hdrop [] clip (by simp)
          have hreads : (cell.consume small clip.length).ReadsHead config other := htwins
          rw [afterWalk, hnext, afterEvent, Parser.Walk.andThen]
          by_cases hdone : rest = []
          · left
            rw [if_pos hdone, hdone]
            exact ⟨rfl, hreads, hnext.trans hdone⟩
          · right
            refine ⟨_, other, by rw [if_neg hdone], hreads, hgrows.consume _ _, ?_, ?_⟩
            · show (cell.connection.input.drop clip.length).length < cell.connection.input.length
              have hne : cell.connection.input ≠ [] := by
                intro hnil
                rw [hnil] at hnext
                exact hdone (by simpa using hnext.symm)
              have hpos : 0 < clip.length := by
                rw [← hclip, List.length_take]
                have := List.length_pos_iff.mpr hne
                rcases hroom with hnil | hroom
                · exact absurd hnil hne
                · omega
              rw [hnext, hinput, List.length_append]
              omega
            · show Parser.walk other rest = Parser.walk other (cell.connection.input.drop clip.length)
              rw [hnext]
      | stop other event left => rw [hbig] at htwins; exact htwins.elim
      | fail other err => rw [hbig] at htwins; exact htwins.elim
  | stop small event left =>
      rw [hsmall] at htwins
      cases hbig : Parser.walk big clip with
      | more other => rw [hbig] at htwins; exact htwins.elim
      | stop other event' left' =>
          rw [hbig] at htwins
          obtain ⟨htwin, rfl, rfl⟩ := htwins
          obtain ⟨rfl, taken, hsplit⟩ := Parser.walk_stop h.2 hsmall
          obtain ⟨storage, rfl, hused, _⟩ := htwin
          left
          refine ⟨?_, hdrop left taken hsplit, hused, rfl⟩
          rw [hdrop left taken hsplit]
          rfl
      | fail other err => rw [hbig] at htwins; exact htwins.elim
  | fail small err =>
      rw [hsmall] at htwins
      cases hbig : Parser.walk big clip with
      | more other => rw [hbig] at htwins; exact htwins.elim
      | stop other event left => rw [hbig] at htwins; exact htwins.elim
      | fail other err' =>
          rw [hbig] at htwins
          obtain ⟨rfl, hnot⟩ := htwins
          left
          exact ⟨rfl, by simp [setConnection, hnot]⟩

/-- A round with the storage check and the growth in front. -/
theorem growHead_headResult {config : Config} {choice : Choice} {cell : Cell} {big : Parser}
    (h : cell.ReadsHead config big) (hgrows : cell.Grows config choice) :
    HeadResult config (Parser.walk big cell.connection.input) (cell.growHead config choice) ∨
      GoesRound config choice cell (Parser.walk big cell.connection.input)
        (cell.growHead config choice) := by
  obtain ⟨hcapacity, hle⟩ := h.capacity
  rw [growHead]
  by_cases hfull : cell.connection.parser.phase = .head ∧ cell.connection.input ≠ [] ∧
      cell.connection.parser.headStorage.room = 0
  · rw [if_pos hfull]
    obtain ⟨_, hne, hroom⟩ := hfull
    by_cases hlimit : cell.connection.parser.headStorage.capacity = config.full .head
    · rw [if_pos hlimit]
      left
      -- Both parsers are full: the one over full-size storage fails at the next byte.
      obtain ⟨storage, hparser, hused, _, hbig, _⟩ := h.1
      have hlen : big.headStorage.len = big.headStorage.capacity := by
        have hle' := cell.connection.parser.headStorage.len_le_capacity
        rw [Lib.Buffer.room] at hroom
        rw [← Parser.len_eq_of_used hused, hbig, ← hlimit]
        rw [hparser] at hroom hle' ⊢
        dsimp only at hroom hle' ⊢
        omega
      have hphase : big.phase = .head := by
        have := h.2
        rw [hparser] at this
        exact this
      cases hinput : cell.connection.input with
      | nil => exact absurd hinput hne
      | cons c rest =>
          rw [Parser.walk_full c rest hphase hlen]
          exact ⟨rfl, by simp [h.2]⟩
    · rw [if_neg hlimit]
      obtain ⟨next, hensure, hreads, hnextGrows, hinput, hnextRoom⟩ := h.grow hgrows hlimit
      rw [hensure, ← hinput]
      rcases feedInput_headResult hreads hnextGrows (.inr hnextRoom) with hdone | hround
      · exact .inl hdone
      · obtain ⟨last, other, heq, hlast, hlastGrows, hshorter, hwalk⟩ := hround
        exact .inr ⟨last, other, heq, hlast, hlastGrows, hinput ▸ hshorter, hwalk⟩
  · rw [if_neg hfull]
    refine feedInput_headResult h hgrows ?_
    by_cases hnil : cell.connection.input = []
    · exact .inl hnil
    · right
      by_contra hzero
      exact hfull ⟨h.2, hnil, by omega⟩

/-- The rounds over one window end as one call of `feed` on the full-size parser does. -/
theorem parseHead_headResult {config : Config} {choice : Choice} (fuel : Nat) {cell : Cell}
    {big : Parser} (h : cell.ReadsHead config big) (hgrows : cell.Grows config choice)
    (hfuel : cell.connection.input.length < fuel) :
    HeadResult config (Parser.walk big cell.connection.input)
      (cell.parseHead config choice fuel) := by
  induction fuel generalizing cell big with
  | zero => omega
  | succ fuel ih =>
      rw [parseHead]
      rcases growHead_headResult h hgrows with hdone | hround
      · -- No result that settles the window goes round again.
        split
        · rename_i next heq
          rw [heq] at hdone
          cases hwalk : Parser.walk big cell.connection.input with
          | more other => rw [hwalk] at hdone; cases hdone.1
          | stop other event rest => rw [hwalk] at hdone; cases hdone.1
          | fail other err => rw [hwalk] at hdone; cases hdone.1
        · exact hdone
      · obtain ⟨next, other, heq, hreads, hnextGrows, hshorter, hwalk⟩ := hround
        rw [heq, hwalk]
        exact ih hreads hnextGrows (by omega)

end Cell

/-! ### Every stream and every fragmentation -/

/-- What becomes of a request head: it is still incomplete, it was parsed and ends at this offset,
it was rejected with this status, which may be for its size, or it is given up some other way. -/
inductive HeadOutcome
  | incomplete
  | parsed (head : Bytes) (request : Request) (boundary : Nat)
  | rejected (status : Nat) (tooLarge : Bool)
  | abandoned
  deriving DecidableEq

/-- The reference: every window is handed to the parser in one call. -/
def parserOutcome (parser : Parser) : List Bytes → Nat → HeadOutcome
  | [], _ => .incomplete
  | window :: windows, offset =>
      match parser.feed window with
      | (next, .ok ⟨consumed, .head request⟩) =>
          .parsed next.headStorage.used request (offset + consumed)
      | (next, .ok ⟨consumed, .needInput⟩) => parserOutcome next windows (offset + consumed)
      | (_, .ok _) => .abandoned
      | (_, .error err) => .rejected (Parser.status err) (err == .headersTooLarge)

/-- One receive: the window, and what the other slots have made of the shared state by then. -/
structure Arrival where
  window : Bytes
  shared : Shared
  choice : Choice

/-- The slot with the window of a receive in its buffer. -/
def Cell.arrive (cell : Cell) (arrival : Arrival) : Cell :=
  { shared := arrival.shared, connection := { cell.connection with input := arrival.window } }

/-- The worker: the rounds over one window after the other, for as long as they end with the next
receive.  A rejection by the storage check in front of `feed` leaves the parser in the head, one by
`feed` leaves it invalid. -/
def workerOutcome (config : Config) (cell : Cell) : List Arrival → Nat → HeadOutcome
  | [], _ => .incomplete
  | arrival :: arrivals, offset =>
      match (cell.arrive arrival).parseHead config arrival.choice (arrival.window.length + 1) with
      | (last, .call .receiveHead) =>
          .parsed last.connection.parser.headStorage.used last.connection.parser.request
            (offset + (arrival.window.length - last.connection.input.length))
      | (last, .call (.reject status)) =>
          .rejected status (last.connection.parser.phase == .head)
      | (last, .call .queueReceive) =>
          workerOutcome config last arrivals (offset + arrival.window.length)
      | _ => .abandoned

/-- Whenever the worker starts on a window, the buffer budget admits the growth of the head storage,
unless it has grown already. -/
def Admits (config : Config) (cell : Cell) : List Arrival → Prop
  | [] => True
  | arrival :: arrivals =>
      (cell.arrive arrival).Grows config arrival.choice ∧
        Admits config
          ((cell.arrive arrival).parseHead config arrival.choice (arrival.window.length + 1)).1
          arrivals

theorem workerOutcome_parserOutcome {config : Config} (arrivals : List Arrival) {cell : Cell}
    {big : Parser} (offset : Nat) (h : cell.ReadsHead config big)
    (hadmits : Admits config cell arrivals) :
    workerOutcome config cell arrivals offset =
      parserOutcome big (arrivals.map fun arrival => arrival.window) offset := by
  induction arrivals generalizing cell big offset with
  | nil => rfl
  | cons arrival arrivals ih =>
      have hreads : (cell.arrive arrival).ReadsHead config big := h
      have hphase : big.phase = .head := by
        obtain ⟨⟨storage, hparser, _⟩, hhead⟩ := h
        rw [hparser] at hhead
        exact hhead
      have hresult : Cell.HeadResult config (Parser.walk big arrival.window)
          ((cell.arrive arrival).parseHead config arrival.choice (arrival.window.length + 1)) :=
        Cell.parseHead_headResult (arrival.window.length + 1) hreads hadmits.1 (Nat.lt_succ_self _)
      have hrest := hadmits.2
      rw [workerOutcome, List.map_cons, parserOutcome, Parser.feed_walk arrival.window hphase]
      cases hlast : (cell.arrive arrival).parseHead config arrival.choice
        (arrival.window.length + 1) with
      | mk last next =>
          rw [hlast] at hresult hrest
          cases hwalk : Parser.walk big arrival.window with
          | more other =>
              rw [hwalk] at hresult
              obtain ⟨rfl, hnext, _⟩ := hresult
              exact ih (offset + arrival.window.length) hnext hrest
          | stop other event rest =>
              rw [hwalk] at hresult
              obtain ⟨rfl, hinput, hused, hrequest⟩ := hresult
              obtain ⟨rfl, _⟩ := Parser.walk_stop hphase hwalk
              simp only [Parser.Walk.result, hinput, hused, hrequest]
          | fail other err =>
              rw [hwalk] at hresult
              obtain ⟨rfl, hlarge⟩ := hresult
              simp only [Parser.Walk.result]
              congr 1
              rw [Bool.eq_iff_iff, beq_iff_eq, beq_iff_eq]
              exact hlarge

/-- A slot starts a request on its own head buffer. -/
theorem readsHead_initParser (config : Config) (cell : Cell)
    (hlease : cell.connection.leases .head = false) :
    (cell.setConnection (cell.connection.initParser config)).ReadsHead config
      (Parser.init (List.replicate (config.full .head) 0)
        (cell.connection.smallBuffer config .trailers) config.limits) := by
  have hcapacity : (cell.connection.initParser config).capacity config .head =
      (cell.connection.smallBuffer config .head).length := by
    have hleases : (cell.connection.initParser config).leases .head = false := hlease
    have hadmin : (cell.connection.initParser config).admin = cell.connection.admin := rfl
    simp only [Connection.capacity, Connection.smallBuffer, hleases, hadmin,
      List.length_replicate, Bool.false_eq_true, or_false]
  refine ⟨⟨.ofStorage (cell.connection.smallBuffer config .head), rfl, rfl, ?_, ?_, ?_⟩, rfl⟩
  · exact hcapacity.symm
  · simp [Parser.init]
  · show (cell.connection.initParser config).capacity config .head ≤ config.full .head
    rw [hcapacity, Connection.smallBuffer, List.length_replicate]
    split
    · exact Nat.le_refl _
    · exact Nat.min_le_left _ _

/-- **Adaptive head storage is transparent.**  From the start of a request on the slot's own head
buffer, for every byte stream and every way of cutting it into receives, and whatever the other slots
do in between: if the buffer budget admits the growth when it is needed, the worker finds the same
head, ending at the same offset, or the same rejection, as a parser that is handed the same windows
and has full-size head storage from the start.  In particular the worker rejects a head for its size
exactly when that parser does. -/
theorem head_storage_transparent (config : Config) (cell : Cell) (arrivals : List Arrival)
    (hlease : cell.connection.leases .head = false)
    (hadmits : Admits config (cell.setConnection (cell.connection.initParser config)) arrivals) :
    workerOutcome config (cell.setConnection (cell.connection.initParser config)) arrivals 0 =
      parserOutcome (Parser.init (List.replicate (config.full .head) 0)
        (cell.connection.smallBuffer config .trailers) config.limits)
        (arrivals.map fun arrival => arrival.window) 0 :=
  workerOutcome_parserOutcome arrivals 0 (readsHead_initParser config cell hlease) hadmits

/-- A slot whose own head buffer holds 16 of 64 bytes. -/
def sampleConfig : Config :=
  { limits := {}, full := fun _ => 64, small := fun _ => 16, largeBufferBytes := 64,
    maxBodyBytes := 0, maxRequestsPerConnection := 1, batches := 0 }

def sampleShared : Shared :=
  { admission := Admission.init {} 0, buffers := { pools := fun _ => { size := 64 } } }

/-- A head of 28 bytes in two receives, the second with a pipelined byte behind it. -/
def sampleArrivals : List Arrival :=
  [⟨ascii "GET / HTTP/1.1\r\nHos", sampleShared, {}⟩, ⟨ascii "t: a\r\n\r\nX", sampleShared, {}⟩]

def sampleCell : Cell :=
  { shared := sampleShared
    connection := { parser := .init [] [] {} } }

/-- The head outgrows the small buffer, is moved, and ends in front of the pipelined byte. -/
theorem head_storage_transparent_grown :
    workerOutcome sampleConfig
        (sampleCell.setConnection (sampleCell.connection.initParser sampleConfig)) sampleArrivals 0 =
      parserOutcome (Parser.init (List.replicate 64 0) (List.replicate 16 0) {})
        (sampleArrivals.map fun arrival => arrival.window) 0 :=
  head_storage_transparent sampleConfig sampleCell sampleArrivals (by decide)
    ⟨by unfold Cell.Grows; decide +kernel, by unfold Cell.Grows; decide +kernel, trivial⟩

end Zhtps.Worker
