import Zhtps.Http.Fragmentation

/-!
Head storage of two sizes.

While a head is being read, `feed` is a walk over single bytes that stops at the first event
(`feed_walk`).  Two parsers that hold the same bytes in storage of different sizes walk alike as long
as the smaller one has room, so a head storage may start small and grow when it is full.
-/

namespace Zhtps

open Lib

namespace Parser

/-- Where a walk over the bytes of a head ends: at the end of the bytes, at an event in front of the
rest of them, or at an error. -/
inductive Walk
  | more (parser : Parser)
  | stop (parser : Parser) (event : Event) (rest : Bytes)
  | fail (parser : Parser) (err : Error)

/-- Byte by byte up to the first event. -/
def walk (parser : Parser) : Bytes → Walk
  | [] => .more parser
  | c :: rest =>
      match advance parser c with
      | .go next => walk next rest
      | .emit next event => .stop next event rest
      | .fail next err => .fail next err

/-- The walk goes on behind the bytes of a first one. -/
def Walk.andThen (rest : Bytes) : Walk → Walk
  | .more parser => walk parser rest
  | .stop parser event left => .stop parser event (left ++ rest)
  | .fail parser err => .fail parser err

theorem walk_append (parser : Parser) (xs ys : Bytes) :
    walk parser (xs ++ ys) = (walk parser xs).andThen ys := by
  induction xs generalizing parser with
  | nil => rfl
  | cons c xs ih =>
      rw [List.cons_append, walk, walk]
      cases advance parser c with
      | go next => exact ih next
      | emit next event => rfl
      | fail next err => rfl

/-- What a turn of the loop, or the whole loop, has walked over. -/
def Turn.Walked (parser : Parser) (input : Bytes) : Turn → Prop
  | .again next rest =>
      next.phase = .head ∧ rest.length < input.length ∧ walk parser input = walk next rest
  | .done next rest .needInput => rest = [] ∧ next.phase = .head ∧ walk parser input = .more next
  | .done next rest event => walk parser input = .stop next event rest
  | .fail next err => walk parser input = .fail next err

/-- A head byte leaves the parser in the head, or ends it with the request it has parsed. -/
def Outcome.StaysInHead : Outcome → Prop
  | .go next => next.phase = .head
  | .emit next event => event = .head next.request
  | .fail _ _ => True

theorem finishHead_staysInHead (parser : Parser) : (finishHead parser).StaysInHead := by
  unfold finishHead
  split
  · trivial
  · dsimp only
    split
    · simp [Outcome.StaysInHead]
    · split
      · trivial
      · simp [Outcome.StaysInHead]

theorem storeHeadByte_staysInHead {parser : Parser} (c : UInt8) (h : parser.phase = .head) :
    (storeHeadByte parser c).StaysInHead := by
  unfold storeHeadByte
  dsimp only
  split
  · trivial
  · split
    · simpa [Outcome.StaysInHead] using h
    · unfold endHeadLine
      dsimp only
      split
      · split
        · trivial
        · simpa [Outcome.StaysInHead] using h
      · split
        · exact finishHead_staysInHead _
        · simpa [Outcome.StaysInHead] using h

theorem advance_head {parser : Parser} (c : UInt8) (h : parser.phase = .head) :
    advance parser c =
      match headCheck parser c with
      | some err => .fail parser err
      | none => storeHeadByte parser c := by
  cases hcheck : headCheck parser c <;> simp only [advance, h, hcheck]

theorem advance_staysInHead {parser : Parser} (c : UInt8) (h : parser.phase = .head) :
    (advance parser c).StaysInHead := by
  rw [advance_head c h]
  split
  · trivial
  · exact storeHeadByte_staysInHead c h

theorem Outcome.turn_walked {parser : Parser} (c : UInt8) (rest : Bytes)
    (h : parser.phase = .head) : ((advance parser c).turn rest).Walked parser (c :: rest) := by
  have hstays := advance_staysInHead c h
  cases hadvance : advance parser c with
  | go next =>
      rw [hadvance] at hstays
      exact ⟨hstays, by simp, by rw [walk, hadvance]⟩
  | emit next event =>
      rw [hadvance] at hstays
      obtain rfl : event = .head next.request := hstays
      show walk parser (c :: rest) = .stop next (.head next.request) rest
      rw [walk, hadvance]
  | fail next err =>
      show walk parser (c :: rest) = .fail next err
      rw [walk, hadvance]

/-- A block is a walk over its bytes. -/
theorem walk_block {parser : Parser} (xs tail : Bytes) (hphase : parser.phase = .head)
    (hline : parser.firstLine = false)
    (hroom : parser.headStorage.len + xs.length ≤ parser.headStorage.capacity)
    (hlast : parser.headStorage.last? ≠ some Ascii.cr) (hxs : ∀ c ∈ xs, isDelimiter c = false) :
    walk parser (xs ++ tail) =
      walk { parser with headStorage := parser.headStorage.append xs } tail := by
  induction xs generalizing parser with
  | nil => simp
  | cons c xs ih =>
      rw [List.length_cons] at hroom
      have hc : isDelimiter c = false := hxs c (by simp)
      have hlt : parser.headStorage.len < parser.headStorage.capacity := by omega
      have hcr : c ≠ Ascii.cr := by
        rintro rfl
        simp [isDelimiter] at hc
      rw [List.cons_append, walk, advance_plain hphase hline hlt hlast hc]
      dsimp only
      rw [ih]
      · rw [Buffer.append_cons]
      · exact hphase
      · exact hline
      · simp only [Buffer.len_push, Buffer.capacity_push c hlt]
        omega
      · simpa [Buffer.last?_push] using hcr
      · intro x hx
        exact hxs x (by simp [hx])

theorem copyBlock_walked {parser : Parser} {width : Nat} {c : UInt8} {rest : Bytes}
    (hphase : parser.phase = .head) (hline : parser.firstLine = false)
    (hw : 0 < width) (hroom : width ≤ parser.headStorage.room)
    (hlast : parser.headStorage.last? ≠ some Ascii.cr) (hc : isDelimiter c = false) :
    (copyBlock parser width (c :: rest)).Walked parser (c :: rest) := by
  have hpos := blockLength_pos rest hw hc
  obtain ⟨hle, hplain⟩ := blockLength_plain width (c :: rest)
  have hlen := parser.headStorage.len_le_capacity
  refine ⟨hphase, by rw [List.length_drop, List.length_cons]; omega, ?_⟩
  conv => lhs; rw [← List.take_append_drop (blockLength width (c :: rest)) (c :: rest)]
  refine walk_block _ _ hphase hline ?_ hlast hplain
  simp only [List.length_take, Buffer.room] at hroom ⊢
  omega

theorem headTurn_walked {parser : Parser} (c : UInt8) (rest : Bytes)
    (hphase : parser.phase = .head) : (headTurn parser c rest).Walked parser (c :: rest) := by
  have hscalar := Outcome.turn_walked c rest hphase
  rw [advance_head c hphase] at hscalar
  unfold headTurn
  cases hcheck : headCheck parser c with
  | some err =>
      rw [hcheck] at hscalar
      exact hscalar
  | none =>
      rw [hcheck] at hscalar
      dsimp only at hscalar ⊢
      by_cases hplain : (!parser.firstLine && !isDelimiter c) = true
      · rw [if_pos hplain]
        obtain ⟨hline, hc, hlast⟩ := headCheck_plain hcheck hplain
        split
        · exact copyBlock_walked hphase hline (by omega) (by omega) hlast hc
        · split
          · exact copyBlock_walked hphase hline (by omega) (by omega) hlast hc
          · exact hscalar
      · rw [if_neg hplain]
        exact hscalar

theorem turn_walked {parser : Parser} (input : Bytes) (h : parser.phase = .head) :
    (turn parser input).Walked parser input := by
  rw [turn, h]
  cases input with
  | nil => exact ⟨rfl, h, rfl⟩
  | cons c rest => exact headTurn_walked c rest h

/-- The loop walks, and is left within as many turns as there is input. -/
theorem loop_walked (fuel : Nat) {parser : Parser} (input : Bytes) (h : parser.phase = .head)
    (hfuel : input.length ≤ fuel) :
    (loop fuel parser input).Walked parser input ∧
      ∀ next rest, loop fuel parser input ≠ .again next rest := by
  induction fuel generalizing parser input with
  | zero =>
      have hwalked := turn_walked input h
      refine ⟨hwalked, fun next rest hagain => ?_⟩
      rw [show parser.turn input = .again next rest from hagain] at hwalked
      have := hwalked.2.1
      omega
  | succ fuel ih =>
      have hwalked := turn_walked input h
      rw [loop]
      cases hturn : turn parser input with
      | again next rest =>
          rw [hturn] at hwalked
          obtain ⟨hnext, hshorter, hwalk⟩ := hwalked
          obtain ⟨hrest, hstop⟩ := ih rest hnext (by omega)
          refine ⟨?_, hstop⟩
          dsimp only
          cases hloop : loop fuel next rest with
          | again last left => exact absurd hloop (hstop last left)
          | done last left event =>
              rw [hloop] at hrest
              cases event with
              | needInput => exact ⟨hrest.1, hrest.2.1, hwalk.trans hrest.2.2⟩
              | head request => exact hwalk.trans hrest
              | body bytes => exact hwalk.trans hrest
              | trailer field => exact hwalk.trans hrest
              | «end» => exact hwalk.trans hrest
          | fail last err =>
              rw [hloop] at hrest
              exact hwalk.trans hrest
      | done next rest event =>
          rw [hturn] at hwalked
          exact ⟨hwalked, by simp⟩
      | fail next err =>
          rw [hturn] at hwalked
          exact ⟨hwalked, by simp⟩

/-- A walk through a head stops with the request, in front of a suffix of the bytes. -/
theorem walk_stop {parser next : Parser} {event : Event} {xs rest : Bytes}
    (h : parser.phase = .head) (hwalk : walk parser xs = .stop next event rest) :
    event = .head next.request ∧ ∃ taken, xs = taken ++ rest := by
  induction xs generalizing parser with
  | nil => cases hwalk
  | cons c xs ih =>
      have hstays := advance_staysInHead c h
      rw [walk] at hwalk
      cases hadvance : advance parser c with
      | go other =>
          rw [hadvance] at hstays hwalk
          obtain ⟨hevent, taken, rfl⟩ := ih hstays hwalk
          exact ⟨hevent, c :: taken, rfl⟩
      | emit other last =>
          rw [hadvance] at hstays hwalk
          cases hwalk
          exact ⟨hstays, [c], rfl⟩
      | fail other err =>
          rw [hadvance] at hwalk
          cases hwalk

/-- What a call of `feed` makes of a walk over its input. -/
def Walk.result (input : Bytes) : Walk → Parser × Except Error Step
  | .more next => (next, .ok ⟨input.length, .needInput⟩)
  | .stop next event rest => (next, .ok ⟨input.length - rest.length, event⟩)
  | .fail next err => ({ next with phase := .invalid }, .error err)

/-- While a head is being read, a call is a walk over its input. -/
theorem feed_walk {parser : Parser} (input : Bytes) (h : parser.phase = .head) :
    parser.feed input = (walk parser input).result input := by
  obtain ⟨hwalked, hstop⟩ := loop_walked input.length input h (Nat.le_refl _)
  unfold feed
  cases hloop : loop input.length parser input with
  | again next rest => exact absurd hloop (hstop next rest)
  | done next rest event =>
      rw [hloop] at hwalked
      cases event with
      | needInput =>
          obtain ⟨rfl, _, hwalk⟩ := hwalked
          rw [hwalk]
          rfl
      | head request => rw [show walk parser input = _ from hwalked]; rfl
      | body bytes => rw [show walk parser input = _ from hwalked]; rfl
      | trailer field => rw [show walk parser input = _ from hwalked]; rfl
      | «end» => rw [show walk parser input = _ from hwalked]; rfl
  | fail next err =>
      rw [hloop] at hwalked
      rw [show walk parser input = _ from hwalked]
      rfl

/-! ### Errors of a complete head -/

/-- An error that `Request.parse` can return: its error set has no `HeadersTooLarge`, which the
parser alone raises. -/
def Reported {α : Type} (result : Except Error α) : Prop :=
  ∀ err, result = .error err → err ≠ .headersTooLarge

theorem reported_ok {α : Type} (value : α) : Reported (.ok value : Except Error α) := by
  intro err h
  cases h

theorem reported_error {α : Type} {err : Error} (h : err ≠ .headersTooLarge) :
    Reported (.error err : Except Error α) := by
  intro other hother
  cases hother
  exact h

theorem reported_foldlM {α β : Type} (f : β → α → Except Error β) (h : ∀ b a, Reported (f b a))
    (xs : List α) (b : β) : Reported (xs.foldlM f b) := by
  induction xs generalizing b with
  | nil => exact reported_ok b
  | cons x xs ih =>
      rw [List.foldlM_cons]
      intro err herr
      cases hx : f b x with
      | error other =>
          rw [hx] at herr
          have hother : other = err := Except.error.inj herr
          exact hother ▸ h b x other hx
      | ok next =>
          rw [hx] at herr
          exact ih next err herr

theorem parseHeader_reported (line : Bytes) : Reported (Request.parseHeader line) := by
  unfold Request.parseHeader
  split
  · exact reported_error (by simp)
  · dsimp only
    split
    · exact reported_error (by simp)
    · exact reported_ok _

theorem parseTarget_reported (request : Request) : Reported (Request.parseTarget request) := by
  unfold Request.parseTarget
  dsimp only
  split
  · exact reported_error (by simp)
  · split
    · split
      · exact reported_error (by simp)
      · exact reported_ok _
    · split
      · split
        · exact reported_error (by simp)
        · exact reported_ok _
      · split
        · split
          · exact reported_error (by simp)
          · exact reported_ok _
        · split
          · exact reported_error (by simp)
          · split
            · exact reported_error (by simp)
            · split
              · exact reported_error (by simp)
              · split
                · exact reported_error (by simp)
                · exact reported_ok _

theorem parseParameters_reported (isChunked : Bool) (fuel : Nat) (rest : Bytes) :
    Reported (Request.parseParameters isChunked fuel rest) := by
  induction fuel generalizing rest with
  | zero => exact reported_ok _
  | succ fuel ih =>
      rw [Request.parseParameters.eq_def]
      dsimp only
      split
      · split
        · exact reported_error (by simp)
        · split
          · exact reported_error (by simp)
          · split
            · split
              · exact reported_error (by simp)
              · exact ih _
            · exact reported_error (by simp)
      · exact reported_ok _

theorem parseTransferLoop_reported (fuel : Nat) (rest : Bytes) (codings : Request.Codings) :
    Reported (Request.parseTransferLoop fuel rest codings) := by
  induction fuel generalizing rest codings with
  | zero => exact reported_ok _
  | succ fuel ih =>
      rw [Request.parseTransferLoop.eq_def]
      dsimp only
      split
      · exact reported_ok _
      · split
        · exact ih _ _
        · split
          · exact reported_error (by simp)
          · split
            · exact reported_error (by simp)
            · split
              · rename_i err herr
                exact reported_error (parseParameters_reported _ _ _ err herr)
              · split
                · exact reported_ok _
                · split
                  · exact reported_error (by simp)
                  · exact ih _ _

theorem addField_reported (fields : Request.Fields) (header : Header) :
    Reported (Request.addField fields header) := by
  unfold Request.addField
  dsimp only
  split
  · split
    · exact reported_error (by simp)
    · split
      · exact reported_error (by simp)
      · exact reported_ok _
  · split
    · split
      · exact reported_error (by simp)
      · split
        · exact reported_error (by simp)
        · split
          · exact reported_error (by simp)
          · split
            · exact reported_error (by simp)
            · exact reported_ok _
    · split
      · split
        · exact reported_error (by simp)
        · split
          · rename_i err herr
            exact reported_error (parseTransferLoop_reported _ _ _ err herr)
          · exact reported_ok _
      · split
        · refine reported_foldlM _ (fun fields part => ?_) _ _
          dsimp only
          split
          · exact reported_ok _
          · split
            · exact reported_error (by simp)
            · exact reported_ok _
        · split
          · split
            · rename_i err herr
              refine reported_error (reported_foldlM _ (fun seen part => ?_) _ _ err herr)
              dsimp only
              split
              · exact reported_ok _
              · split
                · exact reported_error (by simp)
                · exact reported_ok _
            · exact reported_ok _
          · exact reported_ok _

theorem parseFields_reported (slots : Nat) (fields : Request.Fields) (lines : List Bytes) :
    Reported (Request.parseFields slots fields lines) := by
  induction lines generalizing fields with
  | nil => exact reported_error (by simp)
  | cons line lines ih =>
      rw [Request.parseFields]
      split
      · exact reported_ok _
      · split
        · exact reported_error (by simp)
        · split
          · rename_i err herr
            exact reported_error (parseHeader_reported _ err herr)
          · split
            · rename_i err herr
              exact reported_error (addField_reported _ _ err herr)
            · exact ih _

theorem parseRequestLine_reported (first : Bytes) :
    Reported (Request.parseRequestLine first) := by
  unfold Request.parseRequestLine
  split
  · exact reported_error (by simp)
  · dsimp only
    split
    · exact reported_error (by simp)
    · split
      · exact reported_error (by simp)
      · split
        · exact reported_error (by simp)
        · split
          · exact reported_error (by simp)
          · exact reported_ok _

theorem conclude_reported (fields : Request.Fields) : Reported (Request.conclude fields) := by
  unfold Request.conclude
  dsimp only
  split
  · exact reported_error (by simp)
  · split
    · exact reported_error (by simp)
    · split
      · exact reported_error (by simp)
      · split
        · exact reported_error (by simp)
        · exact reported_ok _

theorem parse_reported (bytes : Bytes) (slots : Nat) : Reported (Request.parse bytes slots) := by
  unfold Request.parse
  split
  · exact reported_error (by simp)
  · split
    · rename_i err herr
      exact reported_error (parseRequestLine_reported _ err herr)
    · split
      · rename_i err herr
        exact reported_error (parseTarget_reported _ err herr)
      · split
        · rename_i err herr
          exact reported_error (parseFields_reported _ _ _ err herr)
        · exact conclude_reported _

/-! ### Two sizes of storage -/

/-- The small parser has head storage of one size and agrees with the big one, whose storage is at
least as large, in everything but the cells behind the head. -/
def Twin (size full : Nat) (small big : Parser) : Prop :=
  ∃ storage : Buffer UInt8, small = { big with headStorage := storage } ∧
    storage.used = big.headStorage.used ∧ storage.capacity = size ∧
    big.headStorage.capacity = full ∧ size ≤ full

theorem len_eq_of_used {storage other : Buffer UInt8} (h : storage.used = other.used) :
    storage.len = other.len := by
  rw [← Buffer.used_length, h, Buffer.used_length]

/-- Outcomes of the twins on one byte. -/
def Outcome.Twins (size full : Nat) : Outcome → Outcome → Prop
  | .go small, .go big => Twin size full small big
  | .emit small event, .emit big event' => Twin size full small big ∧ event = event'
  | .fail _ err, .fail _ err' => err = err' ∧ err ≠ .headersTooLarge
  | _, _ => False

theorem finishHead_twins {size full : Nat} {small big : Parser} (h : Twin size full small big) :
    (finishHead small).Twins size full (finishHead big) := by
  obtain ⟨storage, rfl, hused, hcapacity⟩ := h
  unfold finishHead
  dsimp only
  rw [hused]
  cases hparse : Request.parse big.headStorage.used big.limits.maxHeaderCount with
  | error err => exact ⟨rfl, parse_reported _ _ err hparse⟩
  | ok request =>
      dsimp only
      split
      · exact ⟨⟨storage, rfl, hused, hcapacity⟩, rfl⟩
      · split
        · exact ⟨rfl, by simp⟩
        · exact ⟨⟨storage, rfl, hused, hcapacity⟩, rfl⟩

theorem endHeadLine_twins {size full : Nat} {small big : Parser} (h : Twin size full small big) :
    (endHeadLine small).Twins size full (endHeadLine big) := by
  obtain ⟨storage, rfl, hused, hcapacity⟩ := h
  unfold endHeadLine
  dsimp only
  rw [hused, len_eq_of_used hused]
  split
  · split
    · exact ⟨rfl, by simp⟩
    · exact ⟨storage.clear, rfl, rfl, hcapacity⟩
  · split
    · exact finishHead_twins ⟨storage, rfl, hused, hcapacity⟩
    · exact ⟨storage, rfl, hused, hcapacity⟩

/-- Counting on the first line does not look at the storage. -/
theorem countTarget_headStorage (parser : Parser) (storage : Buffer UInt8) (c : UInt8) :
    countTarget { parser with headStorage := storage } c =
      { countTarget parser c with headStorage := storage } := by
  unfold countTarget inTarget
  dsimp only
  split
  · rfl
  · split <;> rfl

/-- While the smaller storage has room, one byte does the same to both. -/
theorem advance_twins {size full : Nat} {small big : Parser} (c : UInt8) (h : Twin size full small big)
    (hphase : small.phase = .head) (hroom : small.headStorage.len < size) :
    (advance small c).Twins size full (advance big c) := by
  obtain ⟨storage, rfl, hused, rfl, rfl, hle⟩ := h
  dsimp only at hphase hroom
  have hlen := len_eq_of_used hused
  have hbig : big.headStorage.len < big.headStorage.capacity := by omega
  have hlast : storage.last? = big.headStorage.last? := by
    rw [Buffer.last?_eq, Buffer.last?_eq, hused]
  have hcheck : headCheck { big with headStorage := storage } c = headCheck big c := by
    simp only [headCheck, Nat.ne_of_lt hroom, Nat.ne_of_lt hbig, if_false, hlast]
  rw [advance_head c hphase, advance_head c (by exact hphase), hcheck]
  cases hbigCheck : headCheck big c with
  | some err =>
      refine ⟨rfl, ?_⟩
      rintro rfl
      simp only [headCheck, Nat.ne_of_lt hbig, if_false] at hbigCheck
      split at hbigCheck
      · cases hbigCheck
      · split at hbigCheck <;> cases hbigCheck
  | none =>
      have hstored : Twin storage.capacity big.headStorage.capacity
          { countTarget big c with headStorage := storage.push c }
          { countTarget big c with headStorage := big.headStorage.push c } :=
        ⟨storage.push c, rfl, by rw [Buffer.used_push, Buffer.used_push, hused],
          Buffer.capacity_push c hroom, Buffer.capacity_push c hbig, hle⟩
      have htarget : inTarget { big with headStorage := storage } c = inTarget big c := rfl
      dsimp only
      unfold storeHeadByte
      simp only [countTarget_headStorage, htarget]
      split
      · exact ⟨rfl, by simp⟩
      · split
        · exact hstored
        · exact endHeadLine_twins hstored

/-- Walks of the twins. -/
def Walk.Twins (size full : Nat) : Walk → Walk → Prop
  | .more small, .more big => Twin size full small big ∧ small.phase = .head
  | .stop small event rest, .stop big event' rest' =>
      Twin size full small big ∧ event = event' ∧ rest = rest'
  | .fail _ err, .fail _ err' => err = err' ∧ err ≠ .headersTooLarge
  | _, _ => False

theorem advance_len {parser next : Parser} {c : UInt8} (hphase : parser.phase = .head)
    (h : advance parser c = .go next) :
    next.headStorage.len ≤ parser.headStorage.len + 1 := by
  have hpush := Buffer.len_push parser.headStorage c
  rw [advance_head c hphase] at h
  split at h
  · cases h
  · unfold storeHeadByte at h
    simp only [countTarget_headStorage] at h
    split at h
    · cases h
    · split at h
      · cases h
        exact Nat.le_of_eq hpush
      · unfold endHeadLine at h
        dsimp only at h
        split at h
        · split at h
          · cases h
          · cases h
            exact Nat.zero_le _
        · split at h
          · unfold finishHead at h
            dsimp only at h
            split at h
            · cases h
            · split at h
              · cases h
              · split at h <;> cases h
          · cases h
            exact Nat.le_of_eq hpush

/-- As long as the bytes fit the smaller storage, the twins walk alike. -/
theorem walk_twins {size full : Nat} {small big : Parser} (xs : Bytes) (h : Twin size full small big)
    (hphase : small.phase = .head) (hroom : small.headStorage.len + xs.length ≤ size) :
    (walk small xs).Twins size full (walk big xs) := by
  induction xs generalizing small big with
  | nil => exact ⟨h, hphase⟩
  | cons c xs ih =>
      rw [List.length_cons] at hroom
      have hcapacity : small.headStorage.capacity = size := by
        obtain ⟨storage, rfl, _, hsize, _⟩ := h
        exact hsize
      have htwins := advance_twins c h hphase (by omega)
      have hstays := advance_staysInHead c hphase
      rw [walk, walk]
      cases hsmall : advance small c with
      | go next =>
          rw [hsmall] at htwins hstays
          have hlen := advance_len hphase hsmall
          cases hbig : advance big c with
          | go other =>
              rw [hbig] at htwins
              exact ih htwins hstays (by omega)
          | emit other event => rw [hbig] at htwins; exact htwins.elim
          | fail other err => rw [hbig] at htwins; exact htwins.elim
      | emit next event =>
          rw [hsmall] at htwins
          cases hbig : advance big c with
          | go other => rw [hbig] at htwins; exact htwins.elim
          | emit other event =>
              rw [hbig] at htwins
              exact ⟨htwins.1, htwins.2, rfl⟩
          | fail other err => rw [hbig] at htwins; exact htwins.elim
      | fail next err =>
          rw [hsmall] at htwins
          cases hbig : advance big c with
          | go other => rw [hbig] at htwins; exact htwins.elim
          | emit other event => rw [hbig] at htwins; exact htwins.elim
          | fail other err =>
              rw [hbig] at htwins
              exact htwins

/-- A head that fills its storage is too large as soon as another byte follows. -/
theorem walk_full {parser : Parser} (c : UInt8) (rest : Bytes) (hphase : parser.phase = .head)
    (hfull : parser.headStorage.len = parser.headStorage.capacity) :
    walk parser (c :: rest) = .fail parser .headersTooLarge := by
  rw [walk, advance_head c hphase, headCheck, if_pos hfull]

/-- Growing the smaller storage to the size of the larger one. -/
theorem Twin.grow {size full : Nat} {small big : Parser} (h : Twin size full small big) :
    Twin full full { small with headStorage := small.headStorage.grow full 0 } big := by
  obtain ⟨storage, rfl, hused, rfl, hfull, hle⟩ := h
  have hlen := storage.len_le_capacity
  exact ⟨storage.grow full 0, rfl, by rw [Buffer.used_grow, hused],
    Buffer.capacity_grow (by omega), hfull, Nat.le_refl _⟩

end Parser

end Zhtps
