import Mathlib.Data.List.Basic
import Mathlib.Tactic.SplitIfs
import Zhtps.Http.Syntax

/-!
The limit on the nesting of JSON texts, after `src/endpoint/json.zig`.

A text is checked byte by byte before it is parsed, and while it is written, so that neither the
parser nor the serializer meets more open containers than its stack holds.
-/

namespace Zhtps.Json

def maxDepth : Nat := 128

def quote : UInt8 := 0x22

def backslash : UInt8 := 0x5c

def isOpener (byte : UInt8) : Bool := byte == 0x7b || byte == 0x5b

def isCloser (byte : UInt8) : Bool := byte == 0x7d || byte == 0x5d

inductive WriteError
  | outOfMemory
  | jsonTooDeep
  deriving DecidableEq, Repr

structure Nesting where
  depth : Nat := 0
  inString : Bool := false
  escaped : Bool := false
  deriving DecidableEq, Repr

/-- One byte; none where a container would be one too many. -/
def Nesting.consumeByte (nesting : Nesting) (byte : UInt8) : Option Nesting :=
  if nesting.inString then
    if nesting.escaped then some { nesting with escaped := false }
    else if byte = backslash then some { nesting with escaped := true }
    else if byte = quote then some { nesting with inString := false }
    else some nesting
  else if byte = quote then some { nesting with inString := true }
  else if isOpener byte then
    if nesting.depth = maxDepth then none else some { nesting with depth := nesting.depth + 1 }
  else if isCloser byte then some { nesting with depth := nesting.depth - 1 }
  else some nesting

def Nesting.consume (nesting : Nesting) (bytes : Bytes) : Option Nesting :=
  bytes.foldlM consumeByte nesting

def checkDepth (bytes : Bytes) : Except WriteError Unit :=
  match Nesting.consume {} bytes with
  | none => .error .jsonTooDeep
  | some _ => .ok ()

/-! ### What is checked -/

mutual

/-- The bytes of a text that stand outside strings. -/
def outside : Bytes → Bytes
  | [] => []
  | byte :: rest => if byte = quote then inside rest else byte :: outside rest

/-- The same behind the quote that opens a string. -/
def inside : Bytes → Bytes
  | [] => []
  | byte :: rest =>
      if byte = backslash then escape rest
      else if byte = quote then outside rest
      else inside rest

/-- The same behind the backslash that escapes a byte. -/
def escape : Bytes → Bytes
  | [] => []
  | _ :: rest => inside rest

end

/-- The open containers after some more bytes; a closer without one closes nothing. -/
def opened (depth : Nat) (bytes : Bytes) : Nat :=
  bytes.foldl (fun depth byte =>
    if isOpener byte then depth + 1 else if isCloser byte then depth - 1 else depth) depth

/-- The structure that a state sees in what follows. -/
def Nesting.sees (nesting : Nesting) (bytes : Bytes) : Bytes :=
  if nesting.inString then if nesting.escaped then escape bytes else inside bytes
  else outside bytes

@[simp] theorem Nesting.sees_nil (nesting : Nesting) : nesting.sees [] = [] := by
  rw [sees]
  split_ifs
  · rw [escape]
  · rw [inside]
  · rw [outside]

/-- A byte is escaped only within a string. -/
def Nesting.Valid (nesting : Nesting) : Prop :=
  nesting.depth ≤ maxDepth ∧ (nesting.escaped = true → nesting.inString = true)

/-- Where a byte is taken, the structure behind it is seen from the state it leaves. -/
theorem Nesting.consumeByte_some {nesting next : Nesting} {byte : UInt8} (hvalid : nesting.Valid)
    (h : nesting.consumeByte byte = some next) :
    next.Valid ∧ ∀ rest, opened nesting.depth (nesting.sees (byte :: rest)) =
      opened next.depth (next.sees rest) := by
  obtain ⟨depth, inString, escaped⟩ := nesting
  obtain ⟨hdepth, hescaped⟩ := hvalid
  unfold consumeByte at h
  cases inString with
  | true =>
      cases escaped with
      | true =>
          obtain rfl := Option.some.inj h
          exact ⟨⟨hdepth, nofun⟩, fun rest => by simp [sees, escape]⟩
      | false =>
          simp only [if_true, Bool.false_eq_true, if_false] at h
          split_ifs at h with hbackslash hquote
          · obtain rfl := Option.some.inj h
            exact ⟨⟨hdepth, fun _ => rfl⟩, fun rest => by simp [sees, inside, hbackslash]⟩
          · obtain rfl := Option.some.inj h
            have hne : quote ≠ backslash := by decide
            exact ⟨⟨hdepth, nofun⟩, fun rest => by simp [sees, inside, hquote, hne]⟩
          · obtain rfl := Option.some.inj h
            exact ⟨⟨hdepth, nofun⟩, fun rest => by simp [sees, inside, hbackslash, hquote]⟩
  | false =>
      obtain rfl : escaped = false := by
        rw [← Bool.not_eq_true]
        exact fun htrue => by cases hescaped htrue
      simp only [Bool.false_eq_true, if_false] at h
      split_ifs at h with hquote hopener hfull hcloser
      · obtain rfl := Option.some.inj h
        exact ⟨⟨hdepth, nofun⟩, fun rest => by simp [sees, outside, hquote]⟩
      · obtain rfl := Option.some.inj h
        refine ⟨⟨Nat.lt_of_le_of_ne hdepth hfull, nofun⟩, fun rest => ?_⟩
        simp [sees, outside, hquote, opened, hopener]
      · obtain rfl := Option.some.inj h
        refine ⟨⟨Nat.le_trans (Nat.sub_le _ _) hdepth, nofun⟩, fun rest => ?_⟩
        simp [sees, outside, hquote, opened, hopener, hcloser]
      · obtain rfl := Option.some.inj h
        exact ⟨⟨hdepth, nofun⟩, fun rest => by simp [sees, outside, hquote, opened, hopener, hcloser]⟩

/-- A byte is refused when it would open one container more than there may be. -/
theorem Nesting.consumeByte_none {nesting : Nesting} {byte : UInt8}
    (h : nesting.consumeByte byte = none) :
    opened nesting.depth (nesting.sees [byte]) = maxDepth + 1 := by
  unfold consumeByte at h
  split_ifs at h with hstring hescaped hbackslash hquote hquote hopener hfull hcloser
  simp [sees, hstring, outside, hquote, opened, hopener, hfull]

/-- A text is refused exactly when the containers open after some beginning of it are too many. -/
theorem Nesting.consume_none {nesting : Nesting} (hvalid : nesting.Valid) (bytes : Bytes) :
    nesting.consume bytes = none ↔
      ∃ head, head <+: bytes ∧ maxDepth < opened nesting.depth (nesting.sees head) := by
  induction bytes generalizing nesting with
  | nil =>
      rw [consume, List.foldlM_nil]
      refine ⟨nofun, ?_⟩
      rintro ⟨head, hhead, hdeep⟩
      rw [List.prefix_nil.mp hhead, sees_nil] at hdeep
      exact absurd hdeep (Nat.not_lt.mpr hvalid.1)
  | cons byte bytes ih =>
      rw [consume, List.foldlM_cons]
      cases hbyte : nesting.consumeByte byte with
      | none =>
          refine ⟨fun _ => ⟨[byte], ⟨bytes, rfl⟩, ?_⟩, fun _ => rfl⟩
          rw [consumeByte_none hbyte]
          exact Nat.lt_succ_self _
      | some next =>
          obtain ⟨hnext, hsees⟩ := consumeByte_some hvalid hbyte
          refine (ih hnext).trans ⟨?_, ?_⟩
          · rintro ⟨head, hhead, hdeep⟩
            exact ⟨byte :: head, List.cons_prefix_cons.mpr ⟨rfl, hhead⟩, (hsees head).symm ▸ hdeep⟩
          · rintro ⟨head, hhead, hdeep⟩
            cases head with
            | nil =>
                rw [sees_nil] at hdeep
                exact absurd hdeep (Nat.not_lt.mpr hvalid.1)
            | cons first head =>
                obtain ⟨rfl, htail⟩ := List.cons_prefix_cons.mp hhead
                exact ⟨head, htail, hsees head ▸ hdeep⟩

/-- A text that is taken leaves the number of containers open behind it. -/
theorem Nesting.consume_some {nesting next : Nesting} (hvalid : nesting.Valid) {bytes : Bytes}
    (h : nesting.consume bytes = some next) :
    next.Valid ∧ next.depth = opened nesting.depth (nesting.sees bytes) := by
  induction bytes generalizing nesting with
  | nil =>
      obtain rfl := Option.some.inj h
      exact ⟨hvalid, by rw [sees_nil]; rfl⟩
  | cons byte bytes ih =>
      rw [consume, List.foldlM_cons] at h
      obtain ⟨middle, hbyte, h⟩ := Option.bind_eq_some_iff.mp h
      obtain ⟨hmiddle, hsees⟩ := consumeByte_some hvalid hbyte
      obtain ⟨hnext, hdepth⟩ := ih hmiddle h
      exact ⟨hnext, hdepth.trans (hsees bytes).symm⟩

theorem Nesting.consume_append (nesting : Nesting) (head tail : Bytes) :
    nesting.consume (head ++ tail) = (nesting.consume head).bind (·.consume tail) :=
  List.foldlM_append

/-- However a text is split, its parts are taken as the whole is. -/
theorem Nesting.consume_flatten (nesting : Nesting) (parts : List Bytes) :
    parts.foldlM consume nesting = nesting.consume parts.flatten := by
  induction parts generalizing nesting with
  | nil => rfl
  | cons part parts ih =>
      rw [List.foldlM_cons, List.flatten_cons, consume_append]
      exact congrArg (Option.bind (nesting.consume part)) (funext ih)

/-! ### Output -/

/-- The bytes written so far stand at the front of the destination. -/
structure Output where
  destination : Bytes
  used : Nat := 0
  nesting : Nesting := {}
  used_le : used ≤ destination.length

namespace Output

def room (output : Output) : Nat := output.destination.length - output.used

/-- The bytes written so far. -/
def written (output : Output) : Bytes := output.destination.take output.used

/-- The destination with bytes behind those written. -/
def copied (output : Output) (bytes : Bytes) : Bytes :=
  output.written ++ bytes ++ output.destination.drop (output.used + bytes.length)

theorem length_written (output : Output) : output.written.length = output.used :=
  List.length_take_of_le output.used_le

theorem length_copied {output : Output} {bytes : Bytes} (h : bytes.length ≤ output.room) :
    (output.copied bytes).length = output.destination.length := by
  have hused := output.used_le
  rw [copied, List.length_append, List.length_append, List.length_drop, length_written]
  rw [room] at h
  omega

def append (output : Output) (bytes : Bytes) : Except WriteError Output :=
  if hroom : bytes.length ≤ output.room then
    match output.nesting.consume bytes with
    | none => .error .jsonTooDeep
    | some nesting => .ok {
        destination := output.copied bytes
        used := output.used + bytes.length
        nesting
        used_le := by
          have hused := output.used_le
          rw [length_copied hroom]
          rw [room] at hroom
          omega }
  else .error .outOfMemory

/-- What a writer hands on at once: slices, the last of which is repeated. -/
structure Call where
  slices : List Bytes
  splat : Nat
  ne : slices ≠ []

def Call.pattern (call : Call) : Bytes := call.slices.getLast call.ne

def Call.text (call : Call) : Bytes :=
  call.slices.dropLast.flatten ++ (List.replicate call.splat call.pattern).flatten

def drainPattern (output : Output) (pattern : Bytes) (splat : Nat) : Except WriteError Output :=
  if 0 < pattern.length then
    if output.room / pattern.length < splat then .error .outOfMemory
    else (List.replicate splat pattern).foldlM append output
  else .ok output

def drainSlices (output : Output) (call : Call) : Except WriteError Output := do
  (← call.slices.dropLast.foldlM append output).drainPattern call.pattern call.splat

/-- A call, with the number of bytes it took. -/
def drain (output : Output) (call : Call) : Except WriteError (Output × Nat) := do
  let drained ← output.drainSlices call
  return (drained, drained.used - output.used)

end Output

/-- The calls that a serializer makes, up to the one that fails. -/
def Output.drainAll (output : Output) : List Output.Call → Except WriteError Output
  | [] => .ok output
  | call :: calls => do
      let (output, _) ← output.drain call
      output.drainAll calls

/-- What is written in the end, borrowed from the destination. -/
def write (destination : Bytes) (calls : List Output.Call) : Except WriteError Bytes := do
  let output ← Output.drainAll { destination, used_le := Nat.zero_le _ } calls
  return output.written

namespace Output

/-! ### What is written -/

/-- There is room for a text, and the check passes it. -/
def Fits (output : Output) (text : Bytes) : Prop :=
  text.length ≤ output.room ∧ output.nesting.consume text ≠ none

/-- A text was written behind what was there. -/
structure After (output : Output) (text : Bytes) (next : Output) : Prop where
  length : next.destination.length = output.destination.length
  used : next.used = output.used + text.length
  written : next.written = output.written ++ text
  nesting : output.nesting.consume text = some next.nesting

theorem After.fits {output next : Output} {text : Bytes} (h : output.After text next) :
    output.Fits text := by
  constructor
  · have hused := next.used_le
    rw [h.length, h.used] at hused
    rw [room]
    omega
  · rw [h.nesting]
    nofun

theorem After.trans {output middle next : Output} {first second : Bytes}
    (h : output.After first middle) (h' : middle.After second next) :
    output.After (first ++ second) next where
  length := h'.length.trans h.length
  used := by
    rw [h'.used, h.used, List.length_append]
    omega
  written := by rw [h'.written, h.written, List.append_assoc]
  nesting := by
    rw [Nesting.consume_append, h.nesting]
    exact h'.nesting

/-- What fits in two parts fits one after the other. -/
theorem Fits.split {output : Output} {first second : Bytes} (h : output.Fits (first ++ second)) :
    output.Fits first ∧ ∀ middle, output.After first middle → middle.Fits second := by
  obtain ⟨hroom, hconsume⟩ := h
  rw [List.length_append] at hroom
  rw [Nesting.consume_append] at hconsume
  constructor
  · refine ⟨by omega, fun hnone => hconsume ?_⟩
    rw [hnone]
    rfl
  · intro middle hmiddle
    refine ⟨?_, fun hnone => hconsume ?_⟩
    · have hused := output.used_le
      rw [room] at hroom
      rw [room, hmiddle.length, hmiddle.used]
      omega
    · rw [hmiddle.nesting]
      exact hnone

/-- An operation writes a text where it fits, and fails elsewhere. -/
def Writes (operation : Output → Except WriteError Output) (text : Bytes) : Prop :=
  ∀ output, (∀ next, operation output = .ok next → output.After text next) ∧
    (output.Fits text → ∃ next, operation output = .ok next)

theorem writes_nothing : Writes .ok [] := by
  refine fun output => ⟨?_, fun _ => ⟨output, rfl⟩⟩
  intro next h
  obtain rfl := Except.ok.inj h
  exact ⟨rfl, rfl, (List.append_nil _).symm, rfl⟩

theorem Writes.bind {operation following : Output → Except WriteError Output}
    {first second : Bytes} (h : Writes operation first) (h' : Writes following second) :
    Writes (fun output => operation output >>= following) (first ++ second) := by
  intro output
  obtain ⟨hdone, hdo⟩ := h output
  constructor
  · intro next hnext
    change (operation output >>= following) = _ at hnext
    cases hmiddle : operation output with
    | error error =>
        rw [hmiddle] at hnext
        cases hnext
    | ok middle =>
        rw [hmiddle] at hnext
        exact (hdone middle hmiddle).trans ((h' middle).1 next hnext)
  · intro hfits
    obtain ⟨hfirst, hsecond⟩ := hfits.split
    obtain ⟨middle, hmiddle⟩ := hdo hfirst
    obtain ⟨next, hnext⟩ := (h' middle).2 (hsecond middle (hdone middle hmiddle))
    refine ⟨next, ?_⟩
    change (operation output >>= following) = _
    rw [hmiddle]
    exact hnext

theorem append_writes (bytes : Bytes) : Writes (append · bytes) bytes := by
  intro output
  change (∀ next, output.append bytes = _ → _) ∧ (_ → ∃ next, output.append bytes = _)
  unfold append
  by_cases hroom : bytes.length ≤ output.room
  · rw [dif_pos hroom]
    cases hconsume : output.nesting.consume bytes with
    | none => exact ⟨nofun, fun hfits => absurd hconsume hfits.2⟩
    | some nesting =>
        refine ⟨?_, fun _ => ⟨_, rfl⟩⟩
        intro next h
        obtain rfl := Except.ok.inj h
        refine ⟨length_copied hroom, rfl, ?_, hconsume⟩
        have hlength : (output.written ++ bytes).length = output.used + bytes.length := by
          rw [List.length_append, length_written]
        exact List.take_left' hlength
  · rw [dif_neg hroom]
    exact ⟨nofun, fun hfits => absurd hfits.1 hroom⟩

theorem foldlM_writes (parts : List Bytes) : Writes (parts.foldlM append) parts.flatten := by
  induction parts with
  | nil => exact writes_nothing
  | cons part parts ih =>
      exact fun output => (append_writes part).bind ih output

/-- The division tells whether all repetitions fit. -/
theorem drainPattern_writes (pattern : Bytes) (splat : Nat) :
    Writes (drainPattern · pattern splat) (List.replicate splat pattern).flatten := by
  by_cases hpattern : 0 < pattern.length
  · intro output
    have hlength : (List.replicate splat pattern).flatten.length = splat * pattern.length := by
      simp
    simp only [drainPattern, if_pos hpattern]
    split_ifs with hsplat
    · refine ⟨nofun, fun hfits => ?_⟩
      have hroom := hfits.1
      rw [hlength, ← Nat.le_div_iff_mul_le hpattern] at hroom
      exact absurd hsplat (Nat.not_lt.mpr hroom)
    · exact foldlM_writes _ output
  · obtain rfl : pattern = [] := List.length_eq_zero_iff.mp (Nat.eq_zero_of_not_pos hpattern)
    have hnothing : (List.replicate splat ([] : Bytes)).flatten = [] := by simp
    rw [hnothing]
    exact writes_nothing

theorem drainSlices_writes (call : Call) : Writes (drainSlices · call) call.text :=
  (foldlM_writes call.slices.dropLast).bind (drainPattern_writes call.pattern call.splat)

theorem drainAll_cons (output : Output) (call : Call) (calls : List Call) :
    output.drainAll (call :: calls) = output.drainSlices call >>= (drainAll · calls) := by
  rw [drainAll, drain]
  cases output.drainSlices call with
  | error error => rfl
  | ok drained => rfl

theorem drainAll_writes (calls : List Call) :
    Writes (drainAll · calls) (calls.flatMap Call.text) := by
  induction calls with
  | nil => exact writes_nothing
  | cons call calls ih =>
      intro output
      rw [List.flatMap_cons]
      simp only [drainAll_cons]
      exact (drainSlices_writes call).bind ih output

end Output

/-- A text is checked the same however it is split, and refused where too many containers are open;
what a serializer hands on is written where it fits and passes that check, and nowhere else. -/
theorem nesting_checked (bytes destination : Bytes) (parts : List Bytes)
    (calls : List Output.Call) :
    parts.foldlM Nesting.consume {} = Nesting.consume {} parts.flatten ∧
    (Nesting.consume {} bytes = none ↔
      ∃ head, head <+: bytes ∧ maxDepth < opened 0 (outside head)) ∧
    (∀ next, Nesting.consume {} bytes = some next → next.depth = opened 0 (outside bytes)) ∧
    (∀ written, write destination calls = .ok written ↔
      written = calls.flatMap Output.Call.text ∧ written.length ≤ destination.length ∧
        checkDepth written = .ok ()) := by
  have hstart : Nesting.Valid {} := ⟨Nat.zero_le _, nofun⟩
  refine ⟨Nesting.consume_flatten {} parts, Nesting.consume_none hstart bytes,
    fun next h => (Nesting.consume_some hstart h).2, fun written => ?_⟩
  have hcheck (text : Bytes) : checkDepth text = .ok () ↔ Nesting.consume {} text ≠ none := by
    rw [checkDepth]
    cases Nesting.consume {} text with
    | none => simp
    | some next => simp
  obtain ⟨hdone, hdo⟩ := Output.drainAll_writes calls { destination, used_le := Nat.zero_le _ }
  rw [hcheck]
  constructor
  · intro h
    unfold write at h
    cases hall : Output.drainAll { destination, used_le := Nat.zero_le _ } calls with
    | error error =>
        rw [hall] at h
        cases h
    | ok output =>
        rw [hall] at h
        obtain rfl := Except.ok.inj h
        have hafter := hdone output hall
        have hwritten : output.written = calls.flatMap Output.Call.text := hafter.written
        rw [hwritten]
        exact ⟨rfl, hafter.fits⟩
  · rintro ⟨rfl, hfits⟩
    obtain ⟨output, houtput⟩ := hdo hfits
    have hall : Output.drainAll { destination, used_le := Nat.zero_le _ } calls = .ok output :=
      houtput
    unfold write
    rw [hall]
    exact congrArg Except.ok (hdone output hall).written

/-- A string whose inside is one byte, written three times. -/
def stringCalls : List Output.Call :=
  [⟨[ascii "[\"", ascii "a"], 3, by decide⟩, ⟨[ascii "\"]"], 1, by decide⟩]

/-- Brackets in a string are not containers, also where an escape is split; a splat is written where
all of it fits. -/
theorem nesting_checked_string :
    (∃ next, Nesting.consume {} (ascii "[\"\\\"[[\"") = some next ∧ next.depth = 1 ∧
      [ascii "[\"\\", ascii "\"[[\""].foldlM Nesting.consume {} = some next) ∧
    write (List.replicate 7 0) stringCalls = .ok (ascii "[\"aaa\"]") ∧
    ∀ written, write (List.replicate 6 0) stringCalls ≠ .ok written := by
  have hconsume : Nesting.consume {} (ascii "[\"\\\"[[\"") = some { depth := 1 } := by decide +kernel
  have hopened : opened 0 (outside (ascii "[\"\\\"[[\"")) = 1 := by decide +kernel
  obtain ⟨hparts, -, hdepth, hwrite⟩ := nesting_checked (ascii "[\"\\\"[[\"") (List.replicate 7 0)
    [ascii "[\"\\", ascii "\"[[\""] stringCalls
  refine ⟨⟨_, hconsume, (hdepth _ hconsume).trans hopened, hparts.trans hconsume⟩,
    (hwrite _).mpr (by decide +kernel), fun written h => ?_⟩
  obtain ⟨rfl, hfits, -⟩ := ((nesting_checked [] (List.replicate 6 0) [] stringCalls).2.2.2 _).mp h
  exact absurd hfits (by decide)

end Zhtps.Json
