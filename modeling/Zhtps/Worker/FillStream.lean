import Zhtps.Http.Recipient
import Zhtps.Lib.Memory
import Zhtps.Worker.Respond

/-!
Streaming through a connection's buffers, after `fillStream` of `src/server/worker.zig`.

A fragment is a slice, most often of the buffer that the producer was given.  One that does not fit
behind what is written stays a slice until the next call, so the producer must not be called before it
is written.
-/

namespace Zhtps.Worker

open Lib Response

/-! ### The model -/

/-- `produce`, which fills a buffer or answers with bytes of its own. -/
abbrev Produce (σ : Type) : Type := σ → Memory UInt8 → Slice → σ × Memory UInt8 × Option Slice

/-- The fields of a connection that `fillStream` uses. -/
structure Streaming (σ : Type) where
  memory : Memory UInt8
  exchange : σ
  outputBuffer : Slice
  applicationBuffer : Slice
  streamFragment : Option Slice := none
  encoder : Encoder
  streaming : Bool := true
  responseBodyBytes : Nat := 0
  outputLen : Nat := 0
  /-- A record of what the producer answered, with the text of fragments as it was then. -/
  answers : List (Option Bytes) := []

inductive FillError
  | emptyStreamFragment
  | encoder (failure : Failure)
  deriving DecidableEq, Repr

namespace Streaming

variable {σ : Type}

/-- The buffer of the producer, the same for every call. -/
def buffer (s : Streaming σ) : Slice :=
  ⟨s.applicationBuffer.ptr, min s.applicationBuffer.len (s.outputBuffer.len - 32)⟩

/-- The fragment that was held back, or another one. -/
def next (produce : Produce σ) (s : Streaming σ) : Streaming σ × Option Slice :=
  match s.streamFragment with
  | some bytes => (s, some bytes)
  | none =>
      let (exchange, memory, fragment) := produce s.exchange s.memory s.buffer
      ({ s with
        exchange, memory
        answers := s.answers ++ [fragment.map memory.read] }, fragment)

/-- `writeAll` of a writer that is fixed to the output buffer. -/
def emit (s : Streaming σ) (buffered : Nat) (bytes : Bytes) : Streaming σ × Except FillError Nat :=
  let room := s.outputBuffer.len - buffered
  let s := { s with memory := s.memory.write (s.outputBuffer.ptr + buffered) (bytes.take room) }
  if bytes.length ≤ room then (s, .ok (buffered + bytes.length))
  else (s, .error (.encoder .writeFailed))

/-- `encoder.write` of a fragment. -/
def write (s : Streaming σ) (buffered : Nat) (fragment : Slice) :
    Streaming σ × Except FillError Nat :=
  match s.encoder.write (s.memory.read fragment) with
  | .error failure => (s, .error (.encoder failure))
  | .ok (encoder, bytes) =>
      match s.emit buffered bytes with
      | (s, .error error) => (s, .error error)
      | (s, .ok buffered) =>
          ({ s with
            encoder
            responseBodyBytes := s.responseBodyBytes + fragment.len }, .ok buffered)

/-- `encoder.end`, after which the stream is over. -/
def finish (s : Streaming σ) (buffered : Nat) : Streaming σ × Except FillError Nat :=
  match s.encoder.finish with
  | .error failure => (s, .error (.encoder failure))
  | .ok (encoder, bytes) =>
      match s.emit buffered bytes with
      | (s, .error error) => (s, .error error)
      | (s, .ok buffered) => ({ s with encoder, streaming := false }, .ok buffered)

/-- The loop, with so many turns left and so many bytes in the writer. -/
def fillLoop (produce : Produce σ) : Nat → Streaming σ → Nat → Streaming σ × Except FillError Nat
  | 0, s, buffered => (s, .ok buffered)
  | fuel + 1, s, buffered =>
      if s.outputBuffer.len - buffered ≤ 32 then (s, .ok buffered)
      else
        match s.next produce with
        | (s, some bytes) =>
            if bytes.len = 0 then (s, .error .emptyStreamFragment)
            else if 0 < buffered ∧ bytes.len > s.outputBuffer.len - buffered - 32 then
              ({ s with streamFragment := some bytes }, .ok buffered)
            else
              match { s with streamFragment := none }.write buffered bytes with
              | (s, .error error) => (s, .error error)
              | (s, .ok buffered) => fillLoop produce fuel s buffered
        | (s, none) => s.finish buffered

def fillStream (produce : Produce σ) (s : Streaming σ) : Streaming σ × Option FillError :=
  match fillLoop produce 16 s 0 with
  | (s, .error error) => (s, some error)
  | (s, .ok buffered) => ({ s with outputLen := buffered }, none)

/-- What a call leaves to be sent. -/
def output (s : Streaming σ) : Bytes := s.memory.read ⟨s.outputBuffer.ptr, s.outputLen⟩

/-- The text of a fragment that is held back. -/
def pending (s : Streaming σ) : List Bytes := (s.streamFragment.map s.memory.read).toList

end Streaming

/-! ### Producers -/

/-- A producer that answers with fragments which are not empty, fit the buffer it is given, and have
nothing to do with the output buffer. -/
structure Producer (σ : Type) (output buffer : Slice) where
  produce : Produce σ
  fragment : ∀ {exchange : σ} {memory : Memory UInt8} {x : Slice},
    (produce exchange memory buffer).2.2 = some x →
      0 < x.len ∧ x.len ≤ buffer.len ∧ x.Apart output
  kept : ∀ {exchange : σ} {memory : Memory UInt8} {x : Slice}, x.Inside output →
    (produce exchange memory buffer).2.1.read x = memory.read x

/-- Calls until one fails or the stream is over.  Between them, the memory may change wherever no
fragment waits. -/
inductive Fills {σ : Type} (produce : Produce σ) (first : Streaming σ) :
    Nat → Streaming σ → Bytes → Prop
  | start : Fills produce first 0 first []
  | call {n : Nat} {s s' : Streaming σ} {memory : Memory UInt8} {wire : Bytes} :
      Fills produce first n s wire → s.streaming = true →
      (∀ x, s.streamFragment = some x → memory.read x = s.memory.read x) →
      Streaming.fillStream produce { s with memory } = (s', none) →
      Fills produce first (n + 1) s' (wire ++ s'.output)

/-! ### The encoding so far -/

open Recipient in
/-- A stream goes on, with `done` on the wire. -/
structure Delivered {σ : Type} (first s : Streaming σ) (done : List Bytes) (wire : Bytes) : Prop where
  outputBuffer : s.outputBuffer = first.outputBuffer
  applicationBuffer : s.applicationBuffer = first.applicationBuffer
  streaming : s.streaming = true
  held : ∀ x, s.streamFragment = some x →
    0 < x.len ∧ x.len ≤ first.buffer.len ∧ x.Apart first.outputBuffer
  answers : s.answers = (done ++ s.pending).map some
  encoded : Sent.Encoded first.encoder.mode { encoder := s.encoder, wire, fragments := done }

theorem length_write {encoder next : Encoder} {bytes encoded : Bytes}
    (h : encoder.write bytes = .ok (next, encoded)) (hlt : bytes.length < 2 ^ 64) :
    encoded.length ≤ bytes.length + 20 := by
  unfold Encoder.write at h
  split at h
  · split at h
    · cases h
    · cases h
      omega
  · split at h
    · cases h
      exact Nat.zero_le _
    · cases h
      have hdigits := digits_length_le hlt
      simp only [List.length_append, crlf, List.length_cons, List.length_nil]
      omega
  · cases h
    omega
  · cases h
    exact Nat.zero_le _
  · cases h

theorem length_finish {encoder next : Encoder} {encoded : Bytes}
    (h : encoder.finish = .ok (next, encoded)) : encoded.length ≤ 5 := by
  unfold Encoder.finish at h
  split at h
  · split at h
    · cases h
    · cases h
      exact Nat.zero_le _
  · cases h
    decide
  · cases h
    exact Nat.zero_le _
  · cases h
    exact Nat.zero_le _
  · cases h

/-- The encoding of a whole body. -/
def Encodes (mode : Mode) (fragments : List Bytes) (wire : Bytes) : Prop :=
  match mode with
  | .fixed n => wire = fragments.flatten ∧ fragments.flatten.length = n
  | .chunked => wire = fragments.flatMap chunk ++ ascii "0\r\n\r\n"
  | .closing => wire = fragments.flatten
  | .suppressed | .finished => False

/-- A stream is over, and so is its encoding. -/
structure Ended {σ : Type} (first s : Streaming σ) (wire : Bytes) : Prop where
  outputBuffer : s.outputBuffer = first.outputBuffer
  streaming : s.streaming = false
  fragment : s.streamFragment = none
  encodes : ∃ fragments, s.answers = fragments.map some ++ [none] ∧
    Encodes first.encoder.mode fragments wire

/-- The fragments do not amount to the length that was declared. -/
def Mismatch {σ : Type} (first s : Streaming σ) (error : FillError) : Prop :=
  error = .encoder .lengthMismatch ∧ ∃ (declared : Nat) (fragments : List Bytes),
    first.encoder.mode = .fixed declared ∧
    (s.answers = fragments.map some ∧ declared < fragments.flatten.length ∨
      s.answers = fragments.map some ++ [none] ∧ fragments.flatten.length < declared)

open Recipient in
/-- Only a declared length refuses a fragment. -/
theorem encoded_write_error {mode : Mode} {sent : Sent} {bytes : Bytes} {failure : Failure}
    (h : sent.Encoded mode) (hbroken : sent.broken = false) (hlive : mode ≠ .finished)
    (hwrite : sent.encoder.write bytes = .error failure) :
    failure = .lengthMismatch ∧
      ∃ n, mode = .fixed n ∧ n < (sent.fragments ++ [bytes]).flatten.length := by
  unfold Encoder.write at hwrite
  cases mode with
  | fixed n =>
      obtain ⟨hle, hshown⟩ := h
      obtain ⟨hmode, hwire⟩ := hshown hbroken
      rw [hmode] at hwrite
      simp only at hwrite
      split at hwrite
      next hlong =>
        cases hwrite
        refine ⟨rfl, n, rfl, ?_⟩
        rw [List.flatten_append, List.flatten_singleton, List.length_append, ← hwire]
        omega
      · cases hwrite
  | chunked =>
      rw [(h hbroken).1] at hwrite
      simp only at hwrite
      split at hwrite <;> cases hwrite
  | closing => rw [(h hbroken).1] at hwrite; cases hwrite
  | suppressed => rw [(h hbroken).1] at hwrite; cases hwrite
  | finished => exact absurd rfl hlive

open Recipient in
/-- Only a declared length refuses the end, and the end completes the encoding. -/
theorem encoded_finish {mode : Mode} {sent : Sent} (h : sent.Encoded mode)
    (hbroken : sent.broken = false) (hlive : mode ≠ .suppressed ∧ mode ≠ .finished) :
    (sent.encoder.finish = .error .lengthMismatch ∧
      ∃ n, mode = .fixed n ∧ sent.fragments.flatten.length < n) ∨
    ∃ next final, sent.encoder.finish = .ok (next, final) ∧
      Encodes mode sent.fragments (sent.wire ++ final) := by
  unfold Encoder.finish
  cases mode with
  | fixed n =>
      obtain ⟨hle, hshown⟩ := h
      obtain ⟨hmode, hwire⟩ := hshown hbroken
      rw [hmode]
      simp only
      split
      next hshort => exact Or.inl ⟨rfl, n, rfl, by rw [← hwire]; omega⟩
      next hzero =>
        refine Or.inr ⟨_, _, rfl, ?_, ?_⟩
        · rw [List.append_nil, hwire]
        · rw [← hwire]
          omega
  | chunked =>
      obtain ⟨hmode, hwire⟩ := h hbroken
      rw [hmode]
      exact Or.inr ⟨_, _, rfl, congrArg (· ++ _) hwire⟩
  | closing =>
      obtain ⟨hmode, hwire⟩ := h hbroken
      rw [hmode]
      exact Or.inr ⟨_, _, rfl, (List.append_nil _).trans hwire⟩
  | suppressed => exact absurd rfl hlive.1
  | finished => exact absurd rfl hlive.2

open Recipient in
/-- What goes on the wire for a fragment that is not empty is not empty. -/
theorem encoded_write {mode : Mode} {sent : Sent} {next : Encoder} {bytes encoded : Bytes}
    (h : sent.Encoded mode) (hbroken : sent.broken = false) (hlive : mode ≠ .suppressed)
    (hne : bytes ≠ []) (hwrite : sent.encoder.write bytes = .ok (next, encoded)) :
    0 < encoded.length ∧
      Sent.Encoded mode
        { encoder := next
          wire := sent.wire ++ encoded
          fragments := sent.fragments ++ [bytes] } := by
  constructor
  · have hpos := List.length_pos_of_ne_nil hne
    unfold Encoder.write at hwrite
    split at hwrite
    · split at hwrite
      · cases hwrite
      · cases hwrite
        exact hpos
    · rw [if_neg hne] at hwrite
      cases hwrite
      simp only [List.length_append]
      omega
    · cases hwrite
      exact hpos
    next hmode =>
      cases mode with
      | suppressed => exact absurd rfl hlive
      | fixed n => rw [((h.2 hbroken).1)] at hmode; cases hmode
      | chunked => rw [(h hbroken).1] at hmode; cases hmode
      | closing => rw [(h hbroken).1] at hmode; cases hmode
      | finished => rw [show sent.encoder.mode = .finished from h] at hmode; cases hmode
    · cases hwrite
  · have hstep := write_encoded h (encoded.length, bytes)
    rw [Sent.write, hbroken, if_neg Bool.false_ne_true, hwrite] at hstep
    simp only [le_refl, if_true] at hstep
    exact hstep

section Loop

variable {σ : Type} {first : Streaming σ} {done : List Bytes} {before : Bytes}

theorem emit_fits {s : Streaming σ} {buffered : Nat} {bytes : Bytes}
    (h : bytes.length ≤ s.outputBuffer.len - buffered) :
    s.emit buffered bytes =
      ({ s with memory := s.memory.write (s.outputBuffer.ptr + buffered) bytes },
        .ok (buffered + bytes.length)) := by
  rw [Streaming.emit, if_pos h, List.take_of_length_le h]

/-- The state with a fragment in hand: it is held back still. -/
def Streaming.holding (s : Streaming σ) (x : Slice) : Streaming σ := { s with streamFragment := some x }

/-- Whether a fragment was held back or comes from the producer, the state holds it. -/
theorem next_delivered (producer : Producer σ first.outputBuffer first.buffer) {s : Streaming σ}
    {buffered : Nat}
    (h : Delivered first s done
      (before ++ s.memory.read ⟨first.outputBuffer.ptr, buffered⟩))
    (hroom : buffered ≤ first.outputBuffer.len) :
    (s.next producer.produce).1.answers.length ≤ s.answers.length + 1 ∧
    ((∃ s' x, s.next producer.produce = (s', some x) ∧
      Delivered first (s'.holding x) done
        (before ++ s'.memory.read ⟨first.outputBuffer.ptr, buffered⟩)) ∨
    ∃ s', s.next producer.produce = (s', none) ∧ s'.outputBuffer = first.outputBuffer ∧
      s'.streamFragment = none ∧ s'.answers = done.map some ++ [none] ∧
      Recipient.Sent.Encoded first.encoder.mode
        { encoder := s'.encoder
          wire := before ++ s'.memory.read ⟨first.outputBuffer.ptr, buffered⟩
          fragments := done }) := by
  unfold Streaming.next
  cases hfragment : s.streamFragment with
  | some x =>
      have hself : s.holding x = s := by rw [Streaming.holding, ← hfragment]
      exact ⟨Nat.le_succ _, Or.inl ⟨s, x, rfl, by rw [hself]; exact h⟩⟩
  | none =>
      have hpending : s.pending = [] := by rw [Streaming.pending, hfragment]; rfl
      have hanswers : s.answers = done.map some := by rw [h.answers, hpending, List.append_nil]
      have hbuffer : s.buffer = first.buffer := by
        rw [Streaming.buffer, h.outputBuffer, h.applicationBuffer, Streaming.buffer]
      have hinside : (⟨first.outputBuffer.ptr, buffered⟩ : Slice).Inside first.outputBuffer :=
        ⟨Nat.le_refl _, Nat.add_le_add_left hroom _⟩
      have hkept := @Producer.kept σ _ _ producer s.exchange s.memory _ hinside
      have hproduced := @Producer.fragment σ _ _ producer s.exchange s.memory
      rcases hanswer : producer.produce s.exchange s.memory first.buffer with
        ⟨exchange, memory, fragment⟩
      rw [hanswer] at hkept hproduced
      simp only [hbuffer, hanswer]
      refine ⟨by rw [List.length_append, List.length_singleton], ?_⟩
      have hencoded := h.encoded
      rw [← hkept] at hencoded
      cases fragment with
      | some x =>
          exact Or.inl ⟨_, x, rfl,
            { outputBuffer := h.outputBuffer
              applicationBuffer := h.applicationBuffer
              streaming := h.streaming
              held := fun y hy => hproduced (by rw [← hy]; rfl)
              answers := by
                rw [List.map_append]
                exact congrArg (· ++ [some (memory.read x)]) hanswers
              encoded := hencoded }⟩
      | none =>
          exact Or.inr ⟨_, rfl, h.outputBuffer, rfl, by rw [hanswers]; rfl, hencoded⟩

/-- A fragment in hand goes on the wire, unless it exceeds the length that was declared. -/
theorem write_delivered {s : Streaming σ} {x : Slice} {buffered : Nat}
    (h : Delivered first (s.holding x) done
      (before ++ s.memory.read ⟨first.outputBuffer.ptr, buffered⟩))
    (hlive : first.encoder.mode ≠ .suppressed ∧ first.encoder.mode ≠ .finished)
    (hword : first.outputBuffer.len < 2 ^ 64)
    (hroom : x.len + 20 ≤ first.outputBuffer.len - buffered) :
    ∃ s', s'.answers = s.answers ∧
      ((∃ error, ({ s with streamFragment := none } : Streaming σ).write buffered x =
          (s', .error error) ∧ Mismatch first s' error) ∨
      ∃ n, ({ s with streamFragment := none } : Streaming σ).write buffered x = (s', .ok n) ∧
        buffered < n ∧ n ≤ first.outputBuffer.len ∧
        Delivered first s' (done ++ [s.memory.read x])
          (before ++ s'.memory.read ⟨first.outputBuffer.ptr, n⟩)) := by
  obtain ⟨hpos, hle, -⟩ := h.held x rfl
  have houtput : s.outputBuffer = first.outputBuffer := h.outputBuffer
  have hlength := Memory.length_read s.memory x
  have hne : s.memory.read x ≠ [] := List.ne_nil_of_length_pos (by omega)
  have hanswers : s.answers = (done ++ [s.memory.read x]).map some := h.answers
  unfold Streaming.write
  simp only
  cases hwrite : s.encoder.write (s.memory.read x) with
  | error failure =>
      obtain ⟨rfl, declared, hdeclared, hlong⟩ :=
        encoded_write_error h.encoded rfl hlive.2 hwrite
      exact ⟨{ s with streamFragment := none }, rfl,
        Or.inl ⟨_, rfl, rfl, declared, _, hdeclared, Or.inl ⟨hanswers, hlong⟩⟩⟩
  | ok result =>
      obtain ⟨next, encoded⟩ := result
      obtain ⟨hsome, hencoded⟩ := encoded_write h.encoded rfl hlive.1 hne hwrite
      have hshort := length_write hwrite (by
        unfold Streaming.buffer at hle
        simp only at hle
        omega)
      have hfits : encoded.length ≤
          ({ s with streamFragment := none } : Streaming σ).outputBuffer.len - buffered := by
        simp only [houtput]
        omega
      simp only
      rw [emit_fits hfits]
      simp only [houtput] at hfits
      refine ⟨_, ?_, Or.inr ⟨_, rfl, Nat.lt_add_of_pos_right hsome, by omega, ?_⟩⟩
      · rfl
      exact
        { outputBuffer := h.outputBuffer
          applicationBuffer := h.applicationBuffer
          streaming := h.streaming
          held := nofun
          answers := by
            rw [show Streaming.pending _ = [] from rfl, List.append_nil]
            exact hanswers
          encoded := by
            simp only [houtput]
            rw [Memory.read_write_append, ← List.append_assoc]
            exact hencoded }

/-- The end of the stream goes on the wire, unless the body is shorter than was declared. -/
theorem finish_ended {s : Streaming σ} {buffered : Nat} (houtput : s.outputBuffer = first.outputBuffer)
    (hfragment : s.streamFragment = none) (hanswers : s.answers = done.map some ++ [none])
    (hencoded : Recipient.Sent.Encoded first.encoder.mode
      { encoder := s.encoder
        wire := before ++ s.memory.read ⟨first.outputBuffer.ptr, buffered⟩
        fragments := done })
    (hlive : first.encoder.mode ≠ .suppressed ∧ first.encoder.mode ≠ .finished)
    (hroom : 5 ≤ first.outputBuffer.len - buffered) :
    ∃ s', s'.answers = s.answers ∧
      ((∃ error, s.finish buffered = (s', .error error) ∧ Mismatch first s' error) ∨
      ∃ n, s.finish buffered = (s', .ok n) ∧ buffered ≤ n ∧ n ≤ first.outputBuffer.len ∧
        Ended first s' (before ++ s'.memory.read ⟨first.outputBuffer.ptr, n⟩)) := by
  unfold Streaming.finish
  rcases encoded_finish hencoded rfl hlive with ⟨hfinish, declared, hdeclared, hshort⟩ |
    ⟨next, final, hfinish, hencodes⟩
  · simp only at hfinish
    rw [hfinish]
    exact ⟨_, rfl, Or.inl ⟨_, rfl, rfl, declared, _, hdeclared, Or.inr ⟨hanswers, hshort⟩⟩⟩
  · simp only at hfinish
    have hfits : final.length ≤ s.outputBuffer.len - buffered := by
      have := length_finish hfinish
      rw [houtput]
      omega
    rw [hfinish]
    simp only
    rw [emit_fits hfits]
    rw [houtput] at hfits
    have hend : buffered + final.length ≤ first.outputBuffer.len := by omega
    refine ⟨_, ?_, Or.inr ⟨_, rfl, Nat.le_add_right _ _, hend, ?_⟩⟩
    · rfl
    refine ⟨houtput, rfl, hfragment, done, hanswers, ?_⟩
    simp only [houtput]
    rw [Memory.read_write_append, ← List.append_assoc]
    exact hencodes

/-- What the loop comes to.  From an empty writer it makes progress. -/
theorem fillLoop_spec (producer : Producer σ first.outputBuffer first.buffer)
    (hlive : first.encoder.mode ≠ .suppressed ∧ first.encoder.mode ≠ .finished)
    (hfull : 64 ≤ first.outputBuffer.len) (hword : first.outputBuffer.len < 2 ^ 64) (fuel : Nat) :
    ∀ {s : Streaming σ} {buffered : Nat} {done : List Bytes},
    Delivered first s done (before ++ s.memory.read ⟨first.outputBuffer.ptr, buffered⟩) →
    buffered ≤ first.outputBuffer.len →
    ∃ s', s'.answers.length ≤ s.answers.length + fuel ∧
      ((∃ error, Streaming.fillLoop producer.produce fuel s buffered = (s', .error error) ∧
        Mismatch first s' error) ∨
      ∃ n, Streaming.fillLoop producer.produce fuel s buffered = (s', .ok n) ∧ buffered ≤ n ∧
        (Ended first s' (before ++ s'.memory.read ⟨first.outputBuffer.ptr, n⟩) ∨
          ∃ done', Delivered first s' done'
              (before ++ s'.memory.read ⟨first.outputBuffer.ptr, n⟩) ∧
            done.length ≤ done'.length ∧
            (buffered = 0 → 0 < fuel → done.length < done'.length ∧ 0 < n))) := by
  induction fuel with
  | zero =>
      intro s buffered done h hroom
      exact ⟨s, Nat.le_refl _, Or.inr ⟨buffered, rfl, Nat.le_refl _,
        Or.inr ⟨done, h, Nat.le_refl _, fun _ hzero => absurd hzero (Nat.lt_irrefl 0)⟩⟩⟩
  | succ fuel ih =>
      intro s buffered done h hroom
      rw [Streaming.fillLoop, h.outputBuffer]
      split
      next htight =>
        exact ⟨s, Nat.le_add_right _ _, Or.inr ⟨buffered, rfl, Nat.le_refl _,
          Or.inr ⟨done, h, Nat.le_refl _, fun hzero => by omega⟩⟩⟩
      next hloose =>
        obtain ⟨hcalls, ⟨s', x, hnext, hheld⟩ |
          ⟨s', hnext, houtput, hfragment, hanswers, hencoded⟩⟩ := next_delivered producer h hroom
        · rw [hnext] at hcalls ⊢
          obtain ⟨hpos, hle, -⟩ := hheld.held x rfl
          have houtput : s'.outputBuffer.len = first.outputBuffer.len :=
            congrArg Slice.len hheld.outputBuffer
          simp only
          rw [if_neg (by omega)]
          split
          next hback =>
            -- the fragment waits for the next call, and with it the producer
            exact ⟨s'.holding x, by simp only at hcalls; exact hcalls.trans (by omega),
              Or.inr ⟨buffered, rfl, Nat.le_refl _,
                Or.inr ⟨done, hheld, Nat.le_refl _, fun hzero => by omega⟩⟩⟩
          next hfits =>
            have hspace : x.len + 20 ≤ first.outputBuffer.len - buffered := by
              unfold Streaming.buffer at hle
              simp only at hle
              omega
            obtain ⟨written, hsame, ⟨error, hwrite, hmismatch⟩ |
              ⟨n, hwrite, hmore, hn, hwritten⟩⟩ := write_delivered hheld hlive hword hspace
            · rw [hwrite]
              exact ⟨written, by rw [hsame]; exact hcalls.trans (by omega),
                Or.inl ⟨error, rfl, hmismatch⟩⟩
            · rw [hwrite]
              obtain ⟨last, hlast, hresult⟩ := ih hwritten hn
              rw [hsame] at hlast
              refine ⟨last, hlast.trans (by simp only at hcalls; omega), hresult.imp id ?_⟩
              rintro ⟨m, hloop, hle, hend | ⟨done', hdone, hlonger, -⟩⟩
              · exact ⟨m, hloop, by omega, Or.inl hend⟩
              · rw [List.length_append, List.length_singleton] at hlonger
                exact ⟨m, hloop, by omega, Or.inr ⟨done', hdone, by omega, fun _ _ =>
                  ⟨by omega, by omega⟩⟩⟩
        · rw [hnext] at hcalls ⊢
          obtain ⟨last, hsame, ⟨error, hfinish, hmismatch⟩ | ⟨n, hfinish, hle, -, hended⟩⟩ :=
            finish_ended houtput hfragment hanswers hencoded hlive (by omega)
          · simp only [hfinish]
            exact ⟨last, by rw [hsame]; exact hcalls.trans (by omega),
              Or.inl ⟨error, rfl, hmismatch⟩⟩
          · simp only [hfinish]
            exact ⟨last, by rw [hsame]; exact hcalls.trans (by omega),
              Or.inr ⟨n, rfl, hle, Or.inl hended⟩⟩

theorem output_eq {s : Streaming σ} {output : Slice} {n : Nat} (h : s.outputBuffer = output) :
    ({ s with outputLen := n } : Streaming σ).output = s.memory.read ⟨output.ptr, n⟩ := by
  rw [← h]
  rfl

/-- A call from a state that goes on. -/
theorem fillStream_spec (producer : Producer σ first.outputBuffer first.buffer)
    (hlive : first.encoder.mode ≠ .suppressed ∧ first.encoder.mode ≠ .finished)
    (hfull : 64 ≤ first.outputBuffer.len) (hword : first.outputBuffer.len < 2 ^ 64)
    {s : Streaming σ} {wire : Bytes} (h : Delivered first s done wire) :
    ∃ s', s'.answers.length ≤ s.answers.length + 16 ∧
      ((∃ error, Streaming.fillStream producer.produce s = (s', some error) ∧
        Mismatch first s' error) ∨
      Streaming.fillStream producer.produce s = (s', none) ∧
        (Ended first s' (wire ++ s'.output) ∨
          ∃ done', Delivered first s' done' (wire ++ s'.output) ∧ done.length < done'.length ∧
            0 < s'.outputLen)) := by
  have hempty : s.memory.read ⟨first.outputBuffer.ptr, 0⟩ = [] := rfl
  have hbegin : Delivered first s done (wire ++ s.memory.read ⟨first.outputBuffer.ptr, 0⟩) := by
    rw [hempty, List.append_nil]
    exact h
  obtain ⟨s', hcalls, ⟨error, hloop, hmismatch⟩ | ⟨n, hloop, -, hresult⟩⟩ :=
    fillLoop_spec producer hlive hfull hword 16 hbegin (Nat.zero_le _)
  · rw [Streaming.fillStream, hloop]
    exact ⟨s', hcalls, Or.inl ⟨error, rfl, hmismatch⟩⟩
  · rw [Streaming.fillStream, hloop]
    refine ⟨{ s' with outputLen := n }, hcalls, Or.inr ⟨rfl, ?_⟩⟩
    rcases hresult with hended | ⟨done', hdone, -, hprogress⟩
    · left
      rw [output_eq hended.outputBuffer]
      exact { hended with }
    · right
      obtain ⟨hmore, hpos⟩ := hprogress rfl (by decide)
      refine ⟨done', ?_, hmore, hpos⟩
      rw [output_eq hdone.outputBuffer]
      exact { hdone with }

/-- Memory that changes where no fragment waits changes nothing. -/
theorem Delivered.elsewhere {s : Streaming σ} {wire : Bytes} {memory : Memory UInt8}
    (h : Delivered first s done wire)
    (hkept : ∀ x, s.streamFragment = some x → memory.read x = s.memory.read x) :
    Delivered first { s with memory } done wire := by
  have hpending : ({ s with memory } : Streaming σ).pending = s.pending := by
    unfold Streaming.pending
    cases hfragment : s.streamFragment with
    | none => rfl
    | some x =>
        rw [Option.map_some, Option.map_some, hkept x hfragment]
  exact
    { outputBuffer := h.outputBuffer
      applicationBuffer := h.applicationBuffer
      streaming := h.streaming
      held := h.held
      answers := by rw [hpending]; exact h.answers
      encoded := h.encoded }

/-- What a run of calls comes to.  Each puts at least one fragment on the wire. -/
theorem fills_delivered (producer : Producer σ first.outputBuffer first.buffer)
    (hstart : first.streaming = true ∧ first.streamFragment = none ∧ first.answers = [])
    (hlive : first.encoder.mode ≠ .suppressed ∧ first.encoder.mode ≠ .finished)
    (hfull : 64 ≤ first.outputBuffer.len) (hword : first.outputBuffer.len < 2 ^ 64)
    {n : Nat} {s : Streaming σ} {wire : Bytes} (h : Fills producer.produce first n s wire) :
    Ended first s wire ∨ ∃ done, Delivered first s done wire ∧ n ≤ done.length := by
  induction h with
  | start =>
      obtain ⟨hstreaming, hfragment, hanswers⟩ := hstart
      have hpending : first.pending = [] := by rw [Streaming.pending, hfragment]; rfl
      refine Or.inr ⟨[], ?_, Nat.le_refl _⟩
      exact
        { outputBuffer := rfl
          applicationBuffer := rfl
          streaming := hstreaming
          held := by rw [hfragment]; exact nofun
          answers := by rw [hanswers, hpending]; rfl
          encoded := Recipient.writes_encoded first.encoder [] }
  | call _ hstreaming hkept hfill ih =>
      rcases ih with hended | ⟨done, hdone, hcount⟩
      · rw [hended.streaming] at hstreaming
        cases hstreaming
      · obtain ⟨s', -, ⟨error, heq, -⟩ | ⟨heq, hresult⟩⟩ :=
          fillStream_spec producer hlive hfull hword (hdone.elsewhere hkept)
        · rw [hfill] at heq
          cases heq
        · rw [hfill] at heq
          cases heq
          refine hresult.imp id ?_
          rintro ⟨done', hdone', hmore, -⟩
          exact ⟨done', hdone', by omega⟩

end Loop

/-! ### The worker's view -/

/-- What the worker keeps of a stream in the middle of the loop: texts in the place of slices. -/
structure Seen {σ : Type} (s : Streaming σ) (sofar buffered : Nat) (fill : Cell.Fill) : Prop where
  encoder : fill.encoder = s.encoder
  written : fill.written = s.memory.read ⟨s.outputBuffer.ptr, buffered⟩
  payload : s.responseBodyBytes = sofar + fill.payload
  fragment : fill.fragment = s.streamFragment.map s.memory.read
  streaming : fill.streaming = s.streaming

/-- The worker's loop goes on with a fragment, or with the end, and leaves the other answers. -/
def Takes (fill : Cell.Fill) (answers : List (Option Bytes)) (fragment : Option Bytes)
    (more : List (Option Bytes)) : Prop :=
  fill.fragment = fragment ∧ fragment ≠ none ∧ answers = more ∨
    fill.fragment = none ∧ answers = fragment :: more

section Takes

variable {capacity fuel : Nat} {fill : Cell.Fill} {answers more : List (Option Bytes)}

theorem fillStream_empty (htight : ¬capacity - fill.written.length ≤ 32)
    (h : Takes fill answers (some []) more) :
    Cell.fillStream capacity (fuel + 1) answers fill = none := by
  rw [Cell.fillStream, if_neg htight]
  rcases h with ⟨hfragment, -, -⟩ | ⟨hfragment, rfl⟩
  · rw [hfragment]
  · rw [hfragment]
    rfl

theorem fillStream_some {bytes : Bytes} (htight : ¬capacity - fill.written.length ≤ 32)
    (hne : bytes ≠ []) (h : Takes fill answers (some bytes) more) :
    Cell.fillStream capacity (fuel + 1) answers fill =
      if fill.written ≠ [] ∧ bytes.length > capacity - fill.written.length - 32 then
        some { fill with fragment := some bytes }
      else
        match fill.encoder.write bytes with
        | .error _ => none
        | .ok (encoder, encoded) =>
            if (fill.written ++ encoded).length > capacity then none
            else Cell.fillStream capacity fuel more
              { encoder, written := fill.written ++ encoded
                payload := fill.payload + bytes.length } := by
  rw [Cell.fillStream, if_neg htight]
  cases bytes with
  | nil => exact absurd rfl hne
  | cons b bytes =>
      rcases h with ⟨hfragment, -, rfl⟩ | ⟨hfragment, rfl⟩
      · rewrite [hfragment]
        rfl
      · rewrite [hfragment]
        rfl

theorem fillStream_none (htight : ¬capacity - fill.written.length ≤ 32)
    (h : Takes fill answers none more) :
    Cell.fillStream capacity (fuel + 1) answers fill =
      match fill.encoder.finish with
      | .error _ => none
      | .ok (encoder, encoded) =>
          if (fill.written ++ encoded).length > capacity then none
          else some { encoder, written := fill.written ++ encoded, payload := fill.payload
                      streaming := false } := by
  rw [Cell.fillStream, if_neg htight]
  rcases h with ⟨-, hne, -⟩ | ⟨hfragment, rfl⟩
  · exact absurd rfl hne
  · rw [hfragment]
    rfl

end Takes

/-- Bytes for the writer fit in one model exactly when they fit in the other. -/
theorem emit_seen {σ : Type} {s : Streaming σ} {buffered : Nat} {written bytes : Bytes}
    (hwritten : written = s.memory.read ⟨s.outputBuffer.ptr, buffered⟩)
    (hroom : buffered ≤ s.outputBuffer.len) :
    (¬(written ++ bytes).length > s.outputBuffer.len ∧
      s.emit buffered bytes =
        ({ s with memory := s.memory.write (s.outputBuffer.ptr + buffered) bytes },
          .ok (buffered + bytes.length)) ∧
      buffered + bytes.length ≤ s.outputBuffer.len) ∨
    (written ++ bytes).length > s.outputBuffer.len ∧
      ∃ memory, s.emit buffered bytes = ({ s with memory }, .error (.encoder .writeFailed)) := by
  have hlength : (written ++ bytes).length = buffered + bytes.length := by
    rw [List.length_append, hwritten, Memory.length_read]
  rw [hlength]
  by_cases hfits : bytes.length ≤ s.outputBuffer.len - buffered
  · exact Or.inl ⟨by omega, emit_fits hfits, by omega⟩
  · refine Or.inr ⟨by omega, s.memory.write (s.outputBuffer.ptr + buffered)
      (bytes.take (s.outputBuffer.len - buffered)), ?_⟩
    rw [Streaming.emit, if_neg hfits]

/-- Both loops go on with the same fragment, whatever answers come after it. -/
theorem next_seen {σ : Type} {output buffer : Slice} (producer : Producer σ output buffer)
    {sofar buffered : Nat} {s : Streaming σ} {fill : Cell.Fill} (houtput : s.outputBuffer = output)
    (hbuffer : s.buffer = buffer) (hroom : buffered ≤ output.len)
    (hseen : Seen s sofar buffered fill) :
    ∃ s' fragment trace, s.next producer.produce = (s', fragment) ∧
      s'.answers = s.answers ++ trace ∧ s'.outputBuffer = output ∧ s'.buffer = buffer ∧
      s'.streaming = s.streaming ∧ fill.encoder = s'.encoder ∧
      fill.written = s'.memory.read ⟨output.ptr, buffered⟩ ∧
      s'.responseBodyBytes = sofar + fill.payload ∧
      (fragment = none → s'.streamFragment = none) ∧
      ∀ more, Takes fill (trace ++ more) (fragment.map s'.memory.read) more := by
  have hinside : (⟨output.ptr, buffered⟩ : Slice).Inside output :=
    ⟨Nat.le_refl _, Nat.add_le_add_left hroom _⟩
  have hkept := @Producer.kept σ _ _ producer s.exchange s.memory _ hinside
  unfold Streaming.next
  cases hfragment : s.streamFragment with
  | some x =>
      refine ⟨s, some x, [], rfl, (List.append_nil _).symm, houtput, hbuffer, rfl, hseen.encoder,
        by rw [← houtput]; exact hseen.written, hseen.payload, nofun, fun more => ?_⟩
      exact Or.inl ⟨by rw [hseen.fragment, hfragment], nofun, rfl⟩
  | none =>
      rcases hanswer : producer.produce s.exchange s.memory buffer with
        ⟨exchange, memory, fragment⟩
      rw [hanswer] at hkept
      simp only [hbuffer, hanswer]
      refine ⟨_, fragment, [fragment.map memory.read], rfl, rfl, houtput, hbuffer, rfl,
        hseen.encoder, ?_, hseen.payload, fun _ => rfl, fun more => ?_⟩
      · rw [hseen.written, houtput]
        exact hkept.symm
      · exact Or.inr ⟨by rw [hseen.fragment, hfragment]; rfl, rfl⟩

/-- A fragment is written in both models, or in neither. -/
theorem write_seen {σ : Type} {s : Streaming σ} {x : Slice} {sofar buffered : Nat}
    {fill : Cell.Fill} (hencoder : fill.encoder = s.encoder)
    (hwritten : fill.written = s.memory.read ⟨s.outputBuffer.ptr, buffered⟩)
    (hpayload : s.responseBodyBytes = sofar + fill.payload)
    (hroom : buffered ≤ s.outputBuffer.len) (hstreaming : s.streaming = true) (fuel : Nat) :
    ∃ s', s'.answers = s.answers ∧
      ((∃ error, ({ s with streamFragment := none } : Streaming σ).write buffered x =
          (s', .error error) ∧
        ∀ more, (match fill.encoder.write (s.memory.read x) with
          | .error _ => none
          | .ok (encoder, encoded) =>
              if (fill.written ++ encoded).length > s.outputBuffer.len then none
              else Cell.fillStream s.outputBuffer.len fuel more
                { encoder, written := fill.written ++ encoded
                  payload := fill.payload + (s.memory.read x).length }) = none) ∨
      ∃ n next, ({ s with streamFragment := none } : Streaming σ).write buffered x = (s', .ok n) ∧
        s'.outputBuffer = s.outputBuffer ∧ s'.applicationBuffer = s.applicationBuffer ∧
        s'.streaming = true ∧ n ≤ s.outputBuffer.len ∧ Seen s' sofar n next ∧
        ∀ more, (match fill.encoder.write (s.memory.read x) with
          | .error _ => none
          | .ok (encoder, encoded) =>
              if (fill.written ++ encoded).length > s.outputBuffer.len then none
              else Cell.fillStream s.outputBuffer.len fuel more
                { encoder, written := fill.written ++ encoded
                  payload := fill.payload + (s.memory.read x).length }) =
          Cell.fillStream s.outputBuffer.len fuel more next) := by
  have htext := Memory.length_read s.memory x
  rw [hencoder]
  simp only [Streaming.write]
  cases hwrite : s.encoder.write (s.memory.read x) with
  | error failure =>
      exact ⟨{ s with streamFragment := none }, rfl, Or.inl ⟨_, rfl, fun _ => rfl⟩⟩
  | ok result =>
      obtain ⟨next, encoded⟩ := result
      simp only
      rcases @emit_seen σ { s with streamFragment := none } buffered fill.written encoded hwritten
        hroom with ⟨hfits, hemit, hend⟩ | ⟨hlong, memory, hemit⟩
      · rw [hemit]
        refine ⟨_, ?_, Or.inr ⟨_, _, rfl, rfl, rfl, hstreaming, hend, ?_, fun _ => if_neg hfits⟩⟩
        · rfl
        · exact
            { encoder := rfl
              written := by simp only; rw [Memory.read_write_append, ← hwritten]
              payload := by simp only; omega
              fragment := rfl
              streaming := hstreaming.symm }
      · rw [hemit]
        exact ⟨{ s with memory, streamFragment := none }, rfl,
          Or.inl ⟨_, rfl, fun _ => if_pos hlong⟩⟩

/-- The end is written in both models, or in neither. -/
theorem finish_seen {σ : Type} {s : Streaming σ} {sofar buffered : Nat} {fill : Cell.Fill}
    (hencoder : fill.encoder = s.encoder)
    (hwritten : fill.written = s.memory.read ⟨s.outputBuffer.ptr, buffered⟩)
    (hpayload : s.responseBodyBytes = sofar + fill.payload)
    (hroom : buffered ≤ s.outputBuffer.len) (hfragment : s.streamFragment = none)
    {result : Option Cell.Fill}
    (hresult : result = match fill.encoder.finish with
      | .error _ => none
      | .ok (encoder, encoded) =>
          if (fill.written ++ encoded).length > s.outputBuffer.len then none
          else some { encoder, written := fill.written ++ encoded, payload := fill.payload
                      streaming := false }) :
    ∃ s', s'.answers = s.answers ∧
      ((∃ error, s.finish buffered = (s', .error error) ∧ result = none) ∨
      ∃ n fill', s.finish buffered = (s', .ok n) ∧ result = some fill' ∧ Seen s' sofar n fill') := by
  rw [hencoder] at hresult
  simp only [Streaming.finish]
  cases hfinish : s.encoder.finish with
  | error failure =>
      rw [hfinish] at hresult
      exact ⟨s, rfl, Or.inl ⟨_, rfl, hresult⟩⟩
  | ok answer =>
      obtain ⟨next, encoded⟩ := answer
      rw [hfinish] at hresult
      simp only at hresult ⊢
      rcases @emit_seen σ s buffered fill.written encoded hwritten hroom with
        ⟨hfits, hemit, -⟩ | ⟨hlong, memory, hemit⟩
      · rw [hemit]
        refine ⟨_, ?_, Or.inr ⟨_, _, rfl, hresult.trans (if_neg hfits), ?_⟩⟩
        · rfl
        · exact
            { encoder := rfl
              written := by simp only; rw [Memory.read_write_append, ← hwritten]
              payload := hpayload
              fragment := by simp only; rw [hfragment]; rfl
              streaming := rfl }
      · rw [hemit]
        exact ⟨{ s with memory }, rfl, Or.inl ⟨_, rfl, hresult.trans (if_pos hlong)⟩⟩

/-- The loop over slices does what the loop of the worker does with the texts that were produced. -/
theorem fillLoop_seen {σ : Type} {output buffer : Slice} (producer : Producer σ output buffer)
    {sofar : Nat} (fuel : Nat) :
    ∀ {s : Streaming σ} {buffered : Nat} {fill : Cell.Fill}, s.outputBuffer = output →
      s.buffer = buffer → buffered ≤ output.len → s.streaming = true → Seen s sofar buffered fill →
    ∃ s' trace, s'.answers = s.answers ++ trace ∧
      ((∃ error, Streaming.fillLoop producer.produce fuel s buffered = (s', .error error) ∧
        Cell.fillStream output.len fuel trace fill = none) ∨
      ∃ n fill', Streaming.fillLoop producer.produce fuel s buffered = (s', .ok n) ∧
        Cell.fillStream output.len fuel trace fill = some fill' ∧ Seen s' sofar n fill') := by
  induction fuel with
  | zero =>
      intro s buffered fill _ _ _ _ hseen
      exact ⟨s, [], (List.append_nil _).symm, Or.inr ⟨buffered, fill, rfl, rfl, hseen⟩⟩
  | succ fuel ih =>
      intro s buffered fill houtput hbuffer hroom hstreaming hseen
      have hlength : fill.written.length = buffered := by
        rw [hseen.written, Memory.length_read]
      obtain ⟨s', fragment, trace, hnext, hanswers, houtput', hbuffer', hstreaming', hencoder,
        hwritten, hpayload, hnone, hchoice⟩ := next_seen producer houtput hbuffer hroom hseen
      have hlen : s'.outputBuffer.len = output.len := congrArg Slice.len houtput'
      rw [← houtput'] at hwritten
      rw [Streaming.fillLoop, houtput]
      by_cases htight : output.len - buffered ≤ 32
      · refine ⟨s, [], (List.append_nil _).symm, Or.inr ⟨buffered, fill, if_pos htight, ?_, hseen⟩⟩
        rw [Cell.fillStream, hlength, if_pos htight]
      · rw [if_neg htight, hnext]
        rw [← hlength] at htight
        cases fragment with
        | none =>
            have hstep := @fillStream_none output.len fuel fill trace [] htight
              (by have := hchoice []; rwa [List.append_nil] at this)
            rw [← hlen] at hstep hroom ⊢
            obtain ⟨last, hlast, hfinish⟩ :=
              finish_seen hencoder hwritten hpayload hroom (hnone rfl) hstep
            exact ⟨last, trace, hlast.trans hanswers, hfinish⟩
        | some x =>
            have htext := Memory.length_read s'.memory x
            by_cases hempty : s'.memory.read x = []
            · have hstep := @fillStream_empty output.len fuel fill trace [] htight
                (by have := hchoice []; rwa [List.append_nil, Option.map_some, hempty] at this)
              rw [hempty] at htext
              exact ⟨s', trace, hanswers, Or.inl ⟨_, if_pos htext.symm, hstep⟩⟩
            · have hstep := fun more => @fillStream_some output.len fuel fill _ more _ htight hempty
                (hchoice more)
              have hne : x.len ≠ 0 := by
                rw [← htext]
                exact fun h => hempty (List.length_eq_zero_iff.mp h)
              have hstarted : fill.written ≠ [] ↔ 0 < buffered := by
                rw [← hlength]
                exact List.length_pos_iff.symm
              simp only
              rw [if_neg hne, hlen]
              rw [hlength] at hstep
              by_cases hback : 0 < buffered ∧ x.len > output.len - buffered - 32
              · -- both hold the fragment back
                rw [if_pos hback]
                refine ⟨s'.holding x, trace, hanswers, Or.inr ⟨buffered,
                  { fill with fragment := some (s'.memory.read x) }, rfl, ?_, ?_⟩⟩
                · have := hstep []
                  rw [List.append_nil, if_pos ⟨hstarted.mpr hback.1, by rw [htext]; exact hback.2⟩]
                    at this
                  exact this
                · exact ⟨hencoder, hwritten, hpayload, rfl, hseen.streaming.trans hstreaming'.symm⟩
              · have hfront : ¬(fill.written ≠ [] ∧
                    (s'.memory.read x).length > output.len - buffered - 32) :=
                  fun h => hback ⟨hstarted.mp h.1, by rw [← htext]; exact h.2⟩
                simp only [if_neg hfront] at hstep
                rw [if_neg hback]
                rw [← hlen] at hroom hstep ih ⊢
                obtain ⟨last, hlast, ⟨error, hwrite, hvalue⟩ |
                  ⟨n, next, hwrite, hsame, happlication, hgoing, hn, hseen', hvalue⟩⟩ :=
                  write_seen hencoder hwritten hpayload hroom (hstreaming'.trans hstreaming) fuel
                · rw [hwrite]
                  refine ⟨last, trace, hlast.trans hanswers, Or.inl ⟨error, rfl, ?_⟩⟩
                  have := hstep []
                  rw [List.append_nil] at this
                  exact this.trans (hvalue [])
                · rw [hwrite]
                  have hlastBuffer : last.buffer = buffer := by
                    rw [← hbuffer', Streaming.buffer, hsame, happlication]
                    rfl
                  obtain ⟨final, rest, hfinal, hresult⟩ :=
                    ih (hsame.trans houtput') hlastBuffer hn hgoing hseen'
                  refine ⟨final, trace ++ rest, ?_, ?_⟩
                  · rw [hfinal, hlast, hanswers, List.append_assoc]
                  · rw [hstep rest, hvalue rest]
                    exact hresult

/-- One call, as the worker sees it. -/
theorem fillStream_seen {σ : Type} {s : Streaming σ}
    (producer : Producer σ s.outputBuffer s.buffer) (hstreaming : s.streaming = true) :
    ∃ s' trace, s'.answers = s.answers ++ trace ∧
      ((∃ error, Streaming.fillStream producer.produce s = (s', some error) ∧
        Cell.fillStream s.outputBuffer.len 16 trace
          { encoder := s.encoder, fragment := s.streamFragment.map s.memory.read } = none) ∨
      ∃ fill, Streaming.fillStream producer.produce s = (s', none) ∧
        Cell.fillStream s.outputBuffer.len 16 trace
          { encoder := s.encoder, fragment := s.streamFragment.map s.memory.read } = some fill ∧
        Seen s' s.responseBodyBytes s'.outputLen fill) := by
  have hseen : Seen s s.responseBodyBytes 0
      { encoder := s.encoder, fragment := s.streamFragment.map s.memory.read } :=
    ⟨rfl, rfl, rfl, rfl, hstreaming.symm⟩
  obtain ⟨s', trace, hanswers, ⟨error, hloop, hvalue⟩ | ⟨n, fill, hloop, hvalue, hlast⟩⟩ :=
    fillLoop_seen producer 16 rfl rfl (Nat.zero_le _) hstreaming hseen
  · rw [Streaming.fillStream, hloop]
    exact ⟨s', trace, hanswers, Or.inl ⟨error, rfl, hvalue⟩⟩
  · rw [Streaming.fillStream, hloop]
    exact ⟨{ s' with outputLen := n }, trace, hanswers, Or.inr ⟨fill, rfl, hvalue,
      ⟨hlast.encoder, hlast.written, hlast.payload, hlast.fragment, hlast.streaming⟩⟩⟩

/-! ### Runs -/

/-- **Fragments are preserved.**  After any number of calls: a stream that is over has put the encoding
of all fragments on the wire, in order and with one end.  One that goes on has put those on the wire
that are not held back, at least one for each call, and what is held back still has the text that it
was produced with.  The next call asks the producer at most 16 times; it ends the stream or has
something to send, and it fails only if the fragments do not amount to the length that was declared. -/
theorem fillStream_fragments {σ : Type} {first : Streaming σ}
    (producer : Producer σ first.outputBuffer first.buffer)
    (hstart : first.streaming = true ∧ first.streamFragment = none ∧ first.answers = [])
    (hlive : first.encoder.mode ≠ .suppressed ∧ first.encoder.mode ≠ .finished)
    (hfull : 64 ≤ first.outputBuffer.len) (hword : first.outputBuffer.len < 2 ^ 64)
    {n : Nat} {s : Streaming σ} {wire : Bytes} (h : Fills producer.produce first n s wire) :
    (s.streaming = false → ∃ fragments : List Bytes, s.answers = fragments.map some ++ [none] ∧
      Encodes first.encoder.mode fragments wire) ∧
    (s.streaming = true → ∃ done : List Bytes, s.answers = (done ++ s.pending).map some ∧
      n ≤ done.length ∧
      Recipient.Sent.Encoded first.encoder.mode { encoder := s.encoder, wire, fragments := done } ∧
      ∀ memory : Memory UInt8,
        (∀ x, s.streamFragment = some x → memory.read x = s.memory.read x) →
        ∃ s' result, Streaming.fillStream producer.produce { s with memory } = (s', result) ∧
          s'.answers.length ≤ s.answers.length + 16 ∧
          (result = none → s'.streaming = false ∨ 0 < s'.outputLen) ∧
          ∀ error, result = some error → Mismatch first s' error) := by
  rcases fills_delivered producer hstart hlive hfull hword h with hended | ⟨done, hdone, hcount⟩
  · refine ⟨fun _ => hended.encodes, fun hstreaming => ?_⟩
    rw [hended.streaming] at hstreaming
    cases hstreaming
  · refine ⟨fun hstreaming => ?_, fun _ => ⟨done, hdone.answers, hcount, hdone.encoded, ?_⟩⟩
    · rw [hdone.streaming] at hstreaming
      cases hstreaming
    · intro memory hkept
      obtain ⟨s', hcalls, ⟨error, heq, hmismatch⟩ | ⟨heq, hresult⟩⟩ :=
        fillStream_spec producer hlive hfull hword (hdone.elsewhere hkept)
      · refine ⟨s', some error, heq, hcalls, nofun, ?_⟩
        rintro _ ⟨⟩
        exact hmismatch
      · refine ⟨s', none, heq, hcalls, fun _ => ?_, nofun⟩
        exact hresult.imp (·.streaming) fun ⟨_, _, _, hpos⟩ => hpos

/-- Two fragments in the buffer, and then the end. -/
def twoFragments : Producer Nat ⟨0, 64⟩ ⟨100, 24⟩ where
  produce count memory buffer :=
    if count < 2 then
      (count + 1, memory.write buffer.ptr (List.replicate 24 (0x61 + UInt8.ofNat count)),
        some ⟨buffer.ptr, 24⟩)
    else (count, memory, none)
  fragment := by
    intro count memory x h
    split at h
    · cases h
      exact ⟨by decide, by decide, Or.inr (by decide)⟩
    · cases h
  kept := by
    intro count memory x hx
    split
    · refine Memory.read_write_apart _ (Or.inr (Or.inl ?_))
      obtain ⟨-, hle⟩ := hx
      exact hle.trans (by simp)
    · rfl

def chunkedStream : Streaming Nat :=
  { memory := ⟨fun _ => 0, [], List.Pairwise.nil⟩
    exchange := 0
    outputBuffer := ⟨0, 64⟩
    applicationBuffer := ⟨100, 24⟩
    encoder := ⟨.chunked, false⟩ }

/-- After the first call, which has no room for the second fragment. -/
def heldStream : Streaming Nat := (Streaming.fillStream twoFragments.produce chunkedStream).1

/-- Before the second call, which finds another text in the output buffer. -/
def overwritten : Streaming Nat :=
  { heldStream with memory := heldStream.memory.write 0 (List.replicate 64 0) }

/-- The second fragment waits until the next call. -/
theorem fillStream_fragments_held : ∃ (s : Streaming Nat) (first wire : Bytes),
    Fills twoFragments.produce chunkedStream 1 heldStream first ∧
      Fills twoFragments.produce chunkedStream 2 s wire ∧ heldStream.streaming = true ∧
      heldStream.pending = [List.replicate 24 0x62] ∧
      (∃ done : List Bytes, heldStream.answers = (done ++ heldStream.pending).map some ∧
        Recipient.Sent.Encoded .chunked
          { encoder := heldStream.encoder, wire := first, fragments := done }) ∧
      s.answers = [some (List.replicate 24 0x61), some (List.replicate 24 0x62), none] ∧
      ∃ fragments : List Bytes, s.answers = fragments.map some ++ [none] ∧
        Encodes .chunked fragments wire := by
  have hfill : Streaming.fillStream twoFragments.produce
      { chunkedStream with memory := chunkedStream.memory } = (heldStream, none) :=
    Prod.ext rfl (by decide +kernel)
  have hstart : Fills twoFragments.produce chunkedStream 0 chunkedStream [] := .start
  have hfirst := hstart.call rfl (fun _ _ => rfl) hfill
  have hfragment : heldStream.streamFragment = some ⟨100, 24⟩ := by decide +kernel
  have hgoes : heldStream.streaming = true := by decide +kernel
  have hpending : heldStream.pending = [List.replicate 24 0x62] := by decide +kernel
  have hkept : ∀ x, heldStream.streamFragment = some x →
      overwritten.memory.read x = heldStream.memory.read x := by
    intro x hx
    obtain rfl := Option.some.inj (hfragment.symm.trans hx)
    exact Memory.read_write_apart _ (Or.inr (Or.inr (by decide)))
  have hrest : Streaming.fillStream twoFragments.produce
      { heldStream with memory := overwritten.memory } =
        ((Streaming.fillStream twoFragments.produce overwritten).1, none) :=
    Prod.ext rfl (by decide +kernel)
  have hsecond := hfirst.call hgoes hkept hrest
  have hends : (Streaming.fillStream twoFragments.produce overwritten).1.streaming = false := by
    decide +kernel
  have hanswers : (Streaming.fillStream twoFragments.produce overwritten).1.answers =
      [some (List.replicate 24 0x61), some (List.replicate 24 0x62), none] := by
    decide +kernel
  obtain ⟨done, hdone, -, hencoded, -⟩ := (@fillStream_fragments Nat chunkedStream twoFragments
    ⟨rfl, rfl, rfl⟩ ⟨by rintro ⟨⟩, by rintro ⟨⟩⟩ (by decide) (by decide) _ _ _ hfirst).2 hgoes
  have hended := (@fillStream_fragments Nat chunkedStream twoFragments
    ⟨rfl, rfl, rfl⟩ ⟨by rintro ⟨⟩, by rintro ⟨⟩⟩ (by decide) (by decide) _ _ _ hsecond).1 hends
  exact ⟨_, _, _, hfirst, hsecond, hgoes, hpending, ⟨done, hdone, hencoded⟩, hanswers, hended⟩

end Zhtps.Worker
