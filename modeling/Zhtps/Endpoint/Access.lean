import Mathlib.Data.List.Nodup
import Mathlib.Tactic.SplitIfs
import Zhtps.Http.Syntax

/-!
The metadata that a handler adds to the access log, after `Access` and `accessValue` of
`src/endpoint.zig`.

The strings of the attributes are slices of a storage inside the record itself.  An update is built
in a second record and copied back, so the new value may be a slice of the old record.
-/

namespace Zhtps.Access

def maxAttributes : Nat := 8

def storageSize : Nat := 512

/-- `Logger.Attribute.Scalar`, with its strings as slices or as texts.  A float is its bits. -/
inductive Scalar (σ : Type)
  | string (text : σ)
  | signed (value : Int)
  | unsigned (value : Nat)
  | float (bits : UInt64)
  | boolean (value : Bool)
  | null
  deriving DecidableEq

/-- `Logger.Attribute`. -/
structure Attribute (σ : Type) where
  name : σ
  value : Scalar σ
  deriving DecidableEq

/-- A slice of the storage. -/
structure Span where
  start : Nat
  len : Nat
  deriving DecidableEq

/-- The bytes of `string_storage`; those that were not written yet are undefined. -/
structure Storage where
  bytes : Bytes
  length_eq : bytes.length = storageSize

namespace Storage

def read (storage : Storage) (span : Span) : Bytes := (storage.bytes.drop span.start).take span.len

def write (storage : Storage) (start : Nat) (text : Bytes) (h : text.length ≤ storageSize - start) :
    Storage where
  bytes := storage.bytes.take start ++ text ++ storage.bytes.drop (start + text.length)
  length_eq := by
    have hlength := storage.length_eq
    simp only [List.length_append, List.length_take, List.length_drop]
    by_cases hstart : start ≤ storageSize
    · omega
    · have htext : text.length = 0 := by omega
      omega

def undefined : Storage := ⟨List.replicate storageSize 0, List.length_replicate⟩

theorem read_write_self (storage : Storage) {start : Nat} {text : Bytes} (hstart : start ≤ storageSize)
    (h : text.length ≤ storageSize - start) :
    (storage.write start text h).read ⟨start, text.length⟩ = text := by
  have hlength : (storage.bytes.take start).length = start := by
    rw [List.length_take, storage.length_eq]
    omega
  simp only [read, write]
  rw [List.append_assoc, List.drop_left' hlength, List.take_left' rfl]

/-- What lies before a write reads as before. -/
theorem read_write_before (storage : Storage) {start : Nat} {text : Bytes}
    (h : text.length ≤ storageSize - start) {span : Span} (hspan : span.start + span.len ≤ start)
    (hstart : start ≤ storageSize) :
    (storage.write start text h).read span = storage.read span := by
  have hlength : (storage.bytes.take start).length = start := by
    rw [List.length_take, storage.length_eq]
    omega
  simp only [read, write]
  rw [List.append_assoc, List.drop_append_of_le_length (by omega),
    List.take_append_of_le_length (by rw [List.length_drop, hlength]; omega), List.drop_take,
    List.take_take, Nat.min_eq_left (by omega)]

end Storage

end Zhtps.Access

namespace Zhtps

open Access

structure Access where
  attributes : List (Attribute Span) := []
  storage : Storage
  stringUsed : Nat := 0
  dropped : Nat := 0
  used_le : stringUsed ≤ storageSize := by exact Nat.zero_le _

namespace Access

def reset (access : Access) : Access where
  storage := access.storage

def copyString (access : Access) (value : Bytes) : Option (Access × Span) :=
  if h : value.length ≤ storageSize - access.stringUsed then
    some ({ access with
      storage := access.storage.write access.stringUsed value h
      stringUsed := access.stringUsed + value.length
      used_le := by
        have := access.used_le
        omega }, ⟨access.stringUsed, value.length⟩)
  else none

/-- The value of an attribute with its string copied from another storage. -/
def copyScalar (access : Access) (source : Storage) : Scalar Span → Option (Access × Scalar Span)
  | .string span => (access.copyString (source.read span)).map (·.map id .string)
  | .signed value => some (access, .signed value)
  | .unsigned value => some (access, .unsigned value)
  | .float bits => some (access, .float bits)
  | .boolean value => some (access, .boolean value)
  | .null => some (access, .null)

/-- Nothing where a copy does not fit: the code takes it for granted that all do. -/
def copyAttribute (source : Storage) (access : Access) (field : Attribute Span) : Option Access := do
  let (access, name) ← access.copyString (source.read field.name)
  let (access, value) ← access.copyScalar source field.value
  if access.attributes.length < maxAttributes then
    some { access with attributes := access.attributes ++ [⟨name, value⟩] }
  else none

/-- Bytes that a handler passes: its own, or those of a slice of the attributes. -/
inductive Source
  | outside (bytes : Bytes)
  | stored (span : Span)

def Source.bytes (storage : Storage) : Source → Bytes
  | .outside bytes => bytes
  | .stored span => storage.read span

/-- A value by the kind of its type.  A float comes with its width, whether it is finite, and what a
cast to 64 bits makes of it; for one known at compile time it is the cast that is finite. -/
inductive Value
  | boolean (value : Bool)
  | comptimeInt (value : Int)
  | signedInt (value : Int)
  | unsignedInt (value : Nat)
  | comptimeFloat (inRange finite : Bool) (bits : UInt64)
  | float (width : Nat) (finite : Bool) (bits : UInt64)
  | null
  | optional (item : Value)
  | tag (name : Bytes)
  | slice (source : Source)
  | unsupported

/-- A number known at compile time. -/
def comptimeInt {σ : Type} (value : Int) : Option (Scalar σ) :=
  if value < -2 ^ 63 ∨ 2 ^ 64 - 1 < value then none
  else if value < 0 then some (.signed value)
  else some (.unsigned value.toNat)

def signedInt {σ : Type} (value : Int) : Option (Scalar σ) :=
  if -2 ^ 63 ≤ value ∧ value < 2 ^ 63 then some (.signed value) else none

def unsignedInt {σ : Type} (value : Nat) : Option (Scalar σ) :=
  if value < 2 ^ 64 then some (.unsigned value) else none

def comptimeFloat {σ : Type} (inRange finite : Bool) (bits : UInt64) : Option (Scalar σ) :=
  if inRange && finite then some (.float bits) else none

def float {σ : Type} (width : Nat) (finite : Bool) (bits : UInt64) : Option (Scalar σ) :=
  if 64 < width || !finite then none else some (.float bits)

def accessValue (access : Access) (source : Storage) : Value → Option (Access × Scalar Span)
  | .boolean value => some (access, .boolean value)
  | .comptimeInt value => (comptimeInt value).map (access, ·)
  | .signedInt value => (signedInt value).map (access, ·)
  | .unsignedInt value => (unsignedInt value).map (access, ·)
  | .comptimeFloat inRange finite bits => (comptimeFloat inRange finite bits).map (access, ·)
  | .float width finite bits => (float width finite bits).map (access, ·)
  | .null => some (access, .null)
  | .optional item => access.accessValue source item
  | .tag name => (access.copyString name).map (·.map id .string)
  | .slice value => (access.copyString (value.bytes source)).map (·.map id .string)
  | .unsupported => none

/-- What `put` appends to the copies of the attributes that stay. -/
def append (next : Access) (source : Storage) (name : Bytes) (value : Value) : Option Access :=
  if next.attributes.length = maxAttributes then none
  else do
    let (next, name) ← next.copyString name
    let (next, value) ← next.accessValue source value
    some { next with attributes := next.attributes ++ [⟨name, value⟩] }

/-- The attributes that an update of a name keeps. -/
def others (access : Access) (name : Bytes) : List (Attribute Span) :=
  access.attributes.filter fun field => access.storage.read field.name ≠ name

/-- An update; nothing where a copy of an attribute fails that the code takes for granted. -/
def put (access : Access) (name : Bytes) (value : Value) : Option Access := do
  let next ← (access.others name).foldlM (copyAttribute access.storage) { storage := .undefined }
  match next.append access.storage name value with
  | none => some { access with dropped := access.dropped + 1 }
  | some next =>
      next.attributes.foldlM (copyAttribute next.storage)
        { access.reset with dropped := access.dropped }

inductive Call
  | put (name : Bytes) (value : Value)
  | reset

def call (access : Access) : Call → Option Access
  | .put name value => access.put name value
  | .reset => some access.reset

/-! ### What a record says -/

/-- A value with its string read. -/
def Scalar.read (storage : Storage) : Scalar Span → Scalar Bytes
  | .string span => .string (storage.read span)
  | .signed value => .signed value
  | .unsigned value => .unsigned value
  | .float bits => .float bits
  | .boolean value => .boolean value
  | .null => .null

def Attribute.read (storage : Storage) (field : Attribute Span) : Attribute Bytes :=
  ⟨storage.read field.name, field.value.read storage⟩

/-- The attributes with their strings. -/
def fields (access : Access) : List (Attribute Bytes) :=
  access.attributes.map (Attribute.read access.storage)

def Scalar.size : Scalar Bytes → Nat
  | .string text => text.length
  | _ => 0

def Attribute.size (field : Attribute Bytes) : Nat := field.name.length + field.value.size

/-- The bytes of all strings. -/
def stringBytes (fields : List (Attribute Bytes)) : Nat := (fields.map Attribute.size).sum

/-- What a value becomes. -/
def convert (storage : Storage) : Value → Option (Scalar Bytes)
  | .boolean value => some (.boolean value)
  | .comptimeInt value => comptimeInt value
  | .signedInt value => signedInt value
  | .unsignedInt value => unsignedInt value
  | .comptimeFloat inRange finite bits => comptimeFloat inRange finite bits
  | .float width finite bits => float width finite bits
  | .null => some .null
  | .optional item => convert storage item
  | .tag name => some (.string name)
  | .slice source => some (.string (source.bytes storage))
  | .unsupported => none

/-- Attributes that a record has room for. -/
def Fits (fields : List (Attribute Bytes)) : Prop :=
  fields.length ≤ maxAttributes ∧ stringBytes fields ≤ storageSize

instance (fields : List (Attribute Bytes)) : Decidable (Fits fields) :=
  inferInstanceAs (Decidable (_ ∧ _))

def without (fields : List (Attribute Bytes)) (name : Bytes) : List (Attribute Bytes) :=
  fields.filter fun field => field.name ≠ name

/-- The attributes after an update: the old one of that name is gone, and the new one is the last;
nothing where they are too many or too long. -/
def updated (fields : List (Attribute Bytes)) (name : Bytes) (value : Option (Scalar Bytes)) :
    Option (List (Attribute Bytes)) := do
  let value ← value
  let next := without fields name ++ [⟨name, value⟩]
  if Fits next then some next else none

/-! ### Copies -/

/-- A slice of the part of the storage that is in use. -/
def Within (access : Access) (span : Span) : Prop := span.start + span.len ≤ access.stringUsed

def Scalar.Within (access : Access) : Scalar Span → Prop
  | .string span => access.Within span
  | _ => True

/-- The strings of the attributes fill the storage, and there are no more attributes than places. -/
structure Stored (access : Access) : Prop where
  names : ∀ field ∈ access.attributes, access.Within field.name
  values : ∀ field ∈ access.attributes, Scalar.Within access field.value
  stringUsed : access.stringUsed = stringBytes access.fields
  length_le : access.attributes.length ≤ maxAttributes

/-- A later state of a record: its strings are where they were, and more of them. -/
structure Grown (access next : Access) (bytes : Nat) : Prop where
  attributes : next.attributes = access.attributes
  stringUsed : next.stringUsed = access.stringUsed + bytes
  dropped : next.dropped = access.dropped
  read : ∀ span, access.Within span → next.storage.read span = access.storage.read span

theorem Grown.refl (access : Access) : Grown access access 0 :=
  ⟨rfl, rfl, rfl, fun _ _ => rfl⟩

theorem Grown.within {access next : Access} {bytes : Nat} (h : Grown access next bytes) {span : Span}
    (hspan : access.Within span) : next.Within span := by
  unfold Within at hspan ⊢
  rw [h.stringUsed]
  omega

theorem Grown.trans {access middle next : Access} {first second : Nat}
    (h : Grown access middle first) (h' : Grown middle next second) :
    Grown access next (first + second) where
  attributes := h'.attributes.trans h.attributes
  stringUsed := by rw [h'.stringUsed, h.stringUsed, Nat.add_assoc]
  dropped := h'.dropped.trans h.dropped
  read span hspan := (h'.read span (h.within hspan)).trans (h.read span hspan)

theorem Grown.scalarWithin {access next : Access} {bytes : Nat} (h : Grown access next bytes)
    {value : Scalar Span} (hvalue : value.Within access) : value.Within next := by
  cases value with
  | string span => exact h.within hvalue
  | _ => trivial

theorem Grown.readScalar {access next : Access} {bytes : Nat} (h : Grown access next bytes)
    {value : Scalar Span} (hvalue : value.Within access) :
    value.read next.storage = value.read access.storage := by
  cases value with
  | string span => exact congrArg Scalar.string (h.read span hvalue)
  | _ => rfl

theorem Grown.fields {access next : Access} {bytes : Nat} (h : Grown access next bytes)
    (hstored : Stored access) : next.fields = access.fields := by
  rw [Access.fields, Access.fields, h.attributes]
  refine List.map_congr_left fun field hfield => ?_
  rw [Attribute.read, Attribute.read, h.read _ (hstored.names field hfield),
    h.readScalar (hstored.values field hfield)]

/-- A copy of a text needs room for it, and the slice reads as the text. -/
theorem copyString_spec (access : Access) (text : Bytes) :
    access.copyString text = none ∧ storageSize < access.stringUsed + text.length ∨
    ∃ next span, access.copyString text = some (next, span) ∧ Grown access next text.length ∧
      next.Within span ∧ next.storage.read span = text := by
  have hused := access.used_le
  unfold copyString
  split_ifs with hroom
  · refine Or.inr ⟨_, _, rfl, ⟨rfl, rfl, rfl, fun span hspan => ?_⟩, Nat.le_refl _, ?_⟩
    · exact Storage.read_write_before _ hroom hspan hused
    · exact Storage.read_write_self _ hused hroom
  · exact Or.inl ⟨rfl, by omega⟩

/-- What a copy of a value does, by the room it needs. -/
def Copies (access : Access) (result : Option (Access × Scalar Span)) (value : Scalar Bytes) : Prop :=
  result = none ∧ storageSize < access.stringUsed + value.size ∨
  ∃ next copy, result = some (next, copy) ∧ Grown access next value.size ∧ copy.Within next ∧
    copy.read next.storage = value

theorem copies_string (access : Access) (text : Bytes) :
    Copies access ((access.copyString text).map (·.map id .string)) (.string text) := by
  rcases copyString_spec access text with ⟨hnone, hroom⟩ | ⟨next, span, hsome, hgrown, hspan, hread⟩
  · exact Or.inl ⟨by rw [hnone]; rfl, hroom⟩
  · exact Or.inr ⟨next, .string span, by rw [hsome]; rfl, hgrown, hspan, congrArg _ hread⟩

/-- A value without a string is copied as it is. -/
theorem copies_plain (access : Access) {value : Scalar Span} {text : Scalar Bytes}
    (hread : ∀ storage, value.read storage = text) (hsize : text.size = 0)
    (hwithin : ∀ access, value.Within access) : Copies access (some (access, value)) text :=
  Or.inr ⟨access, value, rfl, hsize.symm ▸ Grown.refl access, hwithin access, hread _⟩

theorem copyScalar_copies (access : Access) (source : Storage) (value : Scalar Span) :
    Copies access (access.copyScalar source value) (value.read source) := by
  cases value with
  | string span => exact copies_string access (source.read span)
  | signed value => exact copies_plain access (fun _ => rfl) rfl fun _ => trivial
  | unsigned value => exact copies_plain access (fun _ => rfl) rfl fun _ => trivial
  | float bits => exact copies_plain access (fun _ => rfl) rfl fun _ => trivial
  | boolean value => exact copies_plain access (fun _ => rfl) rfl fun _ => trivial
  | null => exact copies_plain access (fun _ => rfl) rfl fun _ => trivial

/-- A value is unsupported, or copied as what it becomes. -/
theorem accessValue_copies (access : Access) (source : Storage) (value : Value) :
    convert source value = none ∧ access.accessValue source value = none ∨
    ∃ text, convert source value = some text ∧
      Copies access (access.accessValue source value) text := by
  induction value with
  | boolean value => exact Or.inr ⟨_, rfl, copies_plain access (fun _ => rfl) rfl fun _ => trivial⟩
  | comptimeInt value =>
      unfold convert accessValue comptimeInt
      split_ifs
      · exact Or.inl ⟨rfl, rfl⟩
      · exact Or.inr ⟨_, rfl, copies_plain access (fun _ => rfl) rfl fun _ => trivial⟩
      · exact Or.inr ⟨_, rfl, copies_plain access (fun _ => rfl) rfl fun _ => trivial⟩
  | signedInt value =>
      unfold convert accessValue signedInt
      split_ifs
      · exact Or.inr ⟨_, rfl, copies_plain access (fun _ => rfl) rfl fun _ => trivial⟩
      · exact Or.inl ⟨rfl, rfl⟩
  | unsignedInt value =>
      unfold convert accessValue unsignedInt
      split_ifs
      · exact Or.inr ⟨_, rfl, copies_plain access (fun _ => rfl) rfl fun _ => trivial⟩
      · exact Or.inl ⟨rfl, rfl⟩
  | comptimeFloat inRange finite bits =>
      unfold convert accessValue comptimeFloat
      split_ifs
      · exact Or.inr ⟨_, rfl, copies_plain access (fun _ => rfl) rfl fun _ => trivial⟩
      · exact Or.inl ⟨rfl, rfl⟩
  | float width finite bits =>
      unfold convert accessValue float
      split_ifs
      · exact Or.inl ⟨rfl, rfl⟩
      · exact Or.inr ⟨_, rfl, copies_plain access (fun _ => rfl) rfl fun _ => trivial⟩
  | null => exact Or.inr ⟨_, rfl, copies_plain access (fun _ => rfl) rfl fun _ => trivial⟩
  | optional item ih => exact ih
  | tag name => exact Or.inr ⟨_, rfl, copies_string access name⟩
  | slice value => exact Or.inr ⟨_, rfl, copies_string access (value.bytes source)⟩
  | unsupported => exact Or.inl ⟨rfl, rfl⟩

/-- Attributes were appended. -/
structure After (access : Access) (fields : List (Attribute Bytes)) (last : Access) : Prop where
  stored : Stored last
  fields : last.fields = access.fields ++ fields
  dropped : last.dropped = access.dropped

theorem length_fields (access : Access) : access.fields.length = access.attributes.length :=
  List.length_map ..

theorem stringBytes_append (first second : List (Attribute Bytes)) :
    stringBytes (first ++ second) = stringBytes first + stringBytes second := by
  simp [stringBytes]

theorem stringBytes_singleton (field : Attribute Bytes) : stringBytes [field] = field.size := by
  simp [stringBytes]

/-- An attribute whose strings were copied becomes the last one. -/
theorem Grown.push {access next : Access} {field : Attribute Bytes} {name : Span}
    {value : Scalar Span} (h : Grown access next field.size) (hstored : Stored access)
    (hname : next.Within name) (hvalue : value.Within next)
    (hread : Attribute.read next.storage ⟨name, value⟩ = field)
    (hroom : access.attributes.length < maxAttributes) :
    After access [field] { next with attributes := next.attributes ++ [⟨name, value⟩] } := by
  have hfields := h.fields hstored
  have hlast : Access.fields { next with attributes := next.attributes ++ [⟨name, value⟩] } =
      access.fields ++ [field] := by
    rw [← hfields, ← hread]
    exact List.map_append
  refine ⟨⟨?_, ?_, ?_, ?_⟩, hlast, h.dropped⟩
  · intro other hother
    rcases List.mem_append.mp hother with hold | hnew
    · exact h.within (hstored.names other (h.attributes ▸ hold))
    · rw [List.mem_singleton.mp hnew]
      exact hname
  · intro other hother
    rcases List.mem_append.mp hother with hold | hnew
    · have hwithin := h.scalarWithin (hstored.values other (h.attributes ▸ hold))
      cases hcase : other.value with
      | string span =>
          rw [hcase] at hwithin
          exact hwithin
      | _ => trivial
    · rw [List.mem_singleton.mp hnew]
      cases value with
      | string span => exact hvalue
      | _ => trivial
  · rw [hlast, stringBytes_append, stringBytes_singleton, ← hstored.stringUsed]
    exact h.stringUsed
  · rw [List.length_append, h.attributes]
    exact hroom

/-- The copy of an attribute that fits is made. -/
theorem copyAttribute_spec {access : Access} (hstored : Stored access) {source : Storage}
    {field : Attribute Span} (hroom : access.attributes.length < maxAttributes)
    (hbytes : access.stringUsed + (field.read source).size ≤ storageSize) :
    ∃ last, copyAttribute source access field = some last ∧
      After access [field.read source] last := by
  have hsize : (field.read source).size =
      (source.read field.name).length + (field.value.read source).size := rfl
  rcases copyString_spec access (source.read field.name) with
    ⟨-, hfull⟩ | ⟨next, name, hname, hgrown, hwithin, hread⟩
  · omega
  · rcases copyScalar_copies next source field.value with
      ⟨-, hfull⟩ | ⟨last, value, hvalue, hgrown', hwithin', hread'⟩
    · rw [hgrown.stringUsed] at hfull
      omega
    · have hboth := hgrown.trans hgrown'
      have hlength : last.attributes.length < maxAttributes := by
        rw [hboth.attributes]
        exact hroom
      refine ⟨_, ?_, Grown.push (hsize ▸ hboth) hstored (hgrown'.within hwithin) hwithin' ?_ hroom⟩
      · simp only [copyAttribute, hname, hvalue, bind, Option.bind, if_pos hlength]
      · rw [Attribute.read, Attribute.read, hgrown'.read name hwithin, hread, hread']

/-- Copies of all attributes of a list that fit are made. -/
theorem copyAll_spec {access : Access} (hstored : Stored access) {source : Storage}
    {list : List (Attribute Span)} (hroom : access.attributes.length + list.length ≤ maxAttributes)
    (hbytes : access.stringUsed + stringBytes (list.map (Attribute.read source)) ≤ storageSize) :
    ∃ last, list.foldlM (copyAttribute source) access = some last ∧
      After access (list.map (Attribute.read source)) last := by
  induction list generalizing access with
  | nil => exact ⟨access, rfl, hstored, (List.append_nil _).symm, rfl⟩
  | cons field list ih =>
      rw [List.length_cons] at hroom
      rw [List.map_cons, ← List.singleton_append, stringBytes_append, stringBytes_singleton] at hbytes
      obtain ⟨next, hnext, hafter⟩ := @copyAttribute_spec access hstored source field (by omega) (by omega)
      have hlength : next.attributes.length = access.attributes.length + 1 := by
        rw [← length_fields, hafter.fields, List.length_append, length_fields, List.length_singleton]
      have hused : next.stringUsed = access.stringUsed + (field.read source).size := by
        rw [hafter.stored.stringUsed, hafter.fields, stringBytes_append, stringBytes_singleton,
          hstored.stringUsed]
      obtain ⟨last, hlast, hafter'⟩ := ih hafter.stored (by omega) (by omega)
      refine ⟨last, ?_, hafter'.stored, ?_, hafter'.dropped.trans hafter.dropped⟩
      · rw [List.foldlM_cons, hnext]
        exact hlast
      · rw [hafter'.fields, hafter.fields, List.append_assoc, List.map_cons]
        rfl

/-- A new attribute is appended when it is supported and fits. -/
theorem append_spec {next : Access} (hstored : Stored next) (source : Storage) (name : Bytes)
    (value : Value) :
    (∃ text last, convert source value = some text ∧ Fits (next.fields ++ [⟨name, text⟩]) ∧
      next.append source name value = some last ∧ After next [⟨name, text⟩] last) ∨
    next.append source name value = none ∧ ∀ text, convert source value = some text →
      ¬Fits (next.fields ++ [⟨name, text⟩]) := by
  have hfits (text : Scalar Bytes) : Fits (next.fields ++ [⟨name, text⟩]) ↔
      next.attributes.length + 1 ≤ maxAttributes ∧
      next.stringUsed + (name.length + text.size) ≤ storageSize := by
    rw [Fits, List.length_append, length_fields, List.length_singleton, stringBytes_append,
      stringBytes_singleton, hstored.stringUsed]
    rfl
  simp only [hfits]
  have hle := hstored.length_le
  unfold append
  split_ifs with hfull
  · refine Or.inr ⟨rfl, fun text _ hfits => ?_⟩
    omega
  · rcases copyString_spec next name with ⟨hnone, hlong⟩ | ⟨named, owned, hsome, hgrown, hwithin, hread⟩
    · refine Or.inr ⟨by rw [hnone]; rfl, fun text _ hfits => ?_⟩
      omega
    · rcases accessValue_copies named source value with ⟨hnone, hvalue⟩ | ⟨text, htext, hcopies⟩
      · refine Or.inr ⟨?_, fun text htext => ?_⟩
        · simp only [hsome, hvalue, bind, Option.bind]
        · rw [hnone] at htext
          cases htext
      · rcases hcopies with ⟨hvalue, hlong⟩ | ⟨last, converted, hvalue, hgrown', hwithin', hread'⟩
        · refine Or.inr ⟨?_, fun other hother hfits => ?_⟩
          · simp only [hsome, hvalue, bind, Option.bind]
          · obtain rfl := Option.some.inj (htext.symm.trans hother)
            rw [hgrown.stringUsed] at hlong
            omega
        · have hboth := hgrown.trans hgrown'
          have hused := last.used_le
          rw [hboth.stringUsed] at hused
          have hfield : Attribute.read last.storage ⟨owned, converted⟩ = ⟨name, text⟩ := by
            rw [Attribute.read, hgrown'.read owned hwithin, hread, hread']
          have hpushed := hboth.push hstored (hgrown'.within hwithin) hwithin' hfield (by omega)
          refine Or.inl ⟨text, _, htext, ⟨by omega, by omega⟩, ?_, hpushed⟩
          simp only [hsome, hvalue, bind, Option.bind]

/-! ### Updates -/

/-- A record between two updates. -/
structure Valid (access : Access) : Prop where
  stored : Stored access
  nodup : (access.fields.map Attribute.name).Nodup

theorem Stored.fits {access : Access} (h : Stored access) : Fits access.fields :=
  ⟨by
    rw [length_fields]
    exact h.length_le, h.stringUsed ▸ access.used_le⟩

theorem stored_nil (storage : Storage) (dropped : Nat) :
    Stored { storage := storage, dropped := dropped } where
  names _ h := absurd h List.not_mem_nil
  values _ h := absurd h List.not_mem_nil
  stringUsed := rfl
  length_le := Nat.zero_le _

/-- A list that fits is copied to an empty record. -/
theorem copyAll_empty (storage : Storage) (dropped : Nat) {source : Storage}
    {list : List (Attribute Span)} (hroom : list.length ≤ maxAttributes)
    (hbytes : stringBytes (list.map (Attribute.read source)) ≤ storageSize) :
    ∃ last, list.foldlM (copyAttribute source) { storage := storage, dropped := dropped } =
        some last ∧
      After { storage := storage, dropped := dropped } (list.map (Attribute.read source)) last := by
  apply copyAll_spec (stored_nil storage dropped)
  · rw [List.length_nil, Nat.zero_add]
    exact hroom
  · rw [Nat.zero_add]
    exact hbytes

theorem stringBytes_sublist {first second : List (Attribute Bytes)} (h : first.Sublist second) :
    stringBytes first ≤ stringBytes second := by
  induction h with
  | slnil => exact Nat.le_refl _
  | cons field _ ih =>
      rw [← List.singleton_append, stringBytes_append]
      exact Nat.le_trans ih (Nat.le_add_left ..)
  | cons_cons field _ ih =>
      rw [← List.singleton_append, stringBytes_append, ← List.singleton_append, stringBytes_append]
      exact Nat.add_le_add_left ih _

theorem without_sublist (fields : List (Attribute Bytes)) (name : Bytes) :
    (without fields name).Sublist fields :=
  List.filter_sublist

/-- The attributes that stay are those that stay when read. -/
theorem read_others (access : Access) (name : Bytes) :
    (access.others name).map (Attribute.read access.storage) = without access.fields name := by
  rw [without, fields, List.filter_map]
  rfl

theorem nodup_updated {fields : List (Attribute Bytes)} (h : (fields.map Attribute.name).Nodup)
    (name : Bytes) (value : Scalar Bytes) :
    ((without fields name ++ [(⟨name, value⟩ : Attribute Bytes)]).map Attribute.name).Nodup := by
  rw [List.map_append]
  refine (h.sublist ((without_sublist fields name).map _)).append (List.nodup_singleton _) ?_
  intro other hother hname
  obtain ⟨field, hfield, rfl⟩ := List.mem_map.mp hother
  have hne := (List.mem_filter.mp hfield).2
  exact of_decide_eq_true hne (List.mem_singleton.mp hname)

/-- What an update makes of a record. -/
def Updated (access : Access) (name : Bytes) (value : Value) (next : Access) : Prop :=
  match updated access.fields name (convert access.storage value) with
  | some fields => next.fields = fields ∧ next.dropped = access.dropped
  | none => next = { access with dropped := access.dropped + 1 }

/-- An update is made whole or not at all, and no copy fails that the code takes for granted. -/
theorem put_spec {access : Access} (h : Valid access) (name : Bytes) (value : Value) :
    ∃ next, access.put name value = some next ∧ Valid next ∧ Updated access name value next := by
  have hfits := h.stored.fits
  have hothers := read_others access name
  have hsublist := without_sublist access.fields name
  -- what stays is no more than what was there
  have hlength : (access.others name).length ≤ maxAttributes :=
    Nat.le_trans (List.length_filter_le ..) h.stored.length_le
  have hbytes : stringBytes ((access.others name).map (Attribute.read access.storage)) ≤
      storageSize := by
    rw [hothers]
    exact Nat.le_trans (stringBytes_sublist hsublist) hfits.2
  obtain ⟨kept, hkept, hafter⟩ := copyAll_empty .undefined 0 hlength hbytes
  have hfields : kept.fields = without access.fields name := hafter.fields.trans hothers
  rcases append_spec hafter.stored access.storage name value with
    ⟨text, last, htext, hroom, hlast, hpushed⟩ | ⟨hnone, hroom⟩
  · -- the new record fits, and so does its copy
    have hnew : last.fields = without access.fields name ++ [⟨name, text⟩] := by
      rw [hpushed.fields, hfields]
    have hlastFits := hpushed.stored.fits
    obtain ⟨next, hnext, hback⟩ :=
      copyAll_empty access.storage access.dropped hpushed.stored.length_le hlastFits.2
    have hcopied : next.fields = without access.fields name ++ [⟨name, text⟩] :=
      hback.fields.trans hnew
    refine ⟨next, ?_, ⟨hback.stored, ?_⟩, ?_⟩
    · simp only [put, hkept, hlast, bind, Option.bind]
      exact hnext
    · rw [hcopied]
      exact nodup_updated h.nodup name text
    · rw [hfields] at hroom
      simp only [Updated, updated, htext, bind, Option.bind, if_pos hroom]
      exact ⟨hcopied, hback.dropped⟩
  · refine ⟨{ access with dropped := access.dropped + 1 }, ?_, ⟨?_, h.nodup⟩, ?_⟩
    · simp only [put, hkept, hnone, bind, Option.bind]
    · exact ⟨h.stored.names, h.stored.values, h.stored.stringUsed, h.stored.length_le⟩
    · rw [hfields] at hroom
      cases hcase : convert access.storage value with
      | none => simp only [Updated, updated, hcase, bind, Option.bind]
      | some text => simp only [Updated, updated, hcase, bind, Option.bind, if_neg (hroom text hcase)]

theorem call_valid {access : Access} (h : Valid access) (call : Call) :
    ∃ next, access.call call = some next ∧ Valid next := by
  cases call with
  | put name value =>
      obtain ⟨next, hnext, hvalid, -⟩ := put_spec h name value
      exact ⟨next, hnext, hvalid⟩
  | reset => exact ⟨access.reset, rfl, stored_nil access.storage 0, List.nodup_nil⟩

theorem calls_valid {access : Access} (h : Valid access) (calls : List Call) :
    ∃ last, calls.foldlM Access.call access = some last ∧ Valid last := by
  induction calls generalizing access with
  | nil => exact ⟨access, rfl, h⟩
  | cons call calls ih =>
      obtain ⟨next, hnext, hvalid⟩ := call_valid h call
      obtain ⟨last, hlast, hvalid'⟩ := ih hvalid
      refine ⟨last, ?_, hvalid'⟩
      rw [List.foldlM_cons, hnext]
      exact hlast

/-- Whatever handlers put into a record, its names are different, it has at most eight attributes and
512 bytes of strings, and the next update is made whole or counted as dropped. -/
theorem calls_atomic (storage : Storage) (calls : List Call) :
    ∃ access, calls.foldlM Access.call { storage := storage } = some access ∧
      (access.fields.map Attribute.name).Nodup ∧ access.fields.length ≤ 8 ∧
      access.stringUsed = stringBytes access.fields ∧ stringBytes access.fields ≤ 512 ∧
      ∀ name value, ∃ next, access.put name value = some next ∧
        match updated access.fields name (convert access.storage value) with
        | some fields => next.fields = fields ∧ next.dropped = access.dropped
        | none => next = { access with dropped := access.dropped + 1 } := by
  obtain ⟨access, hcalls, hvalid⟩ :=
    calls_valid ⟨stored_nil storage 0, List.nodup_nil⟩ calls
  have hfits := hvalid.stored.fits
  refine ⟨access, hcalls, hvalid.nodup, hfits.1, hvalid.stored.stringUsed, hfits.2, ?_⟩
  intro name value
  obtain ⟨next, hnext, -, hupdated⟩ := put_spec hvalid name value
  exact ⟨next, hnext, hupdated⟩

end Access

end Zhtps
