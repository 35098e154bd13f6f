import Zhtps.Http.Framing

/-!
Preconditions, after `src/http/conditions.zig`.  The order in which they are evaluated is stated over
lists that have been read; the scanner of the source reads them off the lines of a request.
-/

namespace Zhtps

namespace Conditions

open Grammar Framing

structure Representation where
  exists_ : Bool := true
  /-- A complete quoted entity tag, with `W/` in front of a weak one. -/
  etag : Option Bytes := none
  lastModified : Option Int := none
  deriving DecidableEq, Repr

/-- The error set of `evaluate`. -/
inductive Fault | invalidEntityTag
  deriving DecidableEq, Repr

def quote : UInt8 := 0x22

def comma : UInt8 := 0x2c

def wildcard : Bytes := ascii "*"

/-- `W/`. -/
def weakness : Bytes := ascii "W/"

/-- The locals of `matches`. -/
structure Tally where
  present : Bool := false
  matched : Bool := false
  wildcard : Bool := false
  tags : Nat := 0
  deriving DecidableEq, Repr

/-- How far the closing quote of a tag is, unless a byte that no tag has comes first. -/
def tagEnd : Bytes → Option Nat
  | [] => none
  | c :: rest =>
      if c == quote then some 0
      else if c < 0x21 || c == 0x7f then none
      else (tagEnd rest).map (· + 1)

/-- The comparison of a tag, with its quotes, with that of the representation. -/
def compares (selected : Representation) (strong weak : Bool) (tag : Bytes) : Bool :=
  selected.exists_ &&
    match selected.etag with
    | none => false
    | some actual =>
        let actualWeak := weakness.isPrefixOf actual
        (!strong || (!weak && !actualWeak)) &&
          tag == if actualWeak then actual.drop 2 else actual

/-- A member of a line that is not empty: the locals after it, and what stands behind it. -/
def readTag (selected : Representation) (strong : Bool) (rest : Bytes) (tally : Tally) :
    Except Fault (Tally × Bytes) :=
  let weak := weakness.isPrefixOf rest
  let start := if weak then 2 else 0
  if rest.length ≤ start ∨ rest[start]? ≠ some quote then .error .invalidEntityTag
  else
    match tagEnd (rest.drop (start + 1)) with
    | none => .error .invalidEntityTag
    | some n =>
        let last := start + 1 + n
        let tag := (rest.take (last + 1)).drop start
        let after := Syntax.trim (rest.drop (last + 1))
        if after ≠ [] ∧ after.head? ≠ some comma then .error .invalidEntityTag
        else
          .ok ({ tally with
            tags := tally.tags + 1
            matched := tally.matched || compares selected strong weak tag }, after)

/-- The inner loop of `matches`, over the members of one line. -/
def readTags (selected : Representation) (strong : Bool) :
    Nat → Bytes → Tally → Except Fault Tally
  | 0, _, tally => .ok tally
  | _ + 1, [], tally => .ok tally
  | fuel + 1, first :: more, tally =>
      if first == comma then readTags selected strong fuel (Syntax.trim more) tally
      else do
        let (tally, rest) ← readTag selected strong (first :: more) tally
        readTags selected strong fuel rest tally

/-- One line of the field. -/
def readLine (selected : Representation) (strong : Bool) (tally : Tally) (value : Bytes) :
    Except Fault Tally :=
  let rest := Syntax.trim value
  if rest == wildcard then
    if tally.wildcard || tally.tags != 0 then .error .invalidEntityTag
    else .ok { tally with present := true, wildcard := true, matched := selected.exists_ }
  else if tally.wildcard then .error .invalidEntityTag
  else readTags selected strong rest.length rest { tally with present := true }

/-- Whether the tags of a field match, `none` when the request does not have the field. -/
def isMatch (request : Request) (name : Bytes) (selected : Representation) (strong : Bool) :
    Except Fault (Option Bool) := do
  let tally ← request.headers.foldlM (fun tally field =>
    if !Syntax.eql field.name name then .ok tally
    else readLine selected strong tally field.value) ({} : Tally)
  return if tally.present then some tally.matched else none

/-- The loop of `uniqueDate`. -/
def uniqueValue (name : Bytes) : Option Bytes → List Header → Option Bytes
  | found, [] => found
  | found, field :: fields =>
      if !Syntax.eql field.name name then uniqueValue name found fields
      else if found.isSome then none
      else uniqueValue name (some field.value) fields

section Evaluation

-- `date.parse`, which answers for a value and the present time.
variable (parseDate : Bytes → Nat → Option Int)

def uniqueDate (request : Request) (name : Bytes) (now : Nat) : Option Int := do
  parseDate (← uniqueValue name none request.headers) now

def ifMatch : Bytes := ascii "if-match"

def ifNoneMatch : Bytes := ascii "if-none-match"

def ifUnmodifiedSince : Bytes := ascii "if-unmodified-since"

def ifModifiedSince : Bytes := ascii "if-modified-since"

/-- Methods that ignore preconditions. -/
def ignored (method : Bytes) : Bool :=
  ["OPTIONS", "TRACE", "CONNECT"].any fun name => method == ascii name

def retrieval (method : Bytes) : Bool := method == ascii "GET" || method == ascii "HEAD"

/-- The second half of `evaluate`, with If-None-Match and If-Modified-Since. -/
def evaluateNone (request : Request) (selected : Representation) (now : Nat) :
    Except Fault (Option Nat) := do
  match ← isMatch request ifNoneMatch selected false with
  | some true => return some (if retrieval request.method then 304 else 412)
  | some false => return none
  | none =>
      if retrieval request.method then
        match selected.lastModified, uniqueDate parseDate request ifModifiedSince now with
        | some modified, some limit => return if modified ≤ limit then some 304 else none
        | _, _ => return none
      else return none

/-- The status that a precondition asks for instead of the method, if any. -/
def evaluate (request : Request) (selected : Representation) (now : Nat) :
    Except Fault (Option Nat) := do
  if ignored request.method then return none
  else
    match ← isMatch request ifMatch selected true with
    | some true => evaluateNone parseDate request selected now
    | some false => return some 412
    | none =>
        match selected.lastModified, uniqueDate parseDate request ifUnmodifiedSince now with
        | some modified, some limit =>
            if modified > limit then return some 412
            else evaluateNone parseDate request selected now
        | _, _ => evaluateNone parseDate request selected now

end Evaluation

/-! ### Lists of entity tags -/

/-- A byte between the quotes of a tag. -/
def isTagByte (c : UInt8) : Bool := 0x21 ≤ c && c != quote && c != 0x7f

structure EntityTag where
  weak : Bool
  chars : Bytes
  valid : ∀ c ∈ chars, isTagByte c = true

namespace EntityTag

/-- The tag between its quotes, which comparisons are about. -/
def quoted (tag : EntityTag) : Bytes := quote :: (tag.chars ++ [quote])

def text (tag : EntityTag) : Bytes := (if tag.weak then weakness else []) ++ tag.quoted

end EntityTag

/-- A member of a list, which may be empty, with the blanks around it. -/
def Member (s : Bytes) (tag : Option EntityTag) : Prop :=
  ∃ l r, Blank l ∧ Blank r ∧ s = l ++ (tag.elim [] EntityTag.text ++ r)

/-- A list of entity tags and the tags of it. -/
inductive TagList : Bytes → List EntityTag → Prop
  | last {s : Bytes} {tag : Option EntityTag} : Member s tag → TagList s tag.toList
  | more {s rest : Bytes} {tag : Option EntityTag} {tags : List EntityTag} : Member s tag →
      TagList rest tags → TagList (s ++ comma :: rest) (tag.toList ++ tags)

def IsTagList (s : Bytes) : Prop := ∃ tags, TagList s tags

def IsWildcard (s : Bytes) : Prop := Syntax.trim s = wildcard

/-- Lines that are lists each, and the tags of them all. -/
inductive Lists : List Bytes → List EntityTag → Prop
  | nil : Lists [] []
  | cons {line : Bytes} {lines : List Bytes} {tags more : List EntityTag} : TagList line tags →
      Lists lines more → Lists (line :: lines) (tags ++ more)

/-- What the lines of If-Match or If-None-Match say. -/
inductive Condition
  | absent
  | any
  | tags (list : List EntityTag)
  | malformed

open Classical in
noncomputable def reading (lines : List Bytes) : Condition :=
  if lines = [] then .absent
  else if ∃ line, lines = [line] ∧ IsWildcard line then .any
  else if h : ∃ tags, Lists lines tags then .tags h.choose
  else .malformed

/-- The strong comparison of a tag with that of the representation. -/
def Strong (selected : Representation) (tag : EntityTag) : Prop :=
  tag.weak = false ∧ selected.etag = some tag.quoted

/-- The weak comparison: a weak tag and a strong one may be the same. -/
def Weak (selected : Representation) (tag : EntityTag) : Prop :=
  selected.etag = some tag.quoted ∨ selected.etag = some (weakness ++ tag.quoted)

/-- Whether the precondition of a list holds under a comparison. -/
def Condition.Met (selected : Representation) (same : EntityTag → Prop) : Condition → Prop
  | .any => selected.exists_ = true
  | .tags list => selected.exists_ = true ∧ ∃ tag ∈ list, same tag
  | _ => False

open Classical in
/-- If-Match, else If-Unmodified-Since: whether the method may go on. -/
noncomputable def goesOn (selected : Representation) (limit : Option Int) :
    Condition → Except Fault Bool
  | .malformed => .error .invalidEntityTag
  | .absent => .ok (decide ¬∃ m l, selected.lastModified = some m ∧ limit = some l ∧ l < m)
  | condition => .ok (decide (condition.Met selected (Strong selected)))

open Classical in
/-- If-None-Match, else If-Modified-Since for a retrieval. -/
noncomputable def noneStatus (method : Bytes) (selected : Representation) (limit : Option Int) :
    Condition → Except Fault (Option Nat)
  | .malformed => .error .invalidEntityTag
  | .absent =>
      .ok (if retrieval method = true ∧
          ∃ m l, selected.lastModified = some m ∧ limit = some l ∧ m ≤ l then some 304 else none)
  | condition =>
      .ok (if condition.Met selected (Weak selected) then
          some (if retrieval method then 304 else 412) else none)

/-- The order of evaluation. -/
noncomputable def precedence (method : Bytes) (selected : Representation)
    (onMatch onNoneMatch : Condition) (unmodifiedSince modifiedSince : Option Int) :
    Except Fault (Option Nat) :=
  if ignored method then .ok none
  else
    match goesOn selected unmodifiedSince onMatch with
    | .error fault => .error fault
    | .ok false => .ok (some 412)
    | .ok true => noneStatus method selected modifiedSince onNoneMatch

/-- The date of a field that has one line. -/
def dateOf (parseDate : Bytes → Nat → Option Int) (lines : List Bytes) (now : Nat) :
    Option Int :=
  match lines with
  | [line] => parseDate line now
  | _ => none

/-! ### Blanks around lists -/

theorem trimStart_append_stop {c : UInt8} (hc : isBlank c = false) (a b : Bytes) :
    Mem.trimStart (a ++ c :: b) = Mem.trimStart a ++ c :: b := by
  obtain ⟨l, hl, ha, hstops⟩ := trimStart_split a
  conv_lhs => rw [ha, List.append_assoc, trimStart_append hl]
  refine trimStart_of_stops ?_
  cases htrim : Mem.trimStart a with
  | nil => exact stops_cons hc _
  | cons d rest =>
      rw [htrim] at hstops
      exact stops_cons (hstops d rfl) _

/-- Behind a byte that is not blank only the end is trimmed. -/
theorem trim_stop {c : UInt8} (hc : isBlank c = false) {x : Bytes}
    (hx : Stops isBlank (x ++ [c])) (y : Bytes) :
    ∃ z r, Syntax.trim (x ++ c :: y) = x ++ c :: z ∧ y = z ++ r ∧ Blank r := by
  obtain ⟨r, hr, hback, -⟩ := trimStart_split y.reverse
  have hstops : Stops isBlank (x ++ c :: y) := by
    cases x with
    | nil => exact stops_cons hc _
    | cons d x => exact stops_cons (hx d rfl) _
  refine ⟨(Mem.trimStart y.reverse).reverse, r.reverse, ?_, ?_, fun d hd => ?_⟩
  · rw [Syntax.trim, Mem.trim, trimStart_of_stops hstops, List.reverse_append, List.reverse_cons,
      List.append_assoc, List.singleton_append, trimStart_append_stop hc]
    simp
  · rw [← List.reverse_append, ← hback, List.reverse_reverse]
  · exact hr d (List.mem_reverse.mp hd)

theorem trim_blank {r : Bytes} (hr : Blank r) : Syntax.trim r = [] := by
  have h := trim_blank_left hr []
  rw [List.append_nil] at h
  exact h

/-! ### The scanner -/

/-- The locals after some tags. -/
def Tally.add (selected : Representation) (strong : Bool) (tally : Tally)
    (tags : List EntityTag) : Tally :=
  { tally with
    tags := tally.tags + tags.length
    matched := tally.matched || tags.any fun tag => compares selected strong tag.weak tag.quoted }

theorem Tally.add_nil (selected : Representation) (strong : Bool) (tally : Tally) :
    tally.add selected strong [] = tally := by
  rw [Tally.add, List.any_nil, Bool.or_false]
  rfl

theorem Tally.add_append (selected : Representation) (strong : Bool) (tally : Tally)
    (tags more : List EntityTag) :
    tally.add selected strong (tags ++ more) =
      (tally.add selected strong tags).add selected strong more := by
  simp only [Tally.add, List.length_append, List.any_append, Bool.or_assoc, Nat.add_assoc]

theorem tagEnd_append {chars : Bytes} (h : ∀ c ∈ chars, isTagByte c = true) (rest : Bytes) :
    tagEnd (chars ++ quote :: rest) = some chars.length := by
  induction chars with
  | nil => rfl
  | cons c chars ih =>
      have hc : ∀ c, isTagByte c = true →
          (c == quote) = false ∧ (decide (c < 0x21) || c == 0x7f) = false := by decide +kernel
      obtain ⟨hquote, hbyte⟩ := hc c (h c List.mem_cons_self)
      rw [List.cons_append, tagEnd, hquote, hbyte,
        ih fun d hd => h d (List.mem_cons_of_mem _ hd)]
      rfl

theorem tagEnd_some {s : Bytes} {n : Nat} (h : tagEnd s = some n) :
    ∃ chars rest, s = chars ++ quote :: rest ∧ n = chars.length ∧
      ∀ c ∈ chars, isTagByte c = true := by
  fun_induction tagEnd s generalizing n with
  | case1 => exact absurd h nofun
  | case2 c rest hquote =>
      rw [beq_iff_eq] at hquote
      rw [hquote]
      exact ⟨[], rest, rfl, (Option.some.inj h).symm, nofun⟩
  | case3 => exact absurd h nofun
  | case4 c rest hquote hbyte ih =>
      obtain ⟨m, hm, rfl⟩ := Option.map_eq_some_iff.mp h
      obtain ⟨chars, rest, rfl, rfl, hchars⟩ := ih hm
      refine ⟨c :: chars, rest, rfl, rfl, fun d hd => ?_⟩
      rcases List.mem_cons.mp hd with rfl | hd
      · have hall : ∀ d, ¬(d == quote) = true → ¬(decide (d < 0x21) || d == 0x7f) = true →
            isTagByte d = true := by decide +kernel
        exact hall d hquote hbyte
      · exact hchars d hd

/-- The step of the scanner over a tag. -/
theorem readTag_text (selected : Representation) (strong : Bool) (tag : EntityTag)
    (after : Bytes) (tally : Tally) :
    readTag selected strong (tag.text ++ after) tally =
      if Syntax.trim after ≠ [] ∧ (Syntax.trim after).head? ≠ some comma then
        .error .invalidEntityTag
      else .ok (tally.add selected strong [tag], Syntax.trim after) := by
  generalize hw : (if tag.weak then weakness else []) = w
  have htext : tag.text ++ after = w ++ (quote :: (tag.chars ++ quote :: after)) := by
    rw [EntityTag.text, EntityTag.quoted, hw]
    simp
  have hweak : weakness.isPrefixOf (tag.text ++ after) = tag.weak ∧
      (if tag.weak then 2 else 0) = w.length := by
    rw [htext, ← hw]
    cases tag.weak with
    | false => exact ⟨rfl, rfl⟩
    | true => exact ⟨rfl, rfl⟩
  have hget : (tag.text ++ after)[w.length]? = some quote := by
    rw [htext, List.getElem?_append_right (le_refl _), Nat.sub_self, List.getElem?_cons_zero]
  have hlength : w.length < (tag.text ++ after).length := by
    rw [htext, List.length_append, List.length_cons]
    omega
  have hdrop : (tag.text ++ after).drop (w.length + 1) = tag.chars ++ quote :: after := by
    rw [htext, List.drop_append]
    simp
  have hall : tag.text ++ after = w ++ tag.quoted ++ after := by
    rw [EntityTag.text, hw]
  have hsize : w.length + 1 + tag.chars.length + 1 = (w ++ tag.quoted).length := by
    rw [EntityTag.quoted]
    simp
    omega
  have htake : ((tag.text ++ after).take (w.length + 1 + tag.chars.length + 1)).drop w.length =
      tag.quoted := by
    rw [hall, hsize, List.take_left, List.drop_left]
  have hafter : (tag.text ++ after).drop (w.length + 1 + tag.chars.length + 1) = after := by
    rw [hall, hsize, List.drop_left]
  rw [readTag]
  simp only [hweak.1, hweak.2]
  rw [if_neg (not_or.mpr ⟨not_le.mpr hlength, not_not.mpr hget⟩), hdrop,
    tagEnd_append tag.valid]
  simp only [htake, hafter]
  rw [Tally.add, List.any_cons, List.any_nil, Bool.or_false]
  rfl

theorem readTag_some {selected : Representation} {strong : Bool} {rest : Bytes} {tally : Tally}
    {result : Tally × Bytes} (h : readTag selected strong rest tally = .ok result) :
    ∃ (tag : EntityTag) (after : Bytes), rest = tag.text ++ after := by
  rw [readTag] at h
  simp only at h
  generalize hstart : (if weakness.isPrefixOf rest then 2 else 0) = start at h
  split at h
  · exact absurd h nofun
  next hquote =>
    split at h
    · exact absurd h nofun
    next n hend =>
      rw [not_or, not_le, not_not] at hquote
      obtain ⟨chars, after, hsplit, -, hchars⟩ := tagEnd_some hend
      refine ⟨⟨weakness.isPrefixOf rest, chars, hchars⟩, after, ?_⟩
      rw [EntityTag.text, EntityTag.quoted]
      cases hweak : weakness.isPrefixOf rest with
      | false =>
          rw [hweak, if_neg Bool.false_ne_true] at hstart
          rw [← hstart] at hquote hsplit
          cases rest with
          | nil => exact absurd hquote.1 (Nat.not_lt_zero _)
          | cons first more =>
              have hfirst : first = quote := by simpa using hquote.2
              have hmore : more = chars ++ quote :: after := hsplit
              rw [hfirst, hmore]
              simp
      | true =>
          rw [hweak, if_pos rfl] at hstart
          rw [← hstart] at hquote hsplit
          obtain ⟨tail, rfl⟩ := List.isPrefixOf_iff_prefix.mp hweak
          cases tail with
          | nil => exact absurd hquote.1 (Nat.lt_irrefl _)
          | cons first more =>
              have hfirst : first = quote := by simpa [weakness, ascii] using hquote.2
              have hmore : more = chars ++ quote :: after := hsplit
              rw [hfirst, hmore]
              simp

theorem stops_text (tag : EntityTag) (x : Bytes) : Stops isBlank (tag.text ++ x) := by
  rw [EntityTag.text, EntityTag.quoted]
  cases tag.weak with
  | false => exact stops_cons (by decide) _
  | true => exact stops_cons (by decide) _

theorem text_ne_nil (tag : EntityTag) (x : Bytes) : tag.text ++ x ≠ [] := by
  rw [EntityTag.text, EntityTag.quoted]
  simp

/-- Tags do not begin with a comma. -/
theorem head_text (tag : EntityTag) (x : Bytes) : (tag.text ++ x).head? ≠ some comma := by
  rw [EntityTag.text, EntityTag.quoted]
  cases tag.weak with
  | false => exact fun h => absurd (Option.some.inj h) (by decide)
  | true => exact fun h => absurd (Option.some.inj h) (by decide)

theorem trim_text (tag : EntityTag) {r : Bytes} (hr : Blank r) :
    Syntax.trim (tag.text ++ r) = tag.text := by
  have hlast : tag.text = (if tag.weak then weakness else []) ++ (quote :: tag.chars) ++ [quote] := by
    rw [EntityTag.text, EntityTag.quoted]
    simp
  rw [trim_blank_right hr, hlast]
  obtain ⟨z, r, htrim, hz, -⟩ := trim_stop (c := quote) (by decide)
    (by rw [← hlast, ← List.append_nil tag.text]; exact stops_text tag []) []
  rw [htrim, (List.append_eq_nil_iff.mp hz.symm).1]

theorem readTags_nil (selected : Representation) (strong : Bool) (fuel : Nat) (tally : Tally) :
    readTags selected strong fuel [] tally = .ok tally := by
  cases fuel <;> rfl

theorem readTags_comma (selected : Representation) (strong : Bool) (fuel : Nat) (more : Bytes)
    (tally : Tally) :
    readTags selected strong (fuel + 1) (comma :: more) tally =
      readTags selected strong fuel (Syntax.trim more) tally := by
  rw [readTags, if_pos (beq_self_eq_true comma)]

theorem readTags_text (selected : Representation) (strong : Bool) (fuel : Nat) (tag : EntityTag)
    (after : Bytes) (tally : Tally) :
    readTags selected strong (fuel + 1) (tag.text ++ after) tally =
      if Syntax.trim after ≠ [] ∧ (Syntax.trim after).head? ≠ some comma then
        .error .invalidEntityTag
      else readTags selected strong fuel (Syntax.trim after)
        (tally.add selected strong [tag]) := by
  obtain ⟨first, more, hcons⟩ := List.exists_cons_of_ne_nil (text_ne_nil tag after)
  have hfirst : ¬(first == comma) = true := by
    intro h
    have hhead := head_text tag after
    rw [hcons, List.head?_cons, beq_iff_eq.mp h] at hhead
    exact hhead rfl
  rw [hcons, readTags, if_neg hfirst, ← hcons, readTag_text]
  split <;> rfl

/-- What is a list of tags is read as such. -/
theorem readTags_complete (selected : Representation) (strong : Bool) {s : Bytes}
    {tags : List EntityTag} (h : TagList s tags) :
    ∀ (fuel : Nat) (tally : Tally), (Syntax.trim s).length ≤ fuel →
      readTags selected strong fuel (Syntax.trim s) tally =
        .ok (tally.add selected strong tags) := by
  induction h with
  | @last s tag hmember =>
      intro fuel tally hfuel
      obtain ⟨l, r, hl, hr, rfl⟩ := hmember
      cases tag with
      | none =>
          rw [trim_blank_left hl, Option.elim_none, List.nil_append, trim_blank hr, readTags_nil,
            Option.toList_none, Tally.add_nil]
      | some tag =>
          rw [trim_blank_left hl, Option.elim_some, trim_text tag hr] at hfuel ⊢
          cases fuel with
          | zero =>
              have hnil := List.length_eq_zero_iff.mp (Nat.le_zero.mp hfuel)
              exact absurd (by rw [hnil, List.append_nil]) (text_ne_nil tag [])
          | succ fuel =>
              conv_lhs => rw [← List.append_nil tag.text]
              rw [readTags_text, if_neg (fun hstop => hstop.1 rfl)]
              exact readTags_nil selected strong fuel _
  | @more s rest tag tags hmember _ ih =>
      intro fuel tally hfuel
      obtain ⟨l, r, hl, hr, rfl⟩ := hmember
      have hassoc : l ++ (tag.elim [] EntityTag.text ++ r) ++ comma :: rest =
          l ++ (tag.elim [] EntityTag.text ++ (r ++ comma :: rest)) := by simp
      rw [hassoc, trim_blank_left hl] at hfuel ⊢
      -- From a comma on, the next member is read, whatever blanks were trimmed at the end.
      have hcomma : ∀ (z : Bytes) (fuel : Nat) (tally : Tally),
          Syntax.trim z = Syntax.trim rest → z.length < fuel →
            readTags selected strong fuel (comma :: z) tally =
              .ok (tally.add selected strong tags) := by
        intro z fuel tally hz hlength
        cases fuel with
        | zero => exact absurd hlength (Nat.not_lt_zero _)
        | succ fuel =>
            rw [readTags_comma, hz]
            have hshort := length_trim_le z
            rw [hz] at hshort
            exact ih fuel tally (by omega)
      cases tag with
      | none =>
          rw [Option.elim_none, List.nil_append, trim_blank_left hr] at hfuel ⊢
          obtain ⟨z, end_, htrim, hz, hend⟩ :=
            trim_stop (c := comma) (x := []) (by decide) (stops_cons (by decide) _) rest
          rw [List.nil_append, List.nil_append] at htrim
          rw [htrim, List.length_cons] at hfuel
          rw [htrim, Option.toList_none, List.nil_append]
          exact hcomma z fuel tally (by rw [hz, trim_blank_right hend]) hfuel
      | some tag =>
          rw [Option.elim_some, ← List.append_assoc] at hfuel ⊢
          obtain ⟨z, end_, htrim, hz, hend⟩ :=
            trim_stop (c := comma) (x := tag.text ++ r) (by decide)
              (by rw [List.append_assoc]; exact stops_text tag _) rest
          have hzrest : Syntax.trim z = Syntax.trim rest := by rw [hz, trim_blank_right hend]
          obtain ⟨z', end', htrim', hz', hend'⟩ :=
            trim_stop (c := comma) (x := []) (by decide) (stops_cons (by decide) _) z
          rw [List.nil_append, List.nil_append] at htrim'
          rw [htrim, List.append_assoc] at hfuel ⊢
          have hpos : 0 < tag.text.length := by
            have := text_ne_nil tag []
            rw [List.append_nil] at this
            exact List.length_pos_iff.mpr this
          simp only [List.length_append, List.length_cons] at hfuel
          have hshort : z'.length ≤ z.length := by rw [hz', List.length_append]; omega
          obtain ⟨fuel, rfl⟩ : ∃ n, fuel = n + 1 := ⟨fuel - 1, by omega⟩
          rw [readTags_text, trim_blank_left hr, htrim', if_neg (fun hstop => hstop.2 rfl),
            hcomma z' fuel _ (by rw [← hzrest, hz', trim_blank_right hend']) (by omega),
            Option.toList_some, Tally.add_append]

theorem Member.blank_left {s l : Bytes} {tag : Option EntityTag} (hl : Blank l)
    (h : Member s tag) : Member (l ++ s) tag := by
  obtain ⟨l', r, hl', hr, rfl⟩ := h
  refine ⟨l ++ l', r, fun c hc => ?_, hr, by rw [List.append_assoc]⟩
  exact (List.mem_append.mp hc).elim (hl c) (hl' c)

theorem Member.blank_right {s r : Bytes} {tag : Option EntityTag} (hr : Blank r)
    (h : Member s tag) : Member (s ++ r) tag := by
  obtain ⟨l, r', hl, hr', rfl⟩ := h
  refine ⟨l, r' ++ r, hl, fun c hc => ?_, by simp⟩
  exact (List.mem_append.mp hc).elim (hr' c) (hr c)

theorem TagList.blank_left {s l : Bytes} {tags : List EntityTag} (hl : Blank l)
    (h : TagList s tags) : TagList (l ++ s) tags := by
  cases h with
  | last hmember => exact .last (hmember.blank_left hl)
  | more hmember hrest =>
      rw [← List.append_assoc]
      exact .more (hmember.blank_left hl) hrest

theorem TagList.blank_right {s r : Bytes} {tags : List EntityTag} (hr : Blank r)
    (h : TagList s tags) : TagList (s ++ r) tags := by
  induction h with
  | last hmember => exact .last (hmember.blank_right hr)
  | more hmember _ ih =>
      rw [List.append_assoc, List.cons_append]
      exact .more hmember ih

theorem TagList.of_trim {s : Bytes} {tags : List EntityTag} (h : TagList (Syntax.trim s) tags) :
    TagList s tags := by
  obtain ⟨l, r, hl, hr, hs⟩ := trim_split s
  rw [hs]
  exact (h.blank_right hr).blank_left hl

theorem blank_nil : Blank [] := nofun

/-- A tag in front of what is over or goes on with a comma. -/
theorem TagList.prepend {tag : EntityTag} {u : Bytes} {tags : List EntityTag}
    (h : TagList u tags) (hu : u ≠ [] → u.head? = some comma) {l : Bytes} (hl : Blank l) :
    TagList (tag.text ++ (l ++ u)) (tag :: tags) := by
  -- What goes on with a comma, or is over, begins with an empty member.
  have hempty : ∀ {s v : Bytes} {first : Option EntityTag}, Member s first →
      (s ++ v ≠ [] → (s ++ v).head? = some comma) → first = none ∧ s = [] := by
    rintro s v first ⟨l', r, hl', hr, rfl⟩ hhead
    cases l' with
    | cons c l' =>
        have hc := hhead (List.cons_ne_nil _ _)
        have hblank := hl' c List.mem_cons_self
        rw [Option.some.inj hc] at hblank
        exact absurd hblank (by decide)
    | nil =>
        cases first with
        | some other =>
            rw [List.nil_append, Option.elim_some, List.append_assoc] at hhead
            exact absurd (hhead (text_ne_nil other _)) (head_text other _)
        | none =>
            cases r with
            | nil => exact ⟨rfl, rfl⟩
            | cons c r =>
                have hc := hhead (List.cons_ne_nil _ _)
                have hblank := hr c List.mem_cons_self
                rw [Option.some.inj hc] at hblank
                exact absurd hblank (by decide)
  have hmember : Member (tag.text ++ l) (some tag) := ⟨[], l, blank_nil, hl, rfl⟩
  cases h with
  | @last s first hfirst =>
      obtain ⟨rfl, rfl⟩ := hempty (v := []) hfirst (by rwa [List.append_nil])
      rw [List.append_nil]
      exact .last hmember
  | @more s rest first tags hfirst hrest =>
      obtain ⟨rfl, rfl⟩ := hempty hfirst hu
      rw [← List.append_assoc]
      exact .more hmember hrest

/-- What is read is a list of tags. -/
theorem readTags_sound {selected : Representation} {strong : Bool} {fuel : Nat} {rest : Bytes}
    {tally result : Tally} (h : readTags selected strong fuel rest tally = .ok result)
    (hfuel : rest.length ≤ fuel) :
    ∃ tags, TagList rest tags ∧ result = tally.add selected strong tags := by
  have hnil : ∀ tally : Tally, ∃ tags, TagList [] tags ∧ tally = tally.add selected strong tags :=
    fun tally => ⟨[], @TagList.last [] none ⟨[], [], blank_nil, blank_nil, rfl⟩,
      (tally.add_nil selected strong).symm⟩
  induction fuel generalizing rest tally with
  | zero =>
      rw [List.length_eq_zero_iff.mp (Nat.le_zero.mp hfuel)]
      rw [← Except.ok.inj h]
      exact hnil tally
  | succ fuel ih =>
      cases rest with
      | nil =>
          rw [← Except.ok.inj h]
          exact hnil tally
      | cons first more =>
          rw [List.length_cons] at hfuel
          by_cases hfirst : first = comma
          · subst hfirst
            rw [readTags_comma] at h
            obtain ⟨tags, htags, hresult⟩ := ih h
              (le_trans (length_trim_le more) (by omega))
            exact ⟨tags, @TagList.more [] more none tags ⟨[], [], blank_nil, blank_nil, rfl⟩ htags.of_trim,
              hresult⟩
          · obtain ⟨tag, after, hsplit⟩ : ∃ (tag : EntityTag) (after : Bytes),
                first :: more = tag.text ++ after := by
              rw [readTags, if_neg (by simpa using hfirst)] at h
              cases hread : readTag selected strong (first :: more) tally with
              | error fault =>
                  rw [hread] at h
                  exact absurd h nofun
              | ok _ => exact readTag_some hread
            have hpos : 0 < tag.text.length := by
              have := text_ne_nil tag []
              rw [List.append_nil] at this
              exact List.length_pos_iff.mpr this
            have hlength := congrArg List.length hsplit
            rw [List.length_cons, List.length_append] at hlength
            rw [hsplit, readTags_text] at h
            split at h
            · exact absurd h nofun
            next hgoes =>
              obtain ⟨tags, htags, hresult⟩ := ih h
                (le_trans (length_trim_le after) (by omega))
              obtain ⟨l, r, hl, hr, hafter⟩ := trim_split after
              refine ⟨tag :: tags, ?_, ?_⟩
              · have hu : Syntax.trim after ≠ [] → (Syntax.trim after).head? = some comma := by
                  intro hne
                  by_contra hhead
                  exact hgoes ⟨hne, hhead⟩
                rw [hsplit, hafter, ← List.append_assoc l, ← List.append_assoc tag.text]
                exact (htags.prepend hu hl).blank_right hr
              · rw [hresult, ← Tally.add_append]
                rfl

/-! ### The lines of a field -/

theorem values_cons (name : Bytes) (field : Header) (headers : List Header) :
    values name (field :: headers) =
      if Syntax.eql field.name name then field.value :: values name headers
      else values name headers := by
  rw [values, List.filter_cons]
  split <;> rfl

theorem not_wildcard {s : Bytes} {tags : List EntityTag} (h : TagList s tags) :
    ¬IsWildcard s := by
  intro hstar
  have hread := readTags_complete {} false h 1 {} (by rw [hstar]; decide)
  rw [hstar] at hread
  exact absurd hread nofun

theorem readLine_list (selected : Representation) (strong : Bool) {tally : Tally}
    {line : Bytes} {tags : List EntityTag} (h : TagList line tags)
    (htally : tally.wildcard = false) :
    readLine selected strong tally line =
      .ok (({ tally with present := true } : Tally).add selected strong tags) := by
  rw [readLine, if_neg (by rw [beq_iff_eq]; exact not_wildcard h), htally,
    if_neg Bool.false_ne_true]
  exact readTags_complete selected strong h _ _ (le_refl _)

theorem readLine_sound {selected : Representation} {strong : Bool} {tally result : Tally}
    {line : Bytes} (hline : ¬IsWildcard line)
    (h : readLine selected strong tally line = .ok result) :
    ∃ tags, TagList line tags ∧
      result = ({ tally with present := true } : Tally).add selected strong tags := by
  rw [readLine, if_neg (by rw [beq_iff_eq]; exact hline)] at h
  split at h
  · exact absurd h nofun
  · obtain ⟨tags, htags, hresult⟩ := readTags_sound h (le_refl _)
    exact ⟨tags, htags.of_trim, hresult⟩

/-- Nothing may follow a wildcard. -/
theorem readLine_after (selected : Representation) (strong : Bool) {tally : Tally}
    (htally : tally.wildcard = true) (line : Bytes) :
    readLine selected strong tally line = .error .invalidEntityTag := by
  rw [readLine]
  simp only [htally, Bool.true_or, if_true]
  split <;> rfl

theorem readLine_wildcard (selected : Representation) (strong : Bool) {tally : Tally}
    {line : Bytes} (hline : IsWildcard line) :
    readLine selected strong tally line =
      if tally.wildcard || tally.tags != 0 then .error .invalidEntityTag
      else .ok { tally with present := true, wildcard := true, matched := selected.exists_ } := by
  rw [readLine, if_pos (by rw [beq_iff_eq]; exact hline)]

/-- The loop of `matches` over the lines of a field. -/
def readLines (selected : Representation) (strong : Bool) (tally : Tally) (lines : List Bytes) :
    Except Fault Tally :=
  lines.foldlM (readLine selected strong) tally

theorem readLines_cons (selected : Representation) (strong : Bool) (tally : Tally) (line : Bytes)
    (lines : List Bytes) :
    readLines selected strong tally (line :: lines) =
      (readLine selected strong tally line).bind fun tally =>
        readLines selected strong tally lines := by
  rw [readLines, List.foldlM_cons]
  rfl

theorem isMatch_values (request : Request) (name : Bytes) (selected : Representation)
    (strong : Bool) :
    isMatch request name selected strong =
      (readLines selected strong {} (values name request.headers)).map fun tally =>
        if tally.present then some tally.matched else none := by
  have hfold : ∀ (headers : List Header) (tally : Tally),
      headers.foldlM (fun tally field =>
        if !Syntax.eql field.name name then .ok tally
        else readLine selected strong tally field.value) tally =
          readLines selected strong tally (values name headers) := by
    intro headers
    induction headers with
    | nil => exact fun tally => rfl
    | cons field headers ih =>
        intro tally
        rw [List.foldlM_cons, values_cons]
        cases Syntax.eql field.name name with
        | false => exact ih tally
        | true =>
            rw [if_pos rfl, readLines_cons, Bool.not_true, if_neg Bool.false_ne_true]
            cases readLine selected strong tally field.value with
            | error fault => rfl
            | ok tally => exact ih tally
  rw [isMatch, hfold]
  cases readLines selected strong {} (values name request.headers) <;> rfl

theorem readLines_lists (selected : Representation) (strong : Bool) {lines : List Bytes}
    {tags : List EntityTag} (h : Lists lines tags) :
    ∀ tally : Tally, tally.wildcard = false →
      readLines selected strong tally lines =
        .ok (({ tally with present := tally.present || !lines.isEmpty } : Tally).add
          selected strong tags) := by
  induction h with
  | nil =>
      intro tally _
      rw [Tally.add_nil, List.isEmpty_nil, Bool.not_true, Bool.or_false]
      rfl
  | @cons line lines tags more hline _ ih =>
      intro tally htally
      rw [readLines_cons, readLine_list selected strong hline htally]
      rw [Except.bind, ih _ (by exact htally), Tally.add_append]
      simp [Tally.add]

/-- `*` behind lines that have no tags. -/
def LateWildcard (lines : List Bytes) : Prop :=
  ∃ before line, lines = before ++ [line] ∧ before ≠ [] ∧ Lists before [] ∧ IsWildcard line

/-- Lines that are read are lists, or a wildcard with nothing but empty lists in front of it. -/
theorem readLines_sound {selected : Representation} {strong : Bool} {lines : List Bytes}
    {tally result : Tally} (h : readLines selected strong tally lines = .ok result) :
    (∃ tags, Lists lines tags) ∨
      ∃ before line, lines = before ++ [line] ∧ Lists before [] ∧ IsWildcard line ∧
        tally.tags = 0 := by
  induction lines generalizing tally with
  | nil => exact Or.inl ⟨[], .nil⟩
  | cons line lines ih =>
      rw [readLines_cons] at h
      by_cases hline : IsWildcard line
      · rw [readLine_wildcard selected strong hline] at h
        split at h
        · exact absurd h nofun
        next hfirst =>
          have htags : tally.tags = 0 := by
            rw [Bool.not_eq_true, Bool.or_eq_false_iff] at hfirst
            simpa using hfirst.2
          cases lines with
          | nil => exact Or.inr ⟨[], line, rfl, .nil, hline, htags⟩
          | cons other lines =>
              simp only [Except.bind, readLines_cons] at h
              rw [readLine_after selected strong (by rfl)] at h
              exact absurd h nofun
      · cases hread : readLine selected strong tally line with
        | error fault =>
            rw [hread] at h
            exact absurd h nofun
        | ok next =>
            rw [hread] at h
            obtain ⟨tags, htags, rfl⟩ := readLine_sound hline hread
            rcases ih h with ⟨more, hmore⟩ | ⟨before, last, rfl, hbefore, hlast, hzero⟩
            · exact Or.inl ⟨tags ++ more, .cons htags hmore⟩
            · have hnone : tally.tags + tags.length = 0 := hzero
              have hnil : tags = [] := List.length_eq_zero_iff.mp (by omega)
              rw [hnil] at htags
              exact Or.inr ⟨line :: before, last, rfl, .cons htags hbefore, hlast, by omega⟩

/-! ### Evaluation -/

theorem compares_iff (selected : Representation) (strong : Bool) (tag : EntityTag) :
    compares selected strong tag.weak tag.quoted = true ↔
      selected.exists_ = true ∧ if strong then Strong selected tag else Weak selected tag := by
  have hquoted : weakness.isPrefixOf tag.quoted = false := rfl
  rw [compares, Bool.and_eq_true]
  refine and_congr_right fun _ => ?_
  cases hetag : selected.etag with
  | none => cases strong <;> simp [Strong, Weak, hetag]
  | some actual =>
      simp only
      cases hweak : weakness.isPrefixOf actual with
      | true =>
          obtain ⟨rest, rfl⟩ := List.isPrefixOf_iff_prefix.mp hweak
          have hne : weakness ++ rest ≠ tag.quoted := by
            rintro heq
            rw [heq, hquoted] at hweak
            exact absurd hweak nofun
          have hdrop : (weakness ++ rest).drop 2 = rest := rfl
          cases strong with
          | true => simp [Strong, hetag, hne]
          | false => simpa [Weak, hetag, hne, hdrop] using eq_comm
      | false =>
          have hne : actual ≠ weakness ++ tag.quoted := by
            rintro rfl
            exact absurd hweak nofun
          cases strong with
          | true => simpa [Strong, hetag] using fun _ => eq_comm
          | false => simpa [Weak, hetag, hne] using eq_comm

open Classical in
/-- What `matches` answers for a field that reads as a condition. -/
noncomputable def outcome (selected : Representation) (strong : Bool) :
    Condition → Except Fault (Option Bool)
  | .malformed => .error .invalidEntityTag
  | .absent => .ok none
  | condition =>
      .ok (some (decide (condition.Met selected
        (if strong then Strong selected else Weak selected))))

theorem outcome_any (selected : Representation) (strong : Bool) :
    outcome selected strong .any = .ok (some selected.exists_) := by
  cases h : selected.exists_ <;> simp [outcome, Condition.Met, h]

theorem outcome_tags (selected : Representation) (strong : Bool) (list : List EntityTag) :
    outcome selected strong (.tags list) =
      .ok (some (list.any fun tag => compares selected strong tag.weak tag.quoted)) := by
  have hmet : (Condition.tags list).Met selected
        (if strong then Strong selected else Weak selected) ↔
      (list.any fun tag => compares selected strong tag.weak tag.quoted) = true := by
    rw [List.any_eq_true, Condition.Met]
    simp only [compares_iff]
    cases strong with
    | true => exact ⟨fun ⟨he, tag, hmem, h⟩ => ⟨tag, hmem, he, h⟩,
        fun ⟨tag, hmem, he, h⟩ => ⟨he, tag, hmem, h⟩⟩
    | false => exact ⟨fun ⟨he, tag, hmem, h⟩ => ⟨tag, hmem, he, h⟩,
        fun ⟨tag, hmem, he, h⟩ => ⟨he, tag, hmem, h⟩⟩
  simp only [outcome, hmet, Bool.decide_eq_true]

theorem isMatch_eq (request : Request) (name : Bytes) (selected : Representation) (strong : Bool)
    (hlate : ¬LateWildcard (values name request.headers)) :
    isMatch request name selected strong =
      outcome selected strong (reading (values name request.headers)) := by
  rw [isMatch_values]
  generalize values name request.headers = lines at hlate
  rw [reading]
  split
  next hnil =>
    rw [hnil]
    rfl
  next hne =>
    split
    next hany =>
      obtain ⟨line, rfl, hline⟩ := hany
      rw [readLines_cons, readLine_wildcard selected strong hline]
      rw [outcome_any]
      rfl
    next hany =>
      split
      next hlists =>
        rw [readLines_lists selected strong hlists.choose_spec {} rfl]
        have hsome : (!lines.isEmpty) = true := by
          rw [Bool.not_eq_true', List.isEmpty_eq_false_iff]
          exact hne
        rw [outcome_tags, Except.map]
        simp [Tally.add, hsome]
      next hlists =>
        cases hread : readLines selected strong {} lines with
        | error fault => rfl
        | ok result =>
            rcases readLines_sound hread with hsome | ⟨before, line, rfl, hbefore, hline, -⟩
            · exact absurd hsome hlists
            · cases before with
              | nil => exact absurd ⟨line, rfl, hline⟩ hany
              | cons first before =>
                  exact absurd ⟨first :: before, line, rfl, List.cons_ne_nil _ _, hbefore, hline⟩
                    hlate

theorem uniqueValue_some (name found : Bytes) (headers : List Header) :
    uniqueValue name (some found) headers =
      if values name headers = [] then some found else none := by
  induction headers with
  | nil => rfl
  | cons field headers ih =>
      rw [uniqueValue, values_cons]
      cases Syntax.eql field.name name with
      | false => exact ih
      | true => rfl

theorem uniqueValue_none (name : Bytes) (headers : List Header) :
    uniqueValue name none headers =
      match values name headers with
      | [line] => some line
      | _ => none := by
  induction headers with
  | nil => rfl
  | cons field headers ih =>
      rw [uniqueValue, values_cons]
      cases Syntax.eql field.name name with
      | false => exact ih
      | true =>
          rw [Bool.not_true, if_neg Bool.false_ne_true, Option.isSome_none,
            if_neg Bool.false_ne_true, uniqueValue_some, if_pos rfl]
          cases values name headers <;> rfl

theorem uniqueDate_eq (parseDate : Bytes → Nat → Option Int) (request : Request) (name : Bytes)
    (now : Nat) :
    uniqueDate parseDate request name now =
      dateOf parseDate (values name request.headers) now := by
  unfold uniqueDate dateOf
  rw [uniqueValue_none]
  cases values name request.headers with
  | nil => rfl
  | cons line lines => cases lines <;> rfl

theorem evaluateNone_eq (parseDate : Bytes → Nat → Option Int) (request : Request)
    (selected : Representation) (now : Nat)
    (hlate : ¬LateWildcard (values ifNoneMatch request.headers)) :
    evaluateNone parseDate request selected now =
      noneStatus request.method selected
        (dateOf parseDate (values ifModifiedSince request.headers) now)
        (reading (values ifNoneMatch request.headers)) := by
  rw [evaluateNone, isMatch_eq request ifNoneMatch selected false hlate, uniqueDate_eq]
  generalize dateOf parseDate (values ifModifiedSince request.headers) now = limit
  cases reading (values ifNoneMatch request.headers) with
  | absent =>
      show (if retrieval request.method = true then _ else _) = _
      cases hretrieval : retrieval request.method with
      | false =>
        rw [if_neg Bool.false_ne_true, noneStatus, hretrieval, if_neg fun h =>
          Bool.false_ne_true h.1]
        rfl
      | true =>
        rw [if_pos rfl, noneStatus, hretrieval]
        cases selected.lastModified with
        | none => simp [pure, Except.pure]
        | some modified =>
            cases limit with
            | none => simp [pure, Except.pure]
            | some limit => simp [pure, Except.pure]
  | any =>
      by_cases h : Condition.any.Met selected (Weak selected) <;>
        simp [outcome, noneStatus, h, bind, Except.bind, pure, Except.pure]
  | tags list =>
      by_cases h : (Condition.tags list).Met selected (Weak selected) <;>
        simp [outcome, noneStatus, h, bind, Except.bind, pure, Except.pure]
  | malformed => rfl

/-- A list that the order of evaluation comes to has `*` behind lines without tags. -/
def Misread (parseDate : Bytes → Nat → Option Int) (request : Request) (selected : Representation)
    (now : Nat) : Prop :=
  ignored request.method = false ∧
    (LateWildcard (values ifMatch request.headers) ∨
      goesOn selected (dateOf parseDate (values ifUnmodifiedSince request.headers) now)
          (reading (values ifMatch request.headers)) = .ok true ∧
        LateWildcard (values ifNoneMatch request.headers))

theorem evaluate_eq (parseDate : Bytes → Nat → Option Int) (request : Request)
    (selected : Representation) (now : Nat) (hread : ¬Misread parseDate request selected now) :
    evaluate parseDate request selected now =
      precedence request.method selected (reading (values ifMatch request.headers))
        (reading (values ifNoneMatch request.headers))
        (dateOf parseDate (values ifUnmodifiedSince request.headers) now)
        (dateOf parseDate (values ifModifiedSince request.headers) now) := by
  rw [evaluate, precedence]
  cases hignored : ignored request.method with
  | true => rfl
  | false =>
      obtain ⟨hmatch, hnone⟩ := not_or.mp fun hlate => hread ⟨hignored, hlate⟩
      -- If-None-Match is read where If-Match lets the method go on
      have htail : goesOn selected (dateOf parseDate (values ifUnmodifiedSince request.headers) now)
          (reading (values ifMatch request.headers)) = .ok true →
            evaluateNone parseDate request selected now =
              noneStatus request.method selected
                (dateOf parseDate (values ifModifiedSince request.headers) now)
                (reading (values ifNoneMatch request.headers)) := fun hgoes =>
        evaluateNone_eq parseDate request selected now fun hlate => hnone ⟨hgoes, hlate⟩
      rw [if_neg Bool.false_ne_true, if_neg Bool.false_ne_true,
        isMatch_eq request ifMatch selected true hmatch, uniqueDate_eq]
      generalize dateOf parseDate (values ifUnmodifiedSince request.headers) now = limit at htail ⊢
      cases hlist : reading (values ifMatch request.headers) with
      | absent =>
          rw [hlist] at htail
          simp only [outcome, goesOn, bind, Except.bind] at htail ⊢
          cases hmodified : selected.lastModified with
          | none =>
              rw [htail (by simp [hmodified])]
              simp
          | some modified =>
              cases limit with
              | none =>
                  rw [htail (by simp)]
                  simp
              | some limit =>
                  by_cases h : limit < modified
                  · simp [h, pure, Except.pure]
                  · rw [htail (by simp [hmodified, h])]
                    simp [h]
      | any =>
          by_cases h : Condition.any.Met selected (Strong selected)
          · have hgoes := htail (by rw [hlist]; simp [goesOn, h])
            simp [outcome, goesOn, h, bind, Except.bind, hgoes]
          · simp [outcome, goesOn, h, bind, Except.bind, pure, Except.pure]
      | tags list =>
          by_cases h : (Condition.tags list).Met selected (Strong selected)
          · have hgoes := htail (by rw [hlist]; simp [goesOn, h])
            simp [outcome, goesOn, h, bind, Except.bind, hgoes]
          · simp [outcome, goesOn, h, bind, Except.bind, pure, Except.pure]
      | malformed => rfl

/-! ### Joined lines -/

def joined (lines : List Bytes) : Bytes := [comma].intercalate lines

theorem joined_cons (line other : Bytes) (lines : List Bytes) :
    joined (line :: other :: lines) = line ++ comma :: joined (other :: lines) := by
  rw [joined, List.intercalate_cons_cons]
  simp [joined]

theorem TagList.append {s t : Bytes} {tags more : List EntityTag} (h : TagList s tags)
    (ht : TagList t more) : TagList (s ++ comma :: t) (tags ++ more) := by
  induction h with
  | last hmember => exact .more hmember ht
  | @more s rest tag tags hmember _ ih =>
      rw [List.append_assoc, List.cons_append, List.append_assoc]
      exact .more hmember ih

theorem Lists.joined {lines : List Bytes} {tags : List EntityTag} (h : Lists lines tags)
    (hne : lines ≠ []) : TagList (joined lines) tags := by
  induction h with
  | nil => exact absurd rfl hne
  | @cons line lines tags more hline hlines ih =>
      cases lines with
      | nil =>
          cases hlines
          rw [List.append_nil]
          simpa [Conditions.joined] using hline
      | cons other lines =>
          rw [joined_cons]
          exact hline.append (ih (List.cons_ne_nil _ _))

/-- A text with a comma in it is not a wildcard. -/
theorem not_wildcard_of_comma (s t : Bytes) : ¬IsWildcard (s ++ comma :: t) := by
  intro h
  obtain ⟨l, r, hl, hr, hsplit⟩ := trim_split (s ++ comma :: t)
  have hmem : comma ∈ s ++ comma :: t := List.mem_append_right _ List.mem_cons_self
  rw [hsplit, List.mem_append, List.mem_append, h] at hmem
  rcases hmem with hmem | hmem | hmem
  · exact absurd (hl comma hmem) (by decide)
  · exact absurd hmem (by decide)
  · exact absurd (hr comma hmem) (by decide)

/-- Lines of which one is not a list of tags, though they are one when joined: a comma between
the lines has come to stand inside a tag. -/
def Across (lines : List Bytes) : Prop :=
  (¬∃ tags, Lists lines tags) ∧ IsTagList (joined lines)

theorem readLines_joined (selected : Representation) (strong : Bool) {lines : List Bytes}
    (hne : lines ≠ []) (hlate : ¬LateWildcard lines) (hacross : ¬Across lines) :
    readLines selected strong {} [joined lines] = readLines selected strong {} lines := by
  cases lines with
  | nil => exact absurd rfl hne
  | cons line lines =>
      cases lines with
      | nil => simp [joined]
      | cons other lines =>
          by_cases hlists : ∃ tags, Lists (line :: other :: lines) tags
          · obtain ⟨tags, htags⟩ := hlists
            have hone := Lists.cons (htags.joined (List.cons_ne_nil _ _)) .nil
            rw [List.append_nil] at hone
            rw [readLines_lists selected strong htags {} rfl,
              readLines_lists selected strong hone {} rfl]
            rfl
          · have hjoined : ¬∃ tags, Lists [joined (line :: other :: lines)] tags := by
              rintro ⟨tags, htags⟩
              cases htags with
              | cons hline _ => exact hacross ⟨hlists, _, hline⟩
            have hleft : ∀ result,
                readLines selected strong {} [joined (line :: other :: lines)] ≠ .ok result := by
              intro result hread
              rcases readLines_sound hread with h | ⟨before, last, hsplit, -, hlast, -⟩
              · exact hjoined h
              · obtain ⟨rfl, hsame⟩ : before = [] ∧ [joined (line :: other :: lines)] = [last] := by
                  cases before with
                  | nil => exact ⟨rfl, hsplit⟩
                  | cons first before =>
                      have hlength := congrArg List.length hsplit
                      simp at hlength
                rw [List.cons.injEq] at hsame
                rw [← hsame.1, joined_cons] at hlast
                exact not_wildcard_of_comma _ _ hlast
            have hright : ∀ result,
                readLines selected strong {} (line :: other :: lines) ≠ .ok result := by
              intro result hread
              rcases readLines_sound hread with h | ⟨before, last, hsplit, hbefore, hlast, -⟩
              · exact hlists h
              · refine hlate ⟨before, last, hsplit, ?_, hbefore, hlast⟩
                rintro rfl
                have hlength := congrArg List.length hsplit
                simp at hlength
            cases hone : readLines selected strong {} [joined (line :: other :: lines)] with
            | ok result => exact absurd hone (hleft result)
            | error fault =>
                cases htwo : readLines selected strong {} (line :: other :: lines) with
                | ok result => exact absurd htwo (hright result)
                | error other => rfl

/-- The request with the lines of one field replaced by one line. -/
def Joins (name : Bytes) (request request' : Request) : Prop :=
  request'.method = request.method ∧
    (request'.headers.filter fun field => !Syntax.eql field.name name) =
      (request.headers.filter fun field => !Syntax.eql field.name name) ∧
    values name request.headers ≠ [] ∧
    values name request'.headers = [joined (values name request.headers)]

theorem values_other {name other : Bytes} (h : Syntax.eql other name = false)
    (headers : List Header) :
    values other headers =
      values other (headers.filter fun field => !Syntax.eql field.name name) := by
  rw [values, values, List.filter_filter]
  congr 1
  refine List.filter_congr fun field _ => ?_
  cases hother : Syntax.eql field.name other with
  | false => rfl
  | true =>
      rw [Syntax.eql, Ascii.eqlIgnoreCase, beq_iff_eq] at hother
      have hname : Syntax.eql field.name name = Syntax.eql other name := by
        rw [Syntax.eql, Ascii.eqlIgnoreCase, hother]
        rfl
      rw [hname, h]
      rfl

theorem isMatch_joins {name other : Bytes} {request request' : Request}
    (hjoins : Joins name request request') (hother : other = name ∨ Syntax.eql other name = false)
    (hlate : ¬LateWildcard (values name request.headers))
    (hacross : ¬Across (values name request.headers)) (selected : Representation)
    (strong : Bool) :
    isMatch request' other selected strong = isMatch request other selected strong := by
  obtain ⟨-, hkept, hne, hvalues⟩ := hjoins
  rw [isMatch_values, isMatch_values]
  rcases hother with rfl | hother
  · rw [hvalues, readLines_joined selected strong hne hlate hacross]
  · rw [values_other hother, hkept, ← values_other hother]

theorem uniqueDate_joins {name other : Bytes} {request request' : Request}
    (hjoins : Joins name request request') (hother : Syntax.eql other name = false)
    (parseDate : Bytes → Nat → Option Int) (now : Nat) :
    uniqueDate parseDate request' other now = uniqueDate parseDate request other now := by
  rw [uniqueDate_eq, uniqueDate_eq, values_other hother, hjoins.2.1, ← values_other hother]

theorem evaluate_joins (parseDate : Bytes → Nat → Option Int) {name : Bytes}
    {request request' : Request} (hname : name = ifMatch ∨ name = ifNoneMatch)
    (hjoins : Joins name request request')
    (hlate : ¬LateWildcard (values name request.headers))
    (hacross : ¬Across (values name request.headers)) (selected : Representation) (now : Nat) :
    evaluate parseDate request' selected now = evaluate parseDate request selected now := by
  have hmatch : ifMatch = name ∨ Syntax.eql ifMatch name = false := by
    rcases hname with rfl | rfl
    · exact Or.inl rfl
    · exact Or.inr (by decide)
  have hnone : ifNoneMatch = name ∨ Syntax.eql ifNoneMatch name = false := by
    rcases hname with rfl | rfl
    · exact Or.inr (by decide)
    · exact Or.inl rfl
  have hdates : Syntax.eql ifUnmodifiedSince name = false ∧
      Syntax.eql ifModifiedSince name = false := by
    rcases hname with rfl | rfl <;> exact ⟨by decide, by decide⟩
  rw [evaluate, evaluate, hjoins.1, isMatch_joins hjoins hmatch hlate hacross,
    uniqueDate_joins hjoins hdates.1]
  have htail : evaluateNone parseDate request' selected now =
      evaluateNone parseDate request selected now := by
    rw [evaluateNone, evaluateNone, hjoins.1, isMatch_joins hjoins hnone hlate hacross,
      uniqueDate_joins hjoins hdates.2]
  rw [htail]

/-! ### Commas inside tags -/

theorem count_blank {s : Bytes} (h : Blank s) : s.count quote = 0 ∧ comma ∉ s := by
  constructor
  · exact List.count_eq_zero.mpr fun hmem => absurd (h quote hmem) (by decide)
  · exact fun hmem => absurd (h comma hmem) (by decide)

theorem count_chars (tag : EntityTag) : tag.chars.count quote = 0 :=
  List.count_eq_zero.mpr fun hmem => absurd (tag.valid quote hmem) (by decide)

theorem Member.even {s : Bytes} {tag : Option EntityTag} (h : Member s tag) :
    s.count quote % 2 = 0 := by
  obtain ⟨l, r, hl, hr, rfl⟩ := h
  rw [List.count_append, List.count_append, (count_blank hl).1, (count_blank hr).1]
  cases tag with
  | none => rfl
  | some tag =>
      rw [Option.elim_some, EntityTag.text, EntityTag.quoted, List.count_append,
        List.count_cons_self, List.count_append, count_chars]
      cases tag.weak <;> decide

/-- A comma inside a member stands behind one of its two quotes. -/
theorem Member.cut {s t : Bytes} {tag : Option EntityTag} (h : Member (s ++ comma :: t) tag) :
    s.count quote % 2 = 1 := by
  obtain ⟨l, r, hl, hr, hsplit⟩ := h
  cases tag with
  | none =>
      have hmem : comma ∈ l ++ r := by
        rw [Option.elim_none, List.nil_append] at hsplit
        rw [← hsplit]
        exact List.mem_append_right _ List.mem_cons_self
      rcases List.mem_append.mp hmem with hmem | hmem
      · exact absurd hmem (count_blank hl).2
      · exact absurd hmem (count_blank hr).2
  | some tag =>
      generalize hw : (if tag.weak then weakness else []) = w
      have hopen : comma ∉ l ++ (w ++ [quote]) ∧ (l ++ (w ++ [quote])).count quote = 1 := by
        rw [List.mem_append, List.count_append, (count_blank hl).1, ← hw]
        refine ⟨fun hmem => hmem.elim (count_blank hl).2 ?_, ?_⟩
        · cases tag.weak <;> decide
        · cases tag.weak <;> decide
      rw [Option.elim_some, EntityTag.text, EntityTag.quoted, hw] at hsplit
      have hparts : s ++ comma :: t = (l ++ (w ++ [quote])) ++ (tag.chars ++ quote :: r) := by
        rw [hsplit]
        simp
      -- the comma can stand neither before the first quote nor behind the second
      rcases List.append_eq_append_iff.mp hparts with
        ⟨more, hmore, hrest⟩ | ⟨more, hmore, hrest⟩
      · cases more with
        | nil =>
            rw [List.append_nil] at hmore
            rw [← hmore, hopen.2]
        | cons c more =>
            rw [List.cons_append, List.cons.injEq] at hrest
            refine absurd ?_ hopen.1
            rw [hmore, hrest.1]
            exact List.mem_append_right _ List.mem_cons_self
      · rcases List.append_eq_append_iff.mp hrest with
          ⟨inner, hinner, hend⟩ | ⟨inner, hinner, hend⟩
        · have hmem : comma ∈ quote :: r := by
            rw [hend]
            exact List.mem_append_right _ List.mem_cons_self
          rcases List.mem_cons.mp hmem with hmem | hmem
          · exact absurd hmem (by decide)
          · exact absurd hmem (count_blank hr).2
        · have hnone : more.count quote = 0 := by
            have hchars := count_chars tag
            rw [hinner, List.count_append] at hchars
            omega
          rw [hmore, List.count_append, hopen.2, hnone]

theorem TagList.split {u : Bytes} {tags : List EntityTag} (h : TagList u tags) {s t : Bytes}
    (hsplit : u = s ++ comma :: t) (heven : s.count quote % 2 = 0) :
    IsTagList s ∧ IsTagList t := by
  induction h generalizing s with
  | last hmember =>
      rw [hsplit] at hmember
      have hodd := hmember.cut
      omega
  | @more m rest tag tags hmember hrest ih =>
      rcases List.append_eq_append_iff.mp hsplit with
        ⟨more, hmore, htail⟩ | ⟨more, hmore, htail⟩
      · cases more with
        | nil =>
            rw [List.append_nil] at hmore
            rw [List.nil_append, List.cons.injEq] at htail
            rw [hmore, ← htail.2]
            exact ⟨⟨_, .last hmember⟩, ⟨_, hrest⟩⟩
        | cons c more =>
            rw [List.cons_append, List.cons.injEq] at htail
            have hcount : more.count quote % 2 = 0 := by
              have hm := hmember.even
              rw [hmore, ← htail.1, List.count_append, List.count_cons_of_ne (by decide)] at heven
              omega
            obtain ⟨⟨front, hfront⟩, hback⟩ := ih htail.2 hcount
            rw [hmore, ← htail.1]
            exact ⟨⟨_, .more hmember hfront⟩, hback⟩
      · cases more with
        | nil =>
            rw [List.append_nil] at hmore
            rw [List.nil_append, List.cons.injEq] at htail
            rw [← hmore, htail.2]
            exact ⟨⟨_, .last hmember⟩, ⟨_, hrest⟩⟩
        | cons c more =>
            rw [List.cons_append, List.cons.injEq] at htail
            rw [hmore, ← htail.1] at hmember
            have hodd := hmember.cut
            omega

/-- Where a comma between lines comes to stand inside a tag, a line leaves a quote open. -/
theorem Across.unclosed {lines : List Bytes} (h : Across lines) :
    ∃ line ∈ lines, line.count quote % 2 = 1 := by
  by_contra hclosed
  have heven : ∀ line ∈ lines, line.count quote % 2 = 0 := by
    intro line hmem
    by_contra hodd
    exact hclosed ⟨line, hmem, by omega⟩
  obtain ⟨hlists, hjoined⟩ := h
  refine hlists ?_
  clear hlists hclosed
  induction lines with
  | nil => exact ⟨[], .nil⟩
  | cons line lines ih =>
      cases lines with
      | nil =>
          obtain ⟨tags, htags⟩ := hjoined
          have hline : TagList line tags := by simpa [joined] using htags
          exact ⟨tags ++ [], .cons hline .nil⟩
      | cons other lines =>
          obtain ⟨tags, htags⟩ := hjoined
          rw [joined_cons] at htags
          obtain ⟨⟨front, hfront⟩, hback⟩ := htags.split rfl (heven line List.mem_cons_self)
          obtain ⟨more, hmore⟩ := ih
            (fun line hmem => heven line (List.mem_cons_of_mem _ hmem)) hback
          exact ⟨front ++ more, .cons hfront hmore⟩

/-- The lists that the order of evaluation comes to, and one of them malformed. -/
def Refused (method : Bytes) (selected : Representation) (unmodifiedSince : Option Int)
    (onMatch onNoneMatch : Condition) : Prop :=
  ignored method = false ∧
    (onMatch = .malformed ∨
      goesOn selected unmodifiedSince onMatch = .ok true ∧ onNoneMatch = .malformed)

theorem precedence_error (method : Bytes) (selected : Representation)
    (onMatch onNoneMatch : Condition) (unmodifiedSince modifiedSince : Option Int) :
    precedence method selected onMatch onNoneMatch unmodifiedSince modifiedSince =
        .error .invalidEntityTag ↔
      Refused method selected unmodifiedSince onMatch onNoneMatch := by
  have hgoes : goesOn selected unmodifiedSince onMatch = .error .invalidEntityTag ↔
      onMatch = .malformed := by
    cases onMatch <;> simp [goesOn]
  have hstatus : noneStatus method selected modifiedSince onNoneMatch =
      .error .invalidEntityTag ↔ onNoneMatch = .malformed := by
    cases onNoneMatch <;> simp [noneStatus]
  rw [precedence, Refused]
  cases hignored : ignored method with
  | true => simp
  | false =>
      rw [if_neg Bool.false_ne_true]
      rw [← hgoes]
      cases goesOn selected unmodifiedSince onMatch with
      | error fault => cases fault; simp
      | ok go =>
          cases go with
          | true => simpa using hstatus
          | false => simp

/-- Preconditions are evaluated in order over the lists that the lines hold, an error is answered
just when a list that the order comes to is malformed, and joining the lines of a field changes
neither, unless a comma between them comes to stand inside a tag. -/
theorem evaluate_precedence (parseDate : Bytes → Nat → Option Int) (request : Request)
    (selected : Representation) (now : Nat) :
    (¬Misread parseDate request selected now →
      evaluate parseDate request selected now =
        precedence request.method selected (reading (values ifMatch request.headers))
          (reading (values ifNoneMatch request.headers))
          (dateOf parseDate (values ifUnmodifiedSince request.headers) now)
          (dateOf parseDate (values ifModifiedSince request.headers) now) ∧
      (evaluate parseDate request selected now = .error .invalidEntityTag ↔
        Refused request.method selected
          (dateOf parseDate (values ifUnmodifiedSince request.headers) now)
          (reading (values ifMatch request.headers))
          (reading (values ifNoneMatch request.headers)))) ∧
      ∀ (name : Bytes) (request' : Request), name = ifMatch ∨ name = ifNoneMatch →
        Joins name request request' →
          (¬LateWildcard (values name request.headers) → ¬Across (values name request.headers) →
            evaluate parseDate request' selected now = evaluate parseDate request selected now) ∧
          (Across (values name request.headers) →
            ∃ line ∈ values name request.headers, line.count quote % 2 = 1) := by
  refine ⟨fun hread => ?_, fun name request' hname hjoins => ⟨fun hlate hacross => ?_, Across.unclosed⟩⟩
  · have heq := evaluate_eq parseDate request selected now hread
    refine ⟨heq, ?_⟩
    rw [heq]
    exact precedence_error _ _ _ _ _ _
  · exact evaluate_joins parseDate hname hjoins hlate hacross selected now

theorem not_lateWildcard {lines : List Bytes} (h : lines.length ≤ 1) : ¬LateWildcard lines := by
  rintro ⟨before, line, rfl, hbefore, -⟩
  rw [List.length_append, List.length_singleton] at h
  exact hbefore (List.length_eq_zero_iff.mp (by omega))

def twoLines : Request :=
  { method := ascii "GET"
    headers := [⟨ascii "If-None-Match", ascii "\"other\""⟩,
      ⟨ascii "If-None-Match", ascii "W/\"a,b\""⟩] }

def oneLine : Request :=
  { method := ascii "GET"
    headers := [⟨ascii "If-None-Match", ascii "\"other\",W/\"a,b\""⟩] }

theorem evaluate_precedence_list :
    evaluate (fun _ _ => none) twoLines { etag := some (ascii "\"a,b\"") } 0 =
        precedence (ascii "GET") { etag := some (ascii "\"a,b\"") } (reading [])
          (reading [ascii "\"other\"", ascii "W/\"a,b\""]) none none ∧
      evaluate (fun _ _ => none) oneLine { etag := some (ascii "\"a,b\"") } 0 =
        evaluate (fun _ _ => none) twoLines { etag := some (ascii "\"a,b\"") } 0 ∧
      evaluate (fun _ _ => none) twoLines { etag := some (ascii "\"a,b\"") } 0 = .ok (some 304) := by
  have hlate : ¬LateWildcard (values ifNoneMatch twoLines.headers) := by
    have hvalues : values ifNoneMatch twoLines.headers =
        [ascii "\"other\"", ascii "W/\"a,b\""] := by decide +kernel
    rw [hvalues]
    rintro ⟨before, line, hsplit, -, -, hwildcard⟩
    have hlast := congrArg List.getLast? hsplit
    rw [List.getLast?_concat] at hlast
    obtain rfl : ascii "W/\"a,b\"" = line := Option.some.inj hlast
    have hother : Syntax.trim (ascii "W/\"a,b\"") ≠ wildcard := by decide +kernel
    exact hother hwildcard
  have hread : ¬Misread (fun _ _ => none) twoLines { etag := some (ascii "\"a,b\"") } 0 := by
    rintro ⟨-, hmatch | ⟨-, hnone⟩⟩
    · exact not_lateWildcard (by decide +kernel) hmatch
    · exact hlate hnone
  have hacross : ¬Across (values ifNoneMatch twoLines.headers) := fun h =>
    absurd h.unclosed (by decide +kernel)
  obtain ⟨hstatus, hjoins⟩ := evaluate_precedence (fun _ _ => none) twoLines
    { etag := some (ascii "\"a,b\"") } 0
  have hjoined : Joins ifNoneMatch twoLines oneLine := by
    unfold Joins
    decide +kernel
  exact ⟨(hstatus hread).1, (hjoins ifNoneMatch oneLine (Or.inr rfl) hjoined).1 hlate hacross,
    by decide +kernel⟩

/-- A tag that is broken off at the end of a line. -/
def brokenOff : Request :=
  { method := ascii "GET"
    headers := [⟨ascii "If-Match", ascii "\"a"⟩, ⟨ascii "If-Match", ascii "b\""⟩] }

def mended : Request :=
  { method := ascii "GET", headers := [⟨ascii "If-Match", ascii "\"a,b\""⟩] }

/-- Joining lines can turn an error into an answer. -/
theorem evaluate_brokenOff :
    Joins ifMatch brokenOff mended ∧
      evaluate (fun _ _ => none) brokenOff {} 0 = .error .invalidEntityTag ∧
      evaluate (fun _ _ => none) mended {} 0 = .ok (some 412) := by
  unfold Joins
  decide +kernel

end Conditions

end Zhtps
