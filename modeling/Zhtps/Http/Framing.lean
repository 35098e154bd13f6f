import Zhtps.Http.Grammar

/-!
How a request head frames its body: what Transfer-Encoding and Content-Length lines say, read off
the text of the head, and that `Request.parse` decides in the same way.
-/

namespace Zhtps

namespace Framing

open Grammar

/-- The field lines of a head: what stands between the first line and the empty one. -/
def fieldLines (head : Bytes) : List Bytes :=
  (Mem.splitLines head).tail.takeWhile fun line => !line.isEmpty

/-- The field of a line: the name ends at the first colon. -/
def fieldOf (line : Bytes) : Header :=
  ⟨line.takeWhile (· != 0x3a), Syntax.trim (line.dropWhile (· != 0x3a)).tail⟩

def headFields (head : Bytes) : List Header := (fieldLines head).map fieldOf

/-- The values of the lines of one name, in order. -/
def values (name : Bytes) (fields : List Header) : List Bytes :=
  (fields.filter fun field => Syntax.eql field.name name).map (·.value)

/-- The parts of a list, split at the commas that stand outside quoted strings. -/
def splitList : (quoted : Bool) → Bytes → List Bytes
  | _, [] => [[]]
  | true, 0x5c :: c :: rest => (splitList true rest).modifyHead fun part => 0x5c :: c :: part
  | quoted, c :: rest =>
      if c = 0x22 then (splitList (!quoted) rest).modifyHead (c :: ·)
      else if c = 0x2c ∧ quoted = false then [] :: splitList false rest
      else (splitList quoted rest).modifyHead (c :: ·)

/-- The members of a list, without the empty ones. -/
def members (value : Bytes) : List Bytes :=
  ((splitList false value).map Syntax.trim).filter fun member => !member.isEmpty

def transferEncoding : Bytes := ascii "transfer-encoding"

def contentLength : Bytes := ascii "content-length"

/-- The version of the first line is 1.1 or a later 1.x. -/
def Modern (head : Bytes) : Prop :=
  ∃ first minor, (Mem.splitLines head).head? = some first ∧ Ascii.isDigit minor = true ∧
    minor ≠ 0x30 ∧ (ascii "HTTP/1." ++ [minor]) <:+ first

/-- A body of chunks: one coding over all the lines, without parameters, and no length. -/
def IsChunked (head : Bytes) : Prop :=
  values transferEncoding (headFields head) ≠ [] ∧
    (∃ coding, (values transferEncoding (headFields head)).flatMap members = [coding] ∧
      Syntax.eql coding (ascii "chunked") = true) ∧
    Modern head ∧ values contentLength (headFields head) = []

/-- A body of a known length: one line of digits, and no coding. -/
def IsSized (head : Bytes) (n : Nat) : Prop :=
  (∃ value, values contentLength (headFields head) = [value] ∧ value ≠ [] ∧
    (∀ c ∈ value, Ascii.isDigit c = true) ∧ n = numeral 10 value) ∧ n < 2 ^ 64 ∧
    values transferEncoding (headFields head) = []

/-- Neither field. -/
def IsUnframed (head : Bytes) : Prop :=
  values transferEncoding (headFields head) = [] ∧ values contentLength (headFields head) = []

/-! ### Lists without quoted strings -/

/-- The members, when every comma separates. -/
def listed (value : Bytes) : List Bytes :=
  ((value.splitOn 0x2c).map Syntax.trim).filter fun member => !member.isEmpty

theorem splitList_eq {value : Bytes} (h : 0x22 ∉ value) :
    splitList false value = value.splitOn 0x2c := by
  induction value with
  | nil => rfl
  | cons c rest ih =>
      obtain ⟨hc, hrest⟩ := not_or.mp (List.mem_cons.not.mp h)
      by_cases hcomma : c = 0x2c
      · rw [hcomma, Lib.splitOn_cons_self, ← ih hrest]
        rfl
      · rw [Lib.splitOn_cons_ne hcomma, ← ih hrest, splitList, if_neg (Ne.symm hc),
          if_neg fun hboth => hcomma hboth.1]
        simp

theorem members_eq {value : Bytes} (h : 0x22 ∉ value) : members value = listed value := by
  rw [members, splitList_eq h, listed]

theorem listed_append (x y : Bytes) : listed (x ++ 0x2c :: y) = listed x ++ listed y := by
  rw [listed, Lib.splitOn_append, List.map_append, List.filter_append]
  rfl

theorem listed_cons_comma (y : Bytes) : listed (0x2c :: y) = listed y := listed_append [] y

theorem listed_single {x : Bytes} (h : 0x2c ∉ x) :
    listed x = if (Syntax.trim x).isEmpty then [] else [Syntax.trim x] := by
  have hsplit : x.splitOn 0x2c = [x] := by
    induction x with
    | nil => rfl
    | cons c rest ih =>
        obtain ⟨hc, hrest⟩ := not_or.mp (List.mem_cons.not.mp h)
        rw [Lib.splitOn_cons_ne (Ne.symm hc), ih hrest]
        rfl
  rw [listed, hsplit]
  cases hempty : (Syntax.trim x).isEmpty <;> simp [hempty]

theorem blank_no_comma {l : Bytes} (h : Blank l) : 0x2c ∉ l := fun hmem =>
  absurd (h _ hmem) (by decide)

theorem listed_blank_left {l : Bytes} (hl : Blank l) (x : Bytes) : listed (l ++ x) = listed x := by
  have hsingle : ∀ a : Bytes, 0x2c ∉ a → listed (l ++ a) = listed a := by
    intro a ha
    have hboth : 0x2c ∉ l ++ a := by
      rw [List.mem_append]
      exact fun h => h.elim (blank_no_comma hl) ha
    rw [listed_single hboth, listed_single ha, trim_blank_left hl]
  by_cases hcomma : 0x2c ∈ x
  · obtain ⟨a, b, rfl, ha⟩ := List.eq_append_cons_of_mem hcomma
    rw [← List.append_assoc, listed_append, listed_append, hsingle a ha]
  · exact hsingle x hcomma

theorem listed_blank_right {r : Bytes} (hr : Blank r) (x : Bytes) :
    listed (x ++ r) = listed x := by
  induction hlength : x.length using Nat.strongRecOn generalizing x with
  | ind n ih =>
      by_cases hcomma : 0x2c ∈ x
      · obtain ⟨a, b, rfl, ha⟩ := List.eq_append_cons_of_mem hcomma
        have hshort : b.length < n := by
          rw [← hlength, List.length_append, List.length_cons]
          omega
        rw [List.append_assoc, List.cons_append, listed_append, listed_append,
          ih b.length hshort b rfl]
      · have hboth : 0x2c ∉ x ++ r := by
          rw [List.mem_append]
          exact fun h => h.elim hcomma (blank_no_comma hr)
        rw [listed_single hboth, listed_single hcomma, trim_blank_right hr]

theorem listed_trim (x : Bytes) : listed (Syntax.trim x) = listed x := by
  obtain ⟨l, r, hl, hr, hx⟩ := trim_split x
  conv_rhs => rw [hx, listed_blank_left hl, listed_blank_right hr]

/-- Trimming takes no quote away. -/
theorem quote_mem_trim {x : Bytes} : 0x22 ∈ Syntax.trim x ↔ 0x22 ∈ x := by
  obtain ⟨l, r, hl, hr, hx⟩ := trim_split x
  have hno : ∀ s : Bytes, Blank s → 0x22 ∉ s := fun s hs hmem => absurd (hs _ hmem) (by decide)
  conv_rhs => rw [hx, List.mem_append, List.mem_append]
  simp only [hno l hl, hno r hr, false_or, or_false]

/-! ### One Transfer-Encoding value -/

def isChunkedCoding (coding : Bytes) : Bool := Syntax.eql coding (ascii "chunked")

/-- What the members seen so far make of the flags, as long as every coding was understood. -/
def Coded (codings : List Bytes) (chunked : Bool) : Prop :=
  (codings = [] ∧ chunked = false) ∨
    (chunked = true ∧ ∃ coding, codings = [coding] ∧ isChunkedCoding coding = true)

theorem isToken_trim {s : Bytes} (h : IsToken s) : Syntax.trim s = s :=
  trim_solid fun c hc => isTokenByte_not_blank (h.2 c hc)

theorem isToken_listed {s : Bytes} (h : IsToken s) : listed s = [s] := by
  have hcomma : 0x2c ∉ s := fun hmem => absurd (h.2 _ hmem) (by decide)
  rw [listed_single hcomma, isToken_trim h, if_neg]
  rw [List.isEmpty_iff]
  exact h.1

theorem isToken_no_quote {s : Bytes} (h : IsToken s) : 0x22 ∉ s := fun hmem =>
  absurd (h.2 _ hmem) (by decide)

/-- A coding with nothing but blanks behind it. -/
theorem listed_last {token tail : Bytes} (htoken : IsToken token) (h : Syntax.trim tail = []) :
    listed (token ++ tail) = [token] ∧ 0x22 ∉ token ++ tail := by
  have hblank : Blank tail := by
    obtain ⟨l, r, hl, hr, htail⟩ := trim_split tail
    rw [htail, h, List.nil_append]
    exact fun c hc => (List.mem_append.mp hc).elim (hl c) (hr c)
  refine ⟨by rw [listed_blank_right hblank, isToken_listed htoken], ?_⟩
  have hquote : 0x22 ∉ tail := by
    rw [← quote_mem_trim, h]
    exact List.not_mem_nil
  exact fun hmem => (List.mem_append.mp hmem).elim (isToken_no_quote htoken) hquote

/-- A coding and the comma behind it. -/
theorem listed_next {token tail after : Bytes} (htoken : IsToken token)
    (h : Syntax.trim tail = 0x2c :: after) :
    listed (token ++ tail) = token :: listed after ∧ (0x22 ∈ token ++ tail ↔ 0x22 ∈ after) := by
  obtain ⟨l, r, hl, hr, htail⟩ := trim_split tail
  rw [h] at htail
  have hsplit : token ++ tail = (token ++ l) ++ 0x2c :: (after ++ r) := by
    rw [htail, List.append_assoc, List.cons_append]
  refine ⟨?_, ?_⟩
  · rw [hsplit, listed_append, listed_blank_right hl, listed_blank_right hr, isToken_listed htoken]
    rfl
  · rw [List.mem_append, ← quote_mem_trim (x := tail), h, List.mem_cons]
    constructor
    · rintro (hmem | hmem | hmem)
      · exact absurd hmem (isToken_no_quote htoken)
      · exact absurd hmem (by decide)
      · exact hmem
    · exact fun hmem => Or.inr (Or.inr hmem)

/-- A coding that is not understood is never forgotten. -/
theorem parseTransferLoop_unsupported {fuel : Nat} {rest : Bytes}
    {codings result : Request.Codings} (hun : codings.unsupported = true)
    (h : Request.parseTransferLoop fuel rest codings = .ok result) :
    result.unsupported = true := by
  induction fuel generalizing rest codings with
  | zero => rwa [← Except.ok.inj h]
  | succ fuel ih =>
      cases rest with
      | nil => rwa [← Except.ok.inj h]
      | cons first after =>
          rw [Request.parseTransferLoop] at h
          have hkept : ∀ isChunked : Bool,
              (if isChunked then { codings with chunked := true }
                else { codings with unsupported := true } : Request.Codings).unsupported =
                true := by
            intro isChunked
            cases isChunked
            · rfl
            · exact hun
          simp only at h
          split at h
          · exact ih hun h
          · split at h
            · exact absurd h nofun
            · split at h
              · exact absurd h nofun
              · split at h
                · exact absurd h nofun
                · split at h
                  · rw [← Except.ok.inj h]
                    exact hkept _
                  · split at h
                    · exact absurd h nofun
                    · exact ih (hkept _) h

/-- Behind `chunked` no parameter is accepted. -/
theorem parseParameters_chunked {fuel : Nat} {rest rest' : Bytes}
    (h : Request.parseParameters true fuel rest = .ok rest') : rest' = rest := by
  cases fuel with
  | zero => exact (Except.ok.inj h).symm
  | succ fuel =>
      rw [Request.parseParameters.eq_def] at h
      dsimp only at h
      split at h
      · rw [if_pos rfl] at h
        exact absurd h nofun
      · exact (Except.ok.inj h).symm

theorem parseTransferLoop_listed {fuel : Nat} {rest : Bytes} {codings result : Request.Codings}
    (hfuel : rest.length < fuel) (h : Request.parseTransferLoop fuel rest codings = .ok result)
    (hsupported : result.unsupported = false) :
    0x22 ∉ rest ∧ ((listed rest = [] ∧ result.chunked = codings.chunked) ∨
      (codings.chunked = false ∧ Coded (listed rest) true ∧ result.chunked = true)) := by
  induction fuel generalizing rest codings with
  | zero => exact absurd hfuel (Nat.not_lt_zero _)
  | succ fuel ih =>
      cases rest with
      | nil =>
          rw [← Except.ok.inj h]
          exact ⟨List.not_mem_nil, Or.inl ⟨rfl, rfl⟩⟩
      | cons first after =>
          have hshort : ∀ y : Bytes, y.length ≤ after.length → (Syntax.trim y).length < fuel := by
            intro y hy
            have htrim := length_trim_le y
            rw [List.length_cons] at hfuel
            omega
          rw [Request.parseTransferLoop] at h
          simp only at h
          split at h
          · rename_i hcomma
            obtain rfl : first = 0x2c := by simpa using hcomma
            have hrest := ih (hshort after (Nat.le_refl _)) h
            rw [quote_mem_trim, listed_trim] at hrest
            refine ⟨?_, by rw [listed_cons_comma]; exact hrest.2⟩
            exact List.not_mem_cons_of_ne_of_not_mem (by decide) hrest.1
          · split at h
            · exact absurd h nofun
            · rename_i hchunked
              have hfirst : codings.chunked = false := by simpa using hchunked
              split at h
              · exact absurd h nofun
              · rename_i hlength
                obtain ⟨token, tail, hsplit, htoken, hend, -⟩ :=
                  tokenLength_split (x := first :: after) (by simpa using hlength)
                rw [hend, hsplit, List.take_left, List.drop_left] at h
                have hpos : 0 < token.length := List.length_pos_iff.mpr htoken.1
                have hlen := congrArg List.length hsplit
                rw [List.length_cons, List.length_append] at hlen
                split at h
                · exact absurd h nofun
                · rename_i rest' hparameters
                  cases hcoding : Syntax.eql token (ascii "chunked") with
                  | false =>
                      rw [hcoding] at h
                      split at h
                      · rw [← Except.ok.inj h] at hsupported
                        exact absurd hsupported nofun
                      · split at h
                        · exact absurd h nofun
                        · rw [parseTransferLoop_unsupported rfl h] at hsupported
                          exact absurd hsupported nofun
                  | true =>
                      rw [hcoding] at h hparameters
                      obtain rfl := parseParameters_chunked hparameters
                      split at h
                      · rename_i hnil
                        obtain ⟨hlisted, hquote⟩ := listed_last htoken hnil
                        rw [← Except.ok.inj h, hsplit, hlisted]
                        exact ⟨hquote, Or.inr ⟨hfirst, Or.inr ⟨rfl, token, rfl, hcoding⟩, rfl⟩⟩
                      · rename_i next after' hcons
                        split at h
                        · exact absurd h nofun
                        · rename_i hnext
                          obtain rfl : next = 0x2c := by simpa using hnext
                          obtain ⟨hlisted, hquote⟩ := listed_next htoken hcons
                          have hless : after'.length ≤ after.length := by
                            have htrim := length_trim_le tail
                            rw [hcons, List.length_cons] at htrim
                            omega
                          -- only empty members may stand behind `chunked`
                          obtain ⟨hquote', hmore⟩ := ih (hshort after' hless) h
                          rw [quote_mem_trim] at hquote'
                          rw [listed_trim] at hmore
                          obtain ⟨hnone, hresult⟩ := hmore.resolve_right fun hx => absurd hx.1 nofun
                          rw [hsplit, hlisted, hnone, hresult, hquote]
                          exact ⟨hquote', Or.inr ⟨hfirst, Or.inr ⟨rfl, token, rfl, hcoding⟩, rfl⟩⟩

/-- One more value, whose codings are appended. -/
theorem parseTransfer_coded {value : Bytes} {codings result : Request.Codings} {seen : List Bytes}
    (hseen : codings.unsupported = false → Coded seen codings.chunked)
    (h : Request.parseTransfer value codings = .ok result) (hsupported : result.unsupported = false) :
    Coded (seen ++ members value) result.chunked := by
  have hbefore : codings.unsupported = false := by
    rw [← Bool.not_eq_true]
    intro hun
    rw [parseTransferLoop_unsupported hun h] at hsupported
    exact absurd hsupported nofun
  have htrim := length_trim_le value
  obtain ⟨hquote, hlisted⟩ := parseTransferLoop_listed (by omega) h hsupported
  rw [quote_mem_trim] at hquote
  rw [listed_trim] at hlisted
  rw [members_eq hquote]
  obtain ⟨hnone, hsame⟩ | ⟨hfirst, hcoded, hchunked⟩ := hlisted
  · rw [hnone, hsame, List.append_nil]
    exact hseen hbefore
  · have hnil : seen = [] := by
      obtain ⟨hnil, -⟩ | ⟨hyes, -⟩ := hseen hbefore
      · exact hnil
      · rw [hfirst] at hyes
        exact absurd hyes nofun
    rw [hnil, hchunked]
    exact hcoded

/-! ### The field loop -/

/-- The digits of a Content-Length value and their number. -/
def IsLength (value : Bytes) (n : Nat) : Prop :=
  value ≠ [] ∧ (∀ c ∈ value, Ascii.isDigit c = true) ∧ n = numeral 10 value ∧ n < 2 ^ 64

/-- What the loop knows about framing, behind the fields it has seen. -/
structure Framed (v : Version) (fields : Request.Fields) (seen : List Header) : Prop where
  slots : fields.slots = seen
  version : fields.request.version = v
  transfer : fields.transferSeen = true ↔ values transferEncoding seen ≠ []
  modern : fields.transferSeen = true → v ≠ .http10
  length : (values contentLength seen = [] ∧ fields.request.contentLength = none) ∨
    ∃ value n, values contentLength seen = [value] ∧ IsLength value n ∧
      fields.request.contentLength = some n
  coded : fields.codings.unsupported = false →
    Coded ((values transferEncoding seen).flatMap members) fields.codings.chunked

theorem values_append (name : Bytes) (seen : List Header) (header : Header) :
    values name (seen ++ [header]) =
      values name seen ++ if Syntax.eql header.name name then [header.value] else [] := by
  rw [values, List.filter_append, List.map_append, ← values]
  cases heql : Syntax.eql header.name name <;> simp [heql]

/-- One name is not two. -/
theorem eql_exclusive {name a b : Bytes} (ha : Syntax.eql name a = true)
    (hab : Syntax.eql a b = false) : Syntax.eql name b = false := by
  rw [← Bool.not_eq_true] at hab ⊢
  intro hb
  simp only [Syntax.eql, Ascii.eqlIgnoreCase, beq_iff_eq] at ha hb hab
  exact hab (ha.symm.trans hb)

/-- A field that is neither of the two. -/
theorem Framed.skip {v : Version} {fields fields' : Request.Fields} {seen : List Header}
    {header : Header} (h : Framed v fields seen)
    (hlength : Syntax.eql header.name contentLength = false)
    (htransfer : Syntax.eql header.name transferEncoding = false)
    (hslots : fields'.slots = fields.slots ++ [header])
    (hversion : fields'.request.version = fields.request.version)
    (hcontent : fields'.request.contentLength = fields.request.contentLength)
    (hseen : fields'.transferSeen = fields.transferSeen)
    (hcodings : fields'.codings = fields.codings) :
    Framed v fields' (seen ++ [header]) := by
  have hvalues : ∀ name, Syntax.eql header.name name = false →
      values name (seen ++ [header]) = values name seen := by
    intro name hname
    rw [values_append, hname]
    exact List.append_nil _
  refine ⟨?_, ?_, ?_, ?_, ?_, ?_⟩
  · rw [hslots, h.slots]
  · rw [hversion, h.version]
  · rw [hseen, hvalues _ htransfer]
    exact h.transfer
  · rw [hseen]
    exact h.modern
  · rw [hvalues _ hlength, hcontent]
    exact h.length
  · rw [hcodings, hvalues _ htransfer]
    exact h.coded

theorem isLength_of_parseInt {value : Bytes} {n : Nat} (hne : value ≠ [])
    (hdigits : ∀ c ∈ value, Ascii.isDigit c = true) (h : Fmt.parseInt value 10 = some n) :
    IsLength value n := by
  rw [parseInt_eq (by decide) hne fun c hc => isDigit_of_isDecimal (hdigits c hc)] at h
  obtain ⟨hlt, hsome⟩ := Option.ite_none_right_eq_some.mp h
  obtain rfl := Option.some.inj hsome
  exact ⟨hne, hdigits, rfl, hlt⟩

/-- The first Content-Length line. -/
theorem Framed.addLength {v : Version} {fields : Request.Fields} {seen : List Header}
    {header : Header} {n : Nat} (h : Framed v fields seen)
    (hname : Syntax.eql header.name contentLength = true)
    (hfirst : fields.request.contentLength = none) (hlength : IsLength header.value n) :
    Framed v { fields with
      slots := fields.slots ++ [header]
      request := { fields.request with contentLength := some n } } (seen ++ [header]) := by
  have htransfer : values transferEncoding (seen ++ [header]) = values transferEncoding seen := by
    rw [values_append, eql_exclusive hname (by decide)]
    exact List.append_nil _
  refine ⟨?_, h.version, ?_, h.modern, Or.inr ⟨header.value, n, ?_, hlength, rfl⟩, ?_⟩
  · show fields.slots ++ [header] = _
    rw [h.slots]
  · rw [htransfer]
    exact h.transfer
  · obtain ⟨hnone, -⟩ | ⟨value, n', -, -, hsome⟩ := h.length
    · rw [values_append, hnone, hname]
      rfl
    · rw [hfirst] at hsome
      exact absurd hsome nofun
  · rw [htransfer]
    exact h.coded

/-- A Transfer-Encoding line of a later version. -/
theorem Framed.addTransfer {v : Version} {fields : Request.Fields} {seen : List Header}
    {header : Header} {codings : Request.Codings} (h : Framed v fields seen)
    (hname : Syntax.eql header.name transferEncoding = true)
    (hlength : Syntax.eql header.name contentLength = false)
    (hversion : fields.request.version ≠ .http10)
    (hparse : Request.parseTransfer header.value fields.codings = .ok codings) :
    Framed v { fields with
      slots := fields.slots ++ [header]
      transferSeen := true
      codings := codings } (seen ++ [header]) := by
  have hvalues : values transferEncoding (seen ++ [header]) =
      values transferEncoding seen ++ [header.value] := by
    rw [values_append, hname]
    rfl
  refine ⟨?_, h.version, ?_, ?_, ?_, ?_⟩
  · show fields.slots ++ [header] = _
    rw [h.slots]
  · rw [hvalues]
    simp
  · rw [h.version] at hversion
    exact fun _ => hversion
  · rw [values_append, hlength]
    simpa using h.length
  · intro hsupported
    rw [hvalues, List.flatMap_append]
    simpa using parseTransfer_coded h.coded hparse hsupported

theorem parseConnection_same {value : Bytes} {fields fields' : Request.Fields}
    (h : Request.parseConnection value fields = .ok fields') :
    fields'.slots = fields.slots ∧ fields'.request = fields.request ∧
      fields'.transferSeen = fields.transferSeen ∧ fields'.codings = fields.codings := by
  unfold Request.parseConnection at h
  generalize Mem.splitScalar 0x2c value = parts at h
  induction parts generalizing fields with
  | nil =>
      obtain rfl := Except.ok.inj h
      exact ⟨rfl, rfl, rfl, rfl⟩
  | cons part parts ih =>
      rw [List.foldlM_cons] at h
      dsimp only at h
      split at h
      · exact ih h
      · split at h
        · exact absurd h nofun
        · exact @ih { fields with
            connectionClose :=
              fields.connectionClose || Syntax.eql (Syntax.trim part) (ascii "close")
            connectionKeepAlive :=
              fields.connectionKeepAlive || Syntax.eql (Syntax.trim part) (ascii "keep-alive") } h

theorem addField_framed {v : Version} {fields fields' : Request.Fields} {seen : List Header}
    {header : Header} (h : Framed v fields seen)
    (hadd : Request.addField fields header = .ok fields') :
    Framed v fields' (seen ++ [header]) := by
  unfold Request.addField at hadd
  dsimp only at hadd
  split at hadd
  · rename_i hname
    split at hadd
    · exact absurd hadd nofun
    · split at hadd
      · exact absurd hadd nofun
      · obtain rfl := Except.ok.inj hadd
        exact h.skip (eql_exclusive hname (by decide)) (eql_exclusive hname (by decide))
          rfl rfl rfl rfl rfl
  · split at hadd
    · rename_i hname
      split at hadd
      · exact absurd hadd nofun
      · rename_i hfirst
        split at hadd
        · exact absurd hadd nofun
        · rename_i hempty
          split at hadd
          · exact absurd hadd nofun
          · rename_i hdigits
            split at hadd
            · exact absurd hadd nofun
            · rename_i n hparse
              obtain rfl := Except.ok.inj hadd
              exact h.addLength hname (by simpa using hfirst)
                (isLength_of_parseInt (by simpa using hempty) (by simpa using hdigits) hparse)
    · rename_i hlength
      split at hadd
      · rename_i hname
        rw [Bool.not_eq_true] at hlength
        split at hadd
        · exact absurd hadd nofun
        · rename_i hversion
          split at hadd
          · exact absurd hadd nofun
          · rename_i codings hcodings
            obtain rfl := Except.ok.inj hadd
            exact h.addTransfer hname hlength (by simpa using hversion) hcodings
      · rename_i htransfer
        rw [Bool.not_eq_true] at hlength htransfer
        split at hadd
        · obtain ⟨hslots, hrequest, hseen, hcodings⟩ := parseConnection_same hadd
          exact h.skip hlength htransfer hslots (by rw [hrequest]) (by rw [hrequest]) hseen hcodings
        · split at hadd
          · split at hadd
            · exact absurd hadd nofun
            · obtain rfl := Except.ok.inj hadd
              exact h.skip hlength htransfer rfl rfl rfl rfl rfl
          · obtain rfl := Except.ok.inj hadd
            exact h.skip hlength htransfer rfl rfl rfl rfl rfl

/-- The loop's reading of a line is the field of the line. -/
theorem parseHeader_fieldOf {line : Bytes} {header : Header}
    (h : Request.parseHeader line = .ok header) : header = fieldOf line := by
  unfold Request.parseHeader at h
  split at h
  · exact absurd h nofun
  · rename_i colon hcolon
    dsimp only at h
    split at h
    · exact absurd h nofun
    · obtain rfl := Except.ok.inj h
      obtain ⟨-, rfl⟩ := List.findIdx?_eq_some_iff_findIdx_eq.mp hcolon
      have hcolons : (fun c : UInt8 => !(c != 0x3a)) = (· == 0x3a) := by
        funext c
        simp [bne]
      rw [fieldOf, List.takeWhile_eq_take_findIdx_not, List.dropWhile_eq_drop_findIdx_not,
        hcolons, List.tail_drop]

theorem parseFields_framed {v : Version} {slots : Nat} {fields result : Request.Fields}
    {seen : List Header} {lines : List Bytes} (h : Framed v fields seen)
    (hparse : Request.parseFields slots fields lines = .ok result) :
    Framed v result (seen ++ (lines.takeWhile fun line => !line.isEmpty).map fieldOf) := by
  induction lines generalizing fields seen with
  | nil => exact absurd hparse nofun
  | cons line lines ih =>
      rw [Request.parseFields] at hparse
      split at hparse
      · rename_i hempty
        obtain rfl := Except.ok.inj hparse
        rw [List.takeWhile_cons_of_neg (by simpa using hempty), List.map_nil, List.append_nil]
        exact h
      · rename_i hline
        split at hparse
        · exact absurd hparse nofun
        · split at hparse
          · exact absurd hparse nofun
          · rename_i header hheader
            split at hparse
            · exact absurd hparse nofun
            · rename_i next hadd
              have hnext := ih (addField_framed h hadd) hparse
              rw [List.takeWhile_cons_of_pos (by simpa using hline), List.map_cons]
              rw [parseHeader_fieldOf hheader, List.append_assoc] at hnext
              exact hnext

/-! ### The whole head -/

/-- Eight bytes that pass the checks of the version. -/
theorem version_eq {version : Bytes} {minor : UInt8} (hlength : version.length = 8)
    (hname : (ascii "HTTP/").isPrefixOf version = true) (hmajor : version[5]? = some 0x31)
    (hdot : version[6]? = some 0x2e) (hminor : version[7]? = some minor) :
    version = ascii "HTTP/1." ++ [minor] := by
  obtain ⟨tail, rfl⟩ := List.isPrefixOf_iff_prefix.mp hname
  have htail : tail.length = 3 := by
    rw [List.length_append] at hlength
    have hfive : (ascii "HTTP/").length = 5 := by decide
    omega
  obtain ⟨x, y, z, rfl⟩ := List.length_eq_three.mp htail
  obtain rfl : x = 0x31 := Option.some.inj hmajor
  obtain rfl : y = 0x2e := Option.some.inj hdot
  obtain rfl : z = minor := Option.some.inj hminor
  rfl

theorem parseRequestLine_fresh {first : Bytes} {request : Request}
    (h : Request.parseRequestLine first = .ok request) :
    request.contentLength = none ∧ (request.version ≠ .http10 →
      ∃ minor, Ascii.isDigit minor = true ∧ minor ≠ 0x30 ∧
        (ascii "HTTP/1." ++ [minor]) <:+ first) := by
  unfold Request.parseRequestLine at h
  split at h
  · exact absurd h nofun
  · dsimp only at h
    split at h
    · exact absurd h nofun
    · split at h
      · exact absurd h nofun
      · rename_i last hlast
        split at h
        · exact absurd h nofun
        · rename_i hshape
          split at h
          · exact absurd h nofun
          · rename_i hmajor
            obtain rfl := Except.ok.inj h
            refine ⟨rfl, fun hversion => ?_⟩
            have hsuffix : first.drop (last + 1) <:+ first := List.drop_suffix _ _
            generalize first.drop (last + 1) = version at hshape hmajor hversion hsuffix
            simp only [Bool.or_eq_true, not_or, bne_iff_ne, ne_eq, Decidable.not_not,
              Bool.not_eq_true', Bool.not_eq_false] at hshape hmajor
            obtain ⟨⟨⟨⟨hlength, hname⟩, -⟩, hdot⟩, hdigit⟩ := hshape
            have hseven : 7 < version.length := by omega
            rw [List.getElem?_eq_getElem hseven] at hdigit hversion
            refine ⟨version[7], hdigit, ?_, ?_⟩
            · intro hzero
              rw [hzero] at hversion
              exact hversion rfl
            · rw [← version_eq hlength hname hmajor hdot (List.getElem?_eq_getElem hseven)]
              exact hsuffix

theorem parseTarget_same {request request' : Request} (h : request.parseTarget = .ok request') :
    request'.version = request.version ∧ request'.contentLength = request.contentLength ∧
      request'.trailers = request.trailers := by
  unfold Request.parseTarget at h
  dsimp only at h
  split at h
  · exact absurd h nofun
  · split at h
    · split at h
      · exact absurd h nofun
      · obtain rfl := Except.ok.inj h
        exact ⟨rfl, rfl, rfl⟩
    · split at h
      · split at h
        · exact absurd h nofun
        · obtain rfl := Except.ok.inj h
          exact ⟨rfl, rfl, rfl⟩
      · split at h
        · split at h
          · exact absurd h nofun
          · obtain rfl := Except.ok.inj h
            exact ⟨rfl, rfl, rfl⟩
        · split at h
          · exact absurd h nofun
          · split at h
            · exact absurd h nofun
            · split at h
              · exact absurd h nofun
              · split at h
                · exact absurd h nofun
                · obtain rfl := Except.ok.inj h
                  exact ⟨rfl, rfl, rfl⟩

theorem conclude_some {fields : Request.Fields} {request : Request}
    (h : Request.conclude fields = .ok request) :
    request.chunked = fields.codings.chunked ∧
      request.contentLength = fields.request.contentLength ∧
      fields.codings.unsupported = false ∧
      (fields.transferSeen = true →
        fields.request.contentLength = none ∧ fields.codings.chunked = true) := by
  unfold Request.conclude at h
  dsimp only at h
  split at h
  · exact absurd h nofun
  · split at h
    · exact absurd h nofun
    · rename_i hambiguous
      split at h
      · exact absurd h nofun
      · rename_i hchunked
        split at h
        · exact absurd h nofun
        · rename_i hunsupported
          obtain rfl := Except.ok.inj h
          refine ⟨rfl, rfl, by simpa using hunsupported, fun hseen => ⟨?_, ?_⟩⟩
          · simpa [hseen] using hambiguous
          · simpa [hseen] using hchunked

/-- An accepted head has passed through the loop with all its fields. -/
theorem parse_framed {head : Bytes} {slots : Nat} {request : Request}
    (h : Request.parse head slots = .ok request) :
    ∃ v fields, Framed v fields (headFields head) ∧ Request.conclude fields = .ok request ∧
      (v ≠ .http10 → Modern head) := by
  unfold Request.parse at h
  split at h
  · exact absurd h nofun
  · rename_i first lines hlines
    split at h
    · exact absurd h nofun
    · rename_i started hstarted
      split at h
      · exact absurd h nofun
      · rename_i targeted htargeted
        split at h
        · exact absurd h nofun
        · rename_i fields hfields
          obtain ⟨hnone, hmodern⟩ := parseRequestLine_fresh hstarted
          obtain ⟨hversion, hlength, -⟩ := parseTarget_same htargeted
          have hinitial : Framed started.version { request := targeted } [] := by
            refine ⟨rfl, hversion, ?_, nofun, Or.inl ⟨rfl, ?_⟩, fun _ => Or.inl ⟨rfl, rfl⟩⟩
            · exact ⟨nofun, fun hne => absurd rfl hne⟩
            · rw [hlength, hnone]
          refine ⟨started.version, fields, ?_, h, fun hv => ?_⟩
          · have hrun := parseFields_framed hinitial hfields
            rw [List.nil_append] at hrun
            rwa [headFields, fieldLines, hlines]
          · obtain ⟨minor, hdigit, hzero, hsuffix⟩ := hmodern hv
            exact ⟨first, minor, by rw [hlines]; rfl, hdigit, hzero, hsuffix⟩

/-- Framing is decided by the fields alone: chunks, a length, or no body, and an accepted head is
one of the three. -/
theorem parse_framing {head : Bytes} {slots : Nat} {request : Request}
    (h : Request.parse head slots = .ok request) :
    (request.chunked = true ↔ IsChunked head) ∧
      (∀ n, request.contentLength = some n ↔ IsSized head n) ∧
      ¬(request.chunked = true ∧ request.contentLength.isSome = true) ∧
      (IsUnframed head ∨ IsChunked head ∨ ∃ n, IsSized head n) := by
  obtain ⟨v, fields, hframed, hconclude, hmodern⟩ := parse_framed h
  obtain ⟨hchunked, hcontent, hsupported, hseen⟩ := conclude_some hconclude
  have hcoded := hframed.coded hsupported
  have hchunks : request.chunked = true ↔ IsChunked head := by
    constructor
    · intro hyes
      rw [hchunked] at hyes
      obtain ⟨-, hno⟩ | ⟨-, coding, hcodings, hcoding⟩ := hcoded
      · rw [hno] at hyes
        exact absurd hyes nofun
      · have hne : values transferEncoding (headFields head) ≠ [] := by
          intro hnil
          rw [hnil] at hcodings
          exact absurd hcodings nofun
        have htransfer := hframed.transfer.mpr hne
        refine ⟨hne, ⟨coding, hcodings, hcoding⟩, hmodern (hframed.modern htransfer), ?_⟩
        obtain ⟨hnone, -⟩ | ⟨value, n, -, -, hsome⟩ := hframed.length
        · exact hnone
        · rw [(hseen htransfer).1] at hsome
          exact absurd hsome nofun
    · intro hhead
      rw [hchunked]
      exact (hseen (hframed.transfer.mpr hhead.1)).2
  have hsized : ∀ n, request.contentLength = some n ↔ IsSized head n := by
    intro n
    rw [hcontent]
    constructor
    · intro hsome
      have hno : values transferEncoding (headFields head) = [] := by
        by_contra hne
        rw [(hseen (hframed.transfer.mpr hne)).1] at hsome
        exact absurd hsome nofun
      obtain ⟨-, hnone⟩ | ⟨value, m, hvalue, ⟨hempty, hdigits, hm, hlt⟩, hlength⟩ :=
        hframed.length
      · rw [hnone] at hsome
        exact absurd hsome nofun
      · rw [hlength] at hsome
        obtain rfl := Option.some.inj hsome
        exact ⟨⟨value, hvalue, hempty, hdigits, hm⟩, hlt, hno⟩
    · rintro ⟨⟨value, hvalue, -, -, hn⟩, -, -⟩
      obtain ⟨hnil, -⟩ | ⟨value', m, hvalue', ⟨-, -, hm, -⟩, hlength⟩ := hframed.length
      · rw [hnil] at hvalue
        exact absurd hvalue nofun
      · rw [hvalue] at hvalue'
        obtain rfl := (List.cons.inj hvalue').1
        rw [hlength, hm, hn]
  refine ⟨hchunks, hsized, ?_, ?_⟩
  · rintro ⟨hyes, hsome⟩
    obtain ⟨n, hn⟩ := Option.isSome_iff_exists.mp hsome
    have hnone := (hchunks.mp hyes).2.2.2
    obtain ⟨⟨value, hvalue, -⟩, -⟩ := (hsized n).mp hn
    rw [hnone] at hvalue
    exact absurd hvalue nofun
  · by_cases hyes : request.chunked = true
    · exact Or.inr (Or.inl (hchunks.mp hyes))
    · cases hlength : request.contentLength with
      | some n => exact Or.inr (Or.inr ⟨n, (hsized n).mp hlength⟩)
      | none =>
          refine Or.inl ⟨?_, ?_⟩
          · by_contra hne
            rw [hchunked] at hyes
            exact hyes (hseen (hframed.transfer.mpr hne)).2
          · obtain ⟨hnil, -⟩ | ⟨value, n, -, -, hsome⟩ := hframed.length
            · exact hnil
            · rw [← hcontent, hlength] at hsome
              exact absurd hsome nofun

/-- A head with an empty member in front of its coding. -/
theorem parse_framing_chunked :
    ∃ head request, Request.parse head 4 = .ok request ∧ request.chunked = true ∧
      IsChunked head := by
  have hparse : Request.parse
      (ascii "POST / HTTP/1.1\r\nHost: a\r\nTransfer-Encoding: , Chunked\r\n\r\n") 4 = .ok
        { method := ascii "POST", target := ascii "/", path := ascii "/", authority := ascii "a"
          headers := [⟨ascii "Host", ascii "a"⟩, ⟨ascii "Transfer-Encoding", ascii ", Chunked"⟩]
          chunked := true } := by
    decide +kernel
  exact ⟨_, _, hparse, rfl, (parse_framing hparse).1.mp rfl⟩

end Framing

end Zhtps
