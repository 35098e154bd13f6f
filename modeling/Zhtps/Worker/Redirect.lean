import Zhtps.Http.Authority
import Zhtps.Http.Response

/-!
The target of a redirect to HTTPS, after `defaultAuthority`, `writeHttpsLocation` and `redirectHttp`
of `src/server/worker.zig`.
-/

namespace Zhtps.Redirect

open Authority

/-! ### The code -/

def startsWith (bytes : Bytes) (c : UInt8) : Bool := bytes.head? == some c

/-- `:port`, unless the scheme implies it. -/
def portText (port implied : Nat) : Bytes :=
  if port ≠ implied then 0x3a :: Response.digits 10 port else []

def defaultAuthority (address : Bytes) (port implied : Nat) : Bytes :=
  (if (Mem.indexOfScalar address 0x3a).isSome then ascii "[" ++ address ++ ascii "]"
    else address) ++ portText port implied

inductive LocationError
  | invalidTarget
  | writeFailed
  deriving DecidableEq

def pathQuery (target : Bytes) : Except LocationError Bytes :=
  if startsWith target 0x2f then .ok target
  else match Mem.indexOf target (ascii "://") with
    | none => .error .invalidTarget
    | some schemeEnd =>
        let rest := target.drop (schemeEnd + 3)
        .ok (rest.drop ((Mem.indexOfAny rest (ascii "/?")).getD rest.length))

/-- The end of the host, or none where the code unwraps a null. -/
def hostEnd (authority : Bytes) : Option Nat :=
  if startsWith authority 0x5b then (Mem.indexOfScalar authority 0x5d).map (· + 1)
  else some ((Mem.indexOfScalar authority 0x3a).getD authority.length)

/-- An empty path, with or without a query behind it. -/
def slash (pathQuery : Bytes) : Bytes :=
  if pathQuery.isEmpty || startsWith pathQuery 0x3f then [0x2f] else []

/-- The text that a fixed writer of some room receives; none where the code unwraps a null. -/
def writeHttpsLocation (room : Nat) (authority target : Bytes) (port : Nat) :
    Option (Except LocationError Bytes) :=
  match pathQuery target with
  | .error err => some (.error err)
  | .ok pathQuery => (hostEnd authority).map fun hostEnd =>
      let text := ascii "https://" ++ authority.take hostEnd ++ portText port 443 ++
        slash pathQuery ++ pathQuery
      if text.length ≤ room then .ok text else .error .writeFailed

/-- The authority of a request when it is redirected: the listener's own in place of an empty
one. -/
def requestAuthority (listenerAuthority : Bytes) (request : Request) : Bytes :=
  if request.scheme.isNone && request.method != ascii "CONNECT" && request.authority.isEmpty then
    listenerAuthority
  else request.authority

/-- The address that a listener was opened with, which `IpAddress.parse` has accepted. -/
def IsAddress (address : Bytes) : Prop := Ip6.isIp4 address = true ∨ Ip6.parse address = true

/-! ### Hosts -/

theorem isPort_portText (port implied : Nat) : IsPort (portText port implied) := by
  unfold portText
  split_ifs
  · exact Or.inr ⟨_, rfl, fun _ hc => Response.isDigit_of_mem_digits hc⟩
  · exact Or.inl rfl

theorem hostEnd_eq {authority host : Bytes} (h : HostOf authority host) :
    hostEnd authority = some host.length ∧ authority.take host.length = host := by
  refine ⟨?_, ?_⟩
  · rcases h.cases with ⟨text, port, htext, -, rfl, rfl⟩ | ⟨port, hne, hname, hport, rfl⟩
    · have hfirst : (0x5d : UInt8) ∉ 0x5b :: text := by
        rw [List.mem_cons, not_or]
        exact ⟨by decide, fun hmem => (mem_literal htext hmem).1 (by decide)⟩
      have hbracket : startsWith (0x5b :: text ++ 0x5d :: port) 0x5b = true := rfl
      rw [hostEnd, hbracket, if_pos rfl, Mem.indexOfScalar_first hfirst]
      simp
    · have hcolon : (0x3a : UInt8) ∉ host := fun hmem => (mem_name hname hmem).1 (by decide)
      have hbracket : startsWith (host ++ port) 0x5b = false := by
        rw [startsWith, List.head?_append_of_ne_nil _ hne, beq_eq_false_iff_ne]
        exact fun hhead => (mem_name hname (List.mem_of_head? hhead)).1 (by decide)
      rw [hostEnd, hbracket, if_neg Bool.false_ne_true]
      rcases hport with rfl | ⟨digits, rfl, -⟩
      · rw [List.append_nil, Mem.indexOfScalar_none hcolon]
        rfl
      · rw [Mem.indexOfScalar_first hcolon]
        rfl
  · obtain ⟨-, port, -, rfl⟩ := h
    exact List.take_left

/-- An authority has one host. -/
theorem HostOf.unique {authority host host' : Bytes} (h : HostOf authority host)
    (h' : HostOf authority host') : host = host' := by
  obtain ⟨hend, htake⟩ := hostEnd_eq h
  obtain ⟨hend', htake'⟩ := hostEnd_eq h'
  have hlength : host.length = host'.length := Option.some.inj (hend.symm.trans hend')
  rw [← htake, hlength, htake']

/-- The listener's authority has a host. -/
theorem defaultAuthority_host {address : Bytes} (h : IsAddress address) (port implied : Nat) :
    ∃ host, HostOf (defaultAuthority address port implied) host := by
  have hport := isPort_portText port implied
  unfold defaultAuthority
  by_cases hcolon : 0x3a ∈ address
  · have hliteral : Syntax.isLiteral address = true := by
      rcases h with hip4 | hip6
      · rcases mem_isIp4 hip4 hcolon with hdot | hdigit
        · exact absurd hdot (by decide)
        · exact absurd hdigit (by decide)
      · exact isLiteral_of_parse hip6
    have hsome : (Mem.indexOfScalar address 0x3a).isSome = true := by
      obtain ⟨before, after, rfl, hfirst⟩ := List.eq_append_cons_of_mem hcolon
      rw [Mem.indexOfScalar_first hfirst]
      rfl
    rw [hsome, if_pos rfl]
    refine ⟨_, .literal hliteral, _, hport, congrArg (· ++ portText port implied) ?_⟩
    exact List.append_assoc (ascii "[") address (ascii "]")
  · rw [Mem.indexOfScalar_none hcolon, if_neg (by decide)]
    rcases h with hip4 | hip6
    · exact ⟨address, isHost_ip4 hip4, _, hport, rfl⟩
    · exact absurd (colon_mem_parse hip6) hcolon

/-! ### Parsed targets -/

/-- The path of a path and query, as a request names it. -/
def pathOf (pathQuery : Bytes) : Bytes :=
  let path := pathQuery.take ((Mem.indexOfScalar pathQuery 0x3f).getD pathQuery.length)
  if path.isEmpty then ascii "/" else path

def queryOf (pathQuery : Bytes) : Option Bytes :=
  (Mem.indexOfScalar pathQuery 0x3f).map fun at_ => pathQuery.drop (at_ + 1)

/-- Where the path and query of an absolute target may begin. -/
def AtPath (pathQuery : Bytes) : Prop := ∀ c ∈ pathQuery.head?, c ∈ ascii "/?"

/-- `http` or `https`, in letters of either case. -/
def IsHttp (scheme : Bytes) : Prop :=
  (Syntax.eql scheme (ascii "http") || Syntax.eql scheme (ascii "https")) = true

/-- The path and query of a target: all of an origin-form target, and what stands behind the
authority of an absolute one. -/
inductive PathQuery (request : Request) : Bytes → Prop
  | origin {rest : Bytes} : request.scheme = none → request.target = 0x2f :: rest →
      PathQuery request (0x2f :: rest)
  | absolute {scheme pathQuery : Bytes} : request.scheme = some scheme → IsHttp scheme →
      request.target = scheme ++ ascii "://" ++ request.authority ++ pathQuery →
      (∃ host, HostOf request.authority host) → AtPath pathQuery → PathQuery request pathQuery

/-- A scheme is made of letters. -/
theorem mem_isHttp {scheme : Bytes} (h : IsHttp scheme) {c : UInt8} (hc : c ∈ scheme) :
    c ≠ 0x3a ∧ c ≠ 0x2f := by
  have hletters : ∀ c, Ascii.toLower c ∈ ascii "http" ∨ Ascii.toLower c ∈ ascii "https" →
      c ≠ 0x3a ∧ c ≠ 0x2f := by decide +kernel
  have hmem : Ascii.toLower c ∈ scheme.map Ascii.toLower := List.mem_map_of_mem hc
  unfold IsHttp Syntax.eql Ascii.eqlIgnoreCase at h
  rw [Bool.or_eq_true, beq_iff_eq, beq_iff_eq] at h
  rcases h with h | h
  · rw [h] at hmem
    exact hletters c (Or.inl hmem)
  · rw [h] at hmem
    exact hletters c (Or.inr hmem)

theorem split_any (rest : Bytes) :
    AtPath (rest.drop ((Mem.indexOfAny rest (ascii "/?")).getD rest.length)) := by
  intro c hc
  cases hfind : Mem.indexOfAny rest (ascii "/?") with
  | none =>
      rw [hfind, Option.getD_none, List.drop_length] at hc
      cases hc
  | some n =>
      rw [hfind, Option.getD_some, List.head?_drop, Option.mem_def] at hc
      obtain ⟨hn, hmem, -⟩ := List.findIdx?_eq_some_iff_getElem.mp hfind
      rw [List.getElem?_eq_getElem hn, Option.some.injEq] at hc
      simpa [hc] using hmem

theorem indexOfAny_append {authority pathQuery : Bytes} (h : ∀ c ∈ authority, c ∉ ascii "/?")
    (hpath : AtPath pathQuery) :
    (Mem.indexOfAny (authority ++ pathQuery) (ascii "/?")).getD (authority ++ pathQuery).length =
      authority.length := by
  have hnone : authority.findIdx? ((ascii "/?").contains ·) = none := by
    rw [List.findIdx?_eq_none_iff]
    intro c hc
    simpa using h c hc
  rw [Mem.indexOfAny, List.findIdx?_append, hnone]
  cases pathQuery with
  | nil => simp
  | cons c rest =>
      have hc : (ascii "/?").contains c = true := by simpa using hpath c rfl
      rw [List.findIdx?_cons, hc]
      simp

/-- A request once its path and query are known. -/
def located (request : Request) (pathQuery : Bytes) : Request :=
  { request with path := pathOf pathQuery, query := (queryOf pathQuery).getD request.query }

theorem parseTarget_origin {request : Request} {rest : Bytes}
    (hmethod : request.method ≠ ascii "CONNECT") (htarget : request.target = 0x2f :: rest) :
    request.parseTarget =
      if Syntax.isUriComponent true request.target then .ok (located request request.target)
      else .error .invalidTarget := by
  have hmethod' : (request.method == ascii "CONNECT") = false := by simpa using hmethod
  cases request
  dsimp only at htarget hmethod'
  subst htarget
  unfold Request.parseTarget
  dsimp only
  rw [hmethod']
  have hstar : ((0x2f :: rest : Bytes) == ascii "*") = false := rfl
  rw [if_neg Bool.false_ne_true, hstar, if_neg Bool.false_ne_true, if_pos (by decide)]
  unfold located queryOf pathOf
  cases Syntax.isUriComponent true (0x2f :: rest) <;>
    cases Mem.indexOfScalar (0x2f :: rest) 0x3f <;> rfl

/-- A target whose scheme, authority, path and query are known. -/
theorem parseTarget_absolute {request : Request} {scheme authority pathQuery : Bytes}
    (hmethod : request.method ≠ ascii "CONNECT") (hslash : scheme.head? ≠ some 0x2f)
    (htarget : request.target = scheme ++ ascii "://" ++ (authority ++ pathQuery))
    (hscheme : Mem.indexOf request.target (ascii "://") = some scheme.length)
    (hend : (Mem.indexOfAny (authority ++ pathQuery) (ascii "/?")).getD
      (authority ++ pathQuery).length = authority.length) :
    request.parseTarget =
      if !Syntax.eql scheme (ascii "http") && !Syntax.eql scheme (ascii "https") then
        .error .invalidTarget
      else if !Syntax.isAuthority authority false false then .error .invalidTarget
      else if Syntax.isUriComponent true pathQuery then
        .ok (located { request with authority := authority, scheme := some scheme } pathQuery)
      else .error .invalidTarget := by
  have hmethod' : (request.method == ascii "CONNECT") = false := by simpa using hmethod
  have htake : request.target.take scheme.length = scheme := by
    rw [htarget, List.append_assoc, List.take_left]
  have hdrop : request.target.drop (scheme.length + 3) = authority ++ pathQuery := by
    rw [htarget, show scheme.length + 3 = (scheme ++ ascii "://").length by
      rw [List.length_append]; rfl, List.drop_left]
  have hstar : (request.target == ascii "*") = false := by
    rw [beq_eq_false_iff_ne, htarget]
    intro heq
    have hlength := congrArg List.length heq
    simp [ascii] at hlength
    omega
  obtain ⟨first, rest, hfirst⟩ : ∃ first rest, request.target = first :: rest := by
    apply List.exists_cons_of_ne_nil
    rw [htarget]
    simp [ascii]
  have hhead : (first == 0x2f) = false := by
    rw [beq_eq_false_iff_ne]
    rintro rfl
    cases scheme with
    | nil =>
        rw [htarget] at hfirst
        exact absurd (List.cons.inj hfirst).1 (by decide)
    | cons c scheme =>
        rw [htarget] at hfirst
        exact hslash (congrArg some (List.cons.inj hfirst).1)
  unfold Request.parseTarget
  dsimp only
  rw [hmethod', hstar, hscheme]
  dsimp only
  rw [htake, hdrop, hend, List.take_left, List.drop_left]
  split
  · rename_i hnil
    rw [hnil] at hfirst
    cases hfirst
  · rename_i first' rest' hfirst'
    obtain rfl : first' = first := (List.cons.inj (hfirst'.symm.trans hfirst)).1
    rw [hhead]
    simp only [Bool.false_eq_true, if_false]
    unfold located queryOf pathOf
    cases Syntax.isUriComponent true pathQuery <;> cases Mem.indexOfScalar pathQuery 0x3f <;> rfl

theorem parseTarget_relative {request : Request} (hmethod : request.method ≠ ascii "CONNECT")
    (hstar : request.target ≠ ascii "*") (hslash : request.target.head? ≠ some 0x2f)
    (hscheme : Mem.indexOf request.target (ascii "://") = none) :
    request.parseTarget = .error .invalidTarget := by
  have hmethod' : (request.method == ascii "CONNECT") = false := by simpa using hmethod
  have hstar' : (request.target == ascii "*") = false := by simpa using hstar
  unfold Request.parseTarget
  dsimp only
  rw [hmethod', hstar', hscheme]
  split
  · rfl
  · rename_i first rest hfirst
    rw [hfirst] at hslash
    rw [if_neg Bool.false_ne_true, if_neg Bool.false_ne_true, if_neg (by simpa using hslash)]

/-- What parsing a target other than `*` does, but for CONNECT. -/
theorem parseTarget_some {request result : Request} (h : request.parseTarget = .ok result)
    (hscheme : request.scheme = none) (hmethod : request.method ≠ ascii "CONNECT")
    (hstar : request.target ≠ ascii "*") :
    ∃ authority scheme pathQuery, Grammar.Component true pathQuery ∧
      result = located { request with authority := authority, scheme := scheme } pathQuery ∧
      PathQuery result pathQuery ∧ (scheme = none → authority = request.authority) := by
  by_cases hslash : request.target.head? = some 0x2f
  · obtain ⟨rest, htarget⟩ := List.head?_eq_some_iff.mp hslash
    rw [parseTarget_origin hmethod htarget] at h
    split_ifs at h with hcomponent
    obtain rfl := Except.ok.inj h
    refine ⟨request.authority, request.scheme, request.target,
      Grammar.isUriComponent_iff.mp hcomponent, rfl, ?_, fun _ => rfl⟩
    rw [htarget]
    exact .origin hscheme htarget
  · cases hindex : Mem.indexOf request.target (ascii "://") with
    | none =>
        rw [parseTarget_relative hmethod hstar hslash hindex] at h
        cases h
    | some n =>
        -- The scheme, the authority and the rest are cut out by position.
        have hsplit := Mem.indexOf_some hindex
        have hthree : (ascii "://").length = 3 := rfl
        have hlength : (request.target.take n).length = n := by
          have hlengths := congrArg List.length hsplit
          simp only [List.length_append, List.length_take, List.length_drop, hthree] at hlengths ⊢
          omega
        generalize request.target.drop (n + (ascii "://").length) = rest at hsplit
        have hend : ((Mem.indexOfAny rest (ascii "/?")).getD rest.length) ≤ rest.length := by
          cases hfind : Mem.indexOfAny rest (ascii "/?") with
          | none => exact Nat.le_refl _
          | some k => exact (List.findIdx?_eq_some_iff_getElem.mp hfind).1.le
        have hpath := split_any rest
        generalize hk : (Mem.indexOfAny rest (ascii "/?")).getD rest.length = k at hend hpath
        have hrest : rest.take k ++ rest.drop k = rest := List.take_append_drop k rest
        have hscheme' : (request.target.take n).head? ≠ some 0x2f := by
          rw [List.head?_take]
          split_ifs
          · nofun
          · exact hslash
        have htarget : request.target =
            request.target.take n ++ ascii "://" ++ (rest.take k ++ rest.drop k) := by
          rw [hrest]
          exact hsplit
        rw [parseTarget_absolute hmethod hscheme' htarget (by rw [hlength, hindex]) (by
          rw [hrest, hk, List.length_take, Nat.min_eq_left hend])] at h
        split_ifs at h with hhttp hauthority hcomponent
        obtain rfl := Except.ok.inj h
        have hne : rest.take k ≠ [] := by
          intro hnil
          rw [hnil] at hauthority
          exact hauthority rfl
        refine ⟨rest.take k, some (request.target.take n), rest.drop k,
          Grammar.isUriComponent_iff.mp hcomponent, rfl, ?_, nofun⟩
        have hhttp' : IsHttp (request.target.take n) := by
          unfold IsHttp
          revert hhttp
          cases Syntax.eql (request.target.take n) (ascii "http") <;>
            cases Syntax.eql (request.target.take n) (ascii "https") <;> simp
        refine .absolute rfl hhttp' ?_ ((isAuthority_iff hne false).mp (by simpa using hauthority)) hpath
        rw [List.append_assoc]
        exact htarget

/-! ### Parsed requests -/

/-- What the field loop leaves of the target, and what it takes for the authority. -/
structure Kept (request : Request) (fields : Request.Fields) : Prop where
  method : fields.request.method = request.method
  target : fields.request.target = request.target
  path : fields.request.path = request.path
  query : fields.request.query = request.query
  authority : fields.request.authority = request.authority
  scheme : fields.request.scheme = request.scheme
  host : ∀ value ∈ fields.host, value = [] ∨ ∃ host, HostOf value host

theorem Kept.same {request : Request} {fields fields' : Request.Fields} (h : Kept request fields)
    (hhost : fields'.host = fields.host) (length : Option Nat) (expect : Bool)
    (hrequest : fields'.request = { fields.request with
      contentLength := length, expectContinue := expect }) : Kept request fields' := by
  constructor
  case host =>
    rw [hhost]
    exact h.host
  all_goals rw [hrequest]
  · exact h.method
  · exact h.target
  · exact h.path
  · exact h.query
  · exact h.authority
  · exact h.scheme

theorem parseConnection_host {value : Bytes} {fields fields' : Request.Fields}
    (h : Request.parseConnection value fields = .ok fields') :
    fields'.host = fields.host ∧ fields'.request = fields.request := by
  unfold Request.parseConnection at h
  generalize Mem.splitScalar 0x2c value = parts at h
  induction parts generalizing fields with
  | nil =>
      obtain rfl := Except.ok.inj h
      exact ⟨rfl, rfl⟩
  | cons part parts ih =>
      rw [List.foldlM_cons] at h
      dsimp only at h
      split_ifs at h
      · exact ih h
      · cases h
      · exact @ih { fields with
          connectionClose :=
            fields.connectionClose || Syntax.eql (Syntax.trim part) (ascii "close")
          connectionKeepAlive :=
            fields.connectionKeepAlive || Syntax.eql (Syntax.trim part) (ascii "keep-alive") } h

theorem addField_kept {request : Request} {fields fields' : Request.Fields} {header : Header}
    (h : Kept request fields) (hadd : Request.addField fields header = .ok fields') :
    Kept request fields' := by
  unfold Request.addField at hadd
  dsimp only at hadd
  split_ifs at hadd with hhost hduplicate hauthority hlength hrepeat hempty hdigits hcoding hold
    hconnection hexpect
  · -- Only a valid authority, which may be empty, is taken for the host.
    obtain rfl := Except.ok.inj hadd
    refine { h with host := ?_ }
    intro value hvalue
    obtain rfl := Option.some.inj hvalue
    by_cases hnil : header.value = []
    · exact Or.inl hnil
    · exact Or.inr ((isAuthority_iff hnil true).mp (by simpa using hauthority))
  · split at hadd
    · cases hadd
    · obtain rfl := Except.ok.inj hadd
      exact h.same rfl _ fields.request.expectContinue rfl
  · split at hadd
    · cases hadd
    · obtain rfl := Except.ok.inj hadd
      exact h.same rfl fields.request.contentLength fields.request.expectContinue rfl
  · obtain ⟨hhost, hrequest⟩ := parseConnection_host hadd
    exact h.same hhost fields.request.contentLength fields.request.expectContinue hrequest
  · split at hadd
    · cases hadd
    · obtain rfl := Except.ok.inj hadd
      exact h.same rfl fields.request.contentLength _ rfl
  · obtain rfl := Except.ok.inj hadd
    exact h.same rfl fields.request.contentLength fields.request.expectContinue rfl

theorem parseFields_kept {request : Request} {slots : Nat} {lines : List Bytes}
    {fields result : Request.Fields} (h : Kept request fields)
    (hparse : Request.parseFields slots fields lines = .ok result) : Kept request result := by
  induction lines generalizing fields with
  | nil => cases hparse
  | cons line lines ih =>
      rw [Request.parseFields] at hparse
      split_ifs at hparse
      · obtain rfl := Except.ok.inj hparse
        exact h
      · split at hparse
        · cases hparse
        · split at hparse
          · cases hparse
          · rename_i next hadd
            exact ih (addField_kept h hadd) hparse

theorem parseTarget_request {request result : Request} (h : request.parseTarget = .ok result) :
    result.method = request.method ∧ result.target = request.target := by
  unfold Request.parseTarget at h
  dsimp only at h
  split at h
  · cases h
  · split at h
    · split at h
      · cases h
      · obtain rfl := Except.ok.inj h
        exact ⟨rfl, rfl⟩
    · split at h
      · split at h
        · cases h
        · obtain rfl := Except.ok.inj h
          exact ⟨rfl, rfl⟩
      · split at h
        · split at h
          · cases h
          · obtain rfl := Except.ok.inj h
            exact ⟨rfl, rfl⟩
        · split at h
          · cases h
          · split at h
            · cases h
            · split at h
              · cases h
              · split at h
                · cases h
                · obtain rfl := Except.ok.inj h
                  exact ⟨rfl, rfl⟩

theorem parseRequestLine_empty {first : Bytes} {request : Request}
    (h : Request.parseRequestLine first = .ok request) :
    request.scheme = none ∧ request.query = [] := by
  unfold Request.parseRequestLine at h
  split at h
  · cases h
  · dsimp only at h
    split at h
    · cases h
    · split at h
      · cases h
      · split at h
        · cases h
        · split at h
          · cases h
          · obtain rfl := Except.ok.inj h
            exact ⟨rfl, rfl⟩

theorem conclude_request {fields : Request.Fields} {request : Request}
    (h : Request.conclude fields = .ok request) :
    request.method = fields.request.method ∧ request.target = fields.request.target ∧
      request.path = fields.request.path ∧ request.query = fields.request.query ∧
      request.scheme = fields.request.scheme ∧
      request.authority =
        if fields.request.scheme.isNone && fields.request.method != ascii "CONNECT" then
          fields.host.getD []
        else fields.request.authority := by
  unfold Request.conclude at h
  dsimp only at h
  split at h
  · cases h
  · split at h
    · cases h
    · split at h
      · cases h
      · split at h
        · cases h
        · obtain rfl := Except.ok.inj h
          exact ⟨rfl, rfl, rfl, rfl, rfl, rfl⟩

/-- The target and authority of a parsed request. -/
theorem parse_target {bytes : Bytes} {slots : Nat} {request : Request}
    (h : Request.parse bytes slots = .ok request) (hmethod : request.method ≠ ascii "CONNECT")
    (hstar : request.target ≠ ascii "*") :
    ∃ pathQuery, Grammar.Component true pathQuery ∧ request.path = pathOf pathQuery ∧
      request.query = (queryOf pathQuery).getD [] ∧ PathQuery request pathQuery ∧
      ((request.scheme = none ∧ request.authority = []) ∨
        ∃ host, HostOf request.authority host) := by
  unfold Request.parse at h
  split at h
  · cases h
  split at h
  · cases h
  rename_i started hstarted
  split at h
  · cases h
  rename_i targeted htargeted
  split at h
  · cases h
  rename_i fields hfields
  obtain ⟨hscheme, hquery⟩ := parseRequestLine_empty hstarted
  obtain ⟨hmethod', htarget', hpath', hquery', hscheme', hauthority'⟩ := conclude_request h
  have hkept : Kept targeted fields :=
    parseFields_kept ⟨rfl, rfl, rfl, rfl, rfl, rfl, fun _ hvalue => by cases hvalue⟩ hfields
  rw [hkept.method] at hmethod'
  rw [hkept.target] at htarget'
  rw [hkept.path] at hpath'
  rw [hkept.query] at hquery'
  rw [hkept.scheme] at hscheme'
  rw [hkept.scheme, hkept.method, hkept.authority, ← hmethod', ← hscheme'] at hauthority'
  have hconnect : (request.method != ascii "CONNECT") = true := by simpa using hmethod
  rw [hconnect, Bool.and_true] at hauthority'
  obtain ⟨hsame, hsametarget⟩ := parseTarget_request htargeted
  rw [hsame] at hmethod'
  rw [hsametarget] at htarget'
  obtain ⟨authority, scheme, pathQuery, hcomponent, rfl, hpathQuery, -⟩ :=
    parseTarget_some htargeted hscheme (hmethod' ▸ hmethod) (htarget' ▸ hstar)
  refine ⟨pathQuery, hcomponent, hpath', hquery'.trans ?_, ?_, ?_⟩
  · dsimp only [located]
    rw [hquery]
  · cases hpathQuery with
    | origin hnone htext => exact .origin (hscheme'.trans hnone) (htarget'.trans htext)
    | absolute hsome hhttp htext hhost hat =>
        rw [hscheme', hsome, if_neg (by simp)] at hauthority'
        refine .absolute (hscheme'.trans hsome) hhttp ?_ (hauthority' ▸ hhost) hat
        rw [htarget', hauthority']
        exact htext
  · cases hpathQuery with
    | origin hnone htext =>
        rw [hscheme', hnone, if_pos (by rfl)] at hauthority'
        cases hhost : fields.host with
        | none =>
            rw [hhost] at hauthority'
            exact Or.inl ⟨hscheme'.trans hnone, hauthority'⟩
        | some value =>
            rw [hhost] at hauthority'
            rcases hkept.host value hhost with rfl | hvalue
            · exact Or.inl ⟨hscheme'.trans hnone, hauthority'⟩
            · exact Or.inr (hauthority' ▸ hvalue)
    | absolute hsome hhttp htext hhost hat =>
        rw [hscheme', hsome, if_neg (by simp)] at hauthority'
        exact Or.inr (hauthority' ▸ hhost)

/-! ### The location -/

theorem PathQuery.atPath {request : Request} {pathQuery : Bytes} (h : PathQuery request pathQuery) :
    AtPath pathQuery := by
  cases h with
  | origin hnone htarget =>
      intro c hc
      obtain rfl : 0x2f = c := Option.some.inj hc
      decide
  | absolute hsome hhttp htarget hhost hat => exact hat

/-- The code finds the path and query of a target. -/
theorem pathQuery_eq {request : Request} {text : Bytes} (h : PathQuery request text) :
    pathQuery request.target = .ok text := by
  cases h with
  | @origin rest hnone htarget =>
      rw [pathQuery, htarget]
      exact if_pos rfl
  | @absolute scheme _ hsome hhttp htarget hhost hat =>
      obtain ⟨host, hhost⟩ := hhost
      have hcolon : (0x3a : UInt8) ∉ scheme := fun hmem => (mem_isHttp hhttp hmem).1 rfl
      have hindex : Mem.indexOf request.target (ascii "://") = some scheme.length := by
        rw [htarget, List.append_assoc, List.append_assoc]
        exact Mem.indexOf_first (ascii "//") _ hcolon
      have hslash : startsWith request.target 0x2f = false := by
        rw [startsWith, beq_eq_false_iff_ne, htarget]
        cases scheme with
        | nil => exact fun hhead => absurd (Option.some.inj hhead) (by decide)
        | cons c rest =>
            intro hhead
            exact (mem_isHttp hhttp List.mem_cons_self).2 (Option.some.inj hhead)
      have hdrop : request.target.drop (scheme.length + 3) = request.authority ++ text := by
        rw [htarget, List.append_assoc, show scheme.length + 3 = (scheme ++ ascii "://").length by
          rw [List.length_append]; rfl, List.drop_left]
      rw [pathQuery, hslash, if_neg Bool.false_ne_true, hindex]
      dsimp only
      rw [hdrop, indexOfAny_append (fun c hc => (hhost.mem hc).1) hat, List.drop_left]

/-- A slash in front of an empty path changes neither the path nor the query. -/
theorem slash_path {pathQuery : Bytes} (hat : AtPath pathQuery)
    (h : Grammar.Component true pathQuery) :
    Grammar.Component true (slash pathQuery ++ pathQuery) ∧
      pathOf (slash pathQuery ++ pathQuery) = pathOf pathQuery ∧
      queryOf (slash pathQuery ++ pathQuery) = queryOf pathQuery ∧
      AtPath (slash pathQuery ++ pathQuery) := by
  have hslash : Grammar.Component true [0x2f] :=
    .plain (by decide) (Or.inr (Or.inr ⟨rfl, by decide⟩)) .nil
  cases pathQuery with
  | nil =>
      refine ⟨hslash, rfl, rfl, ?_⟩
      intro c hc
      obtain rfl : 0x2f = c := Option.some.inj hc
      decide
  | cons c rest =>
      have hbytes : ∀ c, c ∈ ascii "/?" → c = 0x2f ∨ c = 0x3f := by decide +kernel
      have hc := hbytes c (hat c rfl)
      rcases hc with rfl | rfl
      · exact ⟨h, rfl, rfl, hat⟩
      · refine ⟨hslash.append h, ?_, ?_, ?_⟩
        · rfl
        · rfl
        · intro c hc
          obtain rfl : 0x2f = c := Option.some.inj hc
          decide

/-- The bytes of a path and query. -/
theorem mem_pathQuery {pathQuery : Bytes} (h : Grammar.Component true pathQuery) {c : UInt8}
    (hc : c ∈ pathQuery) : 0x20 < c ∧ c < 0x7f := by
  have hbyte := h.mem hc
  unfold Grammar.IsComponentByte at hbyte
  clear hc
  revert c
  decide +kernel

/-- The redirect of a parsed request: the host and the raw path and query are the request's, the
port is the configured one, and reading the location gives them back. -/
theorem https_location {bytes : Bytes} {slots : Nat} {request : Request}
    (h : Request.parse bytes slots = .ok request) (hmethod : request.method ≠ ascii "CONNECT")
    (hstar : request.target ≠ ascii "*") {address : Bytes} (haddress : IsAddress address)
    (listenerPort implied port : Nat) :
    ∃ host pathQuery location,
      HostOf (requestAuthority (defaultAuthority address listenerPort implied) request) host ∧
      PathQuery request pathQuery ∧
      location =
        ascii "https://" ++ host ++ portText port 443 ++ slash pathQuery ++ pathQuery ∧
      (∀ room, writeHttpsLocation room
          (requestAuthority (defaultAuthority address listenerPort implied) request)
          request.target port =
        some (if location.length ≤ room then .ok location else .error .writeFailed)) ∧
      (∃ result, Request.parseTarget { method := request.method, target := location } =
          .ok result ∧ result.scheme = some (ascii "https") ∧ HostOf result.authority host ∧
        result.authority = host ++ portText port 443 ∧ result.path = request.path ∧
        result.query = request.query) ∧
      ∀ c ∈ location, 0x20 < c ∧ c < 0x7f := by
  obtain ⟨text, hcomponent, hpath, hquery, htext, hauthority⟩ := parse_target h hmethod hstar
  obtain ⟨host, hhost⟩ : ∃ host,
      HostOf (requestAuthority (defaultAuthority address listenerPort implied) request) host := by
    unfold requestAuthority
    split_ifs with hempty
    · exact defaultAuthority_host haddress listenerPort implied
    · rcases hauthority with ⟨hnone, hnil⟩ | hhost
      · rw [hnone, hnil] at hempty
        simp [hmethod] at hempty
      · exact hhost
  generalize requestAuthority (defaultAuthority address listenerPort implied) request =
    authority at hhost
  obtain ⟨hend, htake⟩ := hostEnd_eq hhost
  have hlocated : HostOf (host ++ portText port 443) host :=
    ⟨hhost.1, _, isPort_portText port 443, rfl⟩
  obtain ⟨hslashed, hsamepath, hsamequery, hat⟩ := slash_path htext.atPath hcomponent
  obtain ⟨location, hlocation⟩ : ∃ location, location =
      ascii "https://" ++ host ++ portText port 443 ++ slash text ++ text := ⟨_, rfl⟩
  refine ⟨host, text, location, hhost, htext, hlocation, fun room => ?_, ?_, fun c hc => ?_⟩
  · rw [writeHttpsLocation, pathQuery_eq htext]
    dsimp only
    rw [hend, Option.map_some, htake, hlocation]
  · -- The location is an absolute target whose authority is the host and the port.
    have htarget : location =
        ascii "https" ++ ascii "://" ++ ((host ++ portText port 443) ++ (slash text ++ text)) := by
      have hscheme : ascii "https://" = ascii "https" ++ ascii "://" := rfl
      rw [hlocation, hscheme]
      simp only [List.append_assoc]
    have hindex : Mem.indexOf location (ascii "://") = some (ascii "https").length := by
      rw [htarget, List.append_assoc]
      exact Mem.indexOf_first (ascii "//") _ (by decide)
    have hne : host ++ portText port 443 ≠ [] := by
      intro hnil
      cases hhost.1 with
      | literal _ => cases hnil
      | name hne _ => exact hne (List.append_eq_nil_iff.mp hnil).1
    have hparse := @parseTarget_absolute { method := request.method, target := location } _ _ _
      hmethod (by decide) htarget hindex (indexOfAny_append (fun c hc => (hlocated.mem hc).1) hat)
    rw [(isAuthority_iff hne false).mpr ⟨host, hlocated⟩, Grammar.isUriComponent_iff.mpr hslashed]
      at hparse
    refine ⟨_, hparse, rfl, hlocated, rfl, ?_, ?_⟩
    · rw [hpath]
      exact hsamepath
    · rw [hquery, ← hsamequery]
      rfl
  · have hscheme : ∀ c ∈ ascii "https://", 0x20 < c ∧ c < 0x7f := by decide +kernel
    rw [hlocation] at hc
    simp only [List.mem_append] at hc
    rcases hc with (((hc | hc) | hc) | hc) | hc
    · exact hscheme c hc
    · exact (hlocated.mem (List.mem_append_left _ hc)).2
    · exact (hlocated.mem (List.mem_append_right _ hc)).2
    · exact mem_pathQuery hslashed (List.mem_append_left _ hc)
    · exact mem_pathQuery hcomponent hc

theorem https_location_literal :
    ∃ request, Request.parse
        (ascii "GET http://[2001:db8::1]:80?a HTTP/1.1\r\nHost: \r\n\r\n") 4 = .ok request ∧
      ∃ result, Request.parseTarget {
          method := request.method
          target := ascii "https://[2001:db8::1]:8443/?a" } = .ok result ∧
        result.path = request.path ∧ result.query = request.query := by
  let request : Request := {
    method := ascii "GET", target := ascii "http://[2001:db8::1]:80?a", path := ascii "/",
    query := ascii "a", authority := ascii "[2001:db8::1]:80", scheme := some (ascii "http"),
    headers := [⟨ascii "Host", []⟩] }
  have hparse : Request.parse
      (ascii "GET http://[2001:db8::1]:80?a HTTP/1.1\r\nHost: \r\n\r\n") 4 = .ok request := by
    rfl
  obtain ⟨host, text, location, -, -, -, hwrite, ⟨result, hresult, -, -, -, hpath, hquery⟩, -⟩ :=
    https_location hparse (by decide) (by decide) (Or.inr (by decide) : IsAddress (ascii "::1"))
      80 80 8443
  have hlocation : writeHttpsLocation 64
      (requestAuthority (defaultAuthority (ascii "::1") 80 80) request) request.target 8443 =
      some (.ok (ascii "https://[2001:db8::1]:8443/?a")) := rfl
  rw [hwrite 64, Option.some.injEq] at hlocation
  split_ifs at hlocation
  obtain rfl := Except.ok.inj hlocation
  exact ⟨request, hparse, result, hresult, hpath, hquery⟩

end Zhtps.Redirect
