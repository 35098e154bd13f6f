import Zhtps.Http.Component
import Zhtps.Http.Scan

/-!
Authorities of URIs: a host, which is a name or a bracketed IP literal, and perhaps a port.

An authority has one host, and `isAuthority` accepts exactly the texts that have one.
-/

namespace Zhtps

namespace Authority

/-- The bytes of a bracketed literal. -/
def IsLiteralByte (c : UInt8) : Prop :=
  Syntax.isUnreserved c = true ∨ Syntax.isSubDelimiter c = true ∨ c = 0x3a

/-- What the bytes of hosts are, and what they are not. -/
theorem byte_classes : ∀ c : UInt8,
    (Syntax.isHex c = true →
      Syntax.isUnreserved c = true ∧ c ≠ 0x25 ∧ (c == 0x76 || c == 0x56) = false) ∧
    (c = 0x25 ∨ Syntax.isUnreserved c = true ∨ Syntax.isSubDelimiter c = true →
      c ∉ ascii ":/?[]" ∧ 0x20 < c ∧ c < 0x7f) ∧
    (Ascii.toLower c ∈ (ascii "::ffff:").map Ascii.toLower → c = 0x3a ∨ Syntax.isHex c = true) ∧
    (Ascii.toLower c = 0x3a → c = 0x3a) := by
  decide +kernel

theorem isHex_of_isDigit {c : UInt8} (h : Ascii.isDigit c = true) : Syntax.isHex c = true := by
  simp [Syntax.isHex, h]

theorem isLiteralByte_of_isHex {c : UInt8} (h : Syntax.isHex c = true) : IsLiteralByte c :=
  Or.inl ((byte_classes c).1 h).1

/-- Without the colon the delimiters of a name are those of a literal. -/
theorem not_mem_delimiters {c : UInt8} (h : c ∉ ascii ":/?[]") : c ∉ ascii "/?[]" :=
  fun hmem => h (List.mem_cons_of_mem _ hmem)

/-! ### IP literals -/

theorem mem_isIp4 {bytes : Bytes} (h : Ip6.isIp4 bytes = true) {c : UInt8} (hc : c ∈ bytes) :
    c = 0x2e ∨ Ascii.isDigit c = true := by
  simp only [Ip6.isIp4, Bool.and_eq_true, List.all_eq_true] at h
  rcases Mem.mem_splitScalar 0x2e hc with rfl | ⟨part, hpart, hmem⟩
  · exact Or.inl rfl
  · have hoctet := h.2 part hpart
    simp only [Ip6.isOctet, Bool.and_eq_true, List.all_eq_true] at hoctet
    exact Or.inr (hoctet.1.1.2 c hmem)

theorem mem_groups {bytes : Bytes} {n : Nat} (h : Ip6.groups bytes = some n) {c : UInt8}
    (hc : c ∈ bytes) : c = 0x3a ∨ Syntax.isHex c = true := by
  unfold Ip6.groups at h
  dsimp only at h
  split_ifs at h with hempty hparts
  · rw [List.isEmpty_iff.mp hempty] at hc
    cases hc
  · rcases Mem.mem_splitScalar 0x3a hc with rfl | ⟨part, hpart, hmem⟩
    · exact Or.inl rfl
    · have hgroup := List.all_eq_true.mp hparts part hpart
      simp only [Ip6.isGroup, Bool.and_eq_true, List.all_eq_true] at hgroup
      exact Or.inr (hgroup.2 c hmem)

/-- The bytes of an IPv6 address. -/
theorem mem_parse {text : Bytes} (h : Ip6.parse text = true) {c : UInt8} (hc : c ∈ text) :
    c = 0x3a ∨ c = 0x2e ∨ Syntax.isHex c = true := by
  unfold Ip6.parse at h
  dsimp only at h
  split at h
  · rename_i hmapped
    rw [← List.take_append_drop (ascii "::ffff:").length text, List.mem_append] at hc
    rcases hc with hc | hc
    · have hlower : Ascii.toLower c ∈ (ascii "::ffff:").map Ascii.toLower := by
        rw [Bool.and_eq_true, Ascii.eqlIgnoreCase, beq_iff_eq] at hmapped
        rw [← hmapped.1]
        exact List.mem_map_of_mem hc
      exact ((byte_classes c).2.2.1 hlower).imp_right Or.inr
    · rcases mem_isIp4 h hc with rfl | hdigit
      · exact Or.inr (Or.inl rfl)
      · exact Or.inr (Or.inr (isHex_of_isDigit hdigit))
  · split at h
    · exact (mem_groups (by simpa using h) hc).imp_right Or.inr
    · rename_i at_ hat
      split at h
      · rename_i before after hbefore hafter
        rw [Mem.indexOf_some hat, List.mem_append, List.mem_append] at hc
        rcases hc with (hc | hc) | hc
        · exact (mem_groups hbefore hc).imp_right Or.inr
        · have hcolons : ascii "::" = List.replicate 2 0x3a := by decide
          rw [hcolons] at hc
          exact Or.inl (List.eq_of_mem_replicate hc)
        · exact (mem_groups hafter hc).imp_right Or.inr
      · cases h

/-- There is a colon in every IPv6 address. -/
theorem colon_mem_parse {text : Bytes} (h : Ip6.parse text = true) : 0x3a ∈ text := by
  by_contra hcolon
  have hfound : Mem.indexOf text (ascii "::") = none := by
    by_contra hsome
    obtain ⟨at_, hat⟩ := Option.ne_none_iff_exists'.mp hsome
    rw [Mem.indexOf_some hat] at hcolon
    exact hcolon (List.mem_append_left _ (List.mem_append_right _ (by decide)))
  unfold Ip6.parse at h
  dsimp only at h
  rw [hfound] at h
  split_ifs at h with hmapped
  · rw [Bool.and_eq_true, Ascii.eqlIgnoreCase, beq_iff_eq] at hmapped
    cases text with
    | nil => cases hmapped.1
    | cons c rest =>
        have hfirst : Ascii.toLower c = 0x3a := (List.cons.inj hmapped.1).1
        exact hcolon ((byte_classes c).2.2.2 hfirst ▸ List.mem_cons_self)
  · unfold Ip6.groups at h
    dsimp only at h
    rw [Mem.splitScalar_of_not_mem hcolon] at h
    split_ifs at h <;> simp at h

theorem isLiteral_of_parse {text : Bytes} (h : Ip6.parse text = true) :
    Syntax.isLiteral text = true := by
  cases text with
  | nil => cases h
  | cons first rest =>
      have hversion : (first == 0x76 || first == 0x56) = false := by
        rcases mem_parse h List.mem_cons_self with rfl | rfl | hhex
        · decide
        · decide
        · exact ((byte_classes first).1 hhex).2.2
      unfold Syntax.isLiteral
      dsimp only
      rw [hversion, if_neg Bool.false_ne_true]
      exact h

theorem mem_isLiteral {text : Bytes} (h : Syntax.isLiteral text = true) {c : UInt8}
    (hc : c ∈ text) : IsLiteralByte c := by
  unfold Syntax.isLiteral at h
  split at h
  · cases h
  · rename_i first rest
    split at h
    · rename_i hfirst
      split at h
      · cases h
      · rename_i dot hdot
        simp only [Bool.and_eq_true, List.all_eq_true] at h
        obtain ⟨⟨-, hhex⟩, hrest⟩ := h
        rcases Mem.split_scalar (first :: rest) 0x2e with hnone | ⟨before, after, hsplit, hbefore⟩
        · rw [Mem.indexOfScalar_none hnone] at hdot
          cases hdot
        · rw [hsplit, Mem.indexOfScalar_first hbefore] at hdot
          obtain rfl := Option.some.inj hdot
          rw [hsplit] at hc hhex hrest
          rw [List.take_left] at hhex
          rw [show before.length + 1 = (before ++ [0x2e]).length by simp,
            show before ++ 0x2e :: after = before ++ [0x2e] ++ after by simp,
            List.drop_left] at hrest
          rcases List.mem_append.mp hc with hc | hc
          · cases before with
            | nil => cases hc
            | cons x before =>
                obtain rfl : first = x := (List.cons.inj hsplit).1
                rcases List.mem_cons.mp hc with rfl | hc
                · left
                  rcases Bool.or_eq_true _ _ ▸ hfirst with h | h <;>
                    · rw [beq_iff_eq.mp h]
                      decide
                · exact isLiteralByte_of_isHex (hhex c hc)
          · rcases List.mem_cons.mp hc with rfl | hc
            · left
              decide
            · have hbyte := hrest c hc
              rw [Bool.or_eq_true, Bool.or_eq_true, beq_iff_eq] at hbyte
              rcases hbyte with (h | h) | h
              · exact Or.inl h
              · exact Or.inr (Or.inl h)
              · exact Or.inr (Or.inr h)
    · rcases mem_parse h hc with rfl | rfl | hhex
      · exact Or.inr (Or.inr rfl)
      · exact Or.inl (by decide)
      · exact isLiteralByte_of_isHex hhex

/-! ### Hosts -/

inductive IsHost : Bytes → Prop
  | literal {text : Bytes} : Syntax.isLiteral text = true → IsHost (0x5b :: (text ++ [0x5d]))
  | name {text : Bytes} : text ≠ [] → Grammar.Component false text → IsHost text

theorem isHost_ip4 {bytes : Bytes} (h : Ip6.isIp4 bytes = true) : IsHost bytes := by
  have hne : bytes ≠ [] := by
    rintro rfl
    cases h
  refine .name hne ?_
  have hplain : ∀ c ∈ bytes, c ≠ 0x25 ∧ Syntax.isUnreserved c = true := by
    intro c hc
    rcases mem_isIp4 h hc with rfl | hdigit
    · decide
    · obtain ⟨hunreserved, hpercent, -⟩ := (byte_classes c).1 (isHex_of_isDigit hdigit)
      exact ⟨hpercent, hunreserved⟩
  clear h hne
  induction bytes with
  | nil => exact .nil
  | cons c rest ih =>
      obtain ⟨hc, hrest⟩ := List.forall_mem_cons.mp hplain
      exact .plain hc.1 (Or.inl hc.2) (ih hrest)

/-- What may stand behind a host. -/
def IsPort (port : Bytes) : Prop :=
  port = [] ∨ ∃ digits, port = 0x3a :: digits ∧ ∀ c ∈ digits, Ascii.isDigit c = true

/-- A text is an authority with a host. -/
def HostOf (authority host : Bytes) : Prop :=
  IsHost host ∧ ∃ port, IsPort port ∧ authority = host ++ port

/-- The bytes of a name are neither delimiters of an authority nor of what follows it. -/
theorem mem_name {text : Bytes} (h : Grammar.Component false text) {c : UInt8} (hc : c ∈ text) :
    c ∉ ascii ":/?[]" ∧ 0x20 < c ∧ c < 0x7f := by
  refine (byte_classes c).2.1 ?_
  rcases h.mem hc with h | h | h | h | ⟨h, -⟩
  · exact Or.inl h
  · exact Or.inr (Or.inl ((byte_classes c).1 h).1)
  · exact Or.inr (Or.inl h)
  · exact Or.inr (Or.inr h)
  · cases h

theorem mem_literal {text : Bytes} (h : Syntax.isLiteral text = true) {c : UInt8} (hc : c ∈ text) :
    c ∉ ascii "/?[]" ∧ 0x20 < c ∧ c < 0x7f := by
  rcases mem_isLiteral h hc with hunreserved | hsub | rfl
  · exact ((byte_classes c).2.1 (Or.inr (Or.inl hunreserved))).imp_left not_mem_delimiters
  · exact ((byte_classes c).2.1 (Or.inr (Or.inr hsub))).imp_left not_mem_delimiters
  · decide

/-- The host ends at the first bracket or colon. -/
theorem HostOf.cases {authority host : Bytes} (h : HostOf authority host) :
    (∃ text port, Syntax.isLiteral text = true ∧ IsPort port ∧ host = 0x5b :: (text ++ [0x5d]) ∧
      authority = 0x5b :: text ++ 0x5d :: port) ∨
    ∃ port, host ≠ [] ∧ Grammar.Component false host ∧ IsPort port ∧ authority = host ++ port := by
  obtain ⟨hhost, port, hport, rfl⟩ := h
  cases hhost with
  | literal htext => exact Or.inl ⟨_, port, htext, hport, rfl, by simp⟩
  | name hne hname => exact Or.inr ⟨port, hne, hname, hport, rfl⟩

theorem isPort_iff {port : Bytes} :
    IsPort port ↔ port = [] ∨ (port.head? == some 0x3a && (port.drop 1).all Ascii.isDigit) = true := by
  unfold IsPort
  cases port with
  | nil => simp
  | cons c digits => simp

/-- A bracketed literal, its closing bracket the first one. -/
theorem isAuthority_literal {text : Bytes} (port : Bytes) (allowEmpty : Bool) (h : 0x5d ∉ text) :
    Syntax.isAuthority (0x5b :: text ++ 0x5d :: port) false allowEmpty = true ↔
      Syntax.isLiteral text = true ∧ IsPort port := by
  have hend : Mem.indexOfScalar (0x5b :: (text ++ 0x5d :: port)) 0x5d = some (text.length + 1) :=
    Mem.indexOfScalar_first (by simpa using h : (0x5d : UInt8) ∉ 0x5b :: text)
  have htake : ((0x5b :: (text ++ 0x5d :: port)).take (text.length + 1)).drop 1 = text := by
    rw [List.take_succ_cons, List.take_left, List.drop_one, List.tail_cons]
  have hbehind (k : Nat) : (0x5b :: (text ++ 0x5d :: port)).drop (text.length + 1 + 1 + k) =
      port.drop k := by
    rw [show text.length + 1 + 1 + k = (0x5b :: (text ++ [0x5d])).length + k by simp,
      show 0x5b :: (text ++ 0x5d :: port) = 0x5b :: (text ++ [0x5d]) ++ port by simp,
      List.drop_length_add_append]
  have hat : (0x5b :: (text ++ 0x5d :: port))[text.length + 1 + 1]? = port.head? := by
    rw [← List.head?_drop, ← Nat.add_zero (text.length + 1 + 1), hbehind, List.drop_zero]
  unfold Syntax.isAuthority
  dsimp only [List.cons_append]
  rw [if_pos (by decide), hend]
  dsimp only
  rw [isPort_iff, htake, hat, hbehind 1, Bool.and_eq_true]
  refine and_congr_right fun _ => ?_
  cases port with
  | nil => simp
  | cons c digits => simp

/-- A name, in front of the first colon. -/
theorem isAuthority_name {host port : Bytes} (allowEmpty : Bool) (hne : host ≠ [])
    (hbracket : host.head? ≠ some 0x5b) (hcolon : 0x3a ∉ host)
    (hport : port = [] ∨ port.head? = some 0x3a) :
    Syntax.isAuthority (host ++ port) false allowEmpty = true ↔
      Grammar.Component false host ∧ IsPort port := by
  obtain ⟨first, rest, rfl⟩ := List.exists_cons_of_ne_nil hne
  have htake : (first :: (rest ++ port)).take (first :: rest).length = first :: rest :=
    List.take_left
  unfold Syntax.isAuthority
  dsimp only [List.cons_append]
  rw [if_neg (by simpa using hbracket), ← Grammar.isUriComponent_iff]
  rcases port with _ | ⟨c, digits⟩
  · rw [List.append_nil, Mem.indexOfScalar_none hcolon]
    simp [IsPort]
  · obtain rfl : c = 0x3a := by simpa using hport
    have hat : Mem.indexOfScalar (first :: (rest ++ 0x3a :: digits)) 0x3a =
        some (first :: rest).length := Mem.indexOfScalar_first hcolon
    have hbehind : (first :: (rest ++ 0x3a :: digits)).drop ((first :: rest).length + 1) = digits := by
      rw [show first :: (rest ++ 0x3a :: digits) = first :: rest ++ 0x3a :: digits by simp,
        List.drop_length_add_append]
      rfl
    rw [hat]
    dsimp only [Option.getD_some, Option.map_some]
    rw [htake, hbehind]
    simp [IsPort]

/-- An authority is a text with a host. -/
theorem isAuthority_iff {bytes : Bytes} (hne : bytes ≠ []) (allowEmpty : Bool) :
    Syntax.isAuthority bytes false allowEmpty = true ↔ ∃ host, HostOf bytes host := by
  constructor
  · intro h
    by_cases hbracket : bytes.head? = some 0x5b
    · obtain ⟨rest, rfl⟩ := List.head?_eq_some_iff.mp hbracket
      rcases Mem.split_scalar rest 0x5d with hnone | ⟨text, port, rfl, hfirst⟩
      · have hnone : Mem.indexOfScalar (0x5b :: rest) 0x5d = none :=
          Mem.indexOfScalar_none (by simpa using hnone)
        unfold Syntax.isAuthority at h
        dsimp only at h
        rw [if_pos (by decide), hnone] at h
        cases h
      · obtain ⟨htext, hport⟩ := (isAuthority_literal port allowEmpty hfirst).mp h
        exact ⟨_, .literal htext, port, hport, by simp⟩
    · have hsplit : ∃ host port, bytes = host ++ port ∧ 0x3a ∉ host ∧
          (port = [] ∨ port.head? = some 0x3a) := by
        rcases Mem.split_scalar bytes 0x3a with hnone | ⟨host, digits, rfl, hfirst⟩
        · exact ⟨bytes, [], (List.append_nil _).symm, hnone, Or.inl rfl⟩
        · exact ⟨host, 0x3a :: digits, rfl, hfirst, Or.inr rfl⟩
      obtain ⟨host, port, rfl, hcolon, hport⟩ := hsplit
      by_cases hempty : host = []
      · -- In front of a first colon the host is empty.
        subst hempty
        rcases hport with rfl | hport
        · exact absurd rfl hne
        · obtain ⟨digits, rfl⟩ := List.head?_eq_some_iff.mp hport
          simp [Syntax.isAuthority, Mem.indexOfScalar, List.findIdx?_cons] at h
      · rw [List.head?_append_of_ne_nil _ hempty] at hbracket
        obtain ⟨hname, hport⟩ := (isAuthority_name allowEmpty hempty hbracket hcolon hport).mp h
        exact ⟨host, .name hempty hname, port, hport, rfl⟩
  · rintro ⟨host, h⟩
    rcases h.cases with ⟨text, port, htext, hport, rfl, rfl⟩ | ⟨port, hempty, hname, hport, rfl⟩
    · refine (isAuthority_literal port allowEmpty fun hmem => ?_).mpr ⟨htext, hport⟩
      exact (mem_literal htext hmem).1 (by decide)
    · refine (isAuthority_name allowEmpty hempty (fun hbracket => ?_) (fun hmem => ?_) ?_).mpr
        ⟨hname, hport⟩
      · exact (mem_name hname (List.mem_of_head? hbracket)).1 (by decide)
      · exact (mem_name hname hmem).1 (by decide)
      · rcases hport with rfl | ⟨digits, rfl, -⟩
        · exact Or.inl rfl
        · exact Or.inr rfl

/-- The bytes of an authority are visible and end at the path. -/
theorem HostOf.mem {authority host : Bytes} (h : HostOf authority host) {c : UInt8}
    (hc : c ∈ authority) : c ∉ ascii "/?" ∧ 0x20 < c ∧ c < 0x7f := by
  have hdelimiters : ∀ {c : UInt8}, c ∉ ascii "/?[]" → c ∉ ascii "/?" :=
    fun h hmem => h (List.mem_append_left (ascii "[]") hmem)
  have hport : ∀ {port : Bytes}, IsPort port → ∀ c ∈ port,
      c ∉ ascii "/?" ∧ 0x20 < c ∧ c < 0x7f := by
    rintro port (rfl | ⟨digits, rfl, hdigits⟩) c hc
    · cases hc
    · rcases List.mem_cons.mp hc with rfl | hc
      · decide
      · have hunreserved := ((byte_classes c).1 (isHex_of_isDigit (hdigits c hc))).1
        exact ((byte_classes c).2.1 (Or.inr (Or.inl hunreserved))).imp_left fun h =>
          hdelimiters (not_mem_delimiters h)
  rcases h.cases with ⟨text, port, htext, hisPort, rfl, rfl⟩ | ⟨port, -, hname, hisPort, rfl⟩
  · simp only [List.mem_append, List.mem_cons] at hc
    rcases hc with (rfl | hc) | rfl | hc
    · decide
    · exact (mem_literal htext hc).imp_left hdelimiters
    · decide
    · exact hport hisPort c hc
  · rcases List.mem_append.mp hc with hc | hc
    · exact (mem_name hname hc).imp_left fun h => hdelimiters (not_mem_delimiters h)
    · exact hport hisPort c hc

end Authority

end Zhtps
