import Zhtps.Endpoint.Routing
import Zhtps.Http.Grammar
import Zhtps.Http.Scan

/-!
Directory mounts, after `src/endpoint/static_files.zig`, `src/endpoint/static_files/path.zig` and
the handler that `src/endpoint.zig` builds for them.  The part of the path below the mount is
percent-decoded once and looked up component by component.
-/

namespace Zhtps

namespace StaticFiles

open Zhtps.Path (slash dot percent)

def backslash : UInt8 := 92

inductive Error
  | invalidInput
  | outOfMemory
  deriving DecidableEq, Repr

/-- Controls and the other separator. -/
def isRefused (byte : UInt8) : Bool := byte < 0x20 || byte == 0x7f || byte == backslash

/-- The loop of `decodePath`, from `encoded[read..]` on. -/
def decodeBytes : Bytes → Except Error Bytes
  | [] => .ok []
  | c :: rest =>
      if c = percent then
        match rest with
        | high :: low :: rest =>
            match Path.hexByte high low with
            | some byte =>
                if byte = slash then .error .invalidInput
                else if isRefused byte then .error .invalidInput
                else (decodeBytes rest).map (byte :: ·)
            | none => .error .invalidInput
        | _ => .error .invalidInput
      else if isRefused c then .error .invalidInput
      else (decodeBytes rest).map (c :: ·)

/-- Rejects empty, dot, parent and control-character components. -/
def validSegment (segment : Bytes) (dotfiles : Bool) : Bool :=
  if segment.isEmpty || segment == [dot] || segment == [dot, dot] then false
  else if !dotfiles && segment.head? == some dot then false
  else segment.all fun byte => !isRefused byte

/-- Decodes a path below a mount; `allocated` is whether the allocator had room for it. -/
def decodePath (allocated : Bool) (encoded : Bytes) (dotfiles : Bool) : Except Error Bytes :=
  if encoded.head? = some slash then .error .invalidInput
  else if !allocated then .error .outOfMemory
  else
    match decodeBytes encoded with
    | .error e => .error e
    | .ok path =>
        if (Mem.tokenizeScalar slash path).all fun segment => validSegment segment dotfiles then
          .ok path
        else .error .invalidInput

/-! ### Lookups -/

/-- Directories with lookups of one component; neither follows a symbolic link. -/
structure FileSystem (Directory File : Type) where
  openDir : Directory → Bytes → Option Directory
  openFile : Directory → Bytes → Option File

variable {Directory File : Type} (files : FileSystem Directory File)

/-- The loop of `openPath`: the lookups it makes, and the file. -/
def openFrom (directory : Directory) (segment : Bytes) :
    List Bytes → List (Directory × Bytes) × Option File
  | [] => ([(directory, segment)], files.openFile directory segment)
  | next :: segments =>
      match files.openDir directory segment with
      | none => ([(directory, segment)], none)
      | some child =>
          ((directory, segment) :: (openFrom child next segments).1,
            (openFrom child next segments).2)

/-- Without a component the root itself is opened. -/
def openPath (root : Directory) (path : Bytes) : List (Directory × Bytes) × Option File :=
  match Mem.tokenizeScalar slash path with
  | [] => ([(root, [dot])], files.openFile root [dot])
  | segment :: segments => openFrom files root segment segments

/-- The route of a directory mount. -/
def staticFiles {Middleware : Type} (mount : Bytes) : Endpoint.Route Middleware :=
  { name := mount, method := .get, path := mount, subtree := true }

/-- The path that the handler of a mount serves, without the slash behind the mount. -/
def servedPath (path mount : Bytes) : Bytes :=
  if [slash].isPrefixOf (path.drop mount.length) then (path.drop mount.length).drop 1
  else path.drop mount.length

/-! ### One decoding -/

/-- Percent-decoding as URIs define it; what is no escape stays. -/
def percentDecode : Bytes → Bytes
  | c :: high :: low :: rest =>
      match if c = percent then Path.hexByte high low else none with
      | some byte => byte :: percentDecode rest
      | none => c :: percentDecode (high :: low :: rest)
  | short => short

theorem percentDecode_plain {c : UInt8} (hc : c ≠ percent) (rest : Bytes) :
    percentDecode (c :: rest) = c :: percentDecode rest := by
  match rest with
  | [] => rfl
  | [d] => rfl
  | d :: e :: rest =>
      rw [percentDecode, if_neg hc]

theorem percentDecode_escape {high low byte : UInt8} (hbyte : Path.hexByte high low = some byte)
    (rest : Bytes) : percentDecode (percent :: high :: low :: rest) = byte :: percentDecode rest := by
  rw [percentDecode, if_pos rfl, hbyte]

theorem percentDecode_ne_nil {s : Bytes} (h : s ≠ []) : percentDecode s ≠ [] := by
  match s with
  | [] => exact absurd rfl h
  | [c] => exact List.cons_ne_nil c []
  | [c, d] => exact List.cons_ne_nil c [d]
  | c :: high :: low :: rest =>
      rw [percentDecode]
      split
      · exact List.cons_ne_nil _ _
      · exact List.cons_ne_nil _ _

theorem map_ok {f : Bytes → Bytes} {value : Except Error Bytes} {path : Bytes}
    (h : value.map f = .ok path) : ∃ rest, value = .ok rest ∧ path = f rest := by
  cases value with
  | error e => exact absurd h nofun
  | ok rest => exact ⟨rest, rfl, (Except.ok.inj h).symm⟩

/-- Decoding goes through the segments one by one. -/
theorem decodeBytes_segments {encoded path : Bytes} (h : decodeBytes encoded = .ok path) :
    path.splitOn slash = (encoded.splitOn slash).map percentDecode ∧
      ∀ byte ∈ path, isRefused byte = false := by
  have hpush : ∀ {c : UInt8} {rest : Bytes}, isRefused c = false →
      (∀ byte ∈ rest, isRefused byte = false) → ∀ byte ∈ c :: rest, isRefused byte = false := by
    intro c rest hc hrest byte hbyte
    rcases List.mem_cons.mp hbyte with rfl | hbyte
    · exact hc
    · exact hrest byte hbyte
  fun_induction decodeBytes encoded generalizing path with
  | case1 =>
      rw [← Except.ok.inj h]
      exact ⟨rfl, fun _ hbyte => absurd hbyte List.not_mem_nil⟩
  | case2 | case3 | case5 | case6 | case7 => exact absurd h nofun
  | case4 high low rest byte hbyte hslash hrefused ih =>
      obtain ⟨decoded, hdecoded, rfl⟩ := map_ok h
      obtain ⟨hsplit, hclean⟩ := ih hdecoded
      refine ⟨?_, hpush (Bool.not_eq_true _ ▸ hrefused) hclean⟩
      rw [Path.splitOn_escape hbyte, Lib.splitOn_cons_ne hslash, hsplit,
        Lib.map_modifyHead (percentDecode_escape hbyte)]
  | case8 c rest hc hrefused ih =>
      obtain ⟨decoded, hdecoded, rfl⟩ := map_ok h
      obtain ⟨hsplit, hclean⟩ := ih hdecoded
      refine ⟨?_, hpush (Bool.not_eq_true _ ▸ hrefused) hclean⟩
      by_cases hslash : c = slash
      · rw [hslash, Lib.splitOn_cons_self, Lib.splitOn_cons_self, hsplit]
        rfl
      · rw [Lib.splitOn_cons_ne hslash, Lib.splitOn_cons_ne hslash, hsplit,
          Lib.map_modifyHead (percentDecode_plain hc)]

/-- Normalization leaves what a segment stands for as it is. -/
theorem normalizeEscapes_segments {path : Bytes} (hw : Path.WellFormed path) :
    ((Path.normalizeEscapes path).splitOn slash).map percentDecode =
      (path.splitOn slash).map percentDecode := by
  fun_induction Path.normalizeEscapes path with
  | case1 => rfl
  | case2 c rest hc ih =>
      have ih := ih ((Path.wellFormed_cons hc rest).mp hw)
      by_cases hslash : c = slash
      · rw [hslash, Lib.splitOn_cons_self, Lib.splitOn_cons_self, List.map_cons, List.map_cons, ih]
      · rw [Lib.splitOn_cons_ne hslash, Lib.splitOn_cons_ne hslash,
          Lib.map_modifyHead (percentDecode_plain hc), Lib.map_modifyHead (percentDecode_plain hc),
          ih]
  | case3 c hc high low rest byte hbyte hun ih =>
      rw [Decidable.not_not] at hc
      subst hc
      have ih := ih ((Path.wellFormed_escape rest).mp hw).2
      have hplain := Path.isUnreserved_ne_percent hun
      have hslash : byte ≠ slash := by
        rintro rfl
        exact absurd hun (by decide)
      rw [Path.splitOn_escape hbyte, Lib.splitOn_cons_ne hslash,
        Lib.map_modifyHead (percentDecode_plain hplain),
        Lib.map_modifyHead (percentDecode_escape hbyte), ih]
  | case4 c hc high low rest byte hbyte hun ih =>
      rw [Decidable.not_not] at hc
      subst hc
      have ih := ih ((Path.wellFormed_escape rest).mp hw).2
      have hupper := (Path.hexByte_toUpper high low).trans hbyte
      rw [Path.splitOn_escape hbyte, Path.splitOn_escape hupper,
        Lib.map_modifyHead (percentDecode_escape hbyte),
        Lib.map_modifyHead (percentDecode_escape hupper), ih]
  | case5 c hc high low rest hbyte =>
      rw [Decidable.not_not] at hc
      subst hc
      rw [Path.wellFormed_escape, hbyte] at hw
      exact absurd hw.1 (by simp)
  | case6 c rest hc hshort =>
      rw [Decidable.not_not] at hc
      subst hc
      obtain ⟨high, low, tail, rfl, -, -⟩ := hw [] rest rfl
      exact absurd rfl (hshort high low tail)

/-! ### Components -/

theorem mem_tokenizeScalar {s bytes : Bytes} :
    s ∈ Mem.tokenizeScalar slash bytes ↔ s ∈ bytes.splitOn slash ∧ s ≠ [] := by
  rw [Mem.tokenizeScalar, Grammar.splitScalar_eq, List.mem_filter]
  simp

/-- The components of a decoded path are the segments, each decoded. -/
theorem tokenizeScalar_decoded {encoded path : Bytes} (h : decodeBytes encoded = .ok path) :
    Mem.tokenizeScalar slash path = (Mem.tokenizeScalar slash encoded).map percentDecode := by
  rw [Mem.tokenizeScalar, Mem.tokenizeScalar, Grammar.splitScalar_eq, Grammar.splitScalar_eq,
    (decodeBytes_segments h).1, List.filter_map]
  congr 1
  refine List.filter_congr ?_
  intro s _
  cases s with
  | nil => rfl
  | cons c s => simpa using percentDecode_ne_nil (List.cons_ne_nil c s)

/-- A name that stays within the directory it is looked up in. -/
def Contained (dotfiles : Bool) (name : Bytes) : Prop :=
  name ≠ [] ∧ name ≠ [dot] ∧ name ≠ [dot, dot] ∧
    (∀ byte ∈ name, byte ≠ slash ∧ byte ≠ backslash ∧ byte ≠ 0 ∧ 0x20 ≤ byte ∧ byte ≠ 0x7f) ∧
    (dotfiles = false → name.head? ≠ some dot)

/-- The directories below the root, by names that stay within. -/
inductive Below (dotfiles : Bool) (root : Directory) : Directory → Prop
  | root : Below dotfiles root root
  | child {directory child : Directory} {name : Bytes} : Below dotfiles root directory →
      Contained dotfiles name → files.openDir directory name = some child →
      Below dotfiles root child

theorem not_isRefused {byte : UInt8} (h : isRefused byte = false) :
    byte ≠ backslash ∧ byte ≠ 0 ∧ 0x20 ≤ byte ∧ byte ≠ 0x7f := by
  have hall : ∀ byte : UInt8, isRefused byte = false →
      byte ≠ backslash ∧ byte ≠ 0 ∧ 0x20 ≤ byte ∧ byte ≠ 0x7f := by decide +kernel
  exact hall byte h

theorem validSegment_contained {segment : Bytes} {dotfiles : Bool}
    (h : validSegment segment dotfiles = true) (hslash : slash ∉ segment) :
    Contained dotfiles segment := by
  rw [validSegment] at h
  split at h
  · exact absurd h nofun
  · rename_i hname
    rw [Bool.or_eq_true, Bool.or_eq_true, not_or, not_or, List.isEmpty_iff, beq_iff_eq,
      beq_iff_eq] at hname
    split at h
    · exact absurd h nofun
    · rename_i hdot
      refine ⟨hname.1.1, hname.1.2, hname.2, ?_, ?_⟩
      · intro byte hbyte
        have hclean := List.all_eq_true.mp h byte hbyte
        refine ⟨?_, not_isRefused (by simpa using hclean)⟩
        rintro rfl
        exact hslash hbyte
      · rintro rfl hhead
        exact hdot (by rw [hhead]; rfl)

theorem decodePath_ok {allocated dotfiles : Bool} {encoded path : Bytes}
    (h : decodePath allocated encoded dotfiles = .ok path) :
    decodeBytes encoded = .ok path ∧
      ∀ name ∈ Mem.tokenizeScalar slash path, Contained dotfiles name := by
  rw [decodePath] at h
  split at h
  · exact absurd h nofun
  · split at h
    · exact absurd h nofun
    · cases hdecoded : decodeBytes encoded with
      | error e =>
          rw [hdecoded] at h
          exact absurd h nofun
      | ok decoded =>
          simp only [hdecoded] at h
          split at h
          · rename_i hvalid
            rw [Except.ok.injEq] at h
            subst h
            refine ⟨rfl, ?_⟩
            intro name hname
            exact validSegment_contained (List.all_eq_true.mp hvalid name hname)
              (Lib.not_mem_splitOn decoded name (mem_tokenizeScalar.mp hname).1)
          · exact absurd h nofun

theorem openFrom_contained {dotfiles : Bool} {root directory : Directory} {segment : Bytes}
    {segments : List Bytes} (hbelow : Below files dotfiles root directory)
    (hcontained : ∀ name ∈ segment :: segments, Contained dotfiles name) :
    (openFrom files directory segment segments).1.map Prod.snd <+: segment :: segments ∧
      ∀ lookup ∈ (openFrom files directory segment segments).1,
        Below files dotfiles root lookup.1 ∧ Contained dotfiles lookup.2 := by
  have hsegment := hcontained segment List.mem_cons_self
  have hfirst : ∀ lookup ∈ [(directory, segment)],
      Below files dotfiles root lookup.1 ∧ Contained dotfiles lookup.2 := by
    intro lookup hlookup
    rw [List.mem_singleton] at hlookup
    rw [hlookup]
    exact ⟨hbelow, hsegment⟩
  induction segments generalizing directory segment with
  | nil => exact ⟨List.prefix_refl _, hfirst⟩
  | cons next segments ih =>
      rw [openFrom]
      cases hopen : files.openDir directory segment with
      | none => exact ⟨⟨next :: segments, rfl⟩, hfirst⟩
      | some child =>
          have hchild : Below files dotfiles root child := .child hbelow hsegment hopen
          have hrest : ∀ name ∈ next :: segments, Contained dotfiles name :=
            fun name hname => hcontained name (List.mem_cons_of_mem _ hname)
          have hnext := hrest next List.mem_cons_self
          obtain ⟨hstart, hlookups⟩ := ih hchild hrest hnext (by
            intro lookup hlookup
            rw [List.mem_singleton] at hlookup
            rw [hlookup]
            exact ⟨hchild, hnext⟩)
          refine ⟨?_, ?_⟩
          · exact (List.prefix_cons_inj segment).mpr hstart
          · intro lookup hlookup
            rcases List.mem_cons.mp hlookup with rfl | hlookup
            · exact ⟨hbelow, hsegment⟩
            · exact hlookups lookup hlookup

/-- The segments below a mount are segments of the path. -/
theorem servedPath_segments {Middleware : Type} {path mount s : Bytes}
    (hmatch : (staticFiles mount : Endpoint.Route Middleware).isMatch path = true)
    (hmount : mount.head? = some slash)
    (hs : s ∈ Mem.tokenizeScalar slash (servedPath path mount)) :
    s ∈ Mem.tokenizeScalar slash path := by
  obtain ⟨rest, hrest⟩ := Endpoint.Route.isMatch_starts hmatch rfl
  change mount ++ rest = path at hrest
  subst hrest
  have hdrop : (mount ++ rest).drop mount.length = rest := List.drop_left
  rw [mem_tokenizeScalar] at hs ⊢
  refine ⟨?_, hs.2⟩
  rw [servedPath, hdrop] at hs
  split at hs
  · -- what follows the mount is a slash, the boundary of a segment
    rename_i hslash
    obtain ⟨below, rfl⟩ := List.isPrefixOf_iff_prefix.mp hslash
    rw [List.singleton_append, Lib.splitOn_append]
    exact List.mem_append_right _ hs.1
  · rename_i hslash
    have hnot : rest.head? ≠ some slash := by
      intro hhead
      obtain ⟨below, rfl⟩ := List.head?_eq_some_iff.mp hhead
      exact hslash (by simp [List.isPrefixOf])
    have hempty : rest ≠ [] := by
      rintro rfl
      rw [List.splitOn_nil, List.mem_singleton] at hs
      exact hs.2 hs.1
    have hlength : rest.length ≠ 0 := fun h => hempty (List.length_eq_zero_iff.mp h)
    have hroot : mount.length = 1 := by
      have hstarted : mount.isPrefixOf (mount ++ rest) = true :=
        List.isPrefixOf_iff_prefix.mpr (List.prefix_append mount rest)
      simp only [Endpoint.Route.isMatch, staticFiles, hstarted, Bool.not_true, Bool.false_eq_true,
        if_false, Bool.or_eq_true, beq_iff_eq, List.length_append] at hmatch
      rcases hmatch with (hone | hsame) | hnext
      · exact hone
      · omega
      · rw [List.getElem?_append_right (Nat.le_refl _), Nat.sub_self, ← List.head?_eq_getElem?]
          at hnext
        exact absurd hnext hnot
    obtain ⟨tail, rfl⟩ := List.head?_eq_some_iff.mp hmount
    have htail : tail = [] := by
      rw [List.length_cons] at hroot
      exact List.length_eq_zero_iff.mp (by omega)
    rw [htail, List.singleton_append, Lib.splitOn_cons_self]
    exact List.mem_cons_of_mem _ hs.1

/-- Decoding once what normalization left is decoding the request's path once. -/
theorem mem_request {buffer request path s : Bytes}
    (hnormalize : Path.normalize buffer request = .ok path)
    (hs : s ∈ Mem.tokenizeScalar slash path) :
    ∃ t ∈ Mem.tokenizeScalar slash request, percentDecode s = percentDecode t := by
  obtain ⟨-, hw, -⟩ := Path.normalize_ok hnormalize
  rw [mem_tokenizeScalar] at hs
  have hnormal := List.mem_map_of_mem (f := percentDecode)
    (Path.normalize_segments hnormalize s hs.1 hs.2)
  rw [normalizeEscapes_segments hw, List.mem_map] at hnormal
  obtain ⟨t, ht, heq⟩ := hnormal
  refine ⟨t, mem_tokenizeScalar.mpr ⟨ht, ?_⟩, heq.symm⟩
  rintro rfl
  exact percentDecode_ne_nil hs.2 heq.symm

/-- Every lookup below a mount is in a directory below its root, by a name that stays within it;
the names are segments of the request's path, each decoded once. -/
theorem openPath_contained (Middleware : Type) (root : Directory)
    (buffer request path mount decoded : Bytes) (allocated dotfiles : Bool)
    (hnormalize : Path.normalize buffer request = .ok path) (hmount : mount.head? = some slash)
    (hmatch : (staticFiles mount : Endpoint.Route Middleware).isMatch path = true)
    (hdecode : decodePath allocated (servedPath path mount) dotfiles = .ok decoded) :
    Mem.tokenizeScalar slash decoded =
        (Mem.tokenizeScalar slash (servedPath path mount)).map percentDecode ∧
      (∀ name ∈ Mem.tokenizeScalar slash decoded, Contained dotfiles name ∧
        ∃ s ∈ Mem.tokenizeScalar slash request, name = percentDecode s) ∧
      (Mem.tokenizeScalar slash decoded = [] →
        (openPath files root decoded).1 = [(root, [dot])]) ∧
      (Mem.tokenizeScalar slash decoded ≠ [] →
        (openPath files root decoded).1.map Prod.snd <+: Mem.tokenizeScalar slash decoded ∧
          ∀ lookup ∈ (openPath files root decoded).1,
            Below files dotfiles root lookup.1 ∧ Contained dotfiles lookup.2) := by
  obtain ⟨hbytes, hcontained⟩ := decodePath_ok hdecode
  have hcomponents := tokenizeScalar_decoded hbytes
  refine ⟨hcomponents, ?_, ?_, ?_⟩
  · intro name hname
    refine ⟨hcontained name hname, ?_⟩
    rw [hcomponents, List.mem_map] at hname
    obtain ⟨s, hs, rfl⟩ := hname
    exact mem_request hnormalize (servedPath_segments hmatch hmount hs)
  · intro hnone
    rw [openPath, hnone]
  · intro hsome
    rw [openPath]
    cases htokens : Mem.tokenizeScalar slash decoded with
    | nil => exact absurd htokens hsome
    | cons segment segments =>
        rw [htokens] at hcontained
        exact openFrom_contained files .root hcontained

/-- Doubly encoded dots are looked up under the name that one decoding gives. -/
theorem openPath_contained_encoded :
    Contained false (ascii "%2e%2e") ∧
      ∃ s ∈ Mem.tokenizeScalar slash (ascii "/files/x/../a/%252e%252e"),
        ascii "%2e%2e" = percentDecode s :=
  (openPath_contained (⟨fun _ _ => none, fun _ _ => none⟩ : FileSystem Unit Unit) Unit ()
    (List.replicate 24 0) (ascii "/files/x/../a/%252e%252e") (ascii "/files/a/%252e%252e")
    (ascii "/files") (ascii "a/%2e%2e") true false (by decide +kernel) (by decide +kernel)
    (by decide +kernel) (by decide +kernel)).2.1 (ascii "%2e%2e") (by decide +kernel)

end StaticFiles

end Zhtps
