import Mathlib.Data.List.DropRight
import Mathlib.Data.List.ReduceOption
import Zhtps.Config.ControlFiles

/-!
Which control groups discovery reads.

The walk up a path reads the group of the process and each ancestor up to the mount point, once, and
nothing above.  Every step of `readLimits` is an application of findings that do not depend on what
was found before.
-/

namespace Zhtps.Discovery

open Lib

/-! ### The walk -/

/-- A directory on the way from the group's directory up to the mount point. -/
def Ancestor (base path ancestor : Bytes) : Prop :=
  base <+: ancestor ∧ ∃ below, path = ancestor ++ below ∧ (below = [] ∨ below.head? = some 0x2f)

/-- The paths that the walk reads. -/
def ancestors (boundary : Nat) : Nat → Bytes → List Bytes
  | 0, _ => []
  | turns + 1, path =>
      path :: if path.length = boundary then []
        else match Mem.lastIndexOfScalar path 0x2f with
          | none => []
          | some slash => ancestors boundary turns (path.take slash)

/-- What the groups of some paths say. -/
def findings (host : Host) (controller : Controller) (paths : List Bytes) :
    Checked (List Finding) :=
  Effects.collect (groupFindings host · controller) paths

theorem applyAll_append (resources : Resources) (found rest : List Finding) :
    resources.applyAll (found ++ rest) = (resources.applyAll found).applyAll rest :=
  List.foldl_append

/-- One step up: either the mount point is reached, or the next path is one component shorter. -/
theorem parent_cases {base path : Bytes} (h : base = path ∨ base ++ [0x2f] <+: path) :
    path = base ∨ (path.length ≠ base.length ∧ ∃ parent last, path = parent ++ 0x2f :: last ∧
      0x2f ∉ last ∧ Mem.lastIndexOfScalar path 0x2f = some parent.length ∧
      base.length ≤ parent.length ∧ path.take parent.length = parent ∧
      (base = parent ∨ base ++ [0x2f] <+: parent)) := by
  rcases h with rfl | ⟨rest, hpath⟩
  · exact Or.inl rfl
  · right
    have hslash : (0x2f : UInt8) ∈ path := by
      rw [← hpath]
      simp
    refine ⟨?_, ?_⟩
    · have hlength := congrArg List.length hpath
      simp only [List.length_append, List.length_singleton] at hlength
      omega
    obtain ⟨parent, last, rfl, hlast⟩ := Mem.split_last hslash
    -- The last slash is the one behind the mount point, or one further on.
    have hsplit : base ++ 0x2f :: rest = parent ++ 0x2f :: last := by
      rw [← hpath]
      simp
    have hbase : base = parent ∨ base ++ [0x2f] <+: parent := by
      rcases List.append_eq_append_iff.mp hsplit with ⟨tail, rfl, hrest⟩ | ⟨tail, rfl, hlast'⟩
      · cases tail with
        | nil => exact Or.inl (List.append_nil base).symm
        | cons c tail =>
            obtain rfl : 0x2f = c := (List.cons.inj hrest).1
            exact Or.inr ⟨tail, by simp⟩
      · cases tail with
        | nil => exact Or.inl (List.append_nil parent)
        | cons c tail =>
            refine absurd ?_ hlast
            rw [(List.cons.inj hlast').2]
            simp
    refine ⟨parent, last, rfl, hlast, Mem.lastIndexOfScalar_last hlast, ?_, List.take_left, hbase⟩
    rcases hbase with rfl | hbefore
    · exact Nat.le_refl _
    · have hlength := hbefore.length_le
      simp only [List.length_append, List.length_singleton] at hlength
      omega

/-- With turns for every byte the walk ends, and has applied what its paths say. -/
theorem walk_eq (host : Host) (controller : Controller) {base : Bytes} {turns : Nat}
    (resources : Resources) {path : Bytes} (h : base = path ∨ base ++ [0x2f] <+: path)
    (hturns : path.length < turns) :
    walk host controller base.length turns resources path =
      (findings host controller (ancestors base.length turns path)).map resources.applyAll := by
  induction turns generalizing resources path with
  | zero => cases hturns
  | succ turns ih =>
      rw [walk, ancestors, readGroup, findings, Effects.collect]
      cases hgroup : groupFindings host path controller with
      | error stop => rfl
      | ok found =>
          rcases parent_cases h with rfl | ⟨hne, parent, last, hpath, hlast, hindex, hle, htake, hup⟩
          · simp [bind, Except.bind, pure, Except.pure, Effects.collect, Except.map]
          · have hshort : parent.length < turns := by
              have hlength := congrArg List.length hpath
              simp only [List.length_append, List.length_cons] at hlength
              omega
            rw [if_neg hne, hindex]
            simp only [bind, Except.bind, pure, Except.pure]
            rw [if_neg hne, if_neg (Nat.not_lt.mpr hle), htake, ih _ hup hshort, findings]
            cases Effects.collect (groupFindings host · controller)
              (ancestors base.length turns parent) with
            | error stop => rfl
            | ok rest => exact congrArg Except.ok (applyAll_append resources found rest).symm

/-- The walk skips no ancestor and does not leave the mount. -/
theorem mem_ancestors {base : Bytes} {turns : Nat} {path ancestor : Bytes}
    (h : base = path ∨ base ++ [0x2f] <+: path) (hturns : path.length < turns) :
    ancestor ∈ ancestors base.length turns path ↔ Ancestor base path ancestor := by
  induction turns generalizing path with
  | zero => cases hturns
  | succ turns ih =>
      have hself : Ancestor base path path := by
        refine ⟨?_, [], (List.append_nil path).symm, Or.inl rfl⟩
        rcases h with rfl | hbefore
        · exact List.prefix_rfl
        · exact (List.prefix_append base [0x2f]).trans hbefore
      rw [ancestors, List.mem_cons]
      rcases parent_cases h with rfl | ⟨hne, parent, last, hpath, hlast, hindex, hle, htake, hup⟩
      · rw [if_pos rfl]
        refine ⟨?_, ?_⟩
        · rintro (rfl | hmem)
          · exact hself
          · cases hmem
        · rintro ⟨hbefore, below, hsplit, -⟩
          left
          have hlength := hbefore.length_le
          exact (hbefore.eq_of_length_le (by rw [hsplit, List.length_append]; omega)).symm
      · have hshort : parent.length < turns := by
          have hlength := congrArg List.length hpath
          simp only [List.length_append, List.length_cons] at hlength
          omega
        rw [if_neg hne, hindex]
        dsimp only
        rw [htake, ih hup hshort]
        constructor
        · rintro (rfl | ⟨hbefore, below, hsplit, hbelow⟩)
          · exact hself
          · refine ⟨hbefore, below ++ 0x2f :: last, ?_, Or.inr ?_⟩
            · rw [hpath, hsplit, List.append_assoc]
            · rcases hbelow with rfl | hbelow
              · rfl
              · rw [List.head?_append, hbelow]
                rfl
        · rintro ⟨hbefore, below, hsplit, rfl | hbelow⟩
          · exact Or.inl ((List.append_nil ancestor).symm.trans hsplit.symm)
          · -- A proper ancestor ends at a slash, at the latest at the last one.
            right
            refine ⟨hbefore, ?_⟩
            obtain ⟨rest, rfl⟩ := List.head?_eq_some_iff.mp hbelow
            rw [hpath] at hsplit
            rcases List.append_eq_append_iff.mp hsplit with ⟨tail, hlong, hrest⟩ | ⟨tail, rfl, hrest⟩
            · cases tail with
              | nil => exact ⟨[], by rw [hlong]; simp, Or.inl rfl⟩
              | cons c tail =>
                  refine absurd ?_ hlast
                  rw [(List.cons.inj hrest).2]
                  simp
            · refine ⟨tail, rfl, ?_⟩
              cases tail with
              | nil => exact Or.inl rfl
              | cons c tail => exact Or.inr (congrArg some (List.cons.inj hrest).1.symm)

/-! ### Paths of groups -/

theorem trimSlash_eq (path : Bytes) : trimSlash path = path.rdropWhile (· == 0x2f) := by
  have hset : (fun c => [0x2f].contains c) = fun c : UInt8 => c == 0x2f := by
    funext c
    rw [List.contains_cons, List.contains_nil, Bool.or_false]
  rw [trimSlash, Mem.trimEndOf, Mem.trimStartOf, List.rdropWhile, hset]

/-- Trimming takes slashes off the end, and all of them. -/
theorem trimSlash_split (path : Bytes) : ∃ slashes, path = trimSlash path ++ slashes ∧
    (∀ c ∈ slashes, c = 0x2f) ∧ (trimSlash path).getLast? ≠ some 0x2f := by
  rw [trimSlash_eq]
  refine ⟨path.rtakeWhile (· == 0x2f), ?_, ?_, ?_⟩
  · exact List.rdropWhile_append_rtakeWhile.symm
  · intro c hc
    rw [List.rtakeWhile, List.mem_reverse] at hc
    simpa using List.mem_takeWhile_imp hc
  · intro hlast
    have hne : path.rdropWhile (· == 0x2f) ≠ [] := by
      intro hnil
      rw [hnil] at hlast
      cases hlast
    have hnot := List.rdropWhile_last_not (· == 0x2f) path hne
    rw [List.getLast?_eq_some_getLast hne, Option.some.injEq] at hlast
    rw [hlast] at hnot
    exact hnot rfl

theorem suffixOf_slash {group mountRoot suffix : Bytes} (hgroup : validAbsolutePath group = true)
    (h : suffixOf group mountRoot = some suffix) : suffix = [] ∨ suffix.head? = some 0x2f := by
  have hhead : group.head? = some 0x2f := by
    rw [validAbsolutePath, Bool.and_eq_true, beq_iff_eq] at hgroup
    exact hgroup.1
  unfold suffixOf at h
  split_ifs at h with hroot hsame hbelow hnamespace
  · exact Or.inr (Option.some.inj h ▸ hhead)
  · exact Or.inl (Option.some.inj h).symm
  · right
    rw [Bool.and_eq_true, beq_iff_eq] at hbelow
    rw [← Option.some.inj h, List.head?_drop]
    exact hbelow.2
  · exact Or.inl (Option.some.inj h).symm

/-- The path of a group is the mount point or below it. -/
theorem groupPath_below {mount suffix path : Bytes}
    (hsuffix : suffix = [] ∨ suffix.head? = some 0x2f) (h : groupPath mount suffix = .ok path) :
    trimSlash mount = path ∨ trimSlash mount ++ [0x2f] <+: path := by
  unfold groupPath at h
  split_ifs at h with hlong
  · cases h
  rw [← Except.ok.inj h]
  obtain ⟨-, -, -, hlast⟩ := trimSlash_split mount
  generalize trimSlash mount = base at hlast ⊢
  obtain ⟨slashes, hsplit, hslashes, -⟩ := trimSlash_split (base ++ suffix)
  rcases List.append_eq_append_iff.mp hsplit with ⟨tail, hpath, hrest⟩ | ⟨tail, hbase, hrest⟩
  · cases tail with
    | nil => exact Or.inl ((List.append_nil base).symm.trans hpath.symm)
    | cons c tail =>
        -- What follows the mount point in the path begins where the suffix does.
        right
        have hc : c = 0x2f := by
          rcases hsuffix with rfl | hhead
          · cases hrest
          · rw [hrest] at hhead
            exact Option.some.inj hhead
        rw [hpath, hc]
        exact ⟨tail, by simp⟩
  · left
    cases tail using List.reverseRecOn with
    | nil => exact hbase.trans (List.append_nil _)
    | append_singleton tail c =>
        have hc : c = 0x2f := hslashes c (by rw [hrest]; simp)
        rw [hbase, hc, ← List.append_assoc, List.getLast?_concat] at hlast
        exact absurd rfl hlast

/-! ### Findings of the lines -/

def lines (text : Bytes) : List Bytes := Mem.tokenizeScalar 0x0a text

/-- What one line of the mount table adds; none marks a mount of the hierarchy. -/
def mountFindings (host : Host) (group : Bytes) (controller : Controller) (line : Bytes) :
    Checked (List (Option Finding)) := do
  match ← mountOf controller line with
  | none => return []
  | some (mountRoot, mount) =>
      match suffixOf group mountRoot with
      | none => return []
      | some suffix => do
          let path ← groupPath mount suffix
          if !host.opens (Mem.trimStartOf [0x2f] path) then unavailable
          else do
            let paths := ancestors (trimSlash mount).length (path.length + 1) path
            return none :: (← findings host controller paths).map some

def applyFound (state : Bool × Resources) : Option Finding → Bool × Resources
  | none => (true, state.2)
  | some finding => (state.1, state.2.apply finding)

theorem foldl_applyFound (state : Bool × Resources) (found : List (Option Finding)) :
    found.foldl applyFound state =
      (state.1 || found.contains none, state.2.applyAll found.reduceOption) := by
  induction found generalizing state with
  | nil => simp [Resources.applyAll]
  | cons finding found ih =>
      rw [List.foldl_cons, ih]
      cases finding with
      | none => simp [applyFound]
      | some finding =>
          rw [List.reduceOption_cons_of_some, List.contains_cons]
          rfl

theorem readMount_eq {host : Host} {group : Bytes} (hgroup : validAbsolutePath group = true)
    (controller : Controller) (state : Bool × Resources) (line : Bytes) :
    readMount host group controller state line =
      (mountFindings host group controller line).map fun found => found.foldl applyFound state := by
  unfold readMount mountFindings
  cases mountOf controller line with
  | error stop => rfl
  | ok found =>
      simp only [bind, Except.bind, pure, Except.pure]
      rcases found with _ | ⟨mountRoot, mount⟩
      · rfl
      · dsimp only
        cases hsuffix : suffixOf group mountRoot with
        | none => rfl
        | some suffix =>
            dsimp only
            cases hpath : groupPath mount suffix with
            | error stop => rfl
            | ok path =>
                dsimp only
                by_cases hopens : (!host.opens (Mem.trimStartOf [0x2f] path)) = true
                · rw [if_pos hopens, if_pos hopens]
                  rfl
                · have hbelow := groupPath_below (suffixOf_slash hgroup hsuffix) hpath
                  rw [if_neg hopens, if_neg hopens,
                    walk_eq host controller state.2 hbelow (Nat.lt_succ_self _)]
                  cases findings host controller
                    (ancestors (trimSlash mount).length (path.length + 1) path) with
                  | error stop => rfl
                  | ok found =>
                      refine congrArg Except.ok ?_
                      dsimp only
                      rw [foldl_applyFound]
                      simp [List.reduceOption]

/-- What one hierarchy of the process adds. -/
def hierarchyFindings (host : Host) (mounts group : Bytes) (controller : Controller) :
    Checked (List Finding) := do
  let found ← Effects.collect (mountFindings host group controller) (lines mounts)
  if found.contains none then return found.reduceOption else unavailable

theorem readHierarchy_eq {host : Host} {group : Bytes} (hgroup : validAbsolutePath group = true)
    (mounts : Bytes) (resources : Resources) (controller : Controller) :
    readHierarchy host mounts group resources controller =
      (hierarchyFindings host mounts group controller).map resources.applyAll := by
  unfold readHierarchy hierarchyFindings
  rw [Effects.foldlM_eq (readMount_eq hgroup controller), lines]
  cases Effects.collect (mountFindings host group controller) (Mem.tokenizeScalar 0x0a mounts) with
  | error stop => rfl
  | ok found =>
      simp only [bind, Except.bind, pure, Except.pure, Except.map]
      rw [foldl_applyFound, Bool.false_or]
      cases found.contains none <;> rfl

/-- What one line of the membership file adds. -/
def membershipFindings (host : Host) (mounts line : Bytes) : Checked (List Finding) := do
  let (hierarchy, controllers, group) ← membership line
  if !validAbsolutePath group then invalid
  else do
    let unified := hierarchy = ascii "0" ∧ controllers = []
    let found ← Effects.collect (hierarchyFindings host mounts group) (listed hierarchy controllers)
    return .hierarchy unified :: found

theorem readMembership_eq (host : Host) (mounts : Bytes) (resources : Resources) (line : Bytes) :
    readMembership host mounts resources line =
      (membershipFindings host mounts line).map resources.applyAll := by
  unfold readMembership membershipFindings
  rcases membership line with stop | ⟨hierarchy, controllers, group⟩
  · rfl
  · simp only [bind, Except.bind, pure, Except.pure]
    by_cases hgroup : (!validAbsolutePath group) = true
    · rw [if_pos hgroup, if_pos hgroup]
      rfl
    · have hvalid : validAbsolutePath group = true := by simpa using hgroup
      rw [if_neg hgroup, if_neg hgroup,
        Effects.foldlM_eq fun resources controller => readHierarchy_eq hvalid mounts resources controller]
      cases Effects.collect (hierarchyFindings host mounts group) (listed hierarchy controllers) with
      | error stop => rfl
      | ok found => rfl

/-- All lines of both files. -/
def allFindings (host : Host) (memberships mounts : Bytes) : Checked (List Finding) :=
  Effects.collect (membershipFindings host mounts) (lines memberships)

theorem readMemberships_eq (host : Host) (memberships mounts : Bytes) (resources : Resources) :
    (Mem.tokenizeScalar 0x0a memberships).foldlM (readMembership host mounts) resources =
      (allFindings host memberships mounts).map resources.applyAll :=
  Effects.foldlM_eq (readMembership_eq host mounts) resources _

/-! ### Which groups count -/

/-- How a group's path lies below the root of a mount. -/
inductive Below (group : Bytes) : Bytes → Bytes → Prop
  | root : Below group (ascii "/") group
  | below {mountRoot suffix : Bytes} : mountRoot ≠ ascii "/" → group = mountRoot ++ suffix →
      (suffix = [] ∨ suffix.head? = some 0x2f) → Below group mountRoot suffix
  | namespaceRoot {mountRoot : Bytes} : group = ascii "/" → ¬mountRoot <+: group →
      Below group mountRoot []

theorem suffixOf_iff {group mountRoot suffix : Bytes} :
    suffixOf group mountRoot = some suffix ↔ Below group mountRoot suffix := by
  unfold suffixOf
  constructor
  · intro h
    split_ifs at h with hroot hsame hbelow hnamespace
    · rw [hroot, ← Option.some.inj h]
      exact .root
    · rw [← Option.some.inj h]
      exact .below hroot (by rw [hsame, List.append_nil]) (Or.inl rfl)
    · rw [Bool.and_eq_true, List.isPrefixOf_iff_prefix, beq_iff_eq] at hbelow
      obtain ⟨⟨rest, hrest⟩, hslash⟩ := hbelow
      rw [← Option.some.inj h, ← hrest, List.drop_left]
      refine .below hroot rfl (Or.inr ?_)
      rw [← hrest, List.getElem?_append_right (Nat.le_refl _), Nat.sub_self] at hslash
      rw [List.head?_eq_getElem?]
      exact hslash
    · rw [← Option.some.inj h]
      refine .namespaceRoot hnamespace ?_
      rintro ⟨rest, hrest⟩
      -- A prefix of the root is empty or the root, and both were handled before.
      cases mountRoot with
      | nil =>
          rw [hnamespace] at hbelow
          exact hbelow rfl
      | cons c mountRoot =>
          rw [hnamespace] at hrest
          obtain ⟨hc, htail⟩ := List.cons.inj hrest
          obtain ⟨rfl, -⟩ := List.append_eq_nil_iff.mp htail
          exact hroot (by rw [hc]; rfl)
  · intro h
    cases h with
    | root => exact if_pos rfl
    | @below _ _ hroot hgroup hsuffix =>
        rw [if_neg hroot]
        rcases hsuffix with rfl | hslash
        · rw [if_pos (by rw [hgroup, List.append_nil])]
        · obtain ⟨rest, rfl⟩ := List.head?_eq_some_iff.mp hslash
          have hne : group ≠ mountRoot := by
            intro heq
            have hlength := congrArg List.length (heq.symm.trans hgroup)
            simp at hlength
          rw [if_neg hne, if_pos, hgroup, List.drop_left]
          rw [Bool.and_eq_true, List.isPrefixOf_iff_prefix, beq_iff_eq, hgroup]
          exact ⟨⟨_, rfl⟩, by rw [List.getElem?_append_right (Nat.le_refl _), Nat.sub_self]; rfl⟩
    | namespaceRoot hgroup hbefore =>
        have hroot : mountRoot ≠ ascii "/" := by
          rintro rfl
          exact hbefore ⟨[], by rw [hgroup]; rfl⟩
        have hne : group ≠ mountRoot := by
          rintro rfl
          exact hbefore List.prefix_rfl
        rw [if_neg hroot, if_neg hne, if_neg, if_pos hgroup]
        rw [Bool.and_eq_true, List.isPrefixOf_iff_prefix]
        exact fun h => hbefore h.1

/-- A group of one hierarchy: the group of the process or an ancestor, below one of its mounts. -/
def Mounted (mounts group : Bytes) (controller : Controller) (path : Bytes) : Prop :=
  ∃ line ∈ lines mounts, ∃ mountRoot mount suffix,
    Mounts controller line mountRoot mount ∧ Below group mountRoot suffix ∧
    Ancestor (trimSlash mount) (trimSlash (trimSlash mount ++ suffix)) path

/-- A group whose limits bind the process. -/
def Visited (memberships mounts : Bytes) (controller : Controller) (path : Bytes) : Prop :=
  ∃ line ∈ lines memberships, ∃ hierarchy controllers group,
    Member line hierarchy controllers group ∧ Serves hierarchy controllers controller ∧
    Mounted mounts group controller path

theorem mem_findings {host : Host} {controller : Controller} {paths : List Bytes}
    {found : List Finding} (h : findings host controller paths = .ok found) {finding : Finding} :
    finding ∈ found ↔ ∃ path ∈ paths, States host path controller finding := by
  rw [Effects.mem_collect h]
  refine exists_congr fun path => and_congr_right fun hmem => ?_
  obtain ⟨said, hsaid⟩ := Effects.collect_ok_iff.mp ⟨found, h⟩ path hmem
  exact (Effects.exists_ok_iff hsaid).trans (mem_groupFindings hsaid)

theorem mem_mountFindings {host : Host} {group : Bytes} (hgroup : validAbsolutePath group = true)
    {controller : Controller} {line : Bytes} {found : List (Option Finding)}
    (h : mountFindings host group controller line = .ok found) {finding : Finding} :
    some finding ∈ found ↔ ∃ mountRoot mount suffix,
      Mounts controller line mountRoot mount ∧ suffixOf group mountRoot = some suffix ∧
      ∃ path, Ancestor (trimSlash mount) (trimSlash (trimSlash mount ++ suffix)) path ∧
        States host path controller finding := by
  unfold mountFindings at h
  cases hmount : mountOf controller line with
  | error stop =>
      rw [hmount] at h
      cases h
  | ok place =>
      have hplace := mountOf_ok hmount
      rw [hmount] at h
      simp only [bind, Except.bind, pure, Except.pure] at h
      rcases place with _ | ⟨mountRoot, mount⟩
      · obtain rfl := Except.ok.inj h
        refine iff_of_false List.not_mem_nil ?_
        rintro ⟨mountRoot, mount, -, hmounts, -⟩
        cases (hplace mountRoot mount).mpr hmounts
      · dsimp only at h
        cases hsuffix : suffixOf group mountRoot with
        | none =>
            rw [hsuffix] at h
            obtain rfl := Except.ok.inj h
            refine iff_of_false List.not_mem_nil ?_
            rintro ⟨_, _, _, hmounts, hsome, -⟩
            obtain ⟨rfl, rfl⟩ := Prod.mk.inj (Option.some.inj ((hplace _ _).mpr hmounts))
            rw [hsuffix] at hsome
            cases hsome
        | some suffix =>
            rw [hsuffix] at h
            dsimp only at h
            cases hpath : groupPath mount suffix with
            | error stop =>
                rw [hpath] at h
                cases h
            | ok path =>
                rw [hpath] at h
                dsimp only at h
                have hbelow := groupPath_below (suffixOf_slash hgroup hsuffix) hpath
                have htrim : path = trimSlash (trimSlash mount ++ suffix) := by
                  unfold groupPath at hpath
                  split_ifs at hpath
                  · cases hpath
                  · exact (Except.ok.inj hpath).symm
                split_ifs at h
                · cases h
                cases hfound : findings host controller
                    (ancestors (trimSlash mount).length (path.length + 1) path) with
                | error stop =>
                    rw [hfound] at h
                    cases h
                | ok said =>
                    rw [hfound] at h
                    obtain rfl := Except.ok.inj h
                    have hmem : some finding ∈ none :: said.map some ↔ finding ∈ said := by simp
                    rw [hmem, mem_findings hfound]
                    simp only [mem_ancestors hbelow (Nat.lt_succ_self _)]
                    constructor
                    · rintro ⟨ancestor, hancestor, hstates⟩
                      exact ⟨mountRoot, mount, suffix, (hplace _ _).mp rfl, hsuffix, ancestor,
                        htrim ▸ hancestor, hstates⟩
                    · rintro ⟨_, _, _, hmounts, hsome, ancestor, hancestor, hstates⟩
                      obtain ⟨rfl, rfl⟩ := Prod.mk.inj (Option.some.inj ((hplace _ _).mpr hmounts))
                      obtain rfl := Option.some.inj (hsuffix.symm.trans hsome)
                      exact ⟨ancestor, htrim.symm ▸ hancestor, hstates⟩

theorem hierarchyFindings_ok {host : Host} {mounts group : Bytes} {controller : Controller}
    {found : List Finding} (h : hierarchyFindings host mounts group controller = .ok found) :
    ∃ marked, Effects.collect (mountFindings host group controller) (lines mounts) = .ok marked ∧
      none ∈ marked ∧ found = marked.reduceOption := by
  unfold hierarchyFindings at h
  cases hcollect : Effects.collect (mountFindings host group controller) (lines mounts) with
  | error stop =>
      rw [hcollect] at h
      cases h
  | ok marked =>
      rw [hcollect] at h
      simp only [bind, Except.bind, pure, Except.pure] at h
      split_ifs at h with hfound
      · exact ⟨marked, rfl, List.contains_iff_mem.mp hfound, (Except.ok.inj h).symm⟩
      · cases h

theorem mem_hierarchyFindings {host : Host} {mounts group : Bytes}
    (hgroup : validAbsolutePath group = true) {controller : Controller} {found : List Finding}
    (h : hierarchyFindings host mounts group controller = .ok found) {finding : Finding} :
    finding ∈ found ↔ ∃ path, Mounted mounts group controller path ∧
      States host path controller finding := by
  obtain ⟨marked, hcollect, -, rfl⟩ := hierarchyFindings_ok h
  rw [List.reduceOption_mem_iff, Effects.mem_collect hcollect]
  constructor
  · rintro ⟨line, hline, said, hsaid, hmem⟩
    obtain ⟨mountRoot, mount, suffix, hmount, hsuffix, path, hancestor, hstates⟩ :=
      (mem_mountFindings hgroup hsaid).mp hmem
    exact ⟨path, ⟨line, hline, mountRoot, mount, suffix, hmount, suffixOf_iff.mp hsuffix, hancestor⟩,
      hstates⟩
  · rintro ⟨path, ⟨line, hline, mountRoot, mount, suffix, hmount, hsuffix, hancestor⟩, hstates⟩
    obtain ⟨said, hsaid⟩ := Effects.collect_ok_iff.mp ⟨marked, hcollect⟩ line hline
    exact ⟨line, hline, said, hsaid, (mem_mountFindings hgroup hsaid).mpr
      ⟨mountRoot, mount, suffix, hmount, suffixOf_iff.mpr hsuffix, path, hancestor, hstates⟩⟩

theorem membershipFindings_ok {host : Host} {mounts line : Bytes} {found : List Finding} :
    membershipFindings host mounts line = .ok found ↔ ∃ hierarchy controllers group said,
      membership line = .ok (hierarchy, controllers, group) ∧ validAbsolutePath group = true ∧
      Effects.collect (hierarchyFindings host mounts group) (listed hierarchy controllers) =
        .ok said ∧
      found = .hierarchy (hierarchy = ascii "0" ∧ controllers = []) :: said := by
  unfold membershipFindings
  rcases membership line with stop | ⟨hierarchy, controllers, group⟩
  · exact ⟨nofun, fun ⟨_, _, _, _, h, _⟩ => by cases h⟩
  · simp only [bind, Except.bind, pure, Except.pure]
    cases hvalid : validAbsolutePath group with
    | false =>
        refine iff_of_false nofun ?_
        rintro ⟨_, _, _, _, heq, hgroup, -⟩
        obtain ⟨-, hgroups⟩ := Prod.mk.inj (Except.ok.inj heq)
        rw [(Prod.mk.inj hgroups).2, hgroup] at hvalid
        cases hvalid
    | true =>
        rw [if_neg (by decide)]
        constructor
        · intro h
          cases hcollect : Effects.collect (hierarchyFindings host mounts group)
              (listed hierarchy controllers) with
          | error stop =>
              rw [hcollect] at h
              cases h
          | ok said =>
              rw [hcollect] at h
              exact ⟨_, _, _, said, rfl, hvalid, hcollect, (Except.ok.inj h).symm⟩
        · rintro ⟨_, _, _, said, heq, -, hcollect, rfl⟩
          obtain ⟨rfl, hrest⟩ := Prod.mk.inj (Except.ok.inj heq)
          obtain ⟨rfl, rfl⟩ := Prod.mk.inj hrest
          rw [hcollect]

/-- The findings of both files are what the visited groups say. -/
theorem mem_allFindings {host : Host} {memberships mounts : Bytes} {found : List Finding}
    (h : allFindings host memberships mounts = .ok found) {finding : Finding}
    (hlimit : ∀ unified, finding ≠ .hierarchy unified) :
    finding ∈ found ↔ ∃ controller path, Visited memberships mounts controller path ∧
      States host path controller finding := by
  rw [Effects.mem_collect h]
  constructor
  · rintro ⟨line, hline, added, hadded, hmem⟩
    obtain ⟨hierarchy, controllers, group, said, hmember, hvalid, hcollect, rfl⟩ :=
      membershipFindings_ok.mp hadded
    rcases List.mem_cons.mp hmem with heq | hmem
    · exact absurd heq (hlimit _)
    · obtain ⟨controller, hcontroller, one, hone, hmem⟩ := (Effects.mem_collect hcollect).mp hmem
      obtain ⟨path, hmounted, hstates⟩ := (mem_hierarchyFindings hvalid hone).mp hmem
      have hne : group ≠ [] := by
        rintro rfl
        cases hvalid
      exact ⟨controller, path, ⟨line, hline, hierarchy, controllers, group,
        membership_ok hne hmember, mem_listed.mp hcontroller, hmounted⟩, hstates⟩
  · rintro ⟨controller, path, ⟨line, hline, hierarchy, controllers, group, hmember, hcontroller,
      hmounted⟩, hstates⟩
    obtain ⟨added, hadded⟩ := Effects.collect_ok_iff.mp ⟨found, h⟩ line hline
    refine ⟨line, hline, added, hadded, ?_⟩
    obtain ⟨hierarchy', controllers', group', said, hmember', hvalid, hcollect, rfl⟩ :=
      membershipFindings_ok.mp hadded
    obtain ⟨rfl, hrest⟩ := Prod.mk.inj (Except.ok.inj (hmember.membership.symm.trans hmember'))
    obtain ⟨rfl, rfl⟩ := Prod.mk.inj hrest
    have hcontroller := mem_listed.mpr hcontroller
    obtain ⟨one, hone⟩ := Effects.collect_ok_iff.mp ⟨said, hcollect⟩ controller hcontroller
    exact List.mem_cons_of_mem _ ((Effects.mem_collect hcollect).mpr
      ⟨controller, hcontroller, one, hone, (mem_hierarchyFindings hvalid hone).mpr
        ⟨path, hmounted, hstates⟩⟩)

/-- Neither the order of the memberships nor that of the mounts changes what is found. -/
theorem allFindings_perm {host : Host} {memberships memberships' mounts mounts' : Bytes}
    (hmemberships : (lines memberships).Perm (lines memberships'))
    (hmounts : (lines mounts).Perm (lines mounts')) {found : List Finding}
    (h : allFindings host memberships mounts = .ok found) :
    ∃ found', allFindings host memberships' mounts' = .ok found' ∧
      ∀ finding, finding ∈ found ↔ finding ∈ found' := by
  have hhierarchy : ∀ group controller said,
      hierarchyFindings host mounts group controller = .ok said →
      ∃ said', hierarchyFindings host mounts' group controller = .ok said' ∧
        ∀ finding, finding ∈ said ↔ finding ∈ said' := by
    intro group controller said hsaid
    obtain ⟨marked, hcollect, hfound, rfl⟩ := hierarchyFindings_ok hsaid
    obtain ⟨marked', hcollect', hmem⟩ := Effects.collect_perm hmounts hcollect
    refine ⟨marked'.reduceOption, ?_, fun finding => ?_⟩
    · unfold hierarchyFindings
      rw [hcollect']
      exact if_pos (List.contains_iff_mem.mpr ((hmem none).mp hfound))
    · rw [List.reduceOption_mem_iff, List.reduceOption_mem_iff, hmem]
  have hline : ∀ line said, membershipFindings host mounts line = .ok said →
      ∃ said', membershipFindings host mounts' line = .ok said' ∧
        ∀ finding, finding ∈ said ↔ finding ∈ said' := by
    intro line added hadded
    obtain ⟨hierarchy, controllers, group, said, hmember, hvalid, hcollect, rfl⟩ :=
      membershipFindings_ok.mp hadded
    obtain ⟨said', hcollect', hmem⟩ := Effects.collect_congr (hhierarchy group) hcollect
    refine ⟨_, membershipFindings_ok.mpr
      ⟨hierarchy, controllers, group, said', hmember, hvalid, hcollect', rfl⟩, fun finding => ?_⟩
    rw [List.mem_cons, List.mem_cons, hmem]
  obtain ⟨found', hfound', hmem⟩ := Effects.collect_congr hline h
  obtain ⟨found'', hfound'', hmem'⟩ := Effects.collect_perm hmemberships hfound'
  exact ⟨found'', hfound'', fun finding => (hmem finding).trans (hmem' finding)⟩

end Zhtps.Discovery
