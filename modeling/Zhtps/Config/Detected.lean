import Zhtps.Config.Tightest

/-!
The result of `read`: every loop ends, and the limits are the tightest ones.
-/

namespace Zhtps.Discovery

open Lib

/-! ### Every loop ends -/

/-- No loop runs out of its turns. -/
def Ends {α : Type} (x : Checked α) : Prop := x ≠ .error .unfinished

section ends

variable {α β : Type}

theorem Ends.ok (a : α) : Ends (.ok a : Checked α) := nofun

theorem Ends.fail (error : Error) : Ends (fail error : Checked α) := nofun

theorem Ends.trap : Ends (.error .trap : Checked α) := nofun

theorem Ends.bind {x : Checked α} {f : α → Checked β} (hx : Ends x) (hf : ∀ a, Ends (f a)) :
    Ends (x >>= f) := by
  cases x with
  | error stop => exact fun h => hx (congrArg Except.error (Except.error.inj h))
  | ok a => exact hf a

theorem Ends.map {x : Checked α} (hx : Ends x) (f : α → β) : Ends (x.map f) := by
  cases x with
  | error stop => exact fun h => hx (congrArg Except.error (Except.error.inj h))
  | ok a => exact Ends.ok _

theorem Ends.foldlM {f : β → α → Checked β} (hf : ∀ b a, Ends (f b a)) (items : List α) (b : β) :
    Ends (items.foldlM f b) := by
  induction items generalizing b with
  | nil => exact Ends.ok b
  | cons item items ih =>
      rw [List.foldlM_cons]
      exact (hf b item).bind ih

theorem Ends.collect {find : α → Checked (List β)} (hfind : ∀ item, Ends (find item))
    (items : List α) : Ends (Effects.collect find items) := by
  induction items with
  | nil => exact Ends.ok _
  | cons item items ih =>
      rw [Effects.collect]
      have hitem := hfind item
      cases hfound : find item with
      | error stop =>
          rw [hfound] at hitem
          exact fun h => hitem (congrArg Except.error (Except.error.inj h))
      | ok found =>
          cases hrest : Effects.collect find items with
          | error stop =>
              rw [hrest] at ih
              exact fun h => ih (congrArg Except.error (Except.error.inj h))
          | ok rest => exact Ends.ok _

theorem readOptional_ends (host : Host) (path : Bytes) (size : Nat) :
    Ends (readOptional host path size) := by
  unfold readOptional
  split
  · exact .ok _
  · exact .fail _
  · split_ifs
    · exact .fail _
    · exact .ok _

theorem groupFile_ends (host : Host) (group name : Bytes) : Ends (groupFile host group name) := by
  unfold groupFile
  dsimp only
  split_ifs
  · exact .fail _
  · exact readOptional_ends _ _ _

theorem required_ends {file : Checked (Option Bytes)} (h : Ends file) : Ends (required file) := by
  rcases file with stop | _ | text
  · exact fun heq => h (congrArg Except.error (Except.error.inj heq))
  · exact .fail _
  · exact .ok _

theorem number_ends (text : Bytes) : Ends (number text) := by
  unfold number
  split_ifs
  · exact .fail _
  · split
    · exact .fail _
    · exact .ok _

theorem cpuRange_ends (set : Config.CpuSet 1024) (part : Bytes) : Ends (cpuRange set part) := by
  unfold cpuRange
  split
  · exact .trap
  · refine (number_ends _).bind fun first => Ends.bind ?_ fun last => ?_
    · unfold rangeEnd
      split
      · exact .ok _
      · exact number_ends _
    · split_ifs
      · exact .fail _
      · exact .fail _
      · exact .ok _

theorem cpuList_ends (text : Bytes) : Ends (cpuList text) := .foldlM cpuRange_ends _ _

theorem unescape_ends (room : Nat) (text : Bytes) : Ends (unescape room text) := by
  fun_induction unescape room text with
  | case1 => exact .ok _
  | case2 => exact .fail _
  | case3 => exact .fail _
  | case4 room a b c rest byte hbyte ih => exact ih.map _
  | case5 => exact .fail _
  | case6 room c rest hescape hplain ih => exact ih.map _

theorem quotaMillis_ends (quota period : Nat) : Ends (quotaMillis quota period) := by
  unfold quotaMillis
  split_ifs
  · exact .fail _
  · exact .ok _

theorem readQuota_ends (host : Host) (group : Bytes) (controller : Controller) :
    Ends (readQuota host group controller) := by
  cases controller with
  | unified =>
      refine (groupFile_ends _ _ _).bind fun file => ?_
      rcases file with _ | text
      · exact .ok _
      dsimp only
      split
      · exact .fail _
      · exact .fail _
      refine (number_ends _).bind fun period => ?_
      split_ifs
      · exact .fail _
      · exact .ok _
      exact (number_ends _).bind fun quota => quotaMillis_ends _ _
  | cpu =>
      refine (groupFile_ends _ _ _).bind fun file => ?_
      rcases file with _ | text
      · exact .ok _
      dsimp only
      split_ifs
      · exact .ok _
      refine (number_ends _).bind fun quota => ?_
      refine (required_ends (groupFile_ends _ _ _)).bind fun text => ?_
      exact (number_ends _).bind fun period => quotaMillis_ends _ _
  | memory | cpuset | pids => exact .ok _

theorem readMemory_ends (host : Host) (group : Bytes) (controller : Controller) :
    Ends (readMemory host group controller) := by
  refine .collect (fun file => ?_) _
  refine (groupFile_ends _ _ _).bind fun text => ?_
  rcases text with _ | text
  · exact .ok _
  dsimp only
  split_ifs
  · exact .ok _
  refine (number_ends _).bind fun limit => ?_
  refine (required_ends (groupFile_ends _ _ _)).bind fun text => ?_
  exact (number_ends _).bind fun usage => .ok _

theorem readCpuset_ends (host : Host) (group : Bytes) (controller : Controller) :
    Ends (readCpuset host group controller) := by
  unfold readCpuset
  split
  · exact .ok _
  · refine Ends.bind ?_ fun text => ?_
    · refine (groupFile_ends _ _ _).bind fun file => ?_
      rcases file with _ | text
      · exact groupFile_ends _ _ _
      · exact .ok _
    · rcases text with _ | cpus
      · exact .ok _
      dsimp only
      split_ifs
      · exact .ok _
      · exact (cpuList_ends _).bind fun set => .ok _

theorem readPids_ends (host : Host) (group : Bytes) (controller : Controller) :
    Ends (readPids host group controller) := by
  unfold readPids
  split_ifs
  · refine (groupFile_ends _ _ _).bind fun file => ?_
    rcases file with _ | text
    · exact .ok _
    dsimp only
    split_ifs
    · exact .ok _
    refine (number_ends _).bind fun limit => ?_
    refine (required_ends (groupFile_ends _ _ _)).bind fun text => ?_
    exact (number_ends _).bind fun current => .ok _
  · exact .ok _

theorem groupFindings_ends (host : Host) (group : Bytes) (controller : Controller) :
    Ends (groupFindings host group controller) :=
  (readQuota_ends _ _ _).bind fun _ => (readMemory_ends _ _ _).bind fun _ =>
    (readCpuset_ends _ _ _).bind fun _ => (readPids_ends _ _ _).bind fun _ => .ok _

theorem mountOf_ends (controller : Controller) (line : Bytes) : Ends (mountOf controller line) := by
  unfold mountOf
  split
  · exact .fail _
  · split
    · split_ifs
      · exact .ok _
      · exact .ok _
      · split
        · refine (unescape_ends _ _).bind fun mountRoot => ?_
          split
          · exact .fail _
          · refine (unescape_ends _ _).bind fun mount => ?_
            split_ifs
            · exact .fail _
            · exact .ok _
        · exact .fail _
    · exact .fail _

theorem mountFindings_ends (host : Host) (group : Bytes) (controller : Controller) (line : Bytes) :
    Ends (mountFindings host group controller line) := by
  refine (mountOf_ends _ _).bind fun place => ?_
  rcases place with _ | ⟨mountRoot, mount⟩
  · exact .ok _
  dsimp only
  split
  · exact .ok _
  · refine Ends.bind ?_ fun path => ?_
    · unfold groupPath
      split_ifs
      · exact .fail _
      · exact .ok _
    · split_ifs
      · exact .fail _
      · exact Ends.bind (.collect (fun path => groupFindings_ends _ _ _) _) fun _ => .ok _

theorem hierarchyFindings_ends (host : Host) (mounts group : Bytes) (controller : Controller) :
    Ends (hierarchyFindings host mounts group controller) := by
  refine Ends.bind (.collect (mountFindings_ends host group controller) _) fun found => ?_
  split_ifs
  · exact .ok _
  · exact .fail _

theorem membership_ends (line : Bytes) : Ends (membership line) := by
  unfold membership
  split
  · exact .fail _
  · dsimp only
    split
    · exact .ok _
    · exact .ok _

theorem membershipFindings_ends (host : Host) (mounts line : Bytes) :
    Ends (membershipFindings host mounts line) := by
  refine (membership_ends line).bind fun fields => ?_
  dsimp only
  split_ifs
  · exact .fail _
  · exact Ends.bind (.collect (hierarchyFindings_ends host mounts _) _) fun _ => .ok _

theorem meminfoBytes_ends (text key : Bytes) : Ends (meminfoBytes text key) := by
  unfold meminfoBytes
  induction Mem.tokenizeScalar 0x0a text with
  | nil => exact .fail _
  | cons line lines ih =>
      rw [meminfoLines]
      split
      · exact .trap
      · split_ifs
        · exact ih
        · split
          · refine (number_ends _).bind fun amount => ?_
            split_ifs
            · exact .fail _
            · exact .ok _
            · exact .fail _
          · exact .fail _

theorem coresLoop_ends (host : Host) (allowed : Config.CpuSet 1024) (cpus : List (Fin 1024))
    (seen cores : Config.CpuSet 1024) : Ends (coresLoop host allowed cpus seen cores) := by
  induction cpus generalizing seen cores with
  | nil => exact .ok _
  | cons cpu cpus ih =>
      rw [coresLoop]
      split_ifs
      · exact ih _ _
      · refine (readOptional_ends _ _ _).bind fun file => ?_
        rcases file with _ | text
        · exact .ok _
        · refine (cpuList_ends _).bind fun siblings => ?_
          split_ifs
          · exact .fail _
          · exact ih _ _

theorem readCores_ends (host : Host) (resources : Resources) : Ends (readCores host resources) := by
  refine (coresLoop_ends _ _ _ _ _).bind fun cores => ?_
  rcases cores with _ | cores
  · dsimp only
    split
    · exact .trap
    · exact .ok _
  · exact .ok _

theorem finishLimits_ends (host : Host) (resources : Resources) :
    Ends (finishLimits host resources) := by
  unfold finishLimits
  dsimp only
  split_ifs
  · exact .fail _
  · refine (readCores_ends _ _).bind fun resources => ?_
    split
    · exact .ok _
    · exact .fail _
    · exact .ok _

theorem ownFile_ends (host : Host) (name : Bytes) (size : Nat) : Ends (ownFile host name size) := by
  refine (readOptional_ends _ _ _).bind fun file => ?_
  rcases file with _ | text
  · exact required_ends (readOptional_ends _ _ _)
  · exact .ok _

/-- Every loop of `read` ends within the turns that the lengths of the texts allow. -/
theorem read_ends (host : Host) (allowed : Config.CpuSet 1024) (nofile : Nat) :
    Ends (read host allowed nofile) := by
  refine Ends.bind ?_ fun resources => (ownFile_ends _ _ _).bind fun memberships =>
    (ownFile_ends _ _ _).bind fun mounts => Ends.bind ?_ fun resources => finishLimits_ends _ _
  · refine (required_ends (readOptional_ends _ _ _)).bind fun meminfo => ?_
    exact (meminfoBytes_ends _ _).bind fun total => (meminfoBytes_ends _ _).bind fun _ => .ok _
  · rw [readMemberships_eq]
    exact Ends.map (.collect (membershipFindings_ends host mounts) _) _

end ends

/-! ### The result -/

theorem readCores_ok {host : Host} {resources result : Resources}
    (h : readCores host resources = .ok result) : SameLimits resources result := by
  obtain ⟨cores, -, h⟩ := bind_ok.mp h
  rcases cores with _ | cores
  · dsimp only at h
    split at h
    · cases h
    · obtain rfl := Except.ok.inj h
      exact ⟨rfl, rfl, rfl, rfl, rfl⟩
  · obtain rfl := Except.ok.inj h
    exact ⟨rfl, rfl, rfl, rfl, rfl⟩

theorem finishLimits_ok {host : Host} {resources result : Resources}
    (h : finishLimits host resources = .ok result) : SameLimits resources result := by
  unfold finishLimits at h
  dsimp only at h
  split_ifs at h
  · cases h
  · obtain ⟨counted, hcores, h⟩ := bind_ok.mp h
    obtain ⟨hlimit, havailable, hquota, hthreads, hallowed⟩ := readCores_ok hcores
    split at h
    · obtain rfl := Except.ok.inj h
      exact ⟨hlimit, havailable, hquota, hthreads, hallowed⟩
    · cases h
    · obtain rfl := Except.ok.inj h
      exact ⟨hlimit, havailable, hquota, hthreads, hallowed⟩

/-- What is read of the cores depends on the allowed CPUs alone. -/
theorem readCores_congr {host : Host} {a b result : Resources} (hallowed : a.allowed = b.allowed)
    (hcores : a.cores = b.cores) (h : readCores host a = .ok result) :
    ∃ result', readCores host b = .ok result' := by
  obtain ⟨cores, hloop, h⟩ := bind_ok.mp h
  rw [hallowed, hcores] at hloop
  rcases cores with _ | cores
  · dsimp only at h
    split at h
    · cases h
    · rename_i cpu hfirst
      rw [hallowed] at hfirst
      refine ⟨{ b with cores := fun other => other = cpu, physicalCores := 1 },
        bind_ok.mpr ⟨none, hloop, ?_⟩⟩
      dsimp only
      rw [hfirst]
      rfl
  · exact ⟨_, bind_ok.mpr ⟨some cores, hloop, rfl⟩⟩

theorem finishLimits_congr {host : Host} {a b result : Resources} (hallowed : a.allowed = b.allowed)
    (hcores : a.cores = b.cores) (h : finishLimits host a = .ok result) :
    ∃ result', finishLimits host b = .ok result' := by
  have hcount : count a.allowed = count b.allowed := congrArg count hallowed
  unfold finishLimits at h ⊢
  dsimp only at h ⊢
  by_cases hzero : count a.allowed = 0
  · rw [if_pos hzero] at h
    cases h
  · rw [if_neg hzero] at h
    rw [if_neg (hcount ▸ hzero)]
    obtain ⟨counted, hcounted, h⟩ := bind_ok.mp h
    obtain ⟨counted', hcounted'⟩ := @readCores_congr host
      { a with allowedCpus := count a.allowed } { b with allowedCpus := count b.allowed } _ hallowed
      hcores hcounted
    split at h
    · exact ⟨_, bind_ok.mpr ⟨counted', hcounted', rfl⟩⟩
    · cases h
    · exact ⟨_, bind_ok.mpr ⟨counted', hcounted', rfl⟩⟩

theorem readLimits_limited {host : Host} {memberships mounts : Bytes} {base resources : Resources}
    (hquota : base.cpuQuotaMillis = none) (hthreads : base.availableThreads = none)
    (h : readLimits host memberships mounts base = .ok resources) :
    Limited host memberships mounts base resources := by
  obtain ⟨limited, hlimited, hfinish⟩ := bind_ok.mp h
  rw [readMemberships_eq] at hlimited
  cases hfound : allFindings host memberships mounts with
  | error stop =>
      rw [hfound] at hlimited
      cases hlimited
  | ok found =>
      rw [hfound] at hlimited
      obtain rfl := Except.ok.inj hlimited
      exact (applyAll_limited hfound hquota hthreads).same (finishLimits_ok hfinish)

/-- Other orders of the lines succeed as well. -/
theorem readLimits_perm {host : Host} {memberships memberships' mounts mounts' : Bytes}
    (hmemberships : (lines memberships).Perm (lines memberships'))
    (hmounts : (lines mounts).Perm (lines mounts')) {base resources : Resources}
    (h : readLimits host memberships mounts base = .ok resources) :
    ∃ resources', readLimits host memberships' mounts' base = .ok resources' := by
  obtain ⟨limited, hlimited, hfinish⟩ := bind_ok.mp h
  rw [readMemberships_eq] at hlimited
  cases hfound : allFindings host memberships mounts with
  | error stop =>
      rw [hfound] at hlimited
      cases hlimited
  | ok found =>
      rw [hfound] at hlimited
      obtain rfl := Except.ok.inj hlimited
      obtain ⟨found', hfound', hmem⟩ := allFindings_perm hmemberships hmounts hfound
      have hallowed : (base.applyAll found).allowed = (base.applyAll found').allowed := by
        funext cpu
        rw [Bool.eq_iff_iff, applyAll_allowed, applyAll_allowed]
        simp only [hmem]
      obtain ⟨resources', hresources'⟩ := finishLimits_congr hallowed
        (by rw [applyAll_cores, applyAll_cores]) hfinish
      refine ⟨resources', bind_ok.mpr ⟨base.applyAll found', ?_, hresources'⟩⟩
      rw [readMemberships_eq, hfound']
      rfl

/-- Discovery ends, and its limits are the tightest of the host and of the groups of the process and
their ancestors below every mount, in whatever order the lines of the two files come. -/
theorem read_limited {host : Host} {allowed : Config.CpuSet 1024} {nofile : Nat}
    {resources : Resources} (h : read host allowed nofile = .ok resources) :
    (∀ host allowed nofile, read host allowed nofile ≠ .error .unfinished) ∧
    ∃ base memberships mounts, Hosted host allowed base ∧ Own host (ascii "cgroup") memberships ∧
      Own host (ascii "mountinfo") mounts ∧ readHost host allowed nofile = .ok base ∧
      ownFile host (ascii "cgroup") (64 * 1024) = .ok memberships ∧
      ownFile host (ascii "mountinfo") (1024 * 1024) = .ok mounts ∧
      Limited host memberships mounts base resources ∧
      ∀ memberships' mounts', (lines memberships).Perm (lines memberships') →
        (lines mounts).Perm (lines mounts') →
        ∃ resources', readLimits host memberships' mounts' base = .ok resources' ∧
          SameLimits resources resources' := by
  refine ⟨fun host allowed nofile => read_ends host allowed nofile, ?_⟩
  obtain ⟨base, hbase, h⟩ := bind_ok.mp h
  obtain ⟨memberships, hmemberships, h⟩ := bind_ok.mp h
  obtain ⟨mounts, hmounts, h⟩ := bind_ok.mp h
  have hhost := readHost_ok hbase
  have hlimited := readLimits_limited hhost.quota hhost.threads h
  refine ⟨base, memberships, mounts, hhost, ownFile_ok hmemberships, ownFile_ok hmounts, hbase,
    hmemberships, hmounts, hlimited, ?_⟩
  intro memberships' mounts' hperm hperm'
  obtain ⟨resources', h'⟩ := readLimits_perm hperm hperm' h
  have hlimited' := readLimits_limited hhost.quota hhost.threads h'
  exact ⟨resources', h', (hlimited.perm hperm hperm').unique hlimited'⟩

/-- The files of a table, and no others. -/
def tree (table : List (String × String)) (path : Bytes) : File :=
  match table.find? fun entry => ascii entry.1 == path with
  | none => .missing
  | some entry => .text (ascii entry.2)

/-- The table by its bytes, which are evaluated once. -/
theorem tree_bytes (table : List (String × String)) :
    tree table = fun path =>
      match (table.map fun entry => (ascii entry.1, ascii entry.2)).find? fun entry =>
          entry.1 == path with
      | none => .missing
      | some entry => .text entry.2 := by
  funext path
  unfold tree
  rw [List.find?_map]
  show _ = match (table.find? fun entry => ascii entry.1 == path).map fun entry =>
      (ascii entry.1, ascii entry.2) with
    | none => File.missing
    | some entry => .text entry.2
  cases table.find? fun entry => ascii entry.1 == path with
  | none => rfl
  | some entry => rfl

/-- A host with one CPU whose control groups have some files. -/
def fixtureHost (memberships mounts : String) (control : List (String × String)) : Host where
  file := tree ([("proc/self/cgroup", memberships), ("proc/self/mountinfo", mounts),
    ("proc/meminfo", "MemTotal: 8388608 kB\nMemAvailable: 6291456 kB\n"),
    ("sys/devices/system/cpu/cpu0/topology/thread_siblings_list", "0\n")] ++ control)

def fixtureCpu : Config.CpuSet 1024 := fun cpu => cpu == 0

/-- Limits of the group, of its parent and of the root of the mount. -/
def parentLimit : List (String × String) :=
  [("cg/tenant/memory.high", "805306368\n"), ("cg/tenant/memory.current", "134217728\n"),
    ("cg/tenant/cpu.max", "150000 100000\n"), ("cg/tenant/service/cpu.max", "max 100000\n"),
    ("cg/tenant/service/pids.max", "100\n"), ("cg/tenant/service/pids.current", "40\n"),
    ("cg/cpuset.cpus.effective", "0-3\n")]

theorem read_limited_parent :
    ∃ resources base, resources.memoryLimitBytes = 805306368 ∧
      resources.cpuQuotaMillis = some 1500 ∧ resources.availableThreads = some 60 ∧
      base.memoryLimitBytes = 8589934592 ∧
      Limited (fixtureHost "0::/tenant/service\n" "1 0 0:1 / /cg rw - cgroup2 cgroup rw\n" parentLimit)
        (ascii "0::/tenant/service") (ascii "1 0 0:1 / /cg rw - cgroup2 cgroup rw") base
        resources := by
  let host := fixtureHost "0::/tenant/service\n" "1 0 0:1 / /cg rw - cgroup2 cgroup rw\n" parentLimit
  have hlimit : (read host fixtureCpu 512).toOption.map (fun resources =>
      (resources.memoryLimitBytes, resources.cpuQuotaMillis, resources.availableThreads)) =
      some (805306368, some 1500, some 60) := by
    simp only [host, fixtureHost, tree_bytes, List.cons_append, List.nil_append, List.map_cons,
      List.map_nil, ascii, String.reduceToList, parentLimit]
    decide +kernel
  cases hread : read host fixtureCpu 512 with
  | error stop =>
      rw [hread] at hlimit
      cases hlimit
  | ok resources =>
      rw [hread] at hlimit
      obtain ⟨-, base, memberships, mounts, -, -, -, hbase, hmemberships, hmounts, hlimited, -⟩ :=
        read_limited hread
      have htotal : (readHost host fixtureCpu 512).toOption.map (·.memoryLimitBytes) =
          some 8589934592 := by
        simp only [host, fixtureHost, tree_bytes, List.cons_append, List.nil_append, List.map_cons,
          List.map_nil, ascii, String.reduceToList, parentLimit]
        decide +kernel
      rw [hbase] at htotal
      have hfirst : ownFile host (ascii "cgroup") (64 * 1024) = .ok (ascii "0::/tenant/service") := by
        rfl
      have hsecond : ownFile host (ascii "mountinfo") (1024 * 1024) =
          .ok (ascii "1 0 0:1 / /cg rw - cgroup2 cgroup rw") := by rfl
      obtain rfl := Except.ok.inj (hfirst.symm.trans hmemberships)
      obtain rfl := Except.ok.inj (hsecond.symm.trans hmounts)
      obtain ⟨hmemory, hrest⟩ := Prod.mk.inj (Option.some.inj hlimit)
      obtain ⟨hquota, hthreads⟩ := Prod.mk.inj hrest
      exact ⟨resources, base, hmemory, hquota, hthreads, Option.some.inj htotal, hlimited⟩

def blankMounts : String :=
  "1 0 0:1 / /cg rw - cgroup2 cgroup rw\n2 0 0:2 / /pd rw - cgroup cgroup rw,pids\n"

def blankLimit : List (String × String) :=
  [("cg/a /memory.max", "1000\n"), ("cg/a /memory.current", "10\n")]

/-- The group of a line that ends in a blank is another one when the line is the last. -/
theorem read_lines_order :
    ∃ (text text' : String) (resources resources' : Resources),
      (Mem.splitScalar 0x0a (ascii text)).Perm (Mem.splitScalar 0x0a (ascii text')) ∧
      read (fixtureHost text blankMounts blankLimit) fixtureCpu 512 = .ok resources ∧
      read (fixtureHost text' blankMounts blankLimit) fixtureCpu 512 = .ok resources' ∧
      resources.memoryLimitBytes ≠ resources'.memoryLimitBytes := by
  have hfirst : (read (fixtureHost "0::/a \n2:pids:/b\n" blankMounts blankLimit)
      fixtureCpu 512).toOption.map (·.memoryLimitBytes) = some 1000 := by
    simp only [fixtureHost, tree_bytes, List.cons_append, List.nil_append, List.map_cons, List.map_nil,
      ascii, String.reduceToList, blankMounts, blankLimit]
    decide +kernel
  have hlast : (read (fixtureHost "2:pids:/b\n0::/a \n" blankMounts blankLimit)
      fixtureCpu 512).toOption.map (·.memoryLimitBytes) = some 8589934592 := by
    simp only [fixtureHost, tree_bytes, List.cons_append, List.nil_append, List.map_cons, List.map_nil,
      ascii, String.reduceToList, blankMounts, blankLimit]
    decide +kernel
  refine ⟨"0::/a \n2:pids:/b\n", "2:pids:/b\n0::/a \n", ?_⟩
  cases hread : read (fixtureHost "0::/a \n2:pids:/b\n" blankMounts blankLimit) fixtureCpu 512 with
  | error stop =>
      rw [hread] at hfirst
      cases hfirst
  | ok resources =>
      cases hread' : read (fixtureHost "2:pids:/b\n0::/a \n" blankMounts blankLimit)
          fixtureCpu 512 with
      | error stop =>
          rw [hread'] at hlast
          cases hlast
      | ok resources' =>
          rw [hread] at hfirst
          rw [hread'] at hlast
          refine ⟨resources, resources', by decide +kernel, rfl, rfl, ?_⟩
          have hsmall : resources.memoryLimitBytes = 1000 := Option.some.inj hfirst
          have hlarge : resources'.memoryLimitBytes = 8589934592 := Option.some.inj hlast
          rw [hsmall, hlarge]
          decide

end Zhtps.Discovery
