import Zhtps.Config.Groups

/-!
The limits that discovery reports are the tightest visible ones.

Each value is the least of the host's own and those of all visited groups, so the order of the lines
of either file does not count.  The lines are those of the trimmed file: a group whose name ends in a
blank is taken for another one when it stands on the last line.
-/

namespace Zhtps.Discovery

open Lib

/-! ### What a finding bounds -/

def memoryLimit : Finding → Option Nat
  | .memory limit _ _ => some limit
  | _ => none

def memoryFree : Finding → Option Nat
  | .memory limit usage _ => some (limit - usage)
  | _ => none

def quotaOf : Finding → Option Nat
  | .quota millis => some millis
  | _ => none

def threadsOf : Finding → Option Nat
  | .threads count => some count
  | _ => none

theorem applyAll_memoryLimit (resources : Resources) (found : List Finding) :
    IsLeast (insert resources.memoryLimitBytes (Effects.bounds memoryLimit found))
      (resources.applyAll found).memoryLimitBytes := by
  refine Effects.isLeast_foldl (fun resources finding => ?_) resources found
  cases finding with
  | memory limit usage source =>
      simp only [Resources.apply, memoryLimit]
      split_ifs with hless
      · exact (min_eq_right hless.le).symm
      · exact (min_eq_left (not_lt.mp hless)).symm
  | hierarchy | quota | cpus | threads => rfl

theorem applyAll_memoryAvailable (resources : Resources) (found : List Finding) :
    IsLeast (insert resources.memoryAvailableBytes (Effects.bounds memoryFree found))
      (resources.applyAll found).memoryAvailableBytes :=
  Effects.isLeast_foldl (fun _ finding => by cases finding <;> rfl) resources found

theorem applyAll_quota {resources : Resources} (hnone : resources.cpuQuotaMillis = none)
    {found : List Finding} (htop : ∀ bound ∈ Effects.bounds quotaOf found, bound ≤ u64Max) :
    Effects.Tightest (resources.applyAll found).cpuQuotaMillis (Effects.bounds quotaOf found) :=
  Effects.tightest_foldl (fun _ finding => by cases finding <;> rfl) hnone htop

theorem applyAll_threads {resources : Resources} (hnone : resources.availableThreads = none)
    {found : List Finding} (htop : ∀ bound ∈ Effects.bounds threadsOf found, bound ≤ u64Max) :
    Effects.Tightest (resources.applyAll found).availableThreads (Effects.bounds threadsOf found) :=
  Effects.tightest_foldl (fun _ finding => by cases finding <;> rfl) hnone htop

theorem applyAll_allowed (resources : Resources) (found : List Finding) (cpu : Fin 1024) :
    (resources.applyAll found).allowed cpu = true ↔
      resources.allowed cpu = true ∧ ∀ set, .cpus set ∈ found → set cpu = true := by
  induction found generalizing resources with
  | nil => simp [Resources.applyAll]
  | cons finding found ih =>
      refine (ih (resources.apply finding)).trans ?_
      cases finding with
      | cpus set =>
          simp only [Resources.apply, Bool.and_eq_true, List.mem_cons, Finding.cpus.injEq,
            forall_eq_or_imp, and_assoc]
      | hierarchy | quota | memory | threads => simp [Resources.apply]

theorem applyAll_cores (resources : Resources) (found : List Finding) :
    (resources.applyAll found).cores = resources.cores := by
  induction found generalizing resources with
  | nil => rfl
  | cons finding found ih =>
      refine (ih (resources.apply finding)).trans ?_
      cases finding <;> rfl

/-! ### What the visited groups say -/

/-- One of the groups whose limits bind the process says so. -/
def Said (host : Host) (memberships mounts : Bytes) (finding : Finding) : Prop :=
  ∃ controller path, Visited memberships mounts controller path ∧
    States host path controller finding

/-- Every value is the least of the host's and those of the visited groups; a CPU is allowed where
all of them allow it. -/
structure Limited (host : Host) (memberships mounts : Bytes) (base resources : Resources) : Prop where
  memoryLimit : IsLeast (insert base.memoryLimitBytes
    {n | ∃ usage source, Said host memberships mounts (.memory n usage source)})
    resources.memoryLimitBytes
  memoryAvailable : IsLeast (insert base.memoryAvailableBytes
    {n | ∃ limit usage source, Said host memberships mounts (.memory limit usage source) ∧
      n = limit - usage}) resources.memoryAvailableBytes
  quota : Effects.Tightest resources.cpuQuotaMillis
    {n | Said host memberships mounts (.quota n)}
  threads : Effects.Tightest resources.availableThreads
    {n | Said host memberships mounts (.threads n)}
  allowed : ∀ cpu, resources.allowed cpu = true ↔ base.allowed cpu = true ∧
    ∀ set, Said host memberships mounts (.cpus set) → set cpu = true

/-- The five values agree. -/
structure SameLimits (a b : Resources) : Prop where
  memoryLimit : a.memoryLimitBytes = b.memoryLimitBytes
  memoryAvailable : a.memoryAvailableBytes = b.memoryAvailableBytes
  quota : a.cpuQuotaMillis = b.cpuQuotaMillis
  threads : a.availableThreads = b.availableThreads
  allowed : a.allowed = b.allowed

theorem Limited.unique {host : Host} {memberships mounts : Bytes} {base a b : Resources}
    (ha : Limited host memberships mounts base a) (hb : Limited host memberships mounts base b) :
    SameLimits a b where
  memoryLimit := ha.memoryLimit.unique hb.memoryLimit
  memoryAvailable := ha.memoryAvailable.unique hb.memoryAvailable
  quota := ha.quota.unique hb.quota
  threads := ha.threads.unique hb.threads
  allowed := funext fun cpu => by rw [Bool.eq_iff_iff, ha.allowed, hb.allowed]

theorem Limited.same {host : Host} {memberships mounts : Bytes} {base a b : Resources}
    (h : Limited host memberships mounts base a) (hsame : SameLimits a b) :
    Limited host memberships mounts base b where
  memoryLimit := hsame.memoryLimit ▸ h.memoryLimit
  memoryAvailable := hsame.memoryAvailable ▸ h.memoryAvailable
  quota := hsame.quota ▸ h.quota
  threads := hsame.threads ▸ h.threads
  allowed := hsame.allowed ▸ h.allowed

/-- The visited groups are a matter of which lines there are. -/
theorem said_perm {host : Host} {memberships memberships' mounts mounts' : Bytes}
    (hmemberships : (lines memberships).Perm (lines memberships'))
    (hmounts : (lines mounts).Perm (lines mounts')) (finding : Finding) :
    Said host memberships mounts finding ↔ Said host memberships' mounts' finding := by
  simp only [Said, Visited, Mounted, hmemberships.mem_iff, hmounts.mem_iff]

theorem Limited.perm {host : Host} {memberships memberships' mounts mounts' : Bytes}
    (hmemberships : (lines memberships).Perm (lines memberships'))
    (hmounts : (lines mounts).Perm (lines mounts')) {base resources : Resources}
    (h : Limited host memberships mounts base resources) :
    Limited host memberships' mounts' base resources := by
  obtain ⟨hlimit, havailable, hquota, hthreads, hallowed⟩ := h
  simp only [said_perm hmemberships hmounts] at hlimit havailable hquota hthreads hallowed
  exact ⟨hlimit, havailable, hquota, hthreads, hallowed⟩

/-! ### The findings bound the values -/

theorem bounds_said {host : Host} {memberships mounts : Bytes} {found : List Finding}
    (h : allFindings host memberships mounts = .ok found) {lower : Finding → Option Nat}
    (hlower : ∀ unified, lower (.hierarchy unified) = none) :
    Effects.bounds lower found =
      {n | ∃ finding, Said host memberships mounts finding ∧ lower finding = some n} := by
  ext n
  refine exists_congr fun finding => and_congr_left fun hn => ?_
  refine mem_allFindings h fun unified heq => ?_
  rw [heq, hlower] at hn
  cases hn

theorem applyAll_limited {host : Host} {memberships mounts : Bytes} {found : List Finding}
    (h : allFindings host memberships mounts = .ok found) {base : Resources}
    (hquota : base.cpuQuotaMillis = none) (hthreads : base.availableThreads = none) :
    Limited host memberships mounts base (base.applyAll found) := by
  have hbound : ∀ {lower : Finding → Option Nat}, (∀ unified, lower (.hierarchy unified) = none) →
      Effects.bounds lower found =
        {n | ∃ finding, Said host memberships mounts finding ∧ lower finding = some n} :=
    bounds_said h
  constructor
  case memoryLimit =>
    have hleast := applyAll_memoryLimit base found
    rw [hbound fun _ => rfl] at hleast
    convert hleast using 3
    ext n
    constructor
    · rintro ⟨usage, source, hsaid⟩
      exact ⟨_, hsaid, rfl⟩
    · rintro ⟨finding, hsaid, hn⟩
      cases finding with
      | memory limit usage source =>
          obtain rfl := Option.some.inj hn
          exact ⟨usage, source, hsaid⟩
      | hierarchy | quota | cpus | threads => cases hn
  case memoryAvailable =>
    have hleast := applyAll_memoryAvailable base found
    rw [hbound fun _ => rfl] at hleast
    convert hleast using 3
    ext n
    constructor
    · rintro ⟨limit, usage, source, hsaid, rfl⟩
      exact ⟨_, hsaid, rfl⟩
    · rintro ⟨finding, hsaid, hn⟩
      cases finding with
      | memory limit usage source =>
          exact ⟨limit, usage, source, hsaid, (Option.some.inj hn).symm⟩
      | hierarchy | quota | cpus | threads => cases hn
  case quota =>
    have hset : Effects.bounds quotaOf found = {n | Said host memberships mounts (.quota n)} := by
      rw [hbound fun _ => rfl]
      ext n
      constructor
      · rintro ⟨finding, hsaid, hn⟩
        cases finding with
        | quota millis =>
            obtain rfl := Option.some.inj hn
            exact hsaid
        | hierarchy | memory | cpus | threads => cases hn
      · exact fun hsaid => ⟨_, hsaid, rfl⟩
    have htightest : Effects.Tightest (base.applyAll found).cpuQuotaMillis
        (Effects.bounds quotaOf found) := applyAll_quota hquota fun bound hmem => by
      rw [hset] at hmem
      obtain ⟨controller, path, -, hstates⟩ := hmem
      exact hstates.le.1 bound rfl
    rwa [hset] at htightest
  case threads =>
    have hset : Effects.bounds threadsOf found =
        {n | Said host memberships mounts (.threads n)} := by
      rw [hbound fun _ => rfl]
      ext n
      constructor
      · rintro ⟨finding, hsaid, hn⟩
        cases finding with
        | threads count =>
            obtain rfl := Option.some.inj hn
            exact hsaid
        | hierarchy | memory | cpus | quota => cases hn
      · exact fun hsaid => ⟨_, hsaid, rfl⟩
    have htightest : Effects.Tightest (base.applyAll found).availableThreads
        (Effects.bounds threadsOf found) := applyAll_threads hthreads fun bound hmem => by
      rw [hset] at hmem
      obtain ⟨controller, path, -, hstates⟩ := hmem
      exact hstates.le.2 bound rfl
    rwa [hset] at htightest
  case allowed =>
    intro cpu
    rw [applyAll_allowed]
    refine and_congr_right fun _ => forall_congr' fun set => ?_
    have hmem : .cpus set ∈ found ↔ Said host memberships mounts (.cpus set) :=
      mem_allFindings h fun _ heq => by cases heq
    rw [hmem]

end Zhtps.Discovery
