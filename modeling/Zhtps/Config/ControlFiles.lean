import Zhtps.Config.Discovery
import Zhtps.Http.Grammar

/-!
What the files of discovery state.

The relations say what a text means, in no order and with no errors: the limits of a control group,
the groups of the process and the mounts of a hierarchy.  Where the code reads a text to its end, it
finds what the text states and nothing else.
-/

namespace Zhtps.Discovery

theorem bind_ok {α β : Type} {x : Checked α} {f : α → Checked β} {b : β} :
    (x >>= f) = .ok b ↔ ∃ a, x = .ok a ∧ f a = .ok b := by
  cases x with
  | error stop =>
      refine iff_of_false (by rintro ⟨⟩) ?_
      rintro ⟨a, h, -⟩
      cases h
  | ok a =>
      constructor
      · exact fun h => ⟨a, rfl, h⟩
      · rintro ⟨a', h, hf⟩
        obtain rfl := Except.ok.inj h
        exact hf

/-! ### Numbers -/

/-- A decimal number of 64 bits. -/
def Numeral (text : Bytes) (n : Nat) : Prop :=
  text ≠ [] ∧ (∀ c ∈ text, Ascii.isDigit c = true) ∧ n = Grammar.numeral 10 text ∧ n ≤ u64Max

theorem number_iff {text : Bytes} {n : Nat} : number text = .ok n ↔ Numeral text n := by
  unfold number
  by_cases hdigits : text ≠ [] ∧ ∀ c ∈ text, Ascii.isDigit c = true
  · obtain ⟨hne, hall⟩ := hdigits
    have hgood : ¬(text.isEmpty || !text.all Ascii.isDigit) = true := by
      rw [Bool.or_eq_true, not_or, List.isEmpty_iff, Bool.not_eq_true', Bool.not_eq_false,
        List.all_eq_true]
      exact ⟨hne, hall⟩
    rw [if_neg hgood,
      Grammar.parseInt_eq (by decide) hne fun c hc => Grammar.isDigit_of_isDecimal (hall c hc)]
    split_ifs with hlt
    · constructor
      · intro h
        obtain rfl := Except.ok.inj h
        exact ⟨hne, hall, rfl, Nat.le_pred_of_lt hlt⟩
      · rintro ⟨-, -, rfl, -⟩
        rfl
    · refine iff_of_false (by rintro ⟨⟩) ?_
      rintro ⟨-, -, rfl, hle⟩
      exact hlt (Nat.lt_of_le_pred (by decide) hle)
  · refine iff_of_false ?_ fun h => hdigits ⟨h.1, h.2.1⟩
    have hbad : (text.isEmpty || !text.all Ascii.isDigit) = true := by
      by_contra hgood
      rw [Bool.or_eq_true, not_or, List.isEmpty_iff, Bool.not_eq_true', Bool.not_eq_false,
        List.all_eq_true] at hgood
      exact hdigits hgood
    rw [if_pos hbad]
    rintro ⟨⟩

/-- A text is one number at most. -/
theorem Numeral.unique {text : Bytes} {m n : Nat} (hm : Numeral text m) (hn : Numeral text n) :
    m = n := hm.2.2.1.trans hn.2.2.1.symm

/-! ### Files -/

/-- The text of a file, without the blanks around it. -/
def Holds (host : Host) (path text : Bytes) : Prop :=
  ∃ bytes, host.file path = .text bytes ∧ text = Mem.trimOf space bytes

/-- Where a control file of a group is, from the root. -/
def controlFile (group name : Bytes) : Bytes := Mem.trimStartOf [0x2f] group ++ 0x2f :: name

/-- A control file of a group. -/
def Control (host : Host) (group name text : Bytes) : Prop :=
  Holds host (controlFile group name) text

theorem readOptional_ok {host : Host} {path : Bytes} {size : Nat} {file : Option Bytes}
    (h : readOptional host path size = .ok file) :
    (∀ text, Holds host path text ↔ file = some text) ∧
      (host.file path = .missing ↔ file = none) := by
  unfold readOptional at h
  unfold Holds
  cases hfile : host.file path with
  | missing =>
      rw [hfile] at h
      obtain rfl := Except.ok.inj h
      refine ⟨fun text => iff_of_false ?_ (by rintro ⟨⟩), iff_of_true rfl rfl⟩
      rintro ⟨bytes, hbytes, -⟩
      cases hbytes
  | failed =>
      rw [hfile] at h
      cases h
  | text bytes =>
      rw [hfile] at h
      dsimp only at h
      split_ifs at h
      · cases h
      · obtain rfl := Except.ok.inj h
        refine ⟨fun text => ⟨?_, ?_⟩, iff_of_false (by rintro ⟨⟩) (by rintro ⟨⟩)⟩
        · rintro ⟨bytes', hbytes, rfl⟩
          rw [File.text.inj hbytes]
        · intro htext
          exact ⟨bytes, rfl, (Option.some.inj htext).symm⟩

theorem groupFile_ok {host : Host} {group name : Bytes} {file : Option Bytes}
    (h : groupFile host group name = .ok file) :
    (∀ text, Control host group name text ↔ file = some text) ∧
      (host.file (controlFile group name) = .missing ↔ file = none) := by
  unfold groupFile at h
  dsimp only at h
  split_ifs at h
  · cases h
  · exact readOptional_ok h

theorem required_ok {file : Checked (Option Bytes)} {text : Bytes} :
    required file = .ok text ↔ file = .ok (some text) := by
  rcases file with stop | _ | text'
  · exact iff_of_false (by rintro ⟨⟩) (by rintro ⟨⟩)
  · exact iff_of_false (by rintro ⟨⟩) (by rintro ⟨⟩)
  · constructor
    · intro h
      rw [Except.ok.inj h]
    · intro h
      rw [Option.some.inj (Except.ok.inj h)]
      rfl

/-! ### Lists of CPUs -/

/-- A part of a list names a CPU: as its only one, or in a range. -/
def Names (part : Bytes) (cpu : Nat) : Prop :=
  ∃ first last a b,
    (part.splitOn 0x2d = [first] ∧ last = first ∨ part.splitOn 0x2d = [first, last]) ∧
      Numeral first a ∧ Numeral last b ∧ a ≤ cpu ∧ cpu ≤ b

/-- The set of a list of CPUs. -/
def Lists (text : Bytes) (set : Config.CpuSet 1024) : Prop :=
  ∀ cpu, set cpu = true ↔ ∃ part ∈ (Mem.trimOf space text).splitOn 0x2c, Names part cpu

theorem rangeEnd_ok {first last : Nat} {rest : List Bytes} (h : rangeEnd first rest = .ok last) :
    rest = [] ∧ last = first ∨ ∃ text more, rest = text :: more ∧ Numeral text last := by
  cases rest with
  | nil => exact Or.inl ⟨rfl, (Except.ok.inj h).symm⟩
  | cons text more => exact Or.inr ⟨text, more, rfl, number_iff.mp h⟩

theorem cpuRange_ok {set set' : Config.CpuSet 1024} {part : Bytes}
    (h : cpuRange set part = .ok set') (cpu : Fin 1024) :
    set' cpu = true ↔ set cpu = true ∨ Names part cpu := by
  unfold cpuRange at h
  rw [Grammar.splitScalar_eq] at h
  split at h
  · cases h
  rename_i text rest hsplit
  obtain ⟨a, ha, h⟩ := bind_ok.mp h
  obtain ⟨b, hb, h⟩ := bind_ok.mp h
  split_ifs at h with hmore hlarge
  · cases h
  · cases h
  obtain rfl := Except.ok.inj h
  obtain ⟨hrest, -⟩ := not_or.mp hmore
  have ha := number_iff.mp ha
  -- a part without a dash is a range of one CPU
  have hnames : Names part cpu ↔ a ≤ cpu ∧ cpu ≤ b := by
    rcases rangeEnd_ok hb with ⟨rfl, rfl⟩ | ⟨last, more, rfl, hlast⟩
    · constructor
      · rintro ⟨first, last, a', b', ⟨hone, rfl⟩ | htwo, ha', hb', hle, hge⟩
        · obtain rfl := (List.cons.inj (hsplit.symm.trans hone)).1
          obtain rfl := ha.unique ha'
          obtain rfl := ha.unique hb'
          exact ⟨hle, hge⟩
        · exact absurd (hsplit.symm.trans htwo) (by simp)
      · rintro ⟨hle, hge⟩
        exact ⟨text, text, b, b, Or.inl ⟨hsplit, rfl⟩, ha, ha, hle, hge⟩
    · obtain rfl : more = [] := by
        rw [List.length_cons] at hrest
        exact List.length_eq_zero_iff.mp (by omega)
      constructor
      · rintro ⟨first, last', a', b', ⟨hone, rfl⟩ | htwo, ha', hb', hle, hge⟩
        · exact absurd (hsplit.symm.trans hone) (by simp)
        · obtain ⟨rfl, htail⟩ := List.cons.inj (hsplit.symm.trans htwo)
          obtain rfl := (List.cons.inj htail).1
          obtain rfl := ha.unique ha'
          obtain rfl := hlast.unique hb'
          exact ⟨hle, hge⟩
      · rintro ⟨hle, hge⟩
        exact ⟨text, last, a, b, Or.inr hsplit, ha, hlast, hle, hge⟩
  rw [hnames, Bool.or_eq_true, Bool.and_eq_true, decide_eq_true_eq, decide_eq_true_eq]

theorem cpuRanges_ok {parts : List Bytes} {set set' : Config.CpuSet 1024}
    (h : parts.foldlM cpuRange set = .ok set') (cpu : Fin 1024) :
    set' cpu = true ↔ set cpu = true ∨ ∃ part ∈ parts, Names part cpu := by
  induction parts generalizing set with
  | nil =>
      obtain rfl := Except.ok.inj h
      simp
  | cons part parts ih =>
      rw [List.foldlM_cons] at h
      obtain ⟨next, hnext, h⟩ := bind_ok.mp h
      rw [ih h, cpuRange_ok hnext, List.exists_mem_cons_iff, or_assoc]

theorem cpuList_ok {text : Bytes} {set : Config.CpuSet 1024} (h : cpuList text = .ok set) :
    Lists text set := by
  intro cpu
  unfold cpuList at h
  rw [Grammar.splitScalar_eq] at h
  rw [cpuRanges_ok h]
  simp

theorem Lists.unique {text : Bytes} {a b : Config.CpuSet 1024} (ha : Lists text a)
    (hb : Lists text b) : a = b :=
  funext fun cpu => Bool.eq_iff_iff.mpr ((ha cpu).trans (hb cpu).symm)

/-! ### The limits of a group -/

/-- The CPUs of a group, in a file that older kernels lack. -/
def Effective (host : Host) (group name text : Bytes) : Prop :=
  Control host group name text ∨
    host.file (controlFile group name) = .missing ∧ Control host group (ascii "cpuset.cpus") text

/-- A limit and the use of what it limits, or a quota and its period, in two files of a group. -/
def Paired (host : Host) (group limitName usageName : Bytes) (limit usage : Nat) : Prop :=
  ∃ limitText usageText, Control host group limitName limitText ∧
    Control host group usageName usageText ∧ Numeral limitText limit ∧ Numeral usageText usage

/-- What the control files of a group state.  A file with another text than a number, such as `max`
or `-1`, states no limit. -/
inductive States (host : Host) (group : Bytes) : Controller → Finding → Prop
  /-- Microseconds of a period, as thousandths of a CPU. -/
  | cpuMax {text quota period : Bytes} {q p : Nat} : Control host group (ascii "cpu.max") text →
      Mem.tokenizeAny space text = [quota, period] → Numeral quota q → Numeral period p →
      States host group .unified (.quota (min u64Max (q * 1000 / p)))
  | cfsQuota {q p : Nat} :
      Paired host group (ascii "cpu.cfs_quota_us") (ascii "cpu.cfs_period_us") q p →
      States host group .cpu (.quota (min u64Max (q * 1000 / p)))
  | memoryMax {limit usage : Nat} :
      Paired host group (ascii "memory.max") (ascii "memory.current") limit usage →
      States host group .unified (.memory limit usage .cgroupMax)
  | memoryHigh {limit usage : Nat} :
      Paired host group (ascii "memory.high") (ascii "memory.current") limit usage →
      States host group .unified (.memory limit usage .cgroupHigh)
  | memoryLimit {limit usage : Nat} :
      Paired host group (ascii "memory.limit_in_bytes") (ascii "memory.usage_in_bytes") limit usage →
      States host group .memory (.memory limit usage .cgroupMax)
  | cpus {text : Bytes} {set : Config.CpuSet 1024} :
      Effective host group (ascii "cpuset.cpus.effective") text → text ≠ [] → Lists text set →
      States host group .unified (.cpus set)
  | cpuset {text : Bytes} {set : Config.CpuSet 1024} :
      Effective host group (ascii "cpuset.effective_cpus") text → text ≠ [] → Lists text set →
      States host group .cpuset (.cpus set)
  | pids {controller : Controller} {limit current : Nat} :
      controller = .unified ∨ controller = .pids →
      Paired host group (ascii "pids.max") (ascii "pids.current") limit current →
      States host group controller (.threads (limit - current))

theorem not_numeral_max (n : Nat) : ¬Numeral (ascii "max") n := by
  rintro ⟨-, hall, -⟩
  exact absurd (hall 0x6d (by decide)) (by decide)

theorem not_numeral_minus (n : Nat) : ¬Numeral (ascii "-1") n := by
  rintro ⟨-, hall, -⟩
  exact absurd (hall 0x2d (by decide)) (by decide)

/-- A file with such a text states no limit. -/
theorem unlimited {text : Bytes} (hno : ∀ n, ¬Numeral text n) (other : Bytes) (limit : Nat)
    (h : some text = some other) : ¬Numeral other limit := by
  rw [← Option.some.inj h]
  exact hno limit

section findings

variable {host : Host} {group : Bytes} {controller : Controller} {found : List Finding}
  {finding : Finding}

theorem quotaMillis_ok {quota period : Nat} (h : quotaMillis quota period = .ok found) :
    found = [.quota (min u64Max (quota * 1000 / period))] := by
  unfold quotaMillis at h
  split_ifs at h
  · cases h
  · exact (Except.ok.inj h).symm

/-- What is found in two files that belong together. -/
theorem mem_paired {limitName usageName : Bytes} {file : Option Bytes} {make : Nat → Nat → Finding}
    (hfile : groupFile host group limitName = .ok file)
    (h : (∀ text limit, file = some text → ¬Numeral text limit) ∧ found = [] ∨
      ∃ text used limit usage, file = some text ∧ number text = .ok limit ∧
        groupFile host group usageName = .ok (some used) ∧ number used = .ok usage ∧
        found = [make limit usage]) :
    finding ∈ found ↔ ∃ limit usage, finding = make limit usage ∧
      Paired host group limitName usageName limit usage := by
  have hcontrol := (groupFile_ok hfile).1
  rcases h with ⟨hno, rfl⟩ | ⟨text, used, limit, usage, rfl, hlimit, hused, husage, rfl⟩
  · refine iff_of_false List.not_mem_nil ?_
    rintro ⟨limit, usage, -, text, -, htext, -, hlimit, -⟩
    exact hno text limit ((hcontrol text).mp htext) hlimit
  · have hused := (groupFile_ok hused).1
    rw [List.mem_singleton]
    constructor
    · intro heq
      exact ⟨limit, usage, heq, text, used, (hcontrol text).mpr rfl, (hused used).mpr rfl,
        number_iff.mp hlimit, number_iff.mp husage⟩
    · rintro ⟨limit', usage', rfl, text', used', htext, hused', hlimit', husage'⟩
      obtain rfl := Option.some.inj ((hcontrol _).mp htext)
      obtain rfl := Option.some.inj ((hused _).mp hused')
      rw [(number_iff.mp hlimit).unique hlimit', (number_iff.mp husage).unique husage']

/-- Only the two numbers of `cpu.max` state a quota. -/
theorem mem_readCpuMax (h : readQuota host group .unified = .ok found) :
    finding ∈ found ↔ ∃ millis, finding = .quota millis ∧
      States host group .unified (.quota millis) := by
  obtain ⟨file, hfile, h⟩ := bind_ok.mp h
  have hcontrol := (groupFile_ok hfile).1
  have hnone : (∀ text quota period q, file = some text →
      Mem.tokenizeAny space text = [quota, period] → ¬Numeral quota q) → found = [] →
      (finding ∈ found ↔ ∃ millis, finding = .quota millis ∧
        States host group .unified (.quota millis)) := by
    rintro hno rfl
    refine iff_of_false List.not_mem_nil ?_
    rintro ⟨millis, -, hstates⟩
    cases hstates with
    | cpuMax htext hwords hq hp => exact hno _ _ _ _ ((hcontrol _).mp htext) hwords hq
  rcases file with _ | text
  · exact hnone (by rintro _ _ _ _ ⟨⟩) (Except.ok.inj h).symm
  dsimp only at h
  split at h
  · cases h
  · cases h
  rename_i quota period rest hwords
  -- the period is read first, and a third word is an error
  obtain ⟨p, hp, hquota⟩ := bind_ok.mp h
  split_ifs at hquota with hbad hmax
  · cases hquota
  · refine hnone ?_ (Except.ok.inj hquota).symm
    rintro text' quota' period' q htext hwords'
    obtain rfl := Option.some.inj htext
    rw [← (List.cons.inj (hwords.symm.trans hwords')).1, hmax]
    exact not_numeral_max q
  obtain ⟨q, hq, hquota⟩ := bind_ok.mp hquota
  obtain rfl : rest = [] := by
    by_contra hrest
    exact hbad (Or.inr hrest)
  rw [quotaMillis_ok hquota, List.mem_singleton]
  constructor
  · intro heq
    exact ⟨_, heq, .cpuMax ((hcontrol text).mpr rfl) hwords (number_iff.mp hq) (number_iff.mp hp)⟩
  · rintro ⟨millis, rfl, hstates⟩
    cases hstates with
    | cpuMax htext hwords' hq' hp' =>
        obtain rfl := Option.some.inj ((hcontrol _).mp htext)
        obtain ⟨rfl, htail⟩ := List.cons.inj (hwords.symm.trans hwords')
        obtain rfl := (List.cons.inj htail).1
        rw [(number_iff.mp hq).unique hq', (number_iff.mp hp).unique hp']

/-- The older hierarchy has the quota and its period in files of their own. -/
theorem mem_readCfsQuota (h : readQuota host group .cpu = .ok found) :
    finding ∈ found ↔ ∃ millis, finding = .quota millis ∧
      States host group .cpu (.quota millis) := by
  obtain ⟨file, hfile, h⟩ := bind_ok.mp h
  have hpaired : finding ∈ found ↔ ∃ q p, finding = .quota (min u64Max (q * 1000 / p)) ∧
      Paired host group (ascii "cpu.cfs_quota_us") (ascii "cpu.cfs_period_us") q p := by
    refine mem_paired hfile ?_
    rcases file with _ | quota
    · exact Or.inl ⟨by rintro _ _ ⟨⟩, (Except.ok.inj h).symm⟩
    dsimp only at h
    split_ifs at h with hminus
    · exact Or.inl ⟨unlimited (hminus ▸ not_numeral_minus), (Except.ok.inj h).symm⟩
    obtain ⟨q, hq, h⟩ := bind_ok.mp h
    obtain ⟨period, hperiod, h⟩ := bind_ok.mp h
    obtain ⟨p, hp, h⟩ := bind_ok.mp h
    exact Or.inr ⟨quota, period, q, p, rfl, hq, required_ok.mp hperiod, hp, quotaMillis_ok h⟩
  rw [hpaired]
  constructor
  · rintro ⟨q, p, rfl, hstated⟩
    exact ⟨_, rfl, .cfsQuota hstated⟩
  · rintro ⟨millis, rfl, hstates⟩
    cases hstates with
    | cfsQuota hstated => exact ⟨_, _, rfl, hstated⟩

theorem mem_readQuota (h : readQuota host group controller = .ok found) :
    finding ∈ found ↔ ∃ millis, finding = .quota millis ∧
      States host group controller (.quota millis) := by
  cases controller with
  | unified => exact mem_readCpuMax h
  | cpu => exact mem_readCfsQuota h
  | memory | cpuset | pids =>
      obtain rfl := Except.ok.inj h
      refine iff_of_false List.not_mem_nil ?_
      rintro ⟨millis, -, hstates⟩
      cases hstates

theorem mem_readMemory (h : readMemory host group controller = .ok found) :
    finding ∈ found ↔ ∃ limit usage source, finding = .memory limit usage source ∧
      States host group controller (.memory limit usage source) := by
  have hfiles : finding ∈ found ↔ ∃ name source, (name, source) ∈ (memoryFiles controller).1 ∧
      ∃ limit usage, finding = .memory limit usage source ∧
        Paired host group name (memoryFiles controller).2 limit usage := by
    rw [Lib.Effects.mem_collect h, Prod.exists]
    refine exists_congr fun name => exists_congr fun source => and_congr_right fun hmem => ?_
    obtain ⟨said, hsaid⟩ := Lib.Effects.collect_ok_iff.mp ⟨found, h⟩ _ hmem
    have hmade : finding ∈ said ↔ ∃ limit usage, finding = .memory limit usage source ∧
        Paired host group name (memoryFiles controller).2 limit usage := by
      obtain ⟨file, hfile, hsaid⟩ := bind_ok.mp hsaid
      refine mem_paired hfile ?_
      rcases file with _ | text
      · exact Or.inl ⟨by rintro _ _ ⟨⟩, (Except.ok.inj hsaid).symm⟩
      dsimp only at hsaid
      split_ifs at hsaid with hmax
      · exact Or.inl ⟨unlimited (hmax ▸ not_numeral_max), (Except.ok.inj hsaid).symm⟩
      obtain ⟨limit, hlimit, hsaid⟩ := bind_ok.mp hsaid
      obtain ⟨used, hused, hsaid⟩ := bind_ok.mp hsaid
      obtain ⟨usage, husage, hsaid⟩ := bind_ok.mp hsaid
      exact Or.inr ⟨text, used, limit, usage, rfl, hlimit, required_ok.mp hused, husage,
        (Except.ok.inj hsaid).symm⟩
    exact (Lib.Effects.exists_ok_iff hsaid).trans hmade
  rw [hfiles]
  constructor
  · rintro ⟨name, source, hmem, limit, usage, rfl, hstated⟩
    refine ⟨limit, usage, source, rfl, ?_⟩
    cases controller with
    | unified =>
        rcases List.mem_cons.mp hmem with heq | hmem
        · obtain ⟨rfl, rfl⟩ := Prod.mk.inj heq
          exact .memoryMax hstated
        · obtain ⟨rfl, rfl⟩ := Prod.mk.inj (List.mem_singleton.mp hmem)
          exact .memoryHigh hstated
    | memory =>
        obtain ⟨rfl, rfl⟩ := Prod.mk.inj (List.mem_singleton.mp hmem)
        exact .memoryLimit hstated
    | cpu | cpuset | pids => cases hmem
  · rintro ⟨limit, usage, source, rfl, hstates⟩
    cases hstates with
    | memoryMax hstated => exact ⟨_, _, List.mem_cons_self, limit, usage, rfl, hstated⟩
    | memoryHigh hstated =>
        exact ⟨_, _, List.mem_cons_of_mem _ (List.mem_singleton_self _), limit, usage, rfl, hstated⟩
    | memoryLimit hstated => exact ⟨_, _, List.mem_singleton_self _, limit, usage, rfl, hstated⟩

theorem cpusetText_ok {name : Bytes} {file : Option Bytes}
    (h : cpusetText host group name = .ok file) (text : Bytes) :
    Effective host group name text ↔ file = some text := by
  obtain ⟨first, hfirst, h⟩ := bind_ok.mp h
  obtain ⟨hcontrol, hmissing⟩ := groupFile_ok hfirst
  unfold Effective
  rw [hcontrol, hmissing]
  rcases first with _ | own
  · rw [(groupFile_ok h).1]
    constructor
    · rintro (hnone | ⟨-, htext⟩)
      · cases hnone
      · exact htext
    · exact fun htext => Or.inr ⟨rfl, htext⟩
  · obtain rfl := Except.ok.inj h
    constructor
    · rintro (htext | ⟨⟨⟩, -⟩)
      exact htext
    · exact Or.inl

theorem mem_readCpuset (h : readCpuset host group controller = .ok found) :
    finding ∈ found ↔ ∃ set, finding = .cpus set ∧ States host group controller (.cpus set) := by
  have hlisted : ∀ name, cpusetName controller = some name → (finding ∈ found ↔ ∃ set,
      finding = .cpus set ∧ ∃ text, Effective host group name text ∧ text ≠ [] ∧ Lists text set) := by
    intro name hname
    unfold readCpuset at h
    rw [hname] at h
    obtain ⟨file, hfile, h⟩ := bind_ok.mp h
    have heffective := cpusetText_ok hfile
    have hnone : (∀ text, file = some text → text = []) → found = [] → (finding ∈ found ↔ ∃ set,
        finding = .cpus set ∧ ∃ text, Effective host group name text ∧ text ≠ [] ∧
          Lists text set) := by
      rintro hempty rfl
      refine iff_of_false List.not_mem_nil ?_
      rintro ⟨set, -, text, htext, hne, -⟩
      exact hne (hempty text ((heffective text).mp htext))
    rcases file with _ | text
    · exact hnone (by rintro _ ⟨⟩) (Except.ok.inj h).symm
    dsimp only at h
    split_ifs at h with hblank
    · refine hnone ?_ (Except.ok.inj h).symm
      rintro text' htext
      rw [← Option.some.inj htext, hblank]
    obtain ⟨set, hset, h⟩ := bind_ok.mp h
    have hset := cpuList_ok hset
    obtain rfl := Except.ok.inj h
    rw [List.mem_singleton]
    constructor
    · intro heq
      exact ⟨set, heq, text, (heffective text).mpr rfl, hblank, hset⟩
    · rintro ⟨set', rfl, text', htext, -, hset'⟩
      obtain rfl := Option.some.inj ((heffective _).mp htext)
      rw [hset.unique hset']
  cases controller with
  | unified =>
      rw [hlisted _ rfl]
      refine exists_congr fun set => and_congr_right fun _ => ⟨?_, fun hstates => ?_⟩
      · rintro ⟨text, htext, hne, hset⟩
        exact .cpus htext hne hset
      · cases hstates with
        | cpus htext hne hset => exact ⟨_, htext, hne, hset⟩
  | cpuset =>
      rw [hlisted _ rfl]
      refine exists_congr fun set => and_congr_right fun _ => ⟨?_, fun hstates => ?_⟩
      · rintro ⟨text, htext, hne, hset⟩
        exact .cpuset htext hne hset
      · cases hstates with
        | cpuset htext hne hset => exact ⟨_, htext, hne, hset⟩
  | cpu | memory | pids =>
      obtain rfl := Except.ok.inj h
      refine iff_of_false List.not_mem_nil ?_
      rintro ⟨set, -, hstates⟩
      cases hstates

theorem mem_readPids (h : readPids host group controller = .ok found) :
    finding ∈ found ↔ ∃ count, finding = .threads count ∧
      States host group controller (.threads count) := by
  unfold readPids at h
  split_ifs at h with hcontroller
  · obtain ⟨file, hfile, h⟩ := bind_ok.mp h
    have hpaired : finding ∈ found ↔ ∃ limit current, finding = .threads (limit - current) ∧
        Paired host group (ascii "pids.max") (ascii "pids.current") limit current := by
      refine mem_paired hfile ?_
      rcases file with _ | text
      · exact Or.inl ⟨by rintro _ _ ⟨⟩, (Except.ok.inj h).symm⟩
      dsimp only at h
      split_ifs at h with hmax
      · exact Or.inl ⟨unlimited (hmax ▸ not_numeral_max), (Except.ok.inj h).symm⟩
      obtain ⟨limit, hlimit, h⟩ := bind_ok.mp h
      obtain ⟨used, hused, h⟩ := bind_ok.mp h
      obtain ⟨current, hcurrent, h⟩ := bind_ok.mp h
      exact Or.inr ⟨text, used, limit, current, rfl, hlimit, required_ok.mp hused, hcurrent,
        (Except.ok.inj h).symm⟩
    rw [hpaired]
    constructor
    · rintro ⟨limit, current, rfl, hstated⟩
      exact ⟨_, rfl, .pids hcontroller hstated⟩
    · rintro ⟨count, rfl, hstates⟩
      cases hstates with
      | pids hcontroller hstated => exact ⟨_, _, rfl, hstated⟩
  · obtain rfl := Except.ok.inj h
    refine iff_of_false List.not_mem_nil ?_
    rintro ⟨count, -, hstates⟩
    cases hstates with
    | pids hstates _ => exact hcontroller hstates

/-- A group that is read to its end says what its files state. -/
theorem mem_groupFindings (h : groupFindings host group controller = .ok found) :
    finding ∈ found ↔ States host group controller finding := by
  obtain ⟨quota, hquota, h⟩ := bind_ok.mp h
  obtain ⟨memory, hmemory, h⟩ := bind_ok.mp h
  obtain ⟨cpuset, hcpuset, h⟩ := bind_ok.mp h
  obtain ⟨pids, hpids, h⟩ := bind_ok.mp h
  obtain rfl := Except.ok.inj h
  rw [List.mem_append, List.mem_append, List.mem_append, mem_readQuota hquota,
    mem_readMemory hmemory, mem_readCpuset hcpuset, mem_readPids hpids]
  constructor
  · rintro (((⟨_, rfl, hstates⟩ | ⟨_, _, _, rfl, hstates⟩) | ⟨_, rfl, hstates⟩) | ⟨_, rfl, hstates⟩)
    · exact hstates
    · exact hstates
    · exact hstates
    · exact hstates
  · intro hstates
    cases finding with
    | hierarchy => cases hstates
    | quota millis => exact Or.inl (Or.inl (Or.inl ⟨millis, rfl, hstates⟩))
    | memory limit usage source =>
        exact Or.inl (Or.inl (Or.inr ⟨limit, usage, source, rfl, hstates⟩))
    | cpus set => exact Or.inl (Or.inr ⟨set, rfl, hstates⟩)
    | threads count => exact Or.inr ⟨count, rfl, hstates⟩

/-- Quotas and counts of threads are numbers of the machine. -/
theorem States.le (h : States host group controller finding) :
    (∀ n, finding = .quota n → n ≤ u64Max) ∧ (∀ n, finding = .threads n → n ≤ u64Max) := by
  cases h with
  | cpuMax | cfsQuota =>
      refine ⟨fun n heq => ?_, fun n heq => by cases heq⟩
      rw [← Finding.quota.inj heq]
      exact Nat.min_le_left _ _
  | memoryMax | memoryHigh | memoryLimit | cpus | cpuset =>
      exact ⟨fun n heq => (by cases heq), fun n heq => (by cases heq)⟩
  | pids _ hstated =>
      obtain ⟨-, -, -, -, ⟨-, -, -, hle⟩, -⟩ := hstated
      refine ⟨fun n heq => (by cases heq), fun n heq => ?_⟩
      rw [← Finding.threads.inj heq]
      exact (Nat.sub_le _ _).trans hle

end findings

/-! ### The groups of the process -/

/-- The fields of a membership line: hierarchy, controllers and group. -/
def Member (line hierarchy controllers group : Bytes) : Prop :=
  line = hierarchy ++ 0x3a :: (controllers ++ 0x3a :: group) ∧ 0x3a ∉ hierarchy ∧ 0x3a ∉ controllers

/-- The controllers of a membership line whose hierarchies count. -/
inductive Serves (hierarchy controllers : Bytes) : Controller → Prop
  | unified : hierarchy = ascii "0" → controllers = [] → Serves hierarchy controllers .unified
  | named {controller : Controller} : controller ≠ .unified →
      controller.tagName ∈ controllers.splitOn 0x2c → Serves hierarchy controllers controller

theorem drop_first (before after : Bytes) (c : UInt8) :
    (before ++ c :: after).drop (before.length + 1) = after := by
  rw [← List.drop_drop, List.drop_left]
  rfl

theorem Member.membership {line hierarchy controllers group : Bytes}
    (h : Member line hierarchy controllers group) :
    Discovery.membership line = .ok (hierarchy, controllers, group) := by
  obtain ⟨rfl, hhierarchy, hcontrollers⟩ := h
  unfold Discovery.membership
  rw [Mem.indexOfScalar_first hhierarchy]
  dsimp only
  rw [drop_first, Mem.indexOfScalar_first hcontrollers]
  dsimp only
  rw [drop_first, List.take_left, List.take_left]

theorem membership_ok {line hierarchy controllers group : Bytes} (hgroup : group ≠ [])
    (h : membership line = .ok (hierarchy, controllers, group)) :
    Member line hierarchy controllers group := by
  unfold membership at h
  rcases Mem.split_scalar line 0x3a with hno | ⟨before, rest, rfl, hbefore⟩
  · rw [Mem.indexOfScalar_none hno] at h
    cases h
  rw [Mem.indexOfScalar_first hbefore] at h
  dsimp only at h
  rw [drop_first, List.take_left] at h
  -- without a second colon the group is empty, and such lines are passed over
  rcases Mem.split_scalar rest 0x3a with hno | ⟨middle, last, rfl, hmiddle⟩
  · rw [Mem.indexOfScalar_none hno] at h
    obtain ⟨-, hrest⟩ := Prod.mk.inj (Except.ok.inj h)
    exact absurd (Prod.mk.inj hrest).2.symm hgroup
  · rw [Mem.indexOfScalar_first hmiddle] at h
    dsimp only at h
    rw [drop_first, List.take_left] at h
    obtain ⟨rfl, hrest⟩ := Prod.mk.inj (Except.ok.inj h)
    obtain ⟨rfl, rfl⟩ := Prod.mk.inj hrest
    exact ⟨rfl, hbefore, hmiddle⟩

theorem mem_contains {csv item : Bytes} : contains csv item = true ↔ item ∈ csv.splitOn 0x2c := by
  rw [contains, Grammar.splitScalar_eq, List.contains_iff_mem]

theorem mem_listed {hierarchy controllers : Bytes} {controller : Controller} :
    controller ∈ listed hierarchy controllers ↔ Serves hierarchy controllers controller := by
  unfold listed
  split_ifs with hunified
  · rw [List.mem_singleton]
    constructor
    · rintro rfl
      exact .unified hunified.1 hunified.2
    · intro h
      cases h with
      | unified => rfl
      | named hne hmem =>
          -- no controller has the empty name
          rw [hunified.2] at hmem
          cases controller with
          | unified => rfl
          | cpu | memory | cpuset | pids => exact absurd hmem (by decide)
  · rw [List.mem_filter, mem_contains]
    constructor
    · rintro ⟨hmem, hin⟩
      refine .named ?_ hin
      rintro rfl
      revert hmem
      decide
    · intro h
      cases h with
      | unified hzero hempty => exact absurd ⟨hzero, hempty⟩ hunified
      | named hne hmem =>
          refine ⟨?_, hmem⟩
          cases controller with
          | unified => exact absurd rfl hne
          | cpu | memory | cpuset | pids => decide

/-! ### The mounts of a hierarchy -/

/-- A path, some of whose bytes are written as octal escapes. -/
inductive Unescapes : Bytes → Bytes → Prop
  | nil : Unescapes [] []
  | plain {c : UInt8} {raw path : Bytes} : c ≠ 0x5c → Unescapes raw path →
      Unescapes (c :: raw) (c :: path)
  | octal {a b c : UInt8} {byte : Nat} {raw path : Bytes} : Fmt.parseInt [a, b, c] 8 = some byte →
      byte < 256 → Unescapes raw path →
      Unescapes (0x5c :: a :: b :: c :: raw) (UInt8.ofNat byte :: path)

/-- The words of a line. -/
def words (text : Bytes) : List Bytes := Mem.tokenizeScalar 0x20 text

/-- A line of the mount table: below `mount` is the hierarchy of the controller from `mountRoot` on. -/
def Mounts (controller : Controller) (line mountRoot mount : Bytes) : Prop :=
  ∃ before after id parent device root place more filesystem source options rest,
    line = before ++ ascii " - " ++ after ∧ Mem.indexOf line (ascii " - ") = some before.length ∧
    words before = id :: parent :: device :: root :: place :: more ∧
    words after = filesystem :: source :: options :: rest ∧
    (controller = .unified ∧ filesystem = ascii "cgroup2" ∨
      controller ≠ .unified ∧ filesystem = ascii "cgroup" ∧
        controller.tagName ∈ options.splitOn 0x2c) ∧
    Unescapes root mountRoot ∧ Unescapes place mount

theorem map_ok {α β : Type} {f : α → β} {x : Checked α} {b : β} :
    x.map f = .ok b ↔ ∃ a, x = .ok a ∧ b = f a := by
  cases x with
  | error stop =>
      refine iff_of_false (by rintro ⟨⟩) ?_
      rintro ⟨a, h, -⟩
      cases h
  | ok a =>
      constructor
      · exact fun h => ⟨a, rfl, (Except.ok.inj h).symm⟩
      · rintro ⟨a', h, rfl⟩
        rw [Except.ok.inj h]
        rfl

theorem unescape_ok {room : Nat} {raw path : Bytes} (h : unescape room raw = .ok path) :
    Unescapes raw path := by
  fun_induction unescape room raw generalizing path with
  | case1 =>
      obtain rfl := Except.ok.inj h
      exact .nil
  | case2 => cases h
  | case3 => cases h
  | case4 room a b c rest byte hbyte ih =>
      obtain ⟨tail, htail, rfl⟩ := map_ok.mp h
      obtain ⟨hparsed, hbound⟩ := Option.filter_eq_some_iff.mp hbyte
      exact .octal hparsed (of_decide_eq_true hbound) (ih htail)
  | case5 => cases h
  | case6 room c rest hescape hplain ih =>
      obtain ⟨tail, htail, rfl⟩ := map_ok.mp h
      exact .plain hplain (ih htail)

theorem Unescapes.unique {raw path other : Bytes} (h : Unescapes raw path)
    (hother : Unescapes raw other) : path = other := by
  induction h generalizing other with
  | nil =>
      cases hother with
      | nil => rfl
  | plain hplain htail ih =>
      cases hother with
      | plain _ hrest => rw [ih hrest]
      | octal => exact absurd rfl hplain
  | octal hbyte hbound htail ih =>
      cases hother with
      | plain hplain => exact absurd rfl hplain
      | octal hbyte' hbound' hrest =>
          rw [ih hrest, Option.some.inj (hbyte.symm.trans hbyte')]

theorem mountOf_sound {controller : Controller} {line mountRoot mount : Bytes}
    (h : mountOf controller line = .ok (some (mountRoot, mount))) :
    Mounts controller line mountRoot mount := by
  unfold mountOf at h
  split at h
  · cases h
  rename_i separator hseparator
  split at h
  · rename_i filesystem source options rest hafter
    -- the filesystem is that of the controller's hierarchy
    split_ifs at h with hunified hnamed
    · cases h
    · cases h
    split at h
    · rename_i id parent device root tail hbefore
      obtain ⟨mountRoot', hroot, h⟩ := bind_ok.mp h
      rcases tail with _ | ⟨place, more⟩
      · cases h
      obtain ⟨mount', hmount, h⟩ := bind_ok.mp h
      split_ifs at h
      · cases h
      obtain ⟨rfl, rfl⟩ := Prod.mk.inj (Option.some.inj (Except.ok.inj h))
      have hline := Mem.indexOf_some hseparator
      have hlength : (line.take separator).length = separator := by
        have hlengths := congrArg List.length hline
        have hthree : (ascii " - ").length = 3 := rfl
        simp only [List.length_append, List.length_take, List.length_drop] at hlengths ⊢
        omega
      refine ⟨line.take separator, line.drop (separator + 3), id, parent, device, root, place, more,
        filesystem, source, options, rest, hline, hlength.symm ▸ hseparator, hbefore, hafter, ?_,
        unescape_ok hroot, unescape_ok hmount⟩
      rw [← mem_contains]
      by_cases hcontroller : controller = .unified
      · exact Or.inl ⟨hcontroller, by_contra fun hne => hunified ⟨hcontroller, hne⟩⟩
      · have hboth := not_or.mp fun hor => hnamed ⟨hcontroller, hor⟩
        exact Or.inr ⟨hcontroller, not_not.mp hboth.1, Bool.not_eq_false _ ▸ hboth.2⟩
    · cases h
  · cases h

/-- A line of the table is found, where reading it is no error. -/
theorem mountOf_complete {controller : Controller} {line mountRoot mount : Bytes}
    {found : Option (Bytes × Bytes)} (hmounts : Mounts controller line mountRoot mount)
    (h : mountOf controller line = .ok found) : found = some (mountRoot, mount) := by
  obtain ⟨before, after, id, parent, device, root, place, more, filesystem, source, options, rest,
    rfl, hindex, hbefore, hafter, hserves, hroot, hmount⟩ := hmounts
  have hdrop : (before ++ ascii " - " ++ after).drop (before.length + 3) = after := by
    rw [← List.drop_drop, List.append_assoc, List.drop_left]
    rfl
  have htake : (before ++ ascii " - " ++ after).take before.length = before := by
    rw [List.append_assoc, List.take_left]
  have hunified : ¬(controller = .unified ∧ filesystem ≠ ascii "cgroup2") := by
    rintro ⟨hcontroller, hne⟩
    rcases hserves with ⟨-, hfilesystem⟩ | ⟨hnot, -⟩
    · exact hne hfilesystem
    · exact hnot hcontroller
  have hnamed : ¬(controller ≠ .unified ∧
      (filesystem ≠ ascii "cgroup" ∨ contains options controller.tagName = false)) := by
    rintro ⟨hcontroller, hno⟩
    rcases hserves with ⟨hsame, -⟩ | ⟨-, hfilesystem, hmem⟩
    · exact hcontroller hsame
    · rcases hno with hne | hfalse
      · exact hne hfilesystem
      · rw [mem_contains.mpr hmem] at hfalse
        cases hfalse
  unfold words at hbefore hafter
  unfold mountOf at h
  rw [hindex] at h
  dsimp only at h
  rw [hdrop, htake, hafter] at h
  dsimp only at h
  rw [if_neg hunified, if_neg hnamed, hbefore] at h
  obtain ⟨mountRoot', hroot', h⟩ := bind_ok.mp h
  obtain ⟨mount', hmount', h⟩ := bind_ok.mp h
  split_ifs at h
  · cases h
  rw [← Except.ok.inj h, (unescape_ok hroot').unique hroot, (unescape_ok hmount').unique hmount]

theorem mountOf_ok {controller : Controller} {line : Bytes} {found : Option (Bytes × Bytes)}
    (h : mountOf controller line = .ok found) (mountRoot mount : Bytes) :
    found = some (mountRoot, mount) ↔ Mounts controller line mountRoot mount := by
  constructor
  · rintro rfl
    exact mountOf_sound h
  · exact fun hmounts => mountOf_complete hmounts h

/-! ### The memory of the host -/

/-- The first line of a text with a key has an amount in kilobytes. -/
def Amount (text key : Bytes) (amount : Nat) : Prop :=
  ∃ before line after kilobytes more n,
    Mem.tokenizeScalar 0x0a text = before ++ line :: after ∧
    (∀ other ∈ before, (Mem.tokenizeAny [0x20, 0x09] other).head? ≠ some key) ∧
    Mem.tokenizeAny [0x20, 0x09] line = key :: kilobytes :: ascii "kB" :: more ∧
    Numeral kilobytes n ∧ amount = n * 1024

theorem meminfoBytes_ok {text key : Bytes} {amount : Nat} (h : meminfoBytes text key = .ok amount) :
    Amount text key amount := by
  unfold meminfoBytes at h
  unfold Amount
  -- the lines up to the first with the key are passed over
  generalize Mem.tokenizeScalar 0x0a text = all at h ⊢
  induction all with
  | nil => cases h
  | cons line lines ih =>
      rw [meminfoLines] at h
      split at h
      · cases h
      rename_i first fields hwords
      split_ifs at h with hother
      · obtain ⟨before, found, after, kilobytes, more, n, hlines, hbefore, hfound⟩ := ih h
        refine ⟨line :: before, found, after, kilobytes, more, n, by rw [hlines]; rfl, ?_, hfound⟩
        intro other hmem
        rcases List.mem_cons.mp hmem with rfl | hmem
        · rw [hwords]
          exact fun heq => hother (Option.some.inj heq)
        · exact hbefore other hmem
      · split at h
        · rename_i kilobytes unit more
          obtain ⟨n, hn, h⟩ := bind_ok.mp h
          split_ifs at h with hunit
          · cases h
          · refine ⟨[], line, lines, kilobytes, more, n, rfl, ?_, ?_, number_iff.mp hn,
              (Except.ok.inj h).symm⟩
            · intro other hmem
              cases hmem
            · rw [hwords, not_not.mp hother, not_not.mp hunit]
          · cases h
        · cases h

/-- A file of the calling thread, or of the process where there is none. -/
def Own (host : Host) (name text : Bytes) : Prop :=
  Holds host (ascii "proc/thread-self/" ++ name) text ∨
    host.file (ascii "proc/thread-self/" ++ name) = .missing ∧
      Holds host (ascii "proc/self/" ++ name) text

theorem ownFile_ok {host : Host} {name text : Bytes} {size : Nat}
    (h : ownFile host name size = .ok text) : Own host name text := by
  obtain ⟨file, hfile, h⟩ := bind_ok.mp h
  obtain ⟨hholds, hmissing⟩ := readOptional_ok hfile
  rcases file with _ | own
  · exact Or.inr ⟨hmissing.mpr rfl, ((readOptional_ok (required_ok.mp h)).1 text).mpr rfl⟩
  · exact Or.inl ((hholds text).mpr (congrArg some (Except.ok.inj h)))

/-- What the host itself allows. -/
structure Hosted (host : Host) (allowed : Config.CpuSet 1024) (base : Resources) : Prop where
  memory : ∃ meminfo total available, Holds host (ascii "proc/meminfo") meminfo ∧
    Amount meminfo (ascii "MemTotal:") total ∧ Amount meminfo (ascii "MemAvailable:") available ∧
    base.memoryLimitBytes = total ∧ base.memoryAvailableBytes = min total available
  allowed : base.allowed = allowed
  quota : base.cpuQuotaMillis = none
  threads : base.availableThreads = none

theorem readHost_ok {host : Host} {allowed : Config.CpuSet 1024} {nofile : Nat} {base : Resources}
    (h : readHost host allowed nofile = .ok base) : Hosted host allowed base := by
  obtain ⟨meminfo, hmeminfo, h⟩ := bind_ok.mp h
  obtain ⟨total, htotal, h⟩ := bind_ok.mp h
  obtain ⟨available, havailable, h⟩ := bind_ok.mp h
  obtain rfl := Except.ok.inj h
  exact ⟨⟨meminfo, total, available, ((readOptional_ok (required_ok.mp hmeminfo)).1 meminfo).mpr rfl,
    meminfoBytes_ok htotal, meminfoBytes_ok havailable, rfl, rfl⟩, rfl, rfl, rfl⟩

end Zhtps.Discovery
