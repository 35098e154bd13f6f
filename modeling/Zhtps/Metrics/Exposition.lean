import Zhtps.Http.Response
import Zhtps.Metrics

/-!
The Prometheus text of metrics, after `src/metrics_format/prometheus.zig` and `src/endpoint/metrics.zig`,
which write the same text under their own prefix.  A scrape finds exactly the samples of the snapshot,
and in a definition that passes its validation no two of them share a series.

`seconds` stands for the `{d}` format of a number of nanoseconds over `1e9`.
-/

namespace Zhtps.Metrics

open Response (digits)

/-- The enumerations of a definition, with their tags in order and the names of these. -/
structure Definition where
  Counter : Type
  Gauge : Type
  Histogram : Type
  counters : List Counter
  gauges : List Gauge
  histograms : List Histogram
  counterName : Counter → Bytes
  gaugeName : Gauge → Bytes
  histogramName : Histogram → Bytes

structure Distribution where
  buckets : Vector UInt64 (boundsNs.length + 1)
  sumNs : UInt64

structure Snapshot (d : Definition) where
  counters : d.Counter → UInt64
  gauges : d.Gauge → UInt64
  histograms : d.Histogram → Distribution

def underscore : UInt8 := 95

def brace : UInt8 := 123

/-! ### Validation -/

def isNameByte (c : UInt8) : Bool := Ascii.isAlphanumeric c || c == underscore

def validateName : Bytes → Bool
  | [] => false
  | c :: rest => !Ascii.isDigit c && (c :: rest).all isNameByte

def validateNamespace (space : Bytes) : Bool :=
  validateName space && !(space == ascii "zhtps" || (ascii "zhtps_").isPrefixOf space)

def suffixes : List Bytes := [[], ascii "_bucket", ascii "_count", ascii "_sum"]

/-- The names of the fields. -/
def Definition.fields (d : Definition) : List Bytes :=
  d.counters.map d.counterName ++ d.gauges.map d.gaugeName ++ d.histograms.map d.histogramName

/-- The names that `validateNames` compares. -/
def Definition.emitted (d : Definition) : List Bytes :=
  d.counters.map d.counterName ++ d.gauges.map d.gaugeName ++
    d.histograms.flatMap fun id => suffixes.map (d.histogramName id ++ ·)

def Definition.validateNames (d : Definition) : Bool :=
  d.fields.all validateName && decide d.emitted.Nodup

/-! ### The text -/

def series (space name : Bytes) : Bytes := space ++ underscore :: name

def typeLine (name kind : Bytes) : Bytes := ascii "# TYPE " ++ name ++ Ascii.sp :: kind ++ [Ascii.lf]

def sampleLine (key value : Bytes) : Bytes := key ++ Ascii.sp :: value ++ [Ascii.lf]

/-- The label of a bucket. -/
def le (bound : Bytes) : Bytes := brace :: ascii "le=\"" ++ bound ++ ascii "\"\x7d"

def bucketKey (name bound : Bytes) : Bytes := name ++ ascii "_bucket" ++ le bound

/-- The checked `+=` of the exposition. -/
def addCount (count amount : UInt64) : Option UInt64 :=
  if count.toNat + amount.toNat < 2 ^ 64 then some (count + amount) else none

variable (seconds : Nat → Bytes)

def writeBuckets (name : Bytes) : List (Nat × UInt64) → UInt64 → Option (Bytes × UInt64)
  | [], count => some ([], count)
  | (bound, amount) :: rest, count => do
      let count ← addCount count amount
      let (text, total) ← writeBuckets name rest count
      some (sampleLine (bucketKey name (seconds bound)) (digits 10 count.toNat) ++ text, total)

def writeHistogram (name : Bytes) (distribution : Distribution) : Option Bytes := do
  let (text, count) ← writeBuckets seconds name (boundsNs.zip distribution.buckets.toList) 0
  let count ← addCount count distribution.buckets.back
  some (typeLine name (ascii "histogram") ++ text ++
    sampleLine (bucketKey name (ascii "+Inf")) (digits 10 count.toNat) ++
    sampleLine (name ++ ascii "_count") (digits 10 count.toNat) ++
    sampleLine (name ++ ascii "_sum") (seconds distribution.sumNs.toNat))

def writeHistograms (d : Definition) (space : Bytes) (captured : Snapshot d) :
    List d.Histogram → Option Bytes
  | [] => some []
  | id :: rest => do
      let text ← writeHistogram seconds (series space (d.histogramName id)) (captured.histograms id)
      let more ← writeHistograms d space captured rest
      some (text ++ more)

/-- `write` of the server's metrics, with their prefix, and `writePrometheus` of the application's. -/
def write (d : Definition) (space : Bytes) (captured : Snapshot d) : Option Bytes := do
  let histograms ← writeHistograms seconds d space captured d.histograms
  some
    ((d.counters.flatMap fun id =>
        typeLine (series space (d.counterName id)) (ascii "counter") ++
          sampleLine (series space (d.counterName id)) (digits 10 (captured.counters id).toNat)) ++
      (d.gauges.flatMap fun id =>
        typeLine (series space (d.gaugeName id)) (ascii "gauge") ++
          sampleLine (series space (d.gaugeName id)) (digits 10 (captured.gauges id).toNat)) ++
      histograms)

/-! ### What the text says -/

/-- The sample of one line, a series and its value; comments have none. -/
def scrapeLine (line : Bytes) : Option (Bytes × Bytes) :=
  match line with
  | [] => none
  | c :: _ =>
      if c = 35 then none
      else some (line.takeWhile (· != Ascii.sp), (line.dropWhile (· != Ascii.sp)).drop 1)

def scrape (text : Bytes) : List (Bytes × Bytes) := (text.splitOn Ascii.lf).filterMap scrapeLine

def bucketSamples (name : Bytes) : List (Nat × UInt64) → Nat → List (Bytes × Bytes)
  | [], _ => []
  | (bound, amount) :: rest, count =>
      (bucketKey name (seconds bound), digits 10 (count + amount.toNat)) ::
        bucketSamples name rest (count + amount.toNat)

/-- The observations of a distribution. -/
def Distribution.count (distribution : Distribution) : Nat :=
  (distribution.buckets.toList.map UInt64.toNat).sum

def Distribution.samples (name : Bytes) (distribution : Distribution) : List (Bytes × Bytes) :=
  bucketSamples seconds name (boundsNs.zip distribution.buckets.toList) 0 ++
    [(bucketKey name (ascii "+Inf"), digits 10 distribution.count),
      (name ++ ascii "_count", digits 10 distribution.count),
      (name ++ ascii "_sum", seconds distribution.sumNs.toNat)]

def Snapshot.samples {d : Definition} (space : Bytes) (captured : Snapshot d) : List (Bytes × Bytes) :=
  (d.counters.map fun id =>
      (series space (d.counterName id), digits 10 (captured.counters id).toNat)) ++
    (d.gauges.map fun id => (series space (d.gaugeName id), digits 10 (captured.gauges id).toNat)) ++
    d.histograms.flatMap fun id =>
      (captured.histograms id).samples seconds (series space (d.histogramName id))

/-- What `{d}` writes of a float that is finite and not negative, and of the bounds. -/
structure Readable (seconds : Nat → Bytes) : Prop where
  decimal : ∀ nanoseconds, ∀ c ∈ seconds nanoseconds, Ascii.isDigit c = true ∨ c = 46
  apart : (boundsNs.map seconds).Nodup

/-- A text from which a scrape takes some samples, whatever follows. -/
def Reads (text : Bytes) (samples : List (Bytes × Bytes)) : Prop :=
  ∀ rest, scrape (text ++ rest) = samples ++ scrape rest

theorem Reads.nil : Reads [] [] := fun _ => rfl

theorem Reads.append {first second : Bytes} {samples more : List (Bytes × Bytes)}
    (hfirst : Reads first samples) (hsecond : Reads second more) :
    Reads (first ++ second) (samples ++ more) := by
  intro rest
  rw [List.append_assoc, hfirst, hsecond, List.append_assoc]

theorem Reads.flatMap {α : Type} {text : α → Bytes} {samples : α → List (Bytes × Bytes)}
    {items : List α} (h : ∀ item ∈ items, Reads (text item) (samples item)) :
    Reads (items.flatMap text) (items.flatMap samples) := by
  induction items with
  | nil => exact Reads.nil
  | cons item items ih =>
      rw [List.flatMap_cons, List.flatMap_cons]
      exact (h item (List.mem_cons_self ..)).append
        (ih fun other hother => h other (List.mem_cons_of_mem _ hother))

theorem scrape_line {line : Bytes} (hline : Ascii.lf ∉ line) (rest : Bytes) :
    scrape (line ++ Ascii.lf :: rest) = (scrapeLine line).toList ++ scrape rest := by
  unfold scrape
  rw [List.splitOn_append_cons_self_of_not_mem hline, List.filterMap_cons]
  cases scrapeLine line with
  | none => rfl
  | some sample => rfl

/-- A text without a blank and without a line break. -/
def Plain (text : Bytes) : Prop := Ascii.sp ∉ text ∧ Ascii.lf ∉ text

theorem Plain.append {first second : Bytes} (hfirst : Plain first) (hsecond : Plain second) :
    Plain (first ++ second) :=
  ⟨fun h => (List.mem_append.mp h).elim hfirst.1 hsecond.1,
    fun h => (List.mem_append.mp h).elim hfirst.2 hsecond.2⟩

/-- A key begins with a byte that is no `#`. -/
def Key (key : Bytes) : Prop := Plain key ∧ ∃ c rest, key = c :: rest ∧ c ≠ 35

theorem Key.append {key more : Bytes} (hkey : Key key) (hmore : Plain more) : Key (key ++ more) := by
  obtain ⟨hplain, c, rest, rfl, hc⟩ := hkey
  exact ⟨hplain.append hmore, c, rest ++ more, rfl, hc⟩

theorem scrapeLine_sample {key value : Bytes} (hkey : Key key) :
    scrapeLine (key ++ Ascii.sp :: value) = some (key, value) := by
  obtain ⟨⟨hspace, -⟩, c, rest, hcons, hc⟩ := hkey
  have hall : ∀ b ∈ key, (b != Ascii.sp) = true := by
    rintro b hb
    exact bne_iff_ne.mpr fun heq => hspace (heq ▸ hb)
  have htake : (key ++ Ascii.sp :: value).takeWhile (· != Ascii.sp) = key := by
    rw [List.takeWhile_append_of_pos hall, List.takeWhile_cons_of_neg (by decide), List.append_nil]
  have hdrop : (key ++ Ascii.sp :: value).dropWhile (· != Ascii.sp) = Ascii.sp :: value := by
    rw [List.dropWhile_append_of_pos hall, List.dropWhile_cons_of_neg (by decide)]
  have hline : key ++ Ascii.sp :: value = c :: (rest ++ Ascii.sp :: value) := by rw [hcons]; rfl
  have hscrape : scrapeLine (c :: (rest ++ Ascii.sp :: value)) =
      some ((c :: (rest ++ Ascii.sp :: value)).takeWhile (· != Ascii.sp),
        ((c :: (rest ++ Ascii.sp :: value)).dropWhile (· != Ascii.sp)).drop 1) := if_neg hc
  rw [← hline, htake, hdrop] at hscrape
  exact hscrape

theorem reads_sample {key value : Bytes} (hkey : Key key) (hvalue : Ascii.lf ∉ value) :
    Reads (sampleLine key value) [(key, value)] := by
  intro rest
  have hline : Ascii.lf ∉ key ++ Ascii.sp :: value := by
    intro h
    rcases List.mem_append.mp h with h | h
    · exact hkey.1.2 h
    · rcases List.mem_cons.mp h with h | h
      · cases h
      · exact hvalue h
  have htext : sampleLine key value ++ rest = (key ++ Ascii.sp :: value) ++ Ascii.lf :: rest := by
    rw [sampleLine, List.append_assoc, List.singleton_append]
  rw [htext, scrape_line hline, scrapeLine_sample hkey]
  rfl

theorem reads_type {name kind : Bytes} (hname : Plain name) (hkind : Ascii.lf ∉ kind) :
    Reads (typeLine name kind) [] := by
  intro rest
  have hcomment : ascii "# TYPE " = [35, 32, 84, 89, 80, 69, 32] := by decide
  have hline : Ascii.lf ∉ ascii "# TYPE " ++ name ++ Ascii.sp :: kind := by
    rw [hcomment]
    intro h
    rcases List.mem_append.mp h with h | h
    · rcases List.mem_append.mp h with h | h
      · revert h
        decide
      · exact hname.2 h
    · rcases List.mem_cons.mp h with h | h
      · cases h
      · exact hkind h
  have htext : typeLine name kind ++ rest =
      (ascii "# TYPE " ++ name ++ Ascii.sp :: kind) ++ Ascii.lf :: rest := by
    rw [typeLine, List.append_assoc, List.singleton_append]
  rw [htext, scrape_line hline, hcomment]
  rfl

theorem plain_digits (n : Nat) : Plain (digits 10 n) := by
  refine ⟨fun h => ?_, fun h => ?_⟩
  · have hdigit := Response.isDigit_of_mem_digits h
    cases hdigit
  · have hdigit := Response.isDigit_of_mem_digits h
    cases hdigit

theorem plain_seconds (h : Readable seconds) (nanoseconds : Nat) : Plain (seconds nanoseconds) := by
  refine ⟨fun hmem => ?_, fun hmem => ?_⟩
  · rcases h.decimal nanoseconds _ hmem with hdigit | hdot
    · cases hdigit
    · cases hdot
  · rcases h.decimal nanoseconds _ hmem with hdigit | hdot
    · cases hdigit
    · cases hdot

theorem plain_le {bound : Bytes} (h : Plain bound) : Plain (le bound) := by
  have hbegin : Plain (brace :: ascii "le=\"") := by
    unfold Plain
    decide
  have hend : Plain (ascii "\"\x7d") := by
    unfold Plain
    decide
  exact (hbegin.append h).append hend

/-! ### Writing -/

theorem addCount_eq {count amount sum : UInt64} (h : addCount count amount = some sum) :
    sum.toNat = count.toNat + amount.toNat := by
  unfold addCount at h
  split_ifs at h with hfits
  obtain rfl := Option.some.inj h
  rw [UInt64.toNat_add, Nat.mod_eq_of_lt hfits]

/-- The observations in some buckets. -/
def amounts (buckets : List (Nat × UInt64)) : Nat := (buckets.map fun bucket => bucket.2.toNat).sum

variable {seconds}

theorem writeBuckets_total {name : Bytes} {buckets : List (Nat × UInt64)} {count total : UInt64}
    {text : Bytes} (hwrite : writeBuckets seconds name buckets count = some (text, total)) :
    total.toNat = count.toNat + amounts buckets := by
  induction buckets generalizing count total text with
  | nil =>
      obtain ⟨-, rfl⟩ := Prod.mk.inj (Option.some.inj hwrite)
      rfl
  | cons bucket buckets ih =>
      obtain ⟨next, hnext, hwrite⟩ := Option.bind_eq_some_iff.mp hwrite
      obtain ⟨⟨more, last⟩, hmore, hwrite⟩ := Option.bind_eq_some_iff.mp hwrite
      obtain ⟨-, rfl⟩ := Prod.mk.inj (Option.some.inj hwrite)
      rw [ih hmore, addCount_eq hnext, amounts, amounts, List.map_cons, List.sum_cons, Nat.add_assoc]

theorem writeBuckets_reads (h : Readable seconds) {name : Bytes} (hname : Key name)
    {buckets : List (Nat × UInt64)} {count total : UInt64} {text : Bytes}
    (hwrite : writeBuckets seconds name buckets count = some (text, total)) :
    Reads text (bucketSamples seconds name buckets count.toNat) := by
  induction buckets generalizing count total text with
  | nil =>
      obtain ⟨rfl, -⟩ := Prod.mk.inj (Option.some.inj hwrite)
      exact Reads.nil
  | cons bucket buckets ih =>
      obtain ⟨next, hnext, hwrite⟩ := Option.bind_eq_some_iff.mp hwrite
      obtain ⟨⟨more, last⟩, hmore, hwrite⟩ := Option.bind_eq_some_iff.mp hwrite
      obtain ⟨rfl, -⟩ := Prod.mk.inj (Option.some.inj hwrite)
      have hreads := ih hmore
      have hkey : Key (bucketKey name (seconds bucket.1)) :=
        (hname.append (by unfold Plain; decide)).append (plain_le (plain_seconds seconds h bucket.1))
      have hsample := reads_sample hkey (plain_digits next.toNat).2
      rw [addCount_eq hnext] at hreads hsample ⊢
      exact hsample.append hreads

variable (seconds) in
theorem writeBuckets_isSome (name : Bytes) {buckets : List (Nat × UInt64)} {count : UInt64}
    (hfits : count.toNat + amounts buckets < 2 ^ 64) :
    (writeBuckets seconds name buckets count).isSome = true := by
  induction buckets generalizing count with
  | nil => rfl
  | cons bucket buckets ih =>
      rw [amounts, List.map_cons, List.sum_cons, ← Nat.add_assoc] at hfits
      have hnext : addCount count bucket.2 = some (count + bucket.2) :=
        if_pos (Nat.lt_of_le_of_lt (Nat.le_add_right ..) hfits)
      have hbounded : (count + bucket.2).toNat + amounts buckets < 2 ^ 64 := by
        rw [addCount_eq hnext]
        exact hfits
      have hrest := ih hbounded
      obtain ⟨⟨text, total⟩, htext⟩ := Option.isSome_iff_exists.mp hrest
      have hwrite : writeBuckets seconds name (bucket :: buckets) count =
          some (sampleLine (bucketKey name (seconds bucket.1)) (digits 10 (count + bucket.2).toNat) ++ text,
            total) := by
        rw [writeBuckets, hnext, Option.bind_eq_bind, Option.bind_some, htext]
        rfl
      rw [hwrite]
      rfl

/-- The buckets that have a bound, and the one behind them. -/
theorem count_eq (distribution : Distribution) :
    distribution.count =
      amounts (boundsNs.zip distribution.buckets.toList) + distribution.buckets.back.toNat := by
  have hlength : distribution.buckets.toList.length = boundsNs.length + 1 := Vector.length_toList
  have hlast : distribution.buckets.toList =
      distribution.buckets.toList.take boundsNs.length ++ [distribution.buckets.back] := by
    have htake := List.take_concat_get' distribution.buckets.toList boundsNs.length
      (by rw [hlength]; exact Nat.lt_succ_self _)
    rw [List.take_of_length_le (Nat.le_of_eq hlength)] at htake
    exact htake.symm
  have hzip : ∀ (bounds : List Nat) (values : List UInt64), bounds.length ≤ values.length →
      (bounds.zip values).map (fun bucket => bucket.2.toNat) =
        (values.take bounds.length).map UInt64.toNat := by
    intro bounds values
    induction bounds generalizing values with
    | nil => intro _; rfl
    | cons bound bounds ih =>
        intro hle
        cases values with
        | nil => cases hle
        | cons value values =>
            rw [List.zip_cons_cons, List.map_cons, ih values (Nat.le_of_succ_le_succ hle), List.length_cons,
              List.take_succ_cons, List.map_cons]
  rw [amounts, hzip _ _ (by rw [hlength]; exact Nat.le_succ _), Distribution.count]
  conv_lhs => rw [hlast]
  rw [List.map_append, List.sum_append, List.map_singleton, List.sum_singleton]

theorem writeHistogram_reads (h : Readable seconds) {name : Bytes} (hname : Key name)
    {distribution : Distribution} {text : Bytes}
    (hwrite : writeHistogram seconds name distribution = some text) :
    distribution.count < 2 ^ 64 ∧ Reads text (distribution.samples seconds name) := by
  obtain ⟨⟨buckets, count⟩, hbuckets, hwrite⟩ := Option.bind_eq_some_iff.mp hwrite
  obtain ⟨total, htotal, hwrite⟩ := Option.bind_eq_some_iff.mp hwrite
  obtain rfl := Option.some.inj hwrite
  have hcount := writeBuckets_total hbuckets
  have hreads : Reads buckets
      (bucketSamples seconds name (boundsNs.zip distribution.buckets.toList) 0) :=
    writeBuckets_reads h hname hbuckets
  have hsum : total.toNat = distribution.count := by
    rw [addCount_eq htotal, hcount, count_eq]
    exact congrArg (· + _) (Nat.zero_add _)
  refine ⟨hsum ▸ total.toNat_lt, ?_⟩
  have htype : Reads (typeLine name (ascii "histogram")) [] := reads_type hname.1 (by decide)
  have hinf : Key (bucketKey name (ascii "+Inf")) :=
    (hname.append (by unfold Plain; decide)).append (plain_le (by unfold Plain; decide))
  have hcounts : Key (name ++ ascii "_count") := hname.append (by unfold Plain; decide)
  have hsums : Key (name ++ ascii "_sum") := hname.append (by unfold Plain; decide)
  rw [hsum]
  have htext := (((htype.append hreads).append
    (reads_sample hinf (plain_digits distribution.count).2)).append
      (reads_sample hcounts (plain_digits distribution.count).2)).append
        (reads_sample hsums (plain_seconds seconds h distribution.sumNs.toNat).2)
  unfold Distribution.samples
  simpa only [List.append_assoc, List.nil_append, List.cons_append] using htext

variable (seconds) in
theorem writeHistogram_isSome (name : Bytes) {distribution : Distribution}
    (hfits : distribution.count < 2 ^ 64) :
    (writeHistogram seconds name distribution).isSome = true := by
  rw [count_eq] at hfits
  have hbounded : (0 : UInt64).toNat + amounts (boundsNs.zip distribution.buckets.toList) < 2 ^ 64 := by
    rw [UInt64.toNat_zero, Nat.zero_add]
    exact Nat.lt_of_le_of_lt (Nat.le_add_right ..) hfits
  obtain ⟨⟨text, count⟩, hbuckets⟩ :=
    Option.isSome_iff_exists.mp (writeBuckets_isSome seconds name hbounded)
  have hcount := (writeBuckets_total hbuckets).trans (Nat.zero_add _)
  have hlast : addCount count distribution.buckets.back = some (count + distribution.buckets.back) := by
    refine if_pos ?_
    rw [hcount]
    exact hfits
  rw [writeHistogram, hbuckets, Option.bind_eq_bind, Option.bind_some]
  dsimp only
  rw [hlast]
  rfl

theorem writeHistograms_reads (h : Readable seconds) {d : Definition} {space : Bytes}
    {captured : Snapshot d} {ids : List d.Histogram} {text : Bytes}
    (hkeys : ∀ id ∈ ids, Key (series space (d.histogramName id)))
    (hwrite : writeHistograms seconds d space captured ids = some text) :
    Reads text (ids.flatMap fun id =>
      (captured.histograms id).samples seconds (series space (d.histogramName id))) := by
  induction ids generalizing text with
  | nil =>
      obtain rfl := Option.some.inj hwrite
      exact Reads.nil
  | cons id ids ih =>
      obtain ⟨first, hfirst, hwrite⟩ := Option.bind_eq_some_iff.mp hwrite
      obtain ⟨more, hmore, hwrite⟩ := Option.bind_eq_some_iff.mp hwrite
      obtain rfl := Option.some.inj hwrite
      rw [List.flatMap_cons]
      exact (writeHistogram_reads h (hkeys id (List.mem_cons_self ..)) hfirst).2.append
        (ih (fun other hother => hkeys other (List.mem_cons_of_mem _ hother)) hmore)

variable (seconds) in
theorem writeHistograms_isSome {d : Definition} (space : Bytes) {captured : Snapshot d}
    {ids : List d.Histogram} (hfits : ∀ id ∈ ids, (captured.histograms id).count < 2 ^ 64) :
    (writeHistograms seconds d space captured ids).isSome = true := by
  induction ids with
  | nil => rfl
  | cons id ids ih =>
      have hfirst := writeHistogram_isSome seconds (series space (d.histogramName id))
        (hfits id (List.mem_cons_self ..))
      have hmore := ih fun other hother => hfits other (List.mem_cons_of_mem _ hother)
      obtain ⟨first, hfirst⟩ := Option.isSome_iff_exists.mp hfirst
      obtain ⟨more, hmore⟩ := Option.isSome_iff_exists.mp hmore
      rw [writeHistograms, hfirst, Option.bind_eq_bind, Option.bind_some, hmore]
      rfl

/-! ### Names -/

theorem plain_name {name : Bytes} (h : name.all isNameByte = true) : Plain name := by
  refine ⟨fun hmem => ?_, fun hmem => ?_⟩
  · exact absurd (List.all_eq_true.mp h _ hmem) (by decide)
  · exact absurd (List.all_eq_true.mp h _ hmem) (by decide)

theorem validateName_all {name : Bytes} (h : validateName name = true) :
    name.all isNameByte = true := by
  cases name with
  | nil => cases h
  | cons c rest => exact (Bool.and_eq_true_iff.mp h).2

theorem series_all {space name : Bytes} (hspace : validateName space = true)
    (hname : name.all isNameByte = true) : (series space name).all isNameByte = true := by
  rw [series, List.all_append, List.all_cons, validateName_all hspace, hname]
  rfl

theorem series_key {space name : Bytes} (hspace : validateName space = true)
    (hname : name.all isNameByte = true) : Key (series space name) := by
  refine ⟨plain_name (series_all hspace hname), ?_⟩
  cases space with
  | nil => cases hspace
  | cons c rest =>
      refine ⟨c, rest ++ underscore :: name, rfl, ?_⟩
      rintro rfl
      exact absurd (List.all_eq_true.mp (validateName_all hspace) _ (List.mem_cons_self ..)) (by decide)

theorem field_valid {d : Definition} (h : d.validateNames = true) {name : Bytes} (hname : name ∈ d.fields) :
    name.all isNameByte = true :=
  validateName_all (List.all_eq_true.mp (Bool.and_eq_true_iff.mp h).1 name hname)

theorem counter_valid {d : Definition} (h : d.validateNames = true) {id : d.Counter}
    (hid : id ∈ d.counters) : (d.counterName id).all isNameByte = true :=
  field_valid h (List.mem_append_left _ (List.mem_append_left _ (List.mem_map_of_mem hid)))

theorem gauge_valid {d : Definition} (h : d.validateNames = true) {id : d.Gauge}
    (hid : id ∈ d.gauges) : (d.gaugeName id).all isNameByte = true :=
  field_valid h (List.mem_append_left _ (List.mem_append_right _ (List.mem_map_of_mem hid)))

theorem histogram_valid {d : Definition} (h : d.validateNames = true) {id : d.Histogram}
    (hid : id ∈ d.histograms) : (d.histogramName id).all isNameByte = true :=
  field_valid h (List.mem_append_right _ (List.mem_map_of_mem hid))

/-- The text of a valid definition gives the samples of the snapshot. -/
theorem write_reads (h : Readable seconds) {d : Definition} (hvalid : d.validateNames = true)
    {space : Bytes} (hspace : validateName space = true) {captured : Snapshot d} {text : Bytes}
    (hwrite : write seconds d space captured = some text) :
    Reads text (captured.samples seconds space) := by
  obtain ⟨histograms, hhistograms, hwrite⟩ := Option.bind_eq_some_iff.mp hwrite
  obtain rfl := Option.some.inj hwrite
  have hscalar : ∀ (kind : Bytes) {name : Bytes} (value : Nat), Ascii.lf ∉ kind →
      name.all isNameByte = true →
        Reads (typeLine (series space name) kind ++ sampleLine (series space name) (digits 10 value))
          [(series space name, digits 10 value)] := by
    intro kind name value hkind hname
    have hkey := series_key hspace hname
    exact (reads_type hkey.1 hkind).append (reads_sample hkey (plain_digits value).2)
  have hcounters := Reads.flatMap fun id hid => hscalar (ascii "counter")
    (captured.counters id).toNat (by decide) (counter_valid hvalid hid)
  have hgauges := Reads.flatMap fun id hid => hscalar (ascii "gauge")
    (captured.gauges id).toNat (by decide) (gauge_valid hvalid hid)
  have hrest := writeHistograms_reads h
    (fun id hid => series_key hspace (histogram_valid hvalid hid)) hhistograms
  have hall := (hcounters.append hgauges).append hrest
  unfold Snapshot.samples
  rw [List.map_eq_flatMap, List.map_eq_flatMap]
  exact hall

/-! ### Series -/

/-- The names under which a definition has samples, with the labels that these carry. -/
def Definition.families (seconds : Nat → Bytes) (d : Definition) : List (Bytes × List Bytes) :=
  (d.counters.map fun id => (d.counterName id, [[]])) ++
    (d.gauges.map fun id => (d.gaugeName id, [[]])) ++
    d.histograms.flatMap fun id =>
      [(d.histogramName id ++ ascii "_bucket", (boundsNs.map seconds ++ [ascii "+Inf"]).map le),
        (d.histogramName id ++ ascii "_count", [[]]), (d.histogramName id ++ ascii "_sum", [[]])]

/-- The series of a definition. -/
def Definition.keys (seconds : Nat → Bytes) (d : Definition) (space : Bytes) : List Bytes :=
  (d.families seconds).flatMap fun family => family.2.map (series space family.1 ++ ·)

theorem series_append (space name more : Bytes) :
    series space name ++ more = series space (name ++ more) := by
  rw [series, series, List.append_assoc, List.cons_append]

theorem bucketSamples_keys (name : Bytes) (bounds : List Nat) (values : List UInt64) (count : Nat)
    (hle : bounds.length ≤ values.length) :
    (bucketSamples seconds name (bounds.zip values) count).map Prod.fst =
      bounds.map fun bound => bucketKey name (seconds bound) := by
  induction bounds generalizing values count with
  | nil => rfl
  | cons bound bounds ih =>
      cases values with
      | nil => cases hle
      | cons value values =>
          rw [List.zip_cons_cons, bucketSamples, List.map_cons, ih values _ (Nat.le_of_succ_le_succ hle),
            List.map_cons]

theorem distribution_keys (distribution : Distribution) (space name : Bytes) :
    (distribution.samples seconds (series space name)).map Prod.fst =
      ((boundsNs.map seconds ++ [ascii "+Inf"]).map le).map
          (series space (name ++ ascii "_bucket") ++ ·) ++
        [series space (name ++ ascii "_count"), series space (name ++ ascii "_sum")] := by
  have hlength : boundsNs.length ≤ distribution.buckets.toList.length := by
    rw [Vector.length_toList]
    exact Nat.le_succ _
  rw [Distribution.samples, List.map_append, bucketSamples_keys _ _ _ _ hlength]
  simp only [List.map_append, List.map_map, List.map_cons, List.map_nil, List.append_assoc,
    List.cons_append, List.nil_append, series_append, bucketKey]
  rfl

theorem samples_keys {d : Definition} (space : Bytes) (captured : Snapshot d) :
    (captured.samples seconds space).map Prod.fst = d.keys seconds space := by
  unfold Snapshot.samples Definition.keys Definition.families
  rw [List.map_append, List.map_append, List.flatMap_append, List.flatMap_append, List.map_flatMap,
    List.flatMap_assoc, List.map_map, List.map_map, List.map_eq_flatMap, List.map_eq_flatMap,
    List.flatMap_map, List.flatMap_map]
  congr 1
  · congr 1
    · refine List.flatMap_congr fun id _ => ?_
      rw [List.map_singleton, List.append_nil]
      rfl
    · refine List.flatMap_congr fun id _ => ?_
      rw [List.map_singleton, List.append_nil]
      rfl
  · refine List.flatMap_congr fun id _ => ?_
    rw [distribution_keys, List.flatMap_cons, List.flatMap_cons, List.flatMap_cons, List.flatMap_nil,
      List.map_singleton, List.map_singleton, List.append_nil, List.append_nil, List.append_nil]
    rfl

/-- The names of the families are among those that `validateNames` compares. -/
theorem families_sublist (d : Definition) :
    ((d.families seconds).map Prod.fst).Sublist d.emitted := by
  unfold Definition.families Definition.emitted
  rw [List.map_append, List.map_append, List.map_map, List.map_map, List.map_flatMap]
  refine List.Sublist.append (List.Sublist.refl _) ?_
  induction d.histograms with
  | nil => exact List.Sublist.refl _
  | cons id ids ih =>
      rw [List.flatMap_cons, List.flatMap_cons]
      exact (List.sublist_cons_self ..).append ih

theorem family_valid {d : Definition} (h : d.validateNames = true) {family : Bytes × List Bytes}
    (hfamily : family ∈ d.families seconds) : family.1.all isNameByte = true := by
  rcases List.mem_append.mp hfamily with hfamily | hfamily
  · rcases List.mem_append.mp hfamily with hfamily | hfamily
    · obtain ⟨id, hid, rfl⟩ := List.mem_map.mp hfamily
      exact counter_valid h hid
    · obtain ⟨id, hid, rfl⟩ := List.mem_map.mp hfamily
      exact gauge_valid h hid
  · obtain ⟨id, hid, hfamily⟩ := List.mem_flatMap.mp hfamily
    have hname := histogram_valid h hid
    have hsuffix : ∀ suffix : Bytes, suffix.all isNameByte = true →
        (d.histogramName id ++ suffix).all isNameByte = true := by
      intro suffix hsuffix
      rw [List.all_append, hname, hsuffix]
      rfl
    simp only [List.mem_cons, List.not_mem_nil, or_false] at hfamily
    rcases hfamily with rfl | rfl | rfl
    · exact hsuffix _ (by decide)
    · exact hsuffix _ (by decide)
    · exact hsuffix _ (by decide)

/-- A label is empty or begins with a brace. -/
theorem family_labels {d : Definition} {family : Bytes × List Bytes}
    (hfamily : family ∈ d.families seconds) {label : Bytes} (hlabel : label ∈ family.2) :
    label = [] ∨ ∃ rest, label = brace :: rest := by
  rcases List.mem_append.mp hfamily with hfamily | hfamily
  · rcases List.mem_append.mp hfamily with hfamily | hfamily
    · obtain ⟨id, -, rfl⟩ := List.mem_map.mp hfamily
      exact .inl (List.mem_singleton.mp hlabel)
    · obtain ⟨id, -, rfl⟩ := List.mem_map.mp hfamily
      exact .inl (List.mem_singleton.mp hlabel)
  · obtain ⟨id, -, hfamily⟩ := List.mem_flatMap.mp hfamily
    simp only [List.mem_cons, List.not_mem_nil, or_false] at hfamily
    rcases hfamily with rfl | rfl | rfl
    · obtain ⟨bound, -, rfl⟩ := List.mem_map.mp hlabel
      exact .inr ⟨_, rfl⟩
    · exact .inl (List.mem_singleton.mp hlabel)
    · exact .inl (List.mem_singleton.mp hlabel)

theorem le_inj {first second : Bytes} (h : le first = le second) : first = second := by
  have hcons : ascii "le=\"" ++ first ++ ascii "\"\x7d" = ascii "le=\"" ++ second ++ ascii "\"\x7d" :=
    (List.cons.inj h).2
  exact List.append_cancel_left (List.append_cancel_right hcons)

theorem family_distinct (h : Readable seconds) {d : Definition} {family : Bytes × List Bytes}
    (hfamily : family ∈ d.families seconds) : family.2.Nodup := by
  rcases List.mem_append.mp hfamily with hfamily | hfamily
  · rcases List.mem_append.mp hfamily with hfamily | hfamily
    · obtain ⟨id, -, rfl⟩ := List.mem_map.mp hfamily
      exact List.nodup_singleton _
    · obtain ⟨id, -, rfl⟩ := List.mem_map.mp hfamily
      exact List.nodup_singleton _
  · obtain ⟨id, -, hfamily⟩ := List.mem_flatMap.mp hfamily
    simp only [List.mem_cons, List.not_mem_nil, or_false] at hfamily
    rcases hfamily with rfl | rfl | rfl
    · refine List.Nodup.map (fun first second => le_inj) ?_
      refine List.nodup_append.mpr ⟨h.apart, List.nodup_singleton _, fun text hmem other hother => ?_⟩
      rintro rfl
      rw [List.mem_singleton.mp hother] at hmem
      obtain ⟨bound, -, hbound⟩ := List.mem_map.mp hmem
      have hplus : (43 : UInt8) ∈ seconds bound := by
        rw [hbound]
        decide
      rcases h.decimal bound _ hplus with hdigit | hdot
      · cases hdigit
      · cases hdot
    · exact List.nodup_singleton _
    · exact List.nodup_singleton _

/-- What a key has in front of its label. -/
theorem key_name {name label : Bytes} (hname : name.all isNameByte = true)
    (hlabel : label = [] ∨ ∃ rest, label = brace :: rest) :
    (name ++ label).takeWhile isNameByte = name := by
  rw [List.takeWhile_append_of_pos (List.all_eq_true.mp hname)]
  rcases hlabel with rfl | ⟨rest, rfl⟩
  · exact List.append_nil name
  · rw [List.takeWhile_cons_of_neg (by decide), List.append_nil]

theorem series_inj {space first second : Bytes} (h : series space first = series space second) :
    first = second := (List.cons.inj (List.append_cancel_left h)).2

/-- The samples of a valid definition have different series. -/
theorem keys_nodup (h : Readable seconds) {d : Definition} (hvalid : d.validateNames = true)
    {space : Bytes} (hspace : validateName space = true) : (d.keys seconds space).Nodup := by
  have hemitted : d.emitted.Nodup := of_decide_eq_true (Bool.and_eq_true_iff.mp hvalid).2
  have hnames := List.pairwise_map.mp ((@families_sublist seconds d).nodup hemitted)
  refine List.nodup_flatMap.mpr ⟨fun family hfamily => ?_, ?_⟩
  · exact (family_distinct h hfamily).map fun first second => List.append_cancel_left
  · refine hnames.imp_of_mem fun {family other} hfamily hother hne => ?_
    intro key hkey hshared
    obtain ⟨label, hlabel, rfl⟩ := List.mem_map.mp hkey
    obtain ⟨more, hmore, heq⟩ := List.mem_map.mp hshared
    have hfirst := key_name (series_all hspace (family_valid hvalid hfamily))
      (family_labels hfamily hlabel)
    have hsecond := key_name (series_all hspace (family_valid hvalid hother))
      (family_labels hother hmore)
    rw [heq] at hsecond
    exact hne (series_inj (hfirst.symm.trans hsecond))

end Zhtps.Metrics
