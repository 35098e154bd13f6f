import Zhtps.Metrics.Exposition

/-!
The metrics of all workers, after `Snapshot.merge` in `src/Metrics.zig` and `aggregateMetrics` and
`writePrometheus` in `src/server/worker.zig`: what a scrape reads when no update is under way is what
all the updates of all workers come to.
-/

namespace Zhtps.Metrics

open Response (digits)

inductive Gauge
  | connectionsActive
  | requestsActive
  | rejectionsActive
  | ioPending
  | logPending
  | bufferBytesActive
  | bufferBytesCached
  | connectionBufferBytesActive
  | connectionBufferBytesCached
  | requestStorageActive
  | requestStorageCached
  | http2StreamsActive
  | http2StreamsCached
  | http2BytesAllocated
  | draining
  deriving DecidableEq, Repr

def Gauge.all : List Gauge :=
  [.connectionsActive, .requestsActive, .rejectionsActive, .ioPending, .logPending,
    .bufferBytesActive, .bufferBytesCached, .connectionBufferBytesActive,
    .connectionBufferBytesCached, .requestStorageActive, .requestStorageCached,
    .http2StreamsActive, .http2StreamsCached, .http2BytesAllocated, .draining]

def Counter.tagName : Counter → Bytes
  | .connectionsAcceptedTotal => ascii "connections_accepted_total"
  | .connectionsClosedTotal => ascii "connections_closed_total"
  | .connectionsRefusedTotal => ascii "connections_refused_total"
  | .connectionsIdleClosedTotal => ascii "connections_idle_closed_total"
  | .connectionsReclaimedTotal => ascii "connections_reclaimed_total"
  | .connectionReclaimTimeoutsTotal => ascii "connection_reclaim_timeouts_total"
  | .tlsHandshakesTotal => ascii "tls_handshakes_total"
  | .tlsSessionsReusedTotal => ascii "tls_sessions_reused_total"
  | .tlsErrorsTotal => ascii "tls_errors_total"
  | .tlsHandshakeTimeoutsTotal => ascii "tls_handshake_timeouts_total"
  | .requestsTotal => ascii "requests_total"
  | .requestsAdmittedTotal => ascii "requests_admitted_total"
  | .requestsRejectedTotal => ascii "requests_rejected_total"
  | .requestsClosedBeforeHeadTotal => ascii "requests_closed_before_head_total"
  | .requestsCompletedTotal => ascii "requests_completed_total"
  | .requestsAbortedTotal => ascii "requests_aborted_total"
  | .protocolErrorsTotal => ascii "protocol_errors_total"
  | .requestTimeoutsTotal => ascii "request_timeouts_total"
  | .headerTimeoutsTotal => ascii "header_timeouts_total"
  | .bodyTimeoutsTotal => ascii "body_timeouts_total"
  | .applicationTimeoutsTotal => ascii "application_timeouts_total"
  | .applicationQueueRejectionsTotal => ascii "application_queue_rejections_total"
  | .writeTimeoutsTotal => ascii "write_timeouts_total"
  | .peerDisconnectsTotal => ascii "peer_disconnects_total"
  | .bytesReceivedTotal => ascii "bytes_received_total"
  | .bytesSentTotal => ascii "bytes_sent_total"
  | .ioSubmissionsTotal => ascii "io_submissions_total"
  | .ioCompletionsTotal => ascii "io_completions_total"
  | .ioErrorsTotal => ascii "io_errors_total"
  | .responseBatchesTotal => ascii "response_batches_total"
  | .responsesBatchedTotal => ascii "responses_batched_total"
  | .responseBatchFallbacksTotal => ascii "response_batch_fallbacks_total"
  | .bufferAllocationsTotal => ascii "buffer_allocations_total"
  | .bufferExhaustionsTotal => ascii "buffer_exhaustions_total"
  | .connectionBufferAllocationsTotal => ascii "connection_buffer_allocations_total"
  | .connectionBufferExhaustionsTotal => ascii "connection_buffer_exhaustions_total"
  | .requestStorageAllocationsTotal => ascii "request_storage_allocations_total"
  | .requestStorageExhaustionsTotal => ascii "request_storage_exhaustions_total"
  | .logEventsTotal => ascii "log_events_total"
  | .logDroppedTotal => ascii "log_dropped_total"
  | .logWriteErrorsTotal => ascii "log_write_errors_total"
  | .metricsPushesTotal => ascii "metrics_pushes_total"
  | .metricsPushErrorsTotal => ascii "metrics_push_errors_total"
  | .rejectionAbortedTotal => ascii "rejection_aborted_total"
  | .responses1xxTotal => ascii "responses_1xx_total"
  | .responses2xxTotal => ascii "responses_2xx_total"
  | .responses3xxTotal => ascii "responses_3xx_total"
  | .responses4xxTotal => ascii "responses_4xx_total"
  | .responses5xxTotal => ascii "responses_5xx_total"

def Gauge.tagName : Gauge → Bytes
  | .connectionsActive => ascii "connections_active"
  | .requestsActive => ascii "requests_active"
  | .rejectionsActive => ascii "rejections_active"
  | .ioPending => ascii "io_pending"
  | .logPending => ascii "log_pending"
  | .bufferBytesActive => ascii "buffer_bytes_active"
  | .bufferBytesCached => ascii "buffer_bytes_cached"
  | .connectionBufferBytesActive => ascii "connection_buffer_bytes_active"
  | .connectionBufferBytesCached => ascii "connection_buffer_bytes_cached"
  | .requestStorageActive => ascii "request_storage_active"
  | .requestStorageCached => ascii "request_storage_cached"
  | .http2StreamsActive => ascii "http2_streams_active"
  | .http2StreamsCached => ascii "http2_streams_cached"
  | .http2BytesAllocated => ascii "http2_bytes_allocated"
  | .draining => ascii "draining"

def Histogram.tagName : Histogram → Bytes
  | .requestDurationSeconds => ascii "request_duration_seconds"
  | .admittedDurationSeconds => ascii "admitted_duration_seconds"
  | .rejectedDurationSeconds => ascii "rejected_duration_seconds"
  | .abortedDurationSeconds => ascii "aborted_duration_seconds"
  | .adminDurationSeconds => ascii "admin_duration_seconds"
  | .timeToFirstByteSeconds => ascii "time_to_first_byte_seconds"
  | .headerDurationSeconds => ascii "header_duration_seconds"
  | .eventLoopDurationSeconds => ascii "event_loop_duration_seconds"

/-- The metrics of the server. -/
def server : Definition where
  Counter := Counter
  Gauge := Gauge
  Histogram := Histogram
  counters := Counter.all
  gauges := Gauge.all
  histograms := Histogram.all
  counterName := Counter.tagName
  gaugeName := Gauge.tagName
  histogramName := Histogram.tagName

/-- A snapshot of atomics that nobody changes meanwhile. -/
def capture (cells : Cell → UInt64) (gauges : Gauge → UInt64) : Snapshot server where
  counters counter := cells (.counter counter)
  gauges := gauges
  histograms histogram :=
    { buckets := Vector.ofFn fun index => cells (.bucket histogram index)
      sumNs := cells (.sumNs histogram) }

def Distribution.zero : Distribution := { buckets := Vector.replicate _ 0, sumNs := 0 }

def Snapshot.zero (d : Definition) : Snapshot d where
  counters _ := 0
  gauges _ := 0
  histograms _ := .zero

def Distribution.merge (captured other : Distribution) : Distribution where
  buckets := Vector.zipWith (· + ·) captured.buckets other.buckets
  sumNs := captured.sumNs + other.sumNs

/-- Draining is a flag; the other gauges are added with a check. -/
def mergeGauge (id : Gauge) (total amount : UInt64) : Option UInt64 :=
  if id = .draining then some (max total amount) else addCount total amount

def merge (captured other : Snapshot server) : Option (Snapshot server) :=
  if Gauge.all.all fun id => (mergeGauge id (captured.gauges id) (other.gauges id)).isSome then
    some
      { counters := fun counter => captured.counters counter + other.counters counter
        gauges := fun id => (mergeGauge id (captured.gauges id) (other.gauges id)).getD 0
        histograms := fun histogram => (captured.histograms histogram).merge (other.histograms histogram) }
  else none

/-- The loop over the snapshots of the workers. -/
def mergeAll (captured : Snapshot server) : List (Snapshot server) → Option (Snapshot server)
  | [] => some captured
  | other :: rest => (merge captured other).bind (mergeAll · rest)

/-- `aggregateMetrics`, of a worker that is alone or of all workers. -/
def aggregateMetrics (own : Snapshot server) : Option (List (Snapshot server)) → Option (Snapshot server)
  | none => some own
  | some workers => mergeAll (.zero server) workers

/-- `writePrometheus`; without metrics of the application its definition is empty. -/
def writePrometheus (seconds : Nat → Bytes) (captured : Snapshot server) (d : Definition) (space : Bytes)
    (application : Snapshot d) : Option Bytes := do
  let text ← write seconds server (ascii "zhtps") captured
  let more ← write seconds d space application
  some (text ++ more)

/-! ### The series of server and application -/

variable {seconds : Nat → Bytes}

theorem server_valid : server.validateNames = true := by
  decide +kernel

/-- A series of the server begins with its reserved prefix. -/
theorem key_prefix {d : Definition} {space key : Bytes} (hkey : key ∈ d.keys seconds space) :
    ∃ rest, key = space ++ underscore :: rest := by
  obtain ⟨family, -, hkey⟩ := List.mem_flatMap.mp hkey
  obtain ⟨label, -, rfl⟩ := List.mem_map.mp hkey
  exact ⟨family.1 ++ label, by rw [series, List.append_assoc, List.cons_append]⟩

/-- A namespace that passes keeps off the prefix of the server. -/
theorem namespace_apart {space first second : Bytes} (h : validateNamespace space = true) :
    ascii "zhtps" ++ underscore :: first ≠ space ++ underscore :: second := by
  intro heq
  obtain ⟨hequal, hbegins⟩ := Bool.or_eq_false_iff.mp
    (Bool.not_eq_true' _ ▸ (Bool.and_eq_true_iff.mp h).2)
  have hspelt : ascii "zhtps" ++ underscore :: first = ascii "zhtps_" ++ first := by
    have hreserved : ascii "zhtps_" = ascii "zhtps" ++ [underscore] := by decide
    rw [hreserved, List.append_assoc, List.singleton_append]
  rw [hspelt] at heq
  rcases List.append_eq_append_iff.mp heq with ⟨rest, hspace, -⟩ | ⟨rest, hspace, hrest⟩
  · have htrue : (ascii "zhtps_").isPrefixOf space = true :=
      List.isPrefixOf_iff_prefix.mpr ⟨rest, hspace.symm⟩
    rw [htrue] at hbegins
    cases hbegins
  · cases rest with
    | nil =>
        have htrue : (ascii "zhtps_").isPrefixOf space = true :=
          List.isPrefixOf_iff_prefix.mpr ⟨[], by rw [hspace, List.append_nil, List.append_nil]⟩
        rw [htrue] at hbegins
        cases hbegins
    | cons c rest =>
        -- the only underscore of the prefix is its last byte
        obtain rfl : underscore = c := (List.cons.inj hrest).1
        have hat : (ascii "zhtps_")[space.length]? = some underscore := by
          rw [hspace, List.getElem?_append_right (Nat.le_refl _), Nat.sub_self]
          rfl
        have hlt : space.length < 6 := by
          have hlength := congrArg List.length hspace
          rw [List.length_append, List.length_cons] at hlength
          have hsix : (ascii "zhtps_").length = 6 := by decide
          omega
        have honly : ∀ n < 6, (ascii "zhtps_")[n]? = some underscore → n = 5 := by decide
        have htake : space = (ascii "zhtps_").take space.length := by
          rw [hspace, List.take_left]
        rw [honly _ hlt hat] at htake
        have hname : (ascii "zhtps_").take 5 = ascii "zhtps" := by decide
        rw [htake, hname, beq_self_eq_true] at hequal
        cases hequal

/-- Any two samples of the text have different series, and they are the samples of the two snapshots:
no metric of an application that passes the validation takes the place of another. -/
theorem series_distinct (h : Readable seconds) {d : Definition} (hvalid : d.validateNames = true)
    {space : Bytes} (hspace : validateNamespace space = true) {captured : Snapshot server}
    {application : Snapshot d} {text : Bytes}
    (hwrite : writePrometheus seconds captured d space application = some text) :
    scrape text = captured.samples seconds (ascii "zhtps") ++ application.samples seconds space ∧
      ((scrape text).map Prod.fst).Nodup := by
  obtain ⟨own, hown, hwrite⟩ := Option.bind_eq_some_iff.mp hwrite
  obtain ⟨more, hmore, hwrite⟩ := Option.bind_eq_some_iff.mp hwrite
  obtain rfl := Option.some.inj hwrite
  have hreserved : validateName (ascii "zhtps") = true := by decide
  have hname : validateName space = true := (Bool.and_eq_true_iff.mp hspace).1
  have hreads := (write_reads h server_valid hreserved hown).append (write_reads h hvalid hname hmore)
  have hscrape : scrape (own ++ more) =
      captured.samples seconds (ascii "zhtps") ++ application.samples seconds space := by
    have hall := hreads []
    rw [List.append_nil] at hall
    exact hall.trans (List.append_nil _)
  refine ⟨hscrape, ?_⟩
  rw [hscrape, List.map_append, samples_keys, samples_keys]
  refine List.nodup_append.mpr ⟨keys_nodup h server_valid hreserved, keys_nodup h hvalid hname, ?_⟩
  intro key hkey other hother
  obtain ⟨first, rfl⟩ := key_prefix hkey
  obtain ⟨second, rfl⟩ := key_prefix hother
  exact namespace_apart hspace

/-- Seconds without trailing zeros, as `{d}` writes those that a float holds exactly or nearly so. -/
def exactSeconds (nanoseconds : Nat) : Bytes :=
  let fraction := (((List.range 9).map fun i => nanoseconds / 10 ^ i % 10).dropWhile (· == 0)).reverse
  digits 10 (nanoseconds / 10 ^ 9) ++
    if fraction = [] then [] else 46 :: fraction.map Response.digitByte

theorem exactSeconds_readable : Readable exactSeconds := by
  refine ⟨fun nanoseconds c hc => ?_, by decide +kernel⟩
  rcases List.mem_append.mp hc with hc | hc
  · exact .inl (Response.isDigit_of_mem_digits hc)
  · split at hc
    · cases hc
    · rcases List.mem_cons.mp hc with hc | hc
      · exact .inr hc
      · obtain ⟨digit, hdigit, rfl⟩ := List.mem_map.mp hc
        have hmem := (List.dropWhile_sublist _).subset (List.mem_reverse.mp hdigit)
        obtain ⟨i, -, rfl⟩ := List.mem_map.mp hmem
        have hall : ∀ d : Fin 10, Ascii.isDigit (Response.digitByte d) = true := by decide
        exact .inl (hall ⟨_, Nat.mod_lt _ (by decide)⟩)

/-- A counter, a gauge and a histogram. -/
def sampleDefinition : Definition where
  Counter := Unit
  Gauge := Unit
  Histogram := Unit
  counters := [()]
  gauges := [()]
  histograms := [()]
  counterName _ := ascii "widgets_created_total"
  gaugeName _ := ascii "jobs_active"
  histogramName _ := ascii "auth_duration_seconds"

theorem series_distinct_sample : ∃ text,
    writePrometheus exactSeconds (.zero server) sampleDefinition (ascii "test_app") (.zero _) = some text ∧
      ((scrape text).map Prod.fst).Nodup := by
  have hwrite : writePrometheus exactSeconds (.zero server) sampleDefinition (ascii "test_app") (.zero _) =
      some _ := rfl
  exact ⟨_, hwrite, (series_distinct exactSeconds_readable (by decide) (by decide) hwrite).2⟩

/-! ### The bucket of a duration -/

theorem bucketFrom_ge (nanoseconds : Nat) (bounds : List Nat) (bucket : Nat) :
    bucket ≤ bucketFrom nanoseconds bounds bucket := by
  induction bounds generalizing bucket with
  | nil => exact Nat.le_refl _
  | cons bound bounds ih =>
      unfold bucketFrom
      split
      · exact Nat.le_of_succ_le (ih (bucket + 1))
      · exact Nat.le_refl _

theorem bucketFrom_le (nanoseconds : Nat) (bounds : List Nat) (bucket : Nat) :
    bucketFrom nanoseconds bounds bucket ≤ bucket + bounds.length := by
  induction bounds generalizing bucket with
  | nil => exact Nat.le_refl _
  | cons bound bounds ih =>
      unfold bucketFrom
      split
      · have hle := ih (bucket + 1)
        rw [List.length_cons]
        omega
      · exact Nat.le_add_right ..

/-- In sorted bounds the loop stops behind all bounds that are too small. -/
theorem bucketFrom_le_iff {bounds : List Nat} (hsorted : bounds.Pairwise (· < ·)) (nanoseconds bucket : Nat)
    {index bound : Nat} (hbound : bounds[index]? = some bound) :
    bucketFrom nanoseconds bounds bucket ≤ bucket + index ↔ nanoseconds ≤ bound := by
  induction bounds generalizing bucket index with
  | nil => cases hbound
  | cons first bounds ih =>
      obtain ⟨hfirst, hrest⟩ := List.pairwise_cons.mp hsorted
      unfold bucketFrom
      split
      · rename_i hlt
        cases index with
        | zero =>
            obtain rfl := Option.some.inj hbound
            have hge := bucketFrom_ge nanoseconds bounds (bucket + 1)
            omega
        | succ index =>
            rw [← ih hrest (bucket + 1) hbound]
            omega
      · rename_i hle
        have hbounded : first ≤ bound := by
          cases index with
          | zero => exact Nat.le_of_eq (Option.some.inj hbound)
          | succ index => exact Nat.le_of_lt (hfirst bound (List.mem_of_getElem? hbound))
        omega

theorem bucketOf_le_iff {nanoseconds index bound : Nat} (hbound : boundsNs[index]? = some bound) :
    bucketOf nanoseconds ≤ index ↔ nanoseconds ≤ bound := by
  have hiff := bucketFrom_le_iff (by decide) nanoseconds 0 hbound
  rwa [Nat.zero_add] at hiff

theorem bucketOf_lt (nanoseconds : Nat) : bucketOf nanoseconds < boundsNs.length + 1 :=
  Nat.lt_succ_of_le ((bucketFrom_le nanoseconds boundsNs 0).trans (Nat.le_of_eq (Nat.zero_add _)))

theorem countP_bucket_succ (durations : List Nat) (index : Nat) :
    durations.countP (fun duration => bucketOf duration < index + 1) =
      durations.countP (fun duration => bucketOf duration < index) +
        durations.countP fun duration => bucketOf duration == index := by
  induction durations with
  | nil => rfl
  | cons duration durations ih =>
      simp only [List.countP_cons, ih, decide_eq_true_eq, beq_iff_eq]
      split_ifs <;> omega

/-- The counts up to a bucket are those of the durations up to its bound. -/
theorem countP_bound (durations : List Nat) {index bound : Nat} (hbound : boundsNs[index]? = some bound) :
    durations.countP (fun duration => bucketOf duration < index + 1) =
      durations.countP fun duration => decide (duration ≤ bound) := by
  refine List.countP_congr fun duration _ => ?_
  rw [decide_eq_true_eq, decide_eq_true_eq, Nat.lt_succ_iff]
  exact bucketOf_le_iff hbound

/-! ### Totals -/

/-- A snapshot that says what some updates come to. -/
structure Snapshot.Settled (captured : Snapshot server) (changes : List Update) : Prop where
  counters : ∀ counter : Counter, (captured.counters counter).toNat =
    (changes.map (Update.counted counter)).sum % 2 ^ 64
  buckets : ∀ (histogram : Histogram) (index : Fin (boundsNs.length + 1)),
    ((captured.histograms histogram).buckets.get index).toNat =
      ((observations histogram changes).countP fun nanoseconds => bucketOf nanoseconds == index) % 2 ^ 64
  sums : ∀ histogram : Histogram, ((captured.histograms histogram).sumNs).toNat =
    (observations histogram changes).sum % 2 ^ 64

theorem settled_zero : (Snapshot.zero server).Settled [] := by
  refine ⟨fun _ => rfl, fun histogram index => ?_, fun _ => rfl⟩
  have hzero : (Vector.replicate (boundsNs.length + 1) (0 : UInt64)).get index = 0 :=
    Vector.getElem_replicate ..
  exact congrArg UInt64.toNat hzero

theorem settled_capture {t r : Nat} {events : List (Event t r)} {s : State t r}
    (hrun : run init events = some s) (hpending : s.pending = []) (gauges : Gauge → UInt64) :
    (capture s.cells gauges).Settled (updates events) := by
  obtain ⟨hcounters, hbuckets, hsums⟩ := (no_lost_update hrun).2.2 hpending
  refine ⟨hcounters, fun histogram index => ?_, hsums⟩
  have hget : (Vector.ofFn fun index : Fin (boundsNs.length + 1) =>
      s.cells (.bucket histogram index)).get index = s.cells (.bucket histogram index) :=
    Vector.getElem_ofFn ..
  exact (congrArg UInt64.toNat hget).trans (hbuckets histogram index)

theorem toNat_add_mod {first second : UInt64} {n m : Nat} (hfirst : first.toNat = n % 2 ^ 64)
    (hsecond : second.toNat = m % 2 ^ 64) : (first + second).toNat = (n + m) % 2 ^ 64 := by
  rw [UInt64.toNat_add, hfirst, hsecond, ← Nat.add_mod]

theorem Snapshot.Settled.merge {captured other total : Snapshot server} {changes more : List Update}
    (h : captured.Settled changes) (hother : other.Settled more) (hmerge : merge captured other = some total) :
    total.Settled (changes ++ more) := by
  unfold Metrics.merge at hmerge
  split_ifs at hmerge
  obtain rfl := Option.some.inj hmerge
  have happend : ∀ histogram, observations histogram (changes ++ more) =
      observations histogram changes ++ observations histogram more := fun _ => List.filterMap_append
  refine ⟨fun counter => ?_, fun histogram index => ?_, fun histogram => ?_⟩
  · rw [List.map_append, List.sum_append]
    exact toNat_add_mod (h.counters counter) (hother.counters counter)
  · rw [happend, List.countP_append]
    have hget : (Vector.zipWith (· + ·) (captured.histograms histogram).buckets
        (other.histograms histogram).buckets).get index =
          (captured.histograms histogram).buckets.get index +
            (other.histograms histogram).buckets.get index := Vector.getElem_zipWith ..
    exact (congrArg UInt64.toNat hget).trans
      (toNat_add_mod (h.buckets histogram index) (hother.buckets histogram index))
  · rw [happend, List.sum_append]
    exact toNat_add_mod (h.sums histogram) (hother.sums histogram)

theorem settled_mergeAll {captured total : Snapshot server} {changes : List Update}
    {others : List (Snapshot server × List Update)} (h : captured.Settled changes)
    (hothers : ∀ other ∈ others, other.1.Settled other.2)
    (hmerge : mergeAll captured (others.map Prod.fst) = some total) :
    total.Settled (changes ++ others.flatMap Prod.snd) := by
  induction others generalizing captured changes with
  | nil =>
      obtain rfl := Option.some.inj hmerge
      rw [List.flatMap_nil, List.append_nil]
      exact h
  | cons other others ih =>
      obtain ⟨next, hnext, hrest⟩ := Option.bind_eq_some_iff.mp hmerge
      have hmerged := h.merge (hothers other (List.mem_cons_self ..)) hnext
      have hall := ih hmerged (fun more hmore => hothers more (List.mem_cons_of_mem _ hmore)) hrest
      rw [List.flatMap_cons, ← List.append_assoc]
      exact hall

/-- Buckets from some index on that hold the counts of durations. -/
def Holds (durations : List Nat) (index : Nat) (values : List UInt64) : Prop :=
  ∀ j value, values[j]? = some value →
    value.toNat = durations.countP fun duration => bucketOf duration == index + j

theorem Holds.cons {durations : List Nat} {index : Nat} {value : UInt64} {values : List UInt64}
    (h : Holds durations index (value :: values)) :
    value.toNat = durations.countP (fun duration => bucketOf duration == index) ∧
      Holds durations (index + 1) values := by
  refine ⟨h 0 value rfl, fun j other hother => ?_⟩
  rw [Nat.add_assoc, Nat.add_comm 1 j]
  exact h (j + 1) other hother

theorem Holds.sum {durations : List Nat} {index : Nat} {values : List UInt64}
    (h : Holds durations index values) :
    durations.countP (fun duration => bucketOf duration < index) + (values.map UInt64.toNat).sum =
      durations.countP fun duration => bucketOf duration < index + values.length := by
  induction values generalizing index with
  | nil => rfl
  | cons value values ih =>
      obtain ⟨hvalue, hrest⟩ := h.cons
      rw [List.map_cons, List.sum_cons, ← Nat.add_assoc, hvalue, ← countP_bucket_succ, ih hrest,
        List.length_cons, Nat.add_assoc, Nat.add_comm 1]

/-- The cumulative counts are those of the durations up to each bound. -/
theorem Holds.samples {durations : List Nat} (name : Bytes) {index : Nat} {bounds : List Nat}
    {values : List UInt64} (h : Holds durations index values) (hdrop : boundsNs.drop index = bounds)
    (hle : bounds.length ≤ values.length) :
    bucketSamples seconds name (bounds.zip values)
        (durations.countP fun duration => bucketOf duration < index) =
      bounds.map fun bound => (bucketKey name (seconds bound),
        digits 10 (durations.countP fun duration => decide (duration ≤ bound))) := by
  induction bounds generalizing index values with
  | nil => rfl
  | cons bound bounds ih =>
      cases values with
      | nil => cases hle
      | cons value values =>
          obtain ⟨hvalue, hrest⟩ := h.cons
          have hbound : boundsNs[index]? = some bound := by
            rw [← List.head?_drop, hdrop]
            rfl
          have hnext : boundsNs.drop (index + 1) = bounds := by
            rw [← List.tail_drop, hdrop]
            rfl
          rw [List.zip_cons_cons, bucketSamples, hvalue, ← countP_bucket_succ, List.map_cons,
            ih hrest hnext (Nat.le_of_succ_le_succ hle), countP_bound durations hbound]

theorem Snapshot.Settled.holds {captured : Snapshot server} {changes : List Update}
    (h : captured.Settled changes) {histogram : Histogram}
    (hfits : (observations histogram changes).length < 2 ^ 64) :
    Holds (observations histogram changes) 0 (captured.histograms histogram).buckets.toList := by
  intro j value hvalue
  obtain ⟨hj, hvalue⟩ := List.getElem?_eq_some_iff.mp hvalue
  have hindex : j < boundsNs.length + 1 := by
    rwa [Vector.length_toList] at hj
  have hbucket := h.buckets histogram ⟨j, hindex⟩
  rw [Nat.mod_eq_of_lt (Nat.lt_of_le_of_lt List.countP_le_length hfits)] at hbucket
  rw [← hvalue, Nat.zero_add]
  exact hbucket

theorem Snapshot.Settled.count {captured : Snapshot server} {changes : List Update}
    (h : captured.Settled changes) {histogram : Histogram}
    (hfits : (observations histogram changes).length < 2 ^ 64) :
    (captured.histograms histogram).count = (observations histogram changes).length := by
  have hsum := (h.holds hfits).sum
  have hnone : (observations histogram changes).countP (fun duration => decide (bucketOf duration < 0)) = 0 :=
    List.countP_eq_zero.mpr fun duration _ => by rw [decide_eq_true_eq]; exact Nat.not_lt_zero _
  rw [hnone, Nat.zero_add, Vector.length_toList, Nat.zero_add] at hsum
  refine hsum.trans (List.countP_eq_length.mpr fun duration _ => ?_)
  exact decide_eq_true (bucketOf_lt duration)

theorem mem_counters (counter : Counter) : counter ∈ Counter.all := by
  cases counter <;> decide

theorem mem_histograms (histogram : Histogram) : histogram ∈ Histogram.all := by
  cases histogram <;> decide

/-- When no update is under way and no histogram has wrapped, a scrape of the merged metrics reads for
each bound how many of all workers' durations are at most that, their number and their sum, and each
counter is what all updates add to it. -/
theorem exposition_counts (h : Readable seconds) {t r : Nat}
    {workers : List (List (Event t r) × State t r × (Gauge → UInt64))}
    (hruns : ∀ worker ∈ workers, run init worker.1 = some worker.2.1 ∧ worker.2.1.pending = [])
    {own total : Snapshot server}
    (htotal : aggregateMetrics own
      (some (workers.map fun worker => capture worker.2.1.cells worker.2.2)) = some total)
    (hfits : ∀ histogram,
      (observations histogram (workers.flatMap fun worker => updates worker.1)).length < 2 ^ 64) :
    ∃ text, write seconds server (ascii "zhtps") total = some text ∧
      (∀ histogram : Histogram, ∀ name durations,
        name = series (ascii "zhtps") histogram.tagName →
          durations = observations histogram (workers.flatMap fun worker => updates worker.1) →
            (∀ bound ∈ boundsNs, (bucketKey name (seconds bound),
                digits 10 (durations.countP fun duration => decide (duration ≤ bound))) ∈ scrape text) ∧
              (bucketKey name (ascii "+Inf"), digits 10 durations.length) ∈ scrape text ∧
              (name ++ ascii "_count", digits 10 durations.length) ∈ scrape text ∧
              (name ++ ascii "_sum", seconds (durations.sum % 2 ^ 64)) ∈ scrape text) ∧
      ∀ counter : Counter, (series (ascii "zhtps") counter.tagName,
        digits 10 (((workers.flatMap fun worker => updates worker.1).map
          (Update.counted counter)).sum % 2 ^ 64)) ∈ scrape text := by
  have hsettled : total.Settled (workers.flatMap fun worker => updates worker.1) := by
    have hall := @settled_mergeAll (.zero server) total []
      (workers.map fun worker => (capture worker.2.1.cells worker.2.2, updates worker.1)) settled_zero ?_ ?_
    · rw [List.nil_append, List.flatMap_map] at hall
      exact hall
    · intro other hother
      obtain ⟨worker, hworker, rfl⟩ := List.mem_map.mp hother
      exact settled_capture (hruns worker hworker).1 (hruns worker hworker).2 _
    · rw [List.map_map]
      exact htotal
  generalize workers.flatMap (fun worker => updates worker.1) = changes at hsettled hfits ⊢
  have hcount : ∀ histogram : Histogram, (total.histograms histogram).count =
      (observations histogram changes).length := fun histogram => hsettled.count (hfits histogram)
  obtain ⟨histograms, hhistograms⟩ := Option.isSome_iff_exists.mp
    (@writeHistograms_isSome seconds server (ascii "zhtps") total server.histograms
      fun histogram _ => Nat.lt_of_le_of_lt (Nat.le_of_eq (hcount histogram)) (hfits histogram))
  have hreserved : validateName (ascii "zhtps") = true := by decide
  have hwrite : ∃ text, write seconds server (ascii "zhtps") total = some text := by
    rw [write, hhistograms]
    exact ⟨_, rfl⟩
  obtain ⟨text, hwrite⟩ := hwrite
  have hscrape : scrape text = total.samples seconds (ascii "zhtps") := by
    have hall := write_reads h server_valid hreserved hwrite []
    rw [List.append_nil] at hall
    exact hall.trans (List.append_nil _)
  refine ⟨text, hwrite, fun histogram name durations hname hdurations => ?_, fun counter => ?_⟩
  · have hnone : durations.countP (fun duration => decide (bucketOf duration < 0)) = 0 :=
      List.countP_eq_zero.mpr fun duration _ => by rw [decide_eq_true_eq]; exact Nat.not_lt_zero _
    have hholds := hsettled.holds (hfits histogram)
    rw [← hdurations] at hholds
    have hbuckets := @Holds.samples seconds durations name 0 boundsNs _ hholds List.drop_zero (by
      rw [Vector.length_toList]
      exact Nat.le_succ _)
    rw [hnone] at hbuckets
    have hsums := hsettled.sums histogram
    have hcounts := hcount histogram
    rw [← hdurations] at hsums hcounts
    have hmem : ∀ sample ∈ (boundsNs.map fun bound => (bucketKey name (seconds bound),
          digits 10 (durations.countP fun duration => decide (duration ≤ bound)))) ++
        [(bucketKey name (ascii "+Inf"), digits 10 durations.length),
          (name ++ ascii "_count", digits 10 durations.length),
          (name ++ ascii "_sum", seconds (durations.sum % 2 ^ 64))], sample ∈ scrape text := by
      intro sample hsample
      rw [hscrape]
      refine List.mem_append_right _ (List.mem_flatMap.mpr ⟨histogram, mem_histograms histogram, ?_⟩)
      show sample ∈ (total.histograms histogram).samples seconds (series (ascii "zhtps") histogram.tagName)
      rw [← hname, Distribution.samples, hbuckets, hcounts, hsums]
      exact hsample
    refine ⟨fun bound hbound => ?_, ?_, ?_, ?_⟩
    · exact hmem _ (List.mem_append_left _ (List.mem_map_of_mem hbound))
    · exact hmem _ (List.mem_append_right _ (List.mem_cons_self ..))
    · exact hmem _ (List.mem_append_right _ (List.mem_cons_of_mem _ (List.mem_cons_self ..)))
    · exact hmem _ (List.mem_append_right _
        (List.mem_cons_of_mem _ (List.mem_cons_of_mem _ (List.mem_cons_self ..))))
  · rw [hscrape]
    refine List.mem_append_left _ (List.mem_append_left _ (List.mem_map.mpr ⟨counter, ?_, ?_⟩))
    · exact mem_counters counter
    · rw [hsettled.counters]
      rfl

theorem exposition_counts_sample : ∃ text total,
    write exactSeconds server (ascii "zhtps") total = some text ∧
      (bucketKey (series (ascii "zhtps") Histogram.requestDurationSeconds.tagName) (exactSeconds 25000),
        digits 10 1) ∈ scrape text := by
  have hfits : ∀ histogram, (observations histogram (updates sampleRecords ++ [])).length < 2 ^ 64 := by
    intro histogram
    cases histogram <;> decide
  have hsettles : ∃ s, run init sampleRecords = some s ∧ s.pending = [] := ⟨_, rfl, rfl⟩
  obtain ⟨s, hrun, hpending⟩ := hsettles
  have hmerges : ∃ total, aggregateMetrics (.zero server) (some [capture s.cells fun _ => 0]) =
      some total := ⟨_, rfl⟩
  obtain ⟨total, htotal⟩ := hmerges
  obtain ⟨text, hwrite, hhistograms, -⟩ := @exposition_counts exactSeconds exactSeconds_readable 1 1
    [(sampleRecords, s, fun _ => 0)]
    (fun worker hworker => List.mem_singleton.mp hworker ▸ ⟨hrun, hpending⟩) (.zero server) total htotal
    hfits
  exact ⟨text, total, hwrite, (hhistograms .requestDurationSeconds _ _ rfl rfl).1 25000 (by decide)⟩

end Zhtps.Metrics
