import Zhtps.Http.Chunked
import Zhtps.Inspection
import Mathlib.Data.List.Range
import Mathlib.Data.List.Nodup

/-!
Following the pages of a listing from its start lists every open connection once: the page writer and
the dispatcher agree about positions, and each page ends where the next one begins.
-/

namespace Zhtps.Inspection

/-! ### Positions -/

namespace Layout

variable (layout : Layout)

theorem base_succ (worker : Nat) :
    layout.base (worker + 1) = layout.base worker + layout.count worker := by
  unfold base count
  rw [if_neg (Nat.succ_ne_zero worker), Nat.add_mul, Nat.one_mul]
  by_cases hzero : worker = 0
  · simp only [hzero, if_true]
    omega
  · simp only [hzero, if_false]
    omega

theorem base_workers : layout.base layout.workers = layout.capacity := by
  have := layout.workers_pos
  unfold base capacity
  rw [if_neg (by omega)]

theorem base_mono {first second : Nat} (h : first ≤ second) :
    layout.base first ≤ layout.base second := by
  induction h with
  | refl => exact Nat.le_refl _
  | step _ ih =>
      rw [base_succ]
      exact Nat.le_trans ih (Nat.le_add_right ..)

theorem base_add_count_le {worker : Nat} (h : worker < layout.workers) :
    layout.base worker + layout.count worker ≤ layout.capacity := by
  rw [← base_succ, ← base_workers]
  exact layout.base_mono h

/-- A position belongs to one worker. -/
theorem base_inj {first second i j : Nat} (hi : i < layout.count first)
    (hj : j < layout.count second) (h : layout.base first + i = layout.base second + j) :
    first = second ∧ i = j := by
  rcases Nat.lt_trichotomy first second with hlt | rfl | hlt
  · have := layout.base_mono hlt
    rw [base_succ] at this
    omega
  · exact ⟨rfl, by omega⟩
  · have := layout.base_mono hlt
    rw [base_succ] at this
    omega

/-- The dispatcher finds a worker and a place among its slots, or the end of the last ones. -/
theorem locate_spec {start : Nat} (h : start ≤ layout.capacity) :
    (layout.locate start).1 < layout.workers ∧
    layout.base (layout.locate start).1 + (layout.locate start).2 = start ∧
    (start < layout.capacity → (layout.locate start).2 < layout.count (layout.locate start).1) := by
  have hworkers := layout.workers_pos
  have hmax := layout.maxConnections_pos
  unfold locate
  split_ifs with hfirst
  · refine ⟨hworkers, by simp [base], fun hlt => ?_⟩
    rcases hfirst with hfirst | hone
    · exact hfirst
    · unfold capacity at hlt
      rw [hone, Nat.one_mul] at hlt
      exact hlt
  · obtain ⟨hstart, hmany⟩ := not_or.mp hfirst
    -- the slots after those of worker zero are divided among the others
    have hdiv := Nat.div_add_mod (start - layout.firstCount) layout.maxConnections
    have hmod := Nat.mod_lt (start - layout.firstCount) hmax
    generalize (start - layout.firstCount) / layout.maxConnections = q at hdiv ⊢
    have hcapacity : layout.capacity =
        layout.firstCount + (layout.workers - 1) * layout.maxConnections := by
      unfold capacity firstCount
      obtain ⟨k, hk⟩ := Nat.exists_eq_add_of_lt hworkers
      rw [hk, Nat.zero_add, Nat.add_sub_cancel, Nat.add_mul]
      omega
    have hbase (id : Nat) (hid : 0 < id) :
        layout.base id = layout.firstCount + (id - 1) * layout.maxConnections := by
      obtain ⟨k, rfl⟩ := Nat.exists_eq_add_of_lt hid
      unfold base firstCount
      rw [if_neg (by omega), Nat.zero_add, Nat.add_sub_cancel, Nat.add_mul]
      omega
    rw [Nat.mul_comm] at hdiv
    by_cases hlast : 1 + q ≤ layout.workers - 1
    · rw [Nat.min_eq_left hlast]
      dsimp only
      rw [hbase _ (by omega), Nat.add_sub_cancel_left]
      refine ⟨by omega, by omega, fun _ => ?_⟩
      unfold count
      rw [if_neg (by omega)]
      omega
    · -- only the end lies behind the last worker
      have hq : (layout.workers - 1) * layout.maxConnections ≤ q * layout.maxConnections :=
        Nat.mul_le_mul_right _ (by omega)
      have hsplit : (layout.workers - 1) * layout.maxConnections =
          (layout.workers - 1 - 1) * layout.maxConnections + layout.maxConnections := by
        rw [← Nat.succ_mul]
        congr 1
        omega
      rw [Nat.min_eq_right (by omega)]
      dsimp only
      rw [hbase _ (by omega)]
      exact ⟨by omega, by omega, fun hlt => by omega⟩

/-- The dispatcher gives back what the page writer numbers. -/
theorem locate_base {worker index : Nat} (hworker : worker < layout.workers)
    (hindex : index < layout.count worker) :
    layout.locate (layout.base worker + index) = (worker, index) := by
  have hlt : layout.base worker + index < layout.capacity := by
    have := layout.base_add_count_le hworker
    omega
  obtain ⟨-, hposition, hin⟩ := layout.locate_spec (Nat.le_of_lt hlt)
  obtain ⟨hfirst, hsecond⟩ := layout.base_inj (hin hlt) hindex hposition
  exact Prod.ext hfirst hsecond

/-- The slots of a worker fit the bits of a token. -/
theorem count_lt (worker : Nat) : layout.count worker < 2 ^ 24 := by
  have := layout.slots_le
  unfold count
  split_ifs <;> omega

end Layout

/-! ### Pages -/

/-- The slot that an entry is about, as its worker and the index in its token say. -/
def Entry.slot (entry : Entry) : Nat × Nat := (entry.worker, entry.id >>> 8 % 2 ^ 24)

theorem token_index {kind index : Nat} (generation : UInt32) (hkind : kind < 2 ^ 8)
    (hindex : index < 2 ^ 24) :
    (token kind index generation &&& (2 ^ 64 - 1 - 255)) >>> 8 % 2 ^ 24 = index := by
  apply Nat.eq_of_testBit_eq
  intro bit
  rw [Nat.testBit_mod_two_pow, Nat.testBit_shiftRight, Nat.testBit_and, token, Nat.testBit_or,
    Nat.testBit_or, Nat.testBit_shiftLeft, Nat.testBit_shiftLeft]
  by_cases hbit : bit < 24
  · have hmask : (2 ^ 64 - 1 - 255).testBit (8 + bit) = true := by
      change (2 ^ 64 - (255 + 1)).testBit (8 + bit) = true
      rw [Nat.testBit_two_pow_sub_succ (by decide), Nat.testBit_two_pow_sub_one 8]
      simp
      omega
    have hlow : kind.testBit (8 + bit) = false :=
      Nat.testBit_lt_two_pow (Nat.lt_of_lt_of_le hkind (Nat.pow_le_pow_right (by omega) (by omega)))
    have hhigh : ¬8 + bit ≥ 32 := by omega
    rw [hmask, hlow]
    simp [hbit, hhigh]
  · have hzero : index.testBit bit = false :=
      Nat.testBit_lt_two_pow (Nat.lt_of_lt_of_le hindex (Nat.pow_le_pow_right (by omega) (by omega)))
    simp [hbit, hzero]

theorem slot_entry (worker now : Nat) {index : Nat} (slot : Slot) (h : index < 2 ^ 24) :
    (entry worker now index slot).slot = (worker, index) :=
  Prod.ext rfl (token_index slot.generation (by decide) h)

/-- The open slots among some that begin at an index. -/
def openFrom (worker index : Nat) (slots : List Slot) : List (Nat × Nat) :=
  ((slots.zipIdx index).filter fun numbered => numbered.1.occupied).map fun numbered =>
    (worker, numbered.2)

/-- The loop lists the open slots up to where it stops: at the end, or where the page is full. -/
theorem scan_spec (worker now : Nat) {index : Nat} {slots : List Slot} (entries : List Entry)
    (h : index + slots.length ≤ 2 ^ 24) :
    ∃ n ≤ slots.length, (scan worker now index slots entries).2 = index + n ∧
      (scan worker now index slots entries).1.map Entry.slot =
        entries.map Entry.slot ++ openFrom worker index (slots.take n) ∧
      (slots ≠ [] → entries.length < pageRoom → 0 < n) := by
  induction slots generalizing index entries with
  | nil => exact ⟨0, Nat.le_refl _, rfl, (List.append_nil _).symm, fun h => absurd rfl h⟩
  | cons slot rest ih =>
      rw [List.length_cons] at h
      unfold scan
      split_ifs with hroom hopen
      · obtain ⟨n, hn, hstop, hentries, -⟩ := @ih (index + 1) (entries ++ [entry worker now index slot])
          (by omega)
        refine ⟨n + 1, Nat.succ_le_succ hn, by omega, ?_, fun _ _ => Nat.succ_pos n⟩
        rw [hentries, List.map_append, List.append_assoc, List.map_singleton,
          slot_entry worker now slot (by omega), List.take_succ_cons]
        simp [openFrom, hopen]
      · obtain ⟨n, hn, hstop, hentries, -⟩ := @ih (index + 1) entries (by omega)
        refine ⟨n + 1, Nat.succ_le_succ hn, by omega, ?_, fun _ _ => Nat.succ_pos n⟩
        rw [hentries, List.take_succ_cons]
        simp [openFrom, hopen]
      · exact ⟨0, Nat.zero_le _, rfl, (List.append_nil _).symm, fun _ h => absurd h hroom⟩

variable {layout : Layout} {occupied : Nat → List Bool}

/-- The open slots among so many positions from a start on. -/
def openSlots (layout : Layout) (occupied : Nat → List Bool) (start length : Nat) :
    List (Nat × Nat) :=
  ((List.range' start length).map layout.locate).filter fun place =>
    (occupied place.1)[place.2]? == some true

theorem openSlots_append (start first second : Nat) :
    openSlots layout occupied start first ++ openSlots layout occupied (start + first) second =
      openSlots layout occupied start (first + second) := by
  unfold openSlots
  rw [← List.filter_append, ← List.map_append, List.range'_append_1]

/-- The open slots among some of one worker are those at their positions. -/
theorem openFrom_eq {worker index : Nat} {slots : List Slot} (hworker : worker < layout.workers)
    (hcount : index + slots.length ≤ layout.count worker)
    (hoccupied : ∀ k, (h : k < slots.length) →
      (occupied worker)[index + k]? = some slots[k].occupied) :
    openFrom worker index slots =
      openSlots layout occupied (layout.base worker + index) slots.length := by
  induction slots generalizing index with
  | nil => rfl
  | cons slot rest ih =>
      rw [List.length_cons] at hcount
      have hhead : (occupied worker)[index]? = some slot.occupied := hoccupied 0 (Nat.succ_pos _)
      have hrest := @ih (index + 1) (by omega) fun k hk => by
        have := hoccupied (k + 1) (Nat.succ_lt_succ hk)
        rw [← Nat.add_assoc, Nat.add_right_comm] at this
        exact this
      have hplace := @Layout.locate_base layout worker index hworker (by omega)
      rw [openSlots, List.length_cons, List.range'_succ, List.map_cons, hplace, Nat.add_assoc]
      simp only [openFrom, openSlots] at hrest ⊢
      rw [List.zipIdx_cons, List.filter_cons, List.filter_cons]
      simp only [hhead]
      cases slot.occupied with
      | true => simpa using hrest
      | false => simpa using hrest

/-! ### One page -/

/-- A page lists the open slots from its start to the next one, which is the end when there is
none. -/
theorem connectionPage_spec (snapshot : Snapshot layout occupied) {start : Nat}
    (h : start < layout.capacity) :
    ∃ stop, start < stop ∧ stop ≤ layout.capacity ∧
      (connectionPage layout (layout.locate start).1 snapshot.now
        (snapshot.slots (layout.locate start).1) (layout.locate start).2).connections.map Entry.slot =
        openSlots layout occupied start (stop - start) ∧
      (connectionPage layout (layout.locate start).1 snapshot.now
        (snapshot.slots (layout.locate start).1) (layout.locate start).2).next =
        if stop < layout.capacity then some stop else none := by
  obtain ⟨hworker, hstart, hin⟩ := layout.locate_spec (Nat.le_of_lt h)
  have hin := hin h
  generalize hplace : layout.locate start = place at hworker hstart hin ⊢
  obtain ⟨worker, index⟩ := place
  dsimp only at hworker hstart hin ⊢
  have hlength := snapshot.length_eq worker hworker
  have hdrop : ((snapshot.slots worker).drop index).length = layout.count worker - index := by
    rw [List.length_drop, hlength]
  have hend := layout.base_add_count_le hworker
  have hbits := layout.count_lt worker
  obtain ⟨n, hn, hstop, hentries, hsome⟩ := @scan_spec worker snapshot.now index
    ((snapshot.slots worker).drop index) [] (by omega)
  have hpos : 0 < n := by
    refine hsome (fun hnil => ?_) (by decide)
    rw [hnil, List.length_nil] at hdrop
    omega
  -- the slots that the page went through are those at the positions from its start on
  have hopen := @openFrom_eq layout occupied worker index
    (((snapshot.slots worker).drop index).take n) hworker (by rw [List.length_take]; omega)
    (by
      intro k hk
      rw [← snapshot.occupied_eq worker hworker, List.getElem?_map, List.getElem_take,
        List.getElem_drop, List.getElem?_eq_getElem, Option.map_some])
  rw [List.length_take, Nat.min_eq_left hn, hstart] at hopen
  refine ⟨start + n, by omega, by omega, ?_, ?_⟩
  · rw [Nat.add_sub_cancel_left, ← hopen]
    exact hentries
  · simp only [connectionPage, hstop, ← Nat.add_assoc, hstart]

/-! ### All pages -/

/-- Requests one after the other, each for the position that the page before it names. -/
inductive Follows (snapshots : Nat → Snapshot layout occupied) : Nat → Bytes → List Page → Prop
  | last {k query page} (hpage : answer (snapshots k) query = some page) (hnext : page.next = none) :
      Follows snapshots k query [page]
  | more {k query page next pages} (hpage : answer (snapshots k) query = some page)
      (hnext : page.next = some next) (hpages : Follows snapshots (k + 1) (startQuery next) pages) :
      Follows snapshots k query (page :: pages)

theorem Follows.unique {snapshots : Nat → Snapshot layout occupied} {k : Nat} {query : Bytes}
    {first second : List Page} (hfirst : Follows snapshots k query first)
    (hsecond : Follows snapshots k query second) : first = second := by
  induction hfirst generalizing second with
  | last hpage hnext =>
      cases hsecond with
      | last hpage' hnext' => rw [Option.some.inj (hpage.symm.trans hpage')]
      | more hpage' hnext' hpages' =>
          obtain rfl := Option.some.inj (hpage.symm.trans hpage')
          rw [hnext] at hnext'
          cases hnext'
  | more hpage hnext hpages ih =>
      cases hsecond with
      | last hpage' hnext' =>
          obtain rfl := Option.some.inj (hpage.symm.trans hpage')
          rw [hnext] at hnext'
          cases hnext'
      | more hpage' hnext' hpages' =>
          obtain rfl := Option.some.inj (hpage.symm.trans hpage')
          obtain rfl := Option.some.inj (hnext.symm.trans hnext')
          rw [ih hpages']

/-- The slots that pages list. -/
def visited (pages : List Page) : List (Nat × Nat) :=
  pages.flatMap fun page => page.connections.map Entry.slot

theorem capacity_lt (layout : Layout) : layout.capacity < 2 ^ 64 := by
  have hmul := Nat.mul_le_mul layout.workers_le (Nat.le_trans (Nat.le_add_right ..) layout.slots_le)
  have := layout.slots_le
  unfold Layout.capacity
  omega

theorem connectionStart_startQuery {start : Nat} (h : start ≤ layout.capacity) :
    connectionStart layout (startQuery start) = some start := by
  have hlt := capacity_lt layout
  have hint : Fmt.parseInt (Response.digits 10 start) 10 = some start :=
    Response.parseInt_digits (by decide) (by decide) (by omega)
  have hbefore : (ascii "start=").isPrefixOf (startQuery start) = true :=
    List.isPrefixOf_iff_prefix.mpr (List.prefix_append ..)
  have hdrop : (startQuery start).drop 6 = Response.digits 10 start := List.drop_left' rfl
  have hne : startQuery start ≠ [] := by simp [startQuery, ascii]
  simp [connectionStart, parseStart, hne, hbefore, hdrop, hint, h]

/-- From a position before the end the requests come to an end, and list what is open from there. -/
theorem follows_spec (snapshots : Nat → Snapshot layout occupied) {start : Nat}
    (h : start < layout.capacity) (k : Nat) {query : Bytes}
    (hquery : connectionStart layout query = some start) :
    ∃ pages, Follows snapshots k query pages ∧
      (start :: pages.filterMap Page.next).Pairwise (· < ·) ∧
      visited pages = openSlots layout occupied start (layout.capacity - start) := by
  obtain ⟨stop, hlt, hle, hslots, hnext⟩ := connectionPage_spec (snapshots k) h
  have hanswer : answer (snapshots k) query = some (connectionPage layout (layout.locate start).1
      (snapshots k).now ((snapshots k).slots (layout.locate start).1) (layout.locate start).2) := by
    rw [answer, hquery]
    rfl
  generalize connectionPage layout (layout.locate start).1 (snapshots k).now
    ((snapshots k).slots (layout.locate start).1) (layout.locate start).2 = page
    at hslots hnext hanswer
  by_cases hend : stop < layout.capacity
  · rw [if_pos hend] at hnext
    obtain ⟨pages, hpages, hsorted, hvisited⟩ :=
      follows_spec snapshots hend (k + 1) (connectionStart_startQuery hle)
    refine ⟨page :: pages, .more hanswer hnext hpages, ?_, ?_⟩
    · rw [List.filterMap_cons_some hnext]
      refine List.pairwise_cons.mpr ⟨fun next hmem => ?_, hsorted⟩
      rcases List.mem_cons.mp hmem with rfl | hmem
      · exact hlt
      · exact Nat.lt_trans hlt ((List.pairwise_cons.mp hsorted).1 next hmem)
    · have hsplit := @openSlots_append layout occupied start (stop - start) (layout.capacity - stop)
      rw [Nat.add_sub_cancel' (Nat.le_of_lt hlt)] at hsplit
      rw [visited, List.flatMap_cons, hslots]
      change _ ++ visited pages = _
      rw [hvisited, hsplit]
      congr 1
      omega
  · rw [if_neg hend] at hnext
    refine ⟨[page], .last hanswer hnext, ?_, ?_⟩
    · rw [List.filterMap_cons_none hnext]
      exact List.pairwise_singleton ..
    · rw [visited, List.flatMap_singleton, hslots]
      congr 1
      omega
termination_by layout.capacity - start

/-- The listing ends, its positions grow, and it has every open slot of every worker once. -/
theorem pages_complete (layout : Layout) (occupied : Nat → List Bool)
    (snapshots : Nat → Snapshot layout occupied) :
    ∃ pages, Follows snapshots 0 [] pages ∧
      (∀ others, Follows snapshots 0 [] others → others = pages) ∧
      (0 :: pages.filterMap Page.next).Pairwise (· < ·) ∧ (visited pages).Nodup ∧
      (∀ worker index, (worker, index) ∈ visited pages ↔
        worker < layout.workers ∧ (occupied worker)[index]? = some true) ∧
      (∀ worker index, worker < layout.workers → index < layout.count worker →
        layout.locate (layout.base worker + index) = (worker, index)) := by
  have hpos : 0 < layout.capacity := by
    have := layout.base_add_count_le layout.workers_pos
    have hmax := layout.maxConnections_pos
    unfold Layout.count at this
    omega
  obtain ⟨pages, hpages, hsorted, hvisited⟩ :=
    @follows_spec layout occupied snapshots 0 hpos 0 [] rfl
  rw [Nat.sub_zero] at hvisited
  have hposition {position : Nat} (h : position ∈ List.range' 0 layout.capacity) :
      (layout.locate position).1 < layout.workers ∧
      layout.base (layout.locate position).1 + (layout.locate position).2 = position := by
    have hlt := (List.mem_range'_1.mp h).2
    obtain ⟨hworker, hbase, -⟩ := @Layout.locate_spec layout position (by omega)
    exact ⟨hworker, hbase⟩
  refine ⟨pages, hpages, fun others h => h.unique hpages, hsorted, ?_, fun worker index => ?_,
    fun worker index => layout.locate_base⟩
  · rw [hvisited]
    refine List.Nodup.filter _ (List.Nodup.map_on ?_ List.nodup_range')
    intro first hfirst second hsecond heq
    rw [← (hposition hfirst).2, ← (hposition hsecond).2, heq]
  · rw [hvisited, openSlots, List.mem_filter, List.mem_map, beq_iff_eq]
    refine and_congr_left fun hopen => ⟨?_, fun hworker => ?_⟩
    · rintro ⟨position, hmem, hplace⟩
      have hworker := (hposition hmem).1
      rw [hplace] at hworker
      exact hworker
    · have hlength := congrArg List.length ((snapshots 0).occupied_eq worker hworker)
      rw [List.length_map, (snapshots 0).length_eq worker hworker] at hlength
      have hindex : index < layout.count worker := by
        rw [hlength]
        exact (List.getElem?_eq_some_iff.mp hopen).1
      have hend := layout.base_add_count_le hworker
      refine ⟨layout.base worker + index, ?_, layout.locate_base hworker hindex⟩
      exact List.mem_range'_1.mpr ⟨Nat.zero_le _, by omega⟩

/-- Two workers with one slot each beside the one of the administration. -/
def twoWorkers : Layout := ⟨2, 1, 1, by decide, by decide, by decide, by decide⟩

/-- The slot of the administration is not open. -/
def openSlot (worker : Nat) : List Bool := if worker = 0 then [true, false] else [true]

/-- Between the requests the open slots serve other connections. -/
def twoSnapshots (k : Nat) : Snapshot twoWorkers openSlot where
  now := k
  slots worker := (openSlot worker).map fun isOpen =>
    if isOpen then { fd := some (7 + k), generation := UInt32.ofNat k } else {}
  length_eq := by
    have hlength : ∀ worker < twoWorkers.workers,
        (openSlot worker).length = twoWorkers.count worker := by decide
    intro worker hworker
    rw [List.length_map]
    exact hlength worker hworker
  occupied_eq := by
    intro worker _
    rw [List.map_map, List.map_congr_left, List.map_id]
    intro isOpen _
    cases isOpen <;> rfl

def firstPage : Page := connectionPage twoWorkers 0 0 ((twoSnapshots 0).slots 0) 0

def secondPage : Page := connectionPage twoWorkers 1 1 ((twoSnapshots 1).slots 1) 0

theorem pages_complete_two :
    Follows twoSnapshots 0 [] [firstPage, secondPage] ∧
      (∀ others, Follows twoSnapshots 0 [] others → others = [firstPage, secondPage]) ∧
      firstPage.next = some 2 ∧ visited [firstPage, secondPage] = [(0, 0), (1, 0)] ∧
      (visited [firstPage, secondPage]).Nodup ∧ (0, 1) ∉ visited [firstPage, secondPage] := by
  obtain ⟨pages, -, hunique, -, hnodup, hmem, -⟩ :=
    pages_complete twoWorkers openSlot twoSnapshots
  have hfollows : Follows twoSnapshots 0 [] [firstPage, secondPage] := .more rfl rfl (.last rfl rfl)
  obtain rfl := hunique _ hfollows
  exact ⟨hfollows, hunique, rfl, by decide +kernel, hnodup, fun hvisited =>
    absurd ((hmem 0 1).mp hvisited).2 (by decide)⟩

end Zhtps.Inspection
