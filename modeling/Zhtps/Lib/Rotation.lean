import Mathlib

/-!
Taking in turns: sources that may share items give one unused item each in every round, while there
is room.  What is taken is remembered with the number of the source that gave it.
-/

namespace Lib.Rotation

variable {α : Type} [DecidableEq α]

/-- A way to choose an item of a set, wherever the set has one. -/
structure Choice (α : Type) where
  first : (α → Bool) → Option α
  sound : ∀ {set item}, first set = some item → set item = true
  complete : ∀ {set}, first set = none → ∀ item, set item = false

/-- The items that are gone, and the sources that gave those taken, in order. -/
structure State (α : Type) where
  used : α → Bool
  log : List (Nat × α) := []

namespace State

def items (s : State α) : List α := s.log.map Prod.snd

def take (s : State α) (index : Nat) (item : α) : State α where
  used := Function.update s.used item true
  log := s.log ++ [(index, item)]

/-- How many items a source gave. -/
def taken (s : State α) (index : Nat) : Nat := (s.log.map Prod.fst).count index

/-- A source with an item left. -/
def Live (s : State α) (source : α → Bool) : Prop :=
  ∃ item, source item = true ∧ s.used item = false

@[simp] theorem items_take (s : State α) (index : Nat) (item : α) :
    (s.take index item).items = s.items ++ [item] := by
  simp [items, take]

@[simp] theorem length_log_take (s : State α) (index : Nat) (item : α) :
    (s.take index item).log.length = s.log.length + 1 := by
  simp [take]

theorem taken_take_self (s : State α) (index : Nat) (item : α) :
    (s.take index item).taken index = s.taken index + 1 := by
  simp [taken, take]

theorem taken_take_of_ne {s : State α} {index other : Nat} (item : α) (h : other ≠ index) :
    (s.take index item).taken other = s.taken other := by
  have hne : index ≠ other := h.symm
  simp [taken, take, hne]

theorem used_take {s : State α} {index : Nat} {item other : α} :
    (s.take index item).used other = true ↔ other = item ∨ s.used other = true := by
  change Function.update s.used item true other = true ↔ _
  rw [Function.update_apply]
  split_ifs with h
  · simp [h]
  · simp [h]

/-- Taking an item leaves no source more than it had. -/
theorem Live.of_take {s : State α} {source : α → Bool} {index : Nat} {item : α}
    (h : (s.take index item).Live source) : s.Live source := by
  obtain ⟨other, hsource, hfree⟩ := h
  refine ⟨other, hsource, ?_⟩
  rw [← Bool.not_eq_true] at hfree ⊢
  exact fun hused => hfree (used_take.mpr (Or.inr hused))

end State

variable (choice : Choice α) (slots : Nat)

/-- One pass over the sources, numbered from `index`. -/
def round : List (α → Bool) → Nat → State α → State α
  | [], _, s => s
  | source :: sources, index, s =>
      match choice.first fun item => source item && !s.used item with
      | none => round sources (index + 1) s
      | some item =>
          if s.log.length + 1 = slots then s.take index item
          else round sources (index + 1) (s.take index item)

/-- Rounds while there is room, until one takes nothing. -/
def rounds (sources : List (α → Bool)) : Nat → State α → State α
  | 0, s => s
  | turns + 1, s =>
      if s.log.length < slots then
        if (round choice slots sources 0 s).log.length = s.log.length then s
        else rounds sources turns (round choice slots sources 0 s)
      else s

variable {choice slots} {sources rest : List (α → Bool)} {s : State α}

omit [DecidableEq α] in
theorem first_live {source : α → Bool} {item : α}
    (h : choice.first (fun item => source item && !s.used item) = some item) :
    source item = true ∧ s.used item = false := by
  have hboth := choice.sound h
  rw [Bool.and_eq_true, Bool.not_eq_true'] at hboth
  exact hboth

omit [DecidableEq α] in
theorem first_dead {source : α → Bool}
    (h : choice.first (fun item => source item && !s.used item) = none) : ¬s.Live source := by
  rintro ⟨item, hsource, hfree⟩
  have hnone := choice.complete h item
  rw [hsource, hfree] at hnone
  cases hnone

/-! ### What a round keeps -/

/-- The items taken are distinct items of the sources that gave them, and were not gone before. -/
structure Kept (slots : Nat) (sources : List (α → Bool)) (gone : α → Bool) (s : State α) : Prop where
  nodup : s.items.Nodup
  used_iff : ∀ item, s.used item = true ↔ gone item = true ∨ item ∈ s.items
  fresh : ∀ item ∈ s.items, gone item = false
  given : ∀ entry ∈ s.log, ∃ source, sources[entry.1]? = some source ∧ source entry.2 = true
  length_le : s.log.length ≤ slots

omit [DecidableEq α] in
theorem Kept.start (slots : Nat) (sources : List (α → Bool)) (gone : α → Bool) :
    Kept slots sources gone { used := gone } where
  nodup := List.nodup_nil
  used_iff := by simp [State.items]
  fresh := by simp [State.items]
  given := by simp
  length_le := Nat.zero_le _

theorem Kept.take {gone : α → Bool} (h : Kept slots sources gone s) (hroom : s.log.length < slots)
    {index : Nat} {source : α → Bool} {item : α} (hindex : sources[index]? = some source)
    (hsource : source item = true) (hfree : s.used item = false) :
    Kept slots sources gone (s.take index item) where
  nodup := by
    have hmem : item ∉ s.items := fun hmem => by
      rw [(h.used_iff item).mpr (Or.inr hmem)] at hfree
      cases hfree
    rw [State.items_take, List.nodup_append]
    refine ⟨h.nodup, List.nodup_singleton item, ?_⟩
    rintro taken htaken _ hlast rfl
    exact hmem (List.mem_singleton.mp hlast ▸ htaken)
  used_iff other := by
    rw [State.used_take, h.used_iff, State.items_take, List.mem_append, List.mem_singleton]
    tauto
  fresh other hother := by
    rw [State.items_take, List.mem_append, List.mem_singleton] at hother
    rcases hother with hother | rfl
    · exact h.fresh other hother
    · rw [← Bool.not_eq_true] at hfree ⊢
      exact fun hgone => hfree ((h.used_iff other).mpr (Or.inl hgone))
  given entry hentry := by
    rcases List.mem_append.mp hentry with hentry | hlast
    · exact h.given entry hentry
    · obtain rfl := List.mem_singleton.mp hlast
      exact ⟨source, hindex, hsource⟩
  length_le := by
    rw [State.length_log_take]
    exact hroom

omit [DecidableEq α] in
theorem getElem?_of_drop {index : Nat} {source : α → Bool}
    (h : sources.drop index = source :: rest) :
    sources[index]? = some source ∧ sources.drop (index + 1) = rest := by
  constructor
  · rw [← List.head?_drop, h]
    rfl
  · rw [← List.tail_drop, h]
    rfl

theorem round_kept {gone : α → Bool} {index : Nat} (h : Kept slots sources gone s)
    (hroom : s.log.length < slots) (hrest : sources.drop index = rest) :
    Kept slots sources gone (round choice slots rest index s) := by
  induction rest generalizing index s with
  | nil => exact h
  | cons source rest ih =>
      obtain ⟨hindex, hdrop⟩ := getElem?_of_drop hrest
      rw [round]
      split
      · exact ih h hroom hdrop
      · rename_i item hfirst
        obtain ⟨hsource, hfree⟩ := first_live hfirst
        have htake := h.take hroom hindex hsource hfree
        split_ifs with hfull
        · exact htake
        · exact ih htake (by rw [State.length_log_take]; omega) hdrop

theorem rounds_kept {gone : α → Bool} (h : Kept slots sources gone s) (turns : Nat) :
    Kept slots sources gone (rounds choice slots sources turns s) := by
  induction turns generalizing s with
  | zero => exact h
  | succ turns ih =>
      rw [rounds]
      split_ifs with hroom
      · exact h
      · exact ih (round_kept h hroom rfl)
      · exact h

/-! ### When the rounds end -/

theorem length_le_round (choice : Choice α) (slots : Nat) (rest : List (α → Bool)) (index : Nat)
    (s : State α) : s.log.length ≤ (round choice slots rest index s).log.length := by
  induction rest generalizing index s with
  | nil => exact Nat.le_refl _
  | cons source rest ih =>
      rw [round]
      split
      · exact ih _ _
      · rename_i item hfirst
        split_ifs
        · rw [State.length_log_take]
          exact Nat.le_succ _
        · have hrest := ih (index + 1) (s.take index item)
          rw [State.length_log_take] at hrest
          exact Nat.le_of_succ_le hrest

/-- A round that takes nothing found no source with an item left. -/
theorem round_idle {index : Nat}
    (h : (round choice slots rest index s).log.length = s.log.length) :
    ∀ source ∈ rest, ¬s.Live source := by
  induction rest generalizing index with
  | nil => exact nofun
  | cons source rest ih =>
      rw [round] at h
      split at h
      · rename_i hfirst
        exact List.forall_mem_cons.mpr ⟨first_dead hfirst, ih h⟩
      · rename_i item hfirst
        exfalso
        split_ifs at h
        · rw [State.length_log_take] at h
          omega
        · have hgrown := length_le_round choice slots rest (index + 1) (s.take index item)
          rw [State.length_log_take, h] at hgrown
          omega

/-- With as many rounds as there is room left, the storage ends full or the sources empty. -/
theorem rounds_end {turns : Nat} (h : slots ≤ s.log.length + turns) :
    slots ≤ (rounds choice slots sources turns s).log.length ∨
      ∀ source ∈ sources, ¬(rounds choice slots sources turns s).Live source := by
  induction turns generalizing s with
  | zero => exact Or.inl h
  | succ turns ih =>
      rw [rounds]
      split_ifs with hroom hidle
      · exact Or.inr (round_idle hidle)
      · have hgrown := length_le_round choice slots sources 0 s
        exact ih (by omega)
      · exact Or.inl (Nat.not_lt.mp hroom)

/-! ### Sources give evenly -/

/-- Within a round, the sources before `passed` that have items left gave one more than the others
that have. -/
def Turned (sources : List (α → Bool)) (passed count : Nat) (s : State α) : Prop :=
  ∀ index source, sources[index]? = some source → s.Live source →
    s.taken index = if index < passed then count + 1 else count

omit [DecidableEq α] in
theorem Turned.skip {index count : Nat} {source : α → Bool} (h : Turned sources index count s)
    (hindex : sources[index]? = some source) (hdead : ¬s.Live source) :
    Turned sources (index + 1) count s := by
  intro other found hfound hlive
  have hne : other ≠ index := by
    rintro rfl
    obtain rfl := Option.some.inj (hindex.symm.trans hfound)
    exact hdead hlive
  rw [h other found hfound hlive]
  exact if_congr (by omega) rfl rfl

theorem Turned.take {index count : Nat} {source : α → Bool} (h : Turned sources index count s)
    (hindex : sources[index]? = some source) (hlive : s.Live source) (item : α) :
    Turned sources (index + 1) count (s.take index item) := by
  intro other found hfound hother
  by_cases hne : other = index
  · subst hne
    rw [State.taken_take_self, h other source hindex hlive, if_neg (Nat.lt_irrefl _),
      if_pos (Nat.lt_succ_self _)]
  · rw [State.taken_take_of_ne item hne, h other found hfound hother.of_take]
    exact if_congr (by omega) rfl rfl

/-- A round goes through all sources, unless the storage is full before. -/
theorem round_turned {index count : Nat} (h : Turned sources index count s)
    (hroom : s.log.length < slots) (hrest : sources.drop index = rest) :
    ∃ passed, Turned sources passed count (round choice slots rest index s) ∧
      ((round choice slots rest index s).log.length < slots → sources.length ≤ passed) := by
  induction rest generalizing index s with
  | nil => exact ⟨index, h, fun _ => List.drop_eq_nil_iff.mp hrest⟩
  | cons source rest ih =>
      obtain ⟨hindex, hdrop⟩ := getElem?_of_drop hrest
      rw [round]
      split
      · rename_i hfirst
        exact ih (h.skip hindex (first_dead hfirst)) hroom hdrop
      · rename_i item hfirst
        have htake := h.take hindex ⟨item, first_live hfirst⟩ item
        split_ifs with hfull
        · refine ⟨index + 1, htake, fun hless => ?_⟩
          rw [State.length_log_take, hfull] at hless
          exact absurd hless (Nat.lt_irrefl _)
        · exact ih htake (by rw [State.length_log_take]; omega) hdrop

omit [DecidableEq α] in
/-- When every source had its turn, all that have items left are even again. -/
theorem Turned.next {passed count : Nat} (h : Turned sources passed count s)
    (hall : sources.length ≤ passed) : Turned sources 0 (count + 1) s := by
  intro index source hindex hlive
  obtain ⟨hlength, -⟩ := List.getElem?_eq_some_iff.mp hindex
  rw [h index source hindex hlive, if_pos (by omega), if_neg (Nat.not_lt_zero _)]

theorem rounds_turned (choice : Choice α) (slots : Nat) {count : Nat}
    (h : Turned sources 0 count s) (turns : Nat) :
    ∃ passed count, Turned sources passed count (rounds choice slots sources turns s) ∧
      ((rounds choice slots sources turns s).log.length < slots → passed = 0) := by
  induction turns generalizing s count with
  | zero => exact ⟨0, count, h, fun _ => rfl⟩
  | succ turns ih =>
      rw [rounds]
      split_ifs with hroom hidle
      · exact ⟨0, count, h, fun _ => rfl⟩
      · obtain ⟨passed, hpassed, hall⟩ :=
          @round_turned α _ choice slots sources sources s 0 count h hroom rfl
        by_cases hless : (round choice slots sources 0 s).log.length < slots
        · exact ih (hpassed.next (hall hless))
        · -- The storage is full, and no round follows.
          have hend : rounds choice slots sources turns (round choice slots sources 0 s) =
              round choice slots sources 0 s := by
            cases turns with
            | zero => rfl
            | succ turns => rw [rounds, if_neg hless]
          rw [hend]
          exact ⟨passed, count, hpassed, fun h => absurd h hless⟩
      · exact ⟨0, count, h, fun _ => rfl⟩

/-- Sources with items left gave the same number of items, or two numbers that differ by one when the
storage was full in the middle of a round. -/
structure Fair (slots : Nat) (sources : List (α → Bool)) (s : State α) : Prop where
  close : ∀ index other source source', sources[index]? = some source →
    sources[other]? = some source' → s.Live source → s.Live source' →
    s.taken index ≤ s.taken other + 1
  even : s.log.length < slots → ∀ index other source source', sources[index]? = some source →
    sources[other]? = some source' → s.Live source → s.Live source' →
    s.taken index = s.taken other

theorem rounds_fair (gone : α → Bool) (turns : Nat) :
    Fair slots sources (rounds choice slots sources turns { used := gone }) := by
  have hstart : Turned sources 0 0 { used := gone } := by
    intro index source _ _
    simp [State.taken]
  obtain ⟨passed, count, hturned, hpassed⟩ := rounds_turned choice slots hstart turns
  constructor
  · intro index other source source' hindex hother hlive hlive'
    rw [hturned index source hindex hlive, hturned other source' hother hlive']
    split_ifs <;> omega
  · intro hless index other source source' hindex hother hlive hlive'
    obtain rfl := hpassed hless
    rw [hturned index source hindex hlive, hturned other source' hother hlive']
    rfl

end Lib.Rotation
