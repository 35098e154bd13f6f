import Mathlib

/-!
Folds whose steps find effects without looking at the state, and then apply them.

Such a fold fails where one of its steps does, whatever the state, and its effects are those of all
its steps.
-/

namespace Lib.Effects

variable {α β σ ε : Type*}

/-- What all items of a list find, or the first failure. -/
def collect (find : α → Except ε (List β)) : List α → Except ε (List β)
  | [] => .ok []
  | item :: items =>
      match find item with
      | .error err => .error err
      | .ok found =>
          match collect find items with
          | .error err => .error err
          | .ok rest => .ok (found ++ rest)

/-- What is asked of a result is asked of the one there is. -/
theorem exists_ok_iff {x : Except ε α} {a : α} (h : x = .ok a) {p : α → Prop} :
    (∃ b, x = .ok b ∧ p b) ↔ p a := by
  subst h
  constructor
  · rintro ⟨b, hb, hp⟩
    rwa [Except.ok.inj hb]
  · exact fun hp => ⟨a, rfl, hp⟩

variable {find : α → Except ε (List β)}

theorem foldlM_eq {apply : σ → β → σ} {step : σ → α → Except ε σ}
    (h : ∀ state item, step state item = (find item).map fun found => found.foldl apply state)
    (state : σ) (items : List α) :
    items.foldlM step state = (collect find items).map fun found => found.foldl apply state := by
  induction items generalizing state with
  | nil => rfl
  | cons item items ih =>
      rw [List.foldlM_cons, h, collect]
      cases find item with
      | error err => rfl
      | ok found =>
          refine (ih _).trans ?_
          cases collect find items with
          | error err => rfl
          | ok rest => exact congrArg Except.ok List.foldl_append.symm

theorem collect_cons_ok {item : α} {items : List α} {effects : List β} :
    collect find (item :: items) = .ok effects ↔ ∃ found rest,
      find item = .ok found ∧ collect find items = .ok rest ∧ effects = found ++ rest := by
  rw [collect]
  cases find item with
  | error err => exact ⟨nofun, fun ⟨_, _, h, _⟩ => by cases h⟩
  | ok found =>
      cases collect find items with
      | error err => exact ⟨nofun, fun ⟨_, _, _, h, _⟩ => by cases h⟩
      | ok rest =>
          constructor
          · intro h
            exact ⟨found, rest, rfl, rfl, (Except.ok.inj h).symm⟩
          · rintro ⟨found', rest', hfound, hrest, rfl⟩
            rw [Except.ok.inj hfound, Except.ok.inj hrest]

theorem mem_collect {items : List α} {effects : List β} (h : collect find items = .ok effects)
    {effect : β} : effect ∈ effects ↔
      ∃ item ∈ items, ∃ found, find item = .ok found ∧ effect ∈ found := by
  induction items generalizing effects with
  | nil =>
      obtain rfl := Except.ok.inj h
      simp
  | cons item items ih =>
      obtain ⟨found, rest, hfound, hrest, rfl⟩ := collect_cons_ok.mp h
      rw [List.mem_append, ih hrest, List.exists_mem_cons_iff]
      refine or_congr_left ⟨fun hmem => ⟨found, hfound, hmem⟩, ?_⟩
      rintro ⟨found', hfound', hmem⟩
      obtain rfl := Except.ok.inj (hfound.symm.trans hfound')
      exact hmem

theorem collect_ok_iff {items : List α} :
    (∃ effects, collect find items = .ok effects) ↔
      ∀ item ∈ items, ∃ found, find item = .ok found := by
  induction items with
  | nil => exact ⟨fun _ => nofun, fun _ => ⟨[], rfl⟩⟩
  | cons item items ih =>
      rw [List.forall_mem_cons, ← ih]
      constructor
      · rintro ⟨effects, h⟩
        obtain ⟨found, rest, hfound, hrest, -⟩ := collect_cons_ok.mp h
        exact ⟨⟨found, hfound⟩, rest, hrest⟩
      · rintro ⟨⟨found, hfound⟩, rest, hrest⟩
        exact ⟨found ++ rest, collect_cons_ok.mpr ⟨found, rest, hfound, hrest, rfl⟩⟩

/-- The order of the items does not change what is found. -/
theorem collect_perm {items items' : List α} (hperm : items.Perm items') {effects : List β}
    (h : collect find items = .ok effects) :
    ∃ effects', collect find items' = .ok effects' ∧
      ∀ effect, effect ∈ effects ↔ effect ∈ effects' := by
  obtain ⟨effects', h'⟩ := collect_ok_iff.mpr fun item hitem =>
    collect_ok_iff.mp ⟨effects, h⟩ item (hperm.mem_iff.mpr hitem)
  refine ⟨effects', h', fun effect => ?_⟩
  simp only [mem_collect h, mem_collect h', hperm.mem_iff]

/-- Steps that find the same give folds that find the same. -/
theorem collect_congr {find' : α → Except ε (List β)} {items : List α}
    (hsame : ∀ item found, find item = .ok found →
      ∃ found', find' item = .ok found' ∧ ∀ effect, effect ∈ found ↔ effect ∈ found')
    {effects : List β} (h : collect find items = .ok effects) :
    ∃ effects', collect find' items = .ok effects' ∧
      ∀ effect, effect ∈ effects ↔ effect ∈ effects' := by
  induction items generalizing effects with
  | nil => exact ⟨effects, h, fun _ => Iff.rfl⟩
  | cons item items ih =>
      obtain ⟨found, rest, hfound, hrest, rfl⟩ := collect_cons_ok.mp h
      obtain ⟨found', hfound', hmem⟩ := hsame item found hfound
      obtain ⟨rest', hrest', hmem'⟩ := ih hrest
      refine ⟨found' ++ rest', collect_cons_ok.mpr ⟨found', rest', hfound', hrest', rfl⟩, ?_⟩
      intro effect
      rw [List.mem_append, List.mem_append, hmem, hmem']

/-! ### Effects that lower a value -/

section lower

variable {ι : Type*} [LinearOrder ι] {apply : σ → β → σ} {lower : β → Option ι}

/-- The least of some values, where there is one. -/
def Tightest (value : Option ι) (values : Set ι) : Prop :=
  match value with
  | none => values = ∅
  | some least => IsLeast values least

theorem Tightest.unique {value value' : Option ι} {values : Set ι} (h : Tightest value values)
    (h' : Tightest value' values) : value = value' := by
  cases value with
  | none =>
      cases value' with
      | none => rfl
      | some least' =>
          have hmem : least' ∈ values := (h' : IsLeast values least').1
          rw [show values = ∅ from h] at hmem
          cases hmem
  | some least =>
      cases value' with
      | none =>
          have hmem : least ∈ values := (h : IsLeast values least).1
          rw [show values = ∅ from h'] at hmem
          cases hmem
      | some least' => exact congrArg some (IsLeast.unique h h')

/-- The bounds that some effects set. -/
def bounds (lower : β → Option ι) (effects : List β) : Set ι :=
  {bound | ∃ effect ∈ effects, lower effect = some bound}

omit [LinearOrder ι] in
theorem bounds_cons_none {effect : β} (effects : List β) (h : lower effect = none) :
    bounds lower (effect :: effects) = bounds lower effects := by
  ext bound
  simp [bounds, h]

omit [LinearOrder ι] in
theorem bounds_cons_some {effect : β} {n : ι} (effects : List β) (h : lower effect = some n) :
    bounds lower (effect :: effects) = insert n (bounds lower effects) := by
  ext bound
  simp [bounds, h, eq_comm]

/-- Two bounds count as their minimum does. -/
theorem isLeast_of_min {a b least : ι} {values : Set ι}
    (h : IsLeast (insert (min a b) values) least) :
    IsLeast (insert a (insert b values)) least := by
  refine ⟨?_, ?_⟩
  · rcases h.1 with heq | hmem
    · rw [heq]
      rcases min_choice a b with hmin | hmin
      · exact Or.inl hmin
      · exact Or.inr (Or.inl hmin)
    · exact Or.inr (Or.inr hmem)
  · rintro other (rfl | rfl | hmem)
    · exact (h.2 (Or.inl rfl)).trans (min_le_left _ _)
    · exact (h.2 (Or.inl rfl)).trans (min_le_right _ _)
    · exact h.2 (Or.inr hmem)

/-- A value that every effect may lower ends as the least of its bounds. -/
theorem isLeast_foldl {value : σ → ι}
    (h : ∀ state effect, value (apply state effect) =
      match lower effect with
      | none => value state
      | some bound => min (value state) bound) (state : σ) (effects : List β) :
    IsLeast (insert (value state) (bounds lower effects)) (value (effects.foldl apply state)) := by
  induction effects generalizing state with
  | nil => simp [bounds, IsLeast]
  | cons effect effects ih =>
      have hrest := ih (apply state effect)
      rw [List.foldl_cons]
      rw [h] at hrest
      cases hlower : lower effect with
      | none =>
          rw [hlower] at hrest
          rwa [bounds_cons_none effects hlower]
      | some bound =>
          rw [hlower] at hrest
          rw [bounds_cons_some effects hlower]
          exact isLeast_of_min hrest

/-- A value that is not there before the first effect that sets it. -/
theorem tightest_foldl {value : σ → Option ι} {top : ι}
    (h : ∀ state effect, value (apply state effect) =
      match lower effect with
      | none => value state
      | some bound => some (min ((value state).getD top) bound)) {state : σ}
    (hnone : value state = none) {effects : List β}
    (htop : ∀ bound ∈ bounds lower effects, bound ≤ top) :
    Tightest (value (effects.foldl apply state)) (bounds lower effects) := by
  have hfrom : ∀ (effects : List β) (state : σ) (least : ι), value state = some least →
      ∃ last, value (effects.foldl apply state) = some last ∧
        IsLeast (insert least (bounds lower effects)) last := by
    intro effects
    induction effects with
    | nil => exact fun state least hleast => ⟨least, hleast, by simp [bounds, IsLeast]⟩
    | cons effect effects ih =>
        intro state least hleast
        rw [List.foldl_cons]
        cases hlower : lower effect with
        | none =>
            rw [bounds_cons_none effects hlower]
            exact ih _ _ (by rw [h, hlower, hleast])
        | some bound =>
            obtain ⟨last, hlast, hisLeast⟩ := ih (apply state effect) (min least bound)
              (by rw [h, hlower, hleast]; rfl)
            refine ⟨last, hlast, ?_⟩
            rw [bounds_cons_some effects hlower]
            exact isLeast_of_min hisLeast
  induction effects generalizing state with
  | nil =>
      rw [List.foldl_nil, hnone]
      simp [Tightest, bounds]
  | cons effect effects ih =>
      rw [List.foldl_cons]
      cases hlower : lower effect with
      | none =>
          rw [bounds_cons_none effects hlower] at htop ⊢
          exact ih (by rw [h, hlower, hnone]) htop
      | some bound =>
          rw [bounds_cons_some effects hlower] at htop ⊢
          have hbound : bound ≤ top := htop bound (Or.inl rfl)
          obtain ⟨last, hlast, hisLeast⟩ := hfrom effects (apply state effect) bound (by
            rw [h, hlower, hnone, Option.getD_none]
            exact congrArg some (min_eq_right hbound))
          rw [hlast]
          exact hisLeast

end lower

end Lib.Effects
