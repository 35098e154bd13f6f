import Mathlib

/-!
Collecting values under keys, where two values of one key are a conflict.

An item is unreadable, says nothing, or gives a key a value.  What a list of items collects to
depends only on what its items are, not on their order or number.
-/

namespace Lib.Agreement

variable {α κ ν : Type*} [DecidableEq κ] [DecidableEq ν]

/-- A value that agrees with the one recorded before. -/
def record (values : κ → Option ν) (key : κ) (value : ν) : Option (κ → Option ν) :=
  match values key with
  | some previous =>
      if previous ≠ value then none else some (Function.update values key (some value))
  | none => some (Function.update values key (some value))

def add (read : α → Option (Option (κ × ν))) (values : κ → Option ν) (item : α) :
    Option (κ → Option ν) :=
  match read item with
  | none => none
  | some none => some values
  | some (some (key, value)) => record values key value

def collect (read : α → Option (Option (κ × ν))) (values : κ → Option ν) (items : List α) :
    Option (κ → Option ν) :=
  items.foldlM (add read) values

variable {read : α → Option (Option (κ × ν))}

theorem record_eq_some {values values' : κ → Option ν} {key : κ} {value : ν} :
    record values key value = some values' ↔
      (∀ previous, values key = some previous → previous = value) ∧
        values' = Function.update values key (some value) := by
  unfold record
  cases hkey : values key with
  | none =>
      rw [Option.some.injEq]
      exact ⟨fun h => ⟨nofun, h.symm⟩, fun h => h.2.symm⟩
  | some previous =>
      dsimp only
      by_cases heq : previous = value
      · rw [if_neg (not_not.mpr heq), Option.some.injEq]
        exact ⟨fun h => ⟨fun _ hsome => (Option.some.inj hsome).symm.trans heq, h.symm⟩,
          fun h => h.2.symm⟩
      · rw [if_pos heq]
        exact ⟨nofun, fun h => absurd (h.1 previous rfl) heq⟩

omit [DecidableEq ν] in
/-- Recording a value that agrees adds it. -/
theorem update_eq_some {values : κ → Option ν} {key : κ} {value : ν}
    (h : ∀ previous, values key = some previous → previous = value) (k : κ) (v : ν) :
    Function.update values key (some value) k = some v ↔
      values k = some v ∨ (key, value) = (k, v) := by
  by_cases hk : k = key
  · subst hk
    rw [Function.update_self, Option.some.injEq, Prod.mk.injEq]
    refine ⟨fun hv => Or.inr ⟨rfl, hv⟩, ?_⟩
    rintro (hv | ⟨-, hv⟩)
    · exact (h v hv).symm
    · exact hv
  · rw [Function.update_of_ne hk, Prod.mk.injEq]
    exact ⟨Or.inl, fun hv => hv.resolve_right fun hboth => hk hboth.1.symm⟩

/-- A list collects to the values that were there and those its items give. -/
theorem collect_eq_some {values result : κ → Option ν} {items : List α} :
    collect read values items = some result ↔
      (∀ item ∈ items, read item ≠ none) ∧ ∀ key value, result key = some value ↔
        values key = some value ∨ ∃ item ∈ items, read item = some (some (key, value)) := by
  induction items generalizing values with
  | nil =>
      rw [collect, List.foldlM_nil]
      refine ⟨fun h => ⟨nofun, fun key value => ?_⟩, fun h => congrArg some (funext fun key => ?_)⟩
      · obtain rfl := Option.some.inj h
        simp
      · exact Option.ext fun value => by simpa using (h.2 key value).symm
  | cons item items ih =>
      rw [collect, List.foldlM_cons, add]
      rcases hread : read item with _ | _ | ⟨key, value⟩
      · exact ⟨nofun, fun h => absurd hread (h.1 item List.mem_cons_self)⟩
      · refine ih.trans (and_congr ?_ ?_)
        · simp [hread]
        · simp [hread]
      · -- The first item's value agrees with what was there, and joins it.
        have hjoin (k : κ) (v : ν) : (∃ other ∈ item :: items, read other = some (some (k, v))) ↔
            (key, value) = (k, v) ∨ ∃ other ∈ items, read other = some (some (k, v)) := by
          rw [List.exists_mem_cons_iff, hread, Option.some.injEq, Option.some.injEq]
        constructor
        · intro h
          obtain ⟨next, hrecord, hrest⟩ := Option.bind_eq_some_iff.mp h
          obtain ⟨hagree, rfl⟩ := record_eq_some.mp hrecord
          obtain ⟨hreadable, hresult⟩ := ih.mp hrest
          refine ⟨List.forall_mem_cons.mpr ⟨by simp [hread], hreadable⟩, fun k v => ?_⟩
          rw [hresult, update_eq_some hagree, hjoin, or_assoc]
        · rintro ⟨hreadable, hresult⟩
          have hgiven : result key = some value :=
            (hresult key value).mpr (Or.inr ((hjoin key value).mpr (Or.inl rfl)))
          have hagree : ∀ previous, values key = some previous → previous = value := by
            intro previous hprevious
            have hkept : result key = some previous := (hresult key previous).mpr (Or.inl hprevious)
            exact Option.some.inj (hkept.symm.trans hgiven)
          refine Option.bind_eq_some_iff.mpr ⟨_, record_eq_some.mpr ⟨hagree, rfl⟩, ih.mpr ⟨?_, ?_⟩⟩
          · exact (List.forall_mem_cons.mp hreadable).2
          · intro k v
            rw [hresult, update_eq_some hagree, hjoin, or_assoc]

/-- What is collected from nothing is what the items give. -/
theorem collect_empty {result : κ → Option ν} {items : List α} :
    collect read (fun _ => none) items = some result ↔
      (∀ item ∈ items, read item ≠ none) ∧ ∀ key value, result key = some value ↔
        ∃ item ∈ items, read item = some (some (key, value)) := by
  rw [collect_eq_some]
  simp

/-- Lists of the same items collect to the same values, or both to none. -/
theorem collect_congr {items items' : List α} (h : ∀ item, item ∈ items ↔ item ∈ items')
    (values : κ → Option ν) : collect read values items = collect read values items' := by
  apply Option.ext
  intro result
  simp only [collect_eq_some, h]

/-- Collecting fails at an unreadable item and at a conflict, wherever they stand. -/
theorem collect_eq_none {items : List α} :
    collect read (fun _ => none) items = none ↔
      (∃ item ∈ items, read item = none) ∨
      ∃ key value value', value ≠ value' ∧
        (∃ item ∈ items, read item = some (some (key, value))) ∧
        ∃ item ∈ items, read item = some (some (key, value')) := by
  constructor
  · intro h
    by_contra hgood
    rw [not_or] at hgood
    obtain ⟨hreadable, hagree⟩ := hgood
    push Not at hreadable
    classical
    let given (key : κ) (value : ν) : Prop := ∃ item ∈ items, read item = some (some (key, value))
    let result (key : κ) : Option ν :=
      if hkey : ∃ value, given key value then some hkey.choose else none
    have hsome : collect read (fun _ => none) items = some result := by
      refine collect_empty.mpr ⟨hreadable, fun key value => ?_⟩
      by_cases hkey : ∃ value, given key value
      · rw [show result key = some hkey.choose from dif_pos hkey, Option.some.injEq]
        refine ⟨fun heq => heq ▸ hkey.choose_spec, fun hvalue => ?_⟩
        by_contra hne
        exact hagree ⟨key, _, value, hne, hkey.choose_spec, hvalue⟩
      · rw [show result key = none from dif_neg hkey]
        exact iff_of_false nofun fun hvalue => hkey ⟨value, hvalue⟩
    rw [h] at hsome
    cases hsome
  · intro h
    cases hcollect : collect read (fun _ => none) items with
    | none => rfl
    | some result =>
        obtain ⟨hreadable, hresult⟩ := collect_empty.mp hcollect
        rcases h with ⟨item, hitem, hnone⟩ | ⟨key, value, value', hne, hvalue, hvalue'⟩
        · exact absurd hnone (hreadable item hitem)
        · have hfirst := (hresult key value).mpr hvalue
          have hsecond := (hresult key value').mpr hvalue'
          exact absurd (Option.some.inj (hfirst.symm.trans hsecond)) hne

end Lib.Agreement
