import Mathlib

/-!
Streams of lines: texts that end with their only separator.  Where a stream is cut behind separators,
the pieces are groups of whole lines.
-/

namespace Lib

variable {α : Type*} {sep : α} {line body : List α} {lines bodies : List (List α)}

/-- A text that ends with its only separator. -/
def Line (sep : α) (line : List α) : Prop := ∃ text, line = text ++ [sep] ∧ sep ∉ text

/-- A piece of a stream that is cut behind a separator. -/
def Ends (sep : α) (body : List α) : Prop := body.getLast? = some sep

theorem Line.ends (h : Line sep line) : Ends sep line := by
  obtain ⟨text, rfl, -⟩ := h
  exact List.getLast?_concat

theorem count_line [DecidableEq α] (h : Line sep line) : line.count sep = 1 := by
  obtain ⟨text, rfl, htext⟩ := h
  rw [List.count_append, List.count_eq_zero.mpr htext, List.count_singleton_self]

theorem count_lines [DecidableEq α] (h : ∀ line ∈ lines, Line sep line) :
    lines.flatten.count sep = lines.length := by
  induction lines with
  | nil => rfl
  | cons line lines ih =>
      rw [List.flatten_cons, List.count_append, count_line (h line List.mem_cons_self),
        ih fun other hother => h other (List.mem_cons_of_mem _ hother), List.length_cons, Nat.add_comm]

theorem ends_flatten (h : ∀ body ∈ bodies, Ends sep body) :
    bodies.flatten = [] ∨ Ends sep bodies.flatten := by
  rcases List.eq_nil_or_concat' bodies with rfl | ⟨before, last, rfl⟩
  · exact Or.inl rfl
  · have hlast := h last (List.mem_append_right _ (List.mem_singleton_self _))
    have hne : last ≠ [] := by
      rintro rfl
      cases hlast
    refine Or.inr ?_
    rw [Ends, List.flatten_append, List.flatten_singleton, List.getLast?_append_of_ne_nil _ hne]
    exact hlast

/-- Nothing but a whole line ends with the separator of the line. -/
theorem Line.eq_of_prefix (h : Line sep line) (hbegins : body <+: line) (hends : Ends sep body) :
    body = line := by
  obtain ⟨text, rfl, htext⟩ := h
  rcases List.prefix_concat_iff.mp hbegins with heq | hshort
  · exact heq
  · exact absurd (hshort.subset (List.mem_of_getLast? hends)) htext

/-- What a stream of lines begins with is a group of whole lines, where it is cut behind a separator. -/
theorem lines_of_prefix (h : ∀ line ∈ lines, Line sep line) (hbegins : body <+: lines.flatten)
    (hends : Ends sep body) :
    ∃ group rest, lines = group ++ rest ∧ group ≠ [] ∧ body = group.flatten := by
  induction lines generalizing body with
  | nil =>
      obtain rfl := List.prefix_nil.mp hbegins
      cases hends
  | cons line lines ih =>
      have hline := h line List.mem_cons_self
      rw [List.flatten_cons] at hbegins
      have hone : body = line → ∃ group rest, line :: lines = group ++ rest ∧ group ≠ [] ∧
          body = group.flatten := fun heq =>
        ⟨[line], lines, rfl, List.cons_ne_nil _ _, by rw [List.flatten_singleton, heq]⟩
      rcases List.prefix_or_prefix_of_prefix hbegins (List.prefix_append line _) with hshort | hlong
      · exact hone (hline.eq_of_prefix hshort hends)
      · obtain ⟨after, rfl⟩ := hlong
        by_cases hafter : after = []
        · exact hone (by rw [hafter, List.append_nil])
        · have hlast : Ends sep after := by
            rwa [Ends, List.getLast?_append_of_ne_nil _ hafter] at hends
          obtain ⟨group, rest, rfl, -, rfl⟩ := ih (fun other hother => h other
            (List.mem_cons_of_mem _ hother)) ((List.prefix_append_right_inj _).mp hbegins) hlast
          exact ⟨line :: group, rest, rfl, List.cons_ne_nil _ _, rfl⟩

/-- A piece as long as the lines has a separator. -/
theorem mem_of_long {before : List α} (h : ∀ line ∈ lines, Line sep line)
    (hlong : ∀ line ∈ lines, line.length ≤ body.length) (hbody : body ≠ [])
    (hbefore : before = [] ∨ Ends sep before) (hbegins : before ++ body <+: lines.flatten) :
    sep ∈ body := by
  obtain ⟨group, rest, rfl, hgroup⟩ : ∃ group rest, lines = group ++ rest ∧ before = group.flatten := by
    rcases hbefore with rfl | hends
    · exact ⟨[], lines, rfl, rfl⟩
    · obtain ⟨group, rest, hsplit, -, hgroup⟩ :=
        lines_of_prefix h ((List.prefix_append _ _).trans hbegins) hends
      exact ⟨group, rest, hsplit, hgroup⟩
  rw [List.flatten_append, ← hgroup, List.prefix_append_right_inj] at hbegins
  cases rest with
  | nil => exact absurd (List.prefix_nil.mp hbegins) hbody
  | cons line rest =>
      have hmem : line ∈ group ++ line :: rest := List.mem_append_right _ List.mem_cons_self
      have hsep : sep ∈ line := List.mem_of_getLast? (h line hmem).ends
      rcases List.prefix_or_prefix_of_prefix hbegins (List.prefix_append line _) with hshort | hwhole
      · rwa [hshort.eq_of_length_le (hlong line hmem)]
      · exact hwhole.subset hsep

/-- The pieces of a stream of lines are groups of whole lines, in the order of the stream. -/
theorem groups_of_prefix (h : ∀ line ∈ lines, Line sep line) (hbegin : bodies.flatten <+: lines.flatten)
    (hends : ∀ body ∈ bodies, Ends sep body) :
    ∃ (groups : List (List (List α))) (rest : List (List α)), groups.flatten ++ rest = lines ∧
      (∀ group ∈ groups, group ≠ []) ∧ bodies = groups.map List.flatten := by
  induction bodies generalizing lines with
  | nil => exact ⟨[], lines, rfl, nofun, rfl⟩
  | cons body bodies ih =>
      rw [List.flatten_cons] at hbegin
      obtain ⟨group, after, rfl, hgroup, rfl⟩ := lines_of_prefix h
        ((List.prefix_append _ _).trans hbegin) (hends body List.mem_cons_self)
      rw [List.flatten_append, List.prefix_append_right_inj] at hbegin
      obtain ⟨groups, rest, rfl, hgroups, rfl⟩ := ih
        (fun line hline => h line (List.mem_append_right _ hline)) hbegin
        fun other hother => hends other (List.mem_cons_of_mem _ hother)
      refine ⟨group :: groups, rest, ?_, ?_, rfl⟩
      · rw [List.flatten_cons, List.append_assoc]
      · intro other hother
        rcases List.mem_cons.mp hother with rfl | hother
        · exact hgroup
        · exact hgroups other hother

end Lib
