import Zhtps.Lib.Gather

/-!
Counters in shared memory.  One thread, their owner, adds with a load and a store, or, to the counters
that others use as well, with atomic read-modify-writes; any number of others add to these.  Readers
take snapshots, one counter after the other, while all of them go on.

No addition is lost: a counter is always the sum of the additions that took effect.  A snapshot has of
each counter what it was at some moment of the snapshot.
-/

namespace Lib

variable {κ M : Type*} [DecidableEq κ] [AddCommMonoid M] {t r : Nat}

/-- What some additions come to at one counter. -/
def tally (additions : List (κ × M)) (key : κ) : M :=
  (additions.map fun addition => if addition.1 = key then addition.2 else 0).sum

@[simp] theorem tally_nil (key : κ) : tally ([] : List (κ × M)) key = 0 := rfl

theorem tally_append (first second : List (κ × M)) (key : κ) :
    tally (first ++ second) key = tally first key + tally second key := by
  unfold tally
  rw [List.map_append, List.sum_append]

theorem tally_single (key : κ) (amount : M) (other : κ) :
    tally [(key, amount)] other = if key = other then amount else 0 := add_zero _

theorem tally_perm {first second : List (κ × M)} (h : first.Perm second) (key : κ) :
    tally first key = tally second key := (h.map _).sum_eq

/-- A snapshot under way: what is still to be read, what was read, and how many additions had taken
effect when it began. -/
structure Snapshotting (κ M : Type*) where
  todo : List κ := []
  captured : List (κ × M) := []
  since : Nat := 0

/-- The counters and who works on them; `begun` and `applied` are history. -/
structure Counters (κ M : Type*) (t r : Nat) where
  cells : κ → M
  /-- What the owner has still to add, and what it has loaded for the first of these. -/
  owner : List (κ × M) := []
  loaded : Option M := none
  threads : Fin t → List (κ × M) := fun _ => []
  readers : Fin r → Snapshotting κ M := fun _ => {}
  begun : List (κ × M) := []
  applied : List (κ × M) := []

namespace Counters

inductive Event (κ M : Type*) (t r : Nat)
  /-- The owner begins some additions, and makes the first of them in two steps or in one. -/
  | own (additions : List (κ × M))
  | load
  | store
  | bump
  /-- Another thread begins some, and makes the first of them in one. -/
  | share (thread : Fin t) (additions : List (κ × M))
  | add (thread : Fin t)
  | snapshot (reader : Fin r) (keys : List κ)
  | read (reader : Fin r)

def setCell (key : κ) (value : M) (s : Counters κ M t r) : Counters κ M t r :=
  { s with cells := Function.update s.cells key value }

/-- A step; the owner uses no load and store for a shared counter, and the others leave it the rest. -/
def step (shared : κ → Bool) (s : Counters κ M t r) : Event κ M t r → Option (Counters κ M t r)
  | .own additions =>
      if s.owner = [] then some { s with owner := additions, begun := s.begun ++ additions } else none
  | .load =>
      match s.owner, s.loaded with
      | (key, _) :: _, none => if shared key then none else some { s with loaded := some (s.cells key) }
      | _, _ => none
  | .store =>
      match s.owner, s.loaded with
      | (key, amount) :: rest, some value =>
          some
            { s.setCell key (value + amount) with
              owner := rest
              loaded := none
              applied := s.applied ++ [(key, amount)] }
      | _, _ => none
  | .bump =>
      match s.owner, s.loaded with
      | (key, amount) :: rest, none =>
          some
            { s.setCell key (s.cells key + amount) with
              owner := rest
              applied := s.applied ++ [(key, amount)] }
      | _, _ => none
  | .share thread additions =>
      if s.threads thread = [] ∧ ∀ addition ∈ additions, shared addition.1 = true then
        some
          { s with
            threads := Function.update s.threads thread additions
            begun := s.begun ++ additions }
      else none
  | .add thread =>
      match s.threads thread with
      | (key, amount) :: rest =>
          some
            { s.setCell key (s.cells key + amount) with
              threads := Function.update s.threads thread rest
              applied := s.applied ++ [(key, amount)] }
      | [] => none
  | .snapshot reader keys =>
      some
        { s with
          readers := Function.update s.readers reader { todo := keys, since := s.applied.length } }
  | .read reader =>
      match (s.readers reader).todo with
      | key :: rest =>
          some
            { s with
              readers := Function.update s.readers reader
                { s.readers reader with
                  todo := rest
                  captured := (s.readers reader).captured ++ [(key, s.cells key)] } }
      | [] => none

variable {shared : κ → Bool} {s next : Counters κ M t r}

/-- The additions that were begun and have not taken effect. -/
def pending (s : Counters κ M t r) : List (κ × M) := s.owner ++ gather s.threads

/-- What was read is what the counter was at some moment since the snapshot began. -/
def Timely (s : Counters κ M t r) (reader : Snapshotting κ M) : Prop :=
  reader.since ≤ s.applied.length ∧ ∀ entry ∈ reader.captured, ∃ moment, reader.since ≤ moment ∧
    moment ≤ s.applied.length ∧ entry.2 = tally (s.applied.take moment) entry.1

structure Sound (shared : κ → Bool) (s : Counters κ M t r) : Prop where
  exact : ∀ key, s.cells key = tally s.applied key
  conserved : s.begun.Perm (s.applied ++ s.pending)
  others : ∀ thread, ∀ addition ∈ s.threads thread, shared addition.1 = true
  current : ∀ value, s.loaded = some value →
    ∃ key amount rest, s.owner = (key, amount) :: rest ∧ s.cells key = value ∧ shared key = false
  timely : ∀ reader, s.Timely (s.readers reader)

theorem init_sound : (({ cells := fun _ => 0 } : Counters κ M t r)).Sound shared := by
  refine ⟨fun _ => rfl, ?_, nofun, nofun, fun _ => ⟨Nat.zero_le _, nofun⟩⟩
  have hnone : gather (fun _ : Fin t => ([] : List (κ × M))) = [] :=
    List.eq_nil_iff_forall_not_mem.mpr fun _ hmem => by
      obtain ⟨_, hin⟩ := mem_gather.mp hmem
      cases hin
  show [].Perm ([] ++ ([] ++ gather fun _ => []))
  rw [hnone]
  exact List.Perm.refl _

/-- More additions leave the moments that were there. -/
theorem Timely.grow {reader : Snapshotting κ M} (h : s.Timely reader) {addition : κ × M}
    (happlied : next.applied = s.applied ++ [addition]) : next.Timely reader := by
  have hlength : next.applied.length = s.applied.length + 1 := by
    rw [happlied, List.length_append, List.length_singleton]
  refine ⟨by rw [hlength]; exact Nat.le_succ_of_le h.1, fun entry hentry => ?_⟩
  obtain ⟨moment, hsince, hle, hvalue⟩ := h.2 entry hentry
  refine ⟨moment, hsince, by rw [hlength]; exact Nat.le_succ_of_le hle, ?_⟩
  rw [happlied, List.take_append_of_le_length hle]
  exact hvalue

/-- One addition takes effect. -/
theorem exact_apply (h : ∀ key, s.cells key = tally s.applied key) (key : κ) (amount : M) (other : κ) :
    Function.update s.cells key (s.cells key + amount) other = tally (s.applied ++ [(key, amount)]) other := by
  rw [tally_append, tally_single, ← h other]
  by_cases hother : other = key
  · rw [hother, Function.update_self, if_pos rfl]
  · rw [Function.update_of_ne hother, if_neg (Ne.symm hother), add_zero]

omit [DecidableEq κ] [AddCommMonoid M] in
theorem gather_threads (s : Counters κ M t r) (thread : Fin t) (additions : List (κ × M)) :
    (s.threads thread ++ gather (Function.update s.threads thread additions)).Perm
      (additions ++ gather s.threads) := by
  have hafter := gather_perm (Function.update s.threads thread additions) thread
  have hbefore := gather_perm s.threads thread
  have hothers : gatherBut thread (Function.update s.threads thread additions) =
      gatherBut thread s.threads :=
    gatherBut_congr fun j hj => Function.update_of_ne hj ..
  rw [Function.update_self, hothers] at hafter
  have hmiddle := (hafter.append_left (s.threads thread)).trans (List.perm_append_comm_assoc _ _ _)
  exact hmiddle.trans (hbefore.symm.append_left _)

theorem Sound.own (h : s.Sound shared) (hidle : s.owner = []) (additions : List (κ × M)) :
    Sound shared { s with owner := additions, begun := s.begun ++ additions } := by
  refine ⟨h.exact, ?_, h.others, fun value hloaded => ?_, h.timely⟩
  · have hconserved := h.conserved
    unfold pending at hconserved ⊢
    rw [hidle, List.nil_append] at hconserved
    refine (hconserved.append_right additions).trans ?_
    rw [List.append_assoc]
    exact List.Perm.append_left _ List.perm_append_comm
  · obtain ⟨key, amount, rest, howner, -⟩ := h.current value hloaded
    rw [hidle] at howner
    cases howner

theorem Sound.load (h : s.Sound shared) {key : κ} {amount : M} {rest : List (κ × M)}
    (howner : s.owner = (key, amount) :: rest) (hkey : shared key = false) :
    Sound shared { s with loaded := some (s.cells key) } := by
  refine ⟨h.exact, h.conserved, h.others, fun value hloaded => ?_, h.timely⟩
  exact ⟨key, amount, rest, howner, Option.some.inj hloaded, hkey⟩

omit [DecidableEq κ] [AddCommMonoid M] in
theorem conserved_owner (h : s.begun.Perm (s.applied ++ s.pending)) {addition : κ × M}
    {rest : List (κ × M)} (howner : s.owner = addition :: rest) :
    s.begun.Perm (s.applied ++ [addition] ++ (rest ++ gather s.threads)) := by
  unfold pending at h
  rw [howner] at h
  rw [List.append_assoc]
  exact h

/-- What the owner stores is what it loaded and its own addition: nobody else has been there. -/
theorem Sound.store (h : s.Sound shared) {key : κ} {amount value : M} {rest : List (κ × M)}
    (howner : s.owner = (key, amount) :: rest) (hloaded : s.loaded = some value) :
    Sound shared
      { s.setCell key (value + amount) with
        owner := rest
        loaded := none
        applied := s.applied ++ [(key, amount)] } := by
  obtain ⟨first, added, others, hhead, hvalue, -⟩ := h.current value hloaded
  rw [howner] at hhead
  obtain ⟨hfirst, rfl⟩ := List.cons.inj hhead
  obtain ⟨rfl, rfl⟩ := Prod.mk.inj hfirst
  refine ⟨fun other => ?_, conserved_owner h.conserved howner, h.others, nofun,
    fun reader => (h.timely reader).grow rfl⟩
  rw [← hvalue]
  exact exact_apply h.exact key amount other

theorem Sound.bump (h : s.Sound shared) {key : κ} {amount : M} {rest : List (κ × M)}
    (howner : s.owner = (key, amount) :: rest) (hloaded : s.loaded = none) :
    Sound shared
      { s.setCell key (s.cells key + amount) with
        owner := rest
        applied := s.applied ++ [(key, amount)] } := by
  refine ⟨exact_apply h.exact key amount, conserved_owner h.conserved howner, h.others,
    fun value hvalue => ?_, fun reader => (h.timely reader).grow rfl⟩
  have hvalue : s.loaded = some value := hvalue
  rw [hloaded] at hvalue
  cases hvalue

theorem Sound.share (h : s.Sound shared) {thread : Fin t} (hidle : s.threads thread = [])
    {additions : List (κ × M)} (hshared : ∀ addition ∈ additions, shared addition.1 = true) :
    Sound shared
      { s with
        threads := Function.update s.threads thread additions
        begun := s.begun ++ additions } := by
  refine ⟨h.exact, ?_, fun other addition hmem => ?_, h.current, h.timely⟩
  · have hthreads := gather_threads s thread additions
    rw [hidle, List.nil_append] at hthreads
    have hmore := (h.conserved.append_right additions).trans (@List.perm_append_comm _ _ additions)
    refine hmore.trans ?_
    unfold pending
    refine ((List.perm_append_comm_assoc _ _ _).trans (List.Perm.append_left _ ?_))
    refine (List.perm_append_comm_assoc _ _ _).trans (List.Perm.append_left _ ?_)
    exact hthreads.symm
  · have hmem : addition ∈ Function.update s.threads thread additions other := hmem
    by_cases hother : other = thread
    · rw [hother, Function.update_self] at hmem
      exact hshared addition hmem
    · rw [Function.update_of_ne hother] at hmem
      exact h.others other addition hmem

/-- An addition to a shared counter is not to the one that the owner has loaded. -/
theorem Sound.add (h : s.Sound shared) {thread : Fin t} {key : κ} {amount : M} {rest : List (κ × M)}
    (hthread : s.threads thread = (key, amount) :: rest) :
    Sound shared
      { s.setCell key (s.cells key + amount) with
        threads := Function.update s.threads thread rest
        applied := s.applied ++ [(key, amount)] } := by
  have hshared : shared key = true := h.others thread (key, amount) (hthread ▸ List.mem_cons_self ..)
  refine ⟨exact_apply h.exact key amount, ?_, fun other addition hmem => ?_,
    fun value hloaded => ?_, fun reader => (h.timely reader).grow rfl⟩
  · have hthreads := gather_threads s thread rest
    rw [hthread, List.cons_append] at hthreads
    have hrest : (gather s.threads).Perm ((key, amount) :: gather (Function.update s.threads thread rest)) :=
      (List.perm_append_left_iff rest).mp (hthreads.symm.trans List.perm_middle.symm)
    refine h.conserved.trans ?_
    unfold pending
    rw [List.append_assoc]
    refine List.Perm.append_left _ ?_
    exact (List.Perm.append_left _ hrest).trans List.perm_middle
  · have hmem : addition ∈ Function.update s.threads thread rest other := hmem
    by_cases hother : other = thread
    · rw [hother, Function.update_self] at hmem
      exact h.others thread addition (hthread ▸ List.mem_cons_of_mem _ hmem)
    · rw [Function.update_of_ne hother] at hmem
      exact h.others other addition hmem
  · obtain ⟨first, added, others, howner, hvalue, hfirst⟩ := h.current value hloaded
    have hne : first ≠ key := by
      rintro rfl
      rw [hshared] at hfirst
      cases hfirst
    exact ⟨first, added, others, howner, (Function.update_of_ne hne ..).trans hvalue, hfirst⟩

theorem Sound.snapshot (h : s.Sound shared) (reader : Fin r) (keys : List κ) :
    Sound shared
      { s with
        readers := Function.update s.readers reader { todo := keys, since := s.applied.length } } := by
  refine ⟨h.exact, h.conserved, h.others, h.current, fun other => ?_⟩
  by_cases hother : other = reader
  · show s.Timely (Function.update s.readers reader _ other)
    rw [hother, Function.update_self]
    exact ⟨Nat.le_refl _, nofun⟩
  · show s.Timely (Function.update s.readers reader _ other)
    rw [Function.update_of_ne hother]
    exact h.timely other

theorem Sound.read (h : s.Sound shared) (reader : Fin r) (key : κ) (rest : List κ) :
    Sound shared
      { s with
        readers := Function.update s.readers reader
          { s.readers reader with
            todo := rest
            captured := (s.readers reader).captured ++ [(key, s.cells key)] } } := by
  refine ⟨h.exact, h.conserved, h.others, h.current, fun other => ?_⟩
  show s.Timely (Function.update s.readers reader _ other)
  by_cases hother : other = reader
  · rw [hother, Function.update_self]
    refine ⟨(h.timely reader).1, fun entry hentry => ?_⟩
    rcases List.mem_append.mp hentry with hentry | hentry
    · exact (h.timely reader).2 entry hentry
    · rw [List.mem_singleton.mp hentry]
      exact ⟨s.applied.length, (h.timely reader).1, Nat.le_refl _, by rw [List.take_length]; exact h.exact key⟩
  · rw [Function.update_of_ne hother]
    exact h.timely other

theorem step_sound {event : Event κ M t r} (h : s.Sound shared) (hstep : step shared s event = some next) :
    next.Sound shared := by
  cases event with
  | own additions =>
      simp only [step] at hstep
      split_ifs at hstep with hidle
      exact Option.some.inj hstep ▸ h.own hidle additions
  | load =>
      simp only [step] at hstep
      split at hstep
      · rename_i howner _
        split_ifs at hstep with hkey
        exact Option.some.inj hstep ▸ h.load howner (Bool.eq_false_of_not_eq_true hkey)
      · cases hstep
  | store =>
      simp only [step] at hstep
      split at hstep
      · rename_i howner hloaded
        exact Option.some.inj hstep ▸ h.store howner hloaded
      · cases hstep
  | bump =>
      simp only [step] at hstep
      split at hstep
      · rename_i howner hloaded
        exact Option.some.inj hstep ▸ h.bump howner hloaded
      · cases hstep
  | share thread additions =>
      simp only [step] at hstep
      split_ifs at hstep with hready
      exact Option.some.inj hstep ▸ h.share hready.1 hready.2
  | add thread =>
      simp only [step] at hstep
      split at hstep
      · rename_i hthread
        exact Option.some.inj hstep ▸ h.add hthread
      · cases hstep
  | snapshot reader keys => exact Option.some.inj hstep ▸ h.snapshot reader keys
  | read reader =>
      simp only [step] at hstep
      split at hstep
      · rename_i key rest _
        exact Option.some.inj hstep ▸ h.read reader key rest
      · cases hstep

/-- What an event begins. -/
def Event.brings : Event κ M t r → List (κ × M)
  | .own additions | .share _ additions => additions
  | _ => []

theorem step_begun {event : Event κ M t r} (hstep : step shared s event = some next) :
    next.begun = s.begun ++ event.brings := by
  cases event with
  | own additions =>
      simp only [step] at hstep
      split_ifs at hstep
      exact Option.some.inj hstep ▸ rfl
  | share thread additions =>
      simp only [step] at hstep
      split_ifs at hstep
      exact Option.some.inj hstep ▸ rfl
  | snapshot reader keys => exact Option.some.inj hstep ▸ (List.append_nil _).symm
  | load =>
      simp only [step] at hstep
      split at hstep
      · split_ifs at hstep
        exact Option.some.inj hstep ▸ (List.append_nil _).symm
      · cases hstep
  | store =>
      simp only [step] at hstep
      split at hstep
      · exact Option.some.inj hstep ▸ (List.append_nil _).symm
      · cases hstep
  | bump =>
      simp only [step] at hstep
      split at hstep
      · exact Option.some.inj hstep ▸ (List.append_nil _).symm
      · cases hstep
  | add thread =>
      simp only [step] at hstep
      split at hstep
      · exact Option.some.inj hstep ▸ (List.append_nil _).symm
      · cases hstep
  | read reader =>
      simp only [step] at hstep
      split at hstep
      · exact Option.some.inj hstep ▸ (List.append_nil _).symm
      · cases hstep

/-- When nobody is in the middle of something, the counters are what was begun. -/
theorem Sound.settled (h : s.Sound shared) (hpending : s.pending = []) (key : κ) :
    s.cells key = tally s.begun key := by
  have hconserved := h.conserved
  rw [hpending, List.append_nil] at hconserved
  rw [h.exact, tally_perm hconserved]

end Counters

end Lib
