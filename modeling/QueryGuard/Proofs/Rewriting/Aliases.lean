import QueryGuard.Model.Constraint
import QueryGuard.Proofs.Rewriting.Renaming
/-!
The aliases that are chosen for an added query are new.
-/

set_option autoImplicit false

namespace QueryGuard

namespace FreshAlias

theorem numbered_inj {name : String} {first second : Nat}
    (same : numbered name first = numbered name second) : first = second := by
  have digits := congrArg String.toList same
  simp only [numbered, String.toList_append, List.append_cancel_left_eq,
    Nat.toString_eq_ofList_toDigits, String.toList_ofList] at digits
  have read := congrArg (Nat.ofDigitChars 10 · 0) digits
  simpa only [Nat.ofDigitChars_ten_toDigits] using read

theorem nodup_candidates (avoid : List String) (name : String) :
    (candidates avoid name).Nodup := by
  unfold candidates
  rw [List.nodup_iff_pairwise_ne, List.pairwise_map]
  refine List.Pairwise.imp ?_ List.nodup_range'
  exact fun different same => different (numbered_inj same)

/-- There are more candidates than aliases to avoid, so one of them is chosen: the first that is free. -/
theorem exists_choice (avoid : List String) (name : String) :
    ∃ number, 1 ≤ number ∧ choose avoid name = numbered name number ∧
      numbered name number ∉ avoid ∧
      ∀ earlier, 1 ≤ earlier → earlier < number → numbered name earlier ∈ avoid := by
  have chosen : choose avoid name =
      (((List.range' 1 (avoid.length + 1)).find? (numbered name · ∉ avoid)).map
        (numbered name)).getD name := by
    rw [choose, candidates, List.find?_map]
    rfl
  cases found : (List.range' 1 (avoid.length + 1)).find? (numbered name · ∉ avoid) with
  | some number =>
    rw [found, Option.map_some, Option.getD_some] at chosen
    obtain ⟨free, among, before⟩ := List.find?_range'_eq_some.mp found
    refine ⟨number, (List.mem_range'_1.mp among).1, chosen, by simpa using free, ?_⟩
    intro earlier positive smaller
    simpa using before earlier positive smaller
  | none =>
    have among : candidates avoid name ⊆ avoid := by
      intro candidate member
      obtain ⟨number, listed, rfl⟩ := List.mem_map.mp member
      simpa using List.find?_eq_none.mp found number listed
    have short := (nodup_candidates avoid name).length_le_of_subset among
    rw [candidates, List.length_map, List.length_range'] at short
    omega

theorem choose_not_mem (avoid : List String) (name : String) : choose avoid name ∉ avoid := by
  obtain ⟨number, _, chosen, free, _⟩ := exists_choice avoid name
  rw [chosen]
  exact free

end FreshAlias

namespace Constraint

variable {taken reserved names : List String}

theorem written_chooseAliases (taken reserved names : List String) :
    (chooseAliases taken reserved names).map (·.1) = names := by
  induction names generalizing reserved with
  | nil => rfl
  | cons name rest ih =>
    unfold chooseAliases
    split
    · rw [List.map_cons, ih]
    · rw [List.map_cons, ih]

/-- An alias that is used is new; it is another one than written only if that was taken, and then
none of those reserved. -/
theorem of_mem_chooseAliases {written used : String}
    (found : (written, used) ∈ chooseAliases taken reserved names) :
    used ∉ taken ∧ (used = written ∨ written ∈ taken ∧ used ∉ reserved) := by
  induction names generalizing reserved with
  | nil => cases found
  | cons name rest ih =>
    unfold chooseAliases at found
    split at found
    · rename_i unavailable
      rcases List.mem_cons.mp found with same | found
      · obtain ⟨rfl, rfl⟩ := Prod.mk.inj same
        have fresh := FreshAlias.choose_not_mem (taken ++ reserved) written
        rw [List.mem_append, not_or] at fresh
        exact ⟨fresh.1, .inr ⟨unavailable, fresh.2⟩⟩
      · obtain ⟨new, same | ⟨unavailable, free⟩⟩ := ih found
        · exact ⟨new, .inl same⟩
        · exact ⟨new, .inr ⟨unavailable, fun member => free (List.mem_cons_of_mem _ member)⟩⟩
    · rename_i available
      rcases List.mem_cons.mp found with same | found
      · obtain ⟨rfl, rfl⟩ := Prod.mk.inj same
        exact ⟨available, .inl rfl⟩
      · exact ih found

/-- An alias that is used is new; it was written at the level or is none of those reserved. -/
theorem of_mem_used {used : String}
    (found : used ∈ (chooseAliases taken reserved names).map (·.2)) :
    used ∉ taken ∧ (used ∈ names ∨ used ∉ reserved) := by
  obtain ⟨⟨written, other⟩, member, rfl⟩ := List.mem_map.mp found
  obtain ⟨new, same | ⟨_, free⟩⟩ := of_mem_chooseAliases member
  · have listed : written ∈ names := by
      rw [← written_chooseAliases taken reserved names]
      exact List.mem_map_of_mem member
    rw [same]
    exact ⟨same ▸ new, .inl listed⟩
  · exact ⟨new, .inr free⟩

/-- Different aliases are given to the ranges of a level. -/
theorem nodup_chooseAliases (nodup : names.Nodup) (among : names ⊆ reserved) :
    ((chooseAliases taken reserved names).map (·.2)).Nodup := by
  induction names generalizing reserved with
  | nil => exact List.nodup_nil
  | cons name rest ih =>
    obtain ⟨first, others⟩ := List.nodup_cons.mp nodup
    obtain ⟨here, further⟩ := List.cons_subset.mp among
    unfold chooseAliases
    split
    · have fresh := FreshAlias.choose_not_mem (taken ++ reserved) name
      rw [List.mem_append, not_or] at fresh
      have distinct := ih others (List.subset_cons_of_subset (FreshAlias.choose (taken ++ reserved) name) further)
      refine List.nodup_cons.mpr ⟨fun repeated => ?_, distinct⟩
      obtain ⟨_, listed | apart⟩ := of_mem_used repeated
      · exact fresh.2 (further listed)
      · exact apart List.mem_cons_self
    · refine List.nodup_cons.mpr ⟨fun repeated => ?_, ih others further⟩
      obtain ⟨_, listed | apart⟩ := of_mem_used repeated
      · exact first listed
      · exact apart here

theorem changes_cons_same (name : String) (rest : List (String × String)) :
    Siblings.changes ((name, name) :: rest) = Siblings.changes rest :=
  List.filter_cons_of_neg (by simp)

theorem changes_cons_ne {written used : String} (changed : written ≠ used)
    (rest : List (String × String)) :
    Siblings.changes ((written, used) :: rest) = (written, used) :: Siblings.changes rest :=
  List.filter_cons_of_pos (by simpa using changed)

/-- The pairs that change nothing need not be applied. -/
theorem apply_changes {chosen : List (String × String)} (distinct : (chosen.map (·.1)).Nodup)
    (name : String) : Renaming.apply (Siblings.changes chosen) name = Renaming.apply chosen name := by
  induction chosen with
  | nil => rfl
  | cons pair rest ih =>
    obtain ⟨written, used⟩ := pair
    obtain ⟨first, others⟩ := List.nodup_cons.mp distinct
    have further := ih others
    by_cases changed : written = used
    · subst changed
      rw [changes_cons_same, further]
      by_cases same : name = written
      · subst same
        rw [Renaming.apply_cons_self, Renaming.apply_not_mem first]
      · rw [Renaming.apply_cons_ne same]
    · rw [changes_cons_ne changed]
      by_cases same : name = written
      · subst same
        rw [Renaming.apply_cons_self, Renaming.apply_cons_self]
      · rw [Renaming.apply_cons_ne same, Renaming.apply_cons_ne same, further]

theorem zip_chosen (chosen : List (String × String)) :
    (chosen.map (·.1)).zip (chosen.map (·.2)) = chosen := by
  rw [List.zip_map']
  exact List.map_id _

theorem zip_used (taken reserved names : List String) :
    names.zip ((chooseAliases taken reserved names).map (·.2)) =
      chooseAliases taken reserved names := by
  have written := written_chooseAliases taken reserved names
  generalize chooseAliases taken reserved names = chosen at written
  rw [← written, zip_chosen]

end Constraint

end QueryGuard
