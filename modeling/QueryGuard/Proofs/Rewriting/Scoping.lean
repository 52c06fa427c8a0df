import Mathlib.Data.List.Forall2
import QueryGuard.Proofs.Rewriting.Renaming
/-!
What the paths of a condition refer to by the nearest declaration around them, and what they refer
to when the levels around them get other aliases one after the other, from the outside in.
-/

set_option autoImplicit false

namespace QueryGuard

/-- What an alias refers to: a range of one of the queries around it, told by the number of queries
around that one and the place in it, or something that none of them declares. -/
inductive Reference where
  | range (level place : Nat)
  | free (name : String)
deriving DecidableEq, Repr

namespace Reference

/-- The reference of an alias among the aliases of the queries around it, those of the outermost
query first. -/
def of (name : String) : List (List String) → Reference
  | [] => .free name
  | level :: inner =>
      match of name inner with
      | .range depth place => .range (depth + 1) place
      | .free _ => if name ∈ level then .range 0 (level.idxOf name) else .free name

variable {name : String} {level : List String} {levels inner : List (List String)}

theorem of_free (absent : name ∉ levels.flatten) : of name levels = .free name := by
  induction levels with
  | nil => rfl
  | cons level inner ih =>
    rw [List.flatten_cons, List.mem_append, not_or] at absent
    rw [of, ih absent.2]
    exact if_neg absent.1

/-- A declaration further inside is nearer. -/
theorem of_inner {depth place : Nat} (declared : of name inner = .range depth place) :
    of name (level :: inner) = .range (depth + 1) place := by
  rw [of, declared]

theorem of_here (absent : name ∉ inner.flatten) (declared : name ∈ level) :
    of name (level :: inner) = .range 0 (level.idxOf name) := by
  rw [of, of_free absent]
  exact if_pos declared

/-- A declared alias refers to a range at its level or further inside. -/
theorem of_range {n : Nat} (declared : name ∈ (levels.drop n).flatten) :
    ∃ depth place, n ≤ depth ∧ of name levels = .range depth place := by
  induction levels generalizing n with
  | nil =>
    rw [List.drop_nil] at declared
    cases declared
  | cons level inner ih =>
    cases n with
    | zero =>
      by_cases further : name ∈ inner.flatten
      · obtain ⟨depth, place, _, found⟩ := ih (n := 0) further
        exact ⟨depth + 1, place, Nat.zero_le _, of_inner found⟩
      · have here : name ∈ level := by
          rw [List.drop_zero, List.flatten_cons, List.mem_append] at declared
          exact declared.resolve_right further
        exact ⟨0, _, Nat.le_refl 0, of_here further here⟩
    | succ n =>
      obtain ⟨depth, place, deep, found⟩ := ih declared
      exact ⟨depth + 1, place, Nat.succ_le_succ deep, of_inner found⟩

theorem mem_of_range {depth place : Nat} (found : of name levels = .range depth place) :
    name ∈ levels.flatten := by
  by_contra absent
  rw [of_free absent] at found
  cases found

theorem of_eq_free {other : String} (found : of name levels = .free other) :
    name = other ∧ name ∉ levels.flatten := by
  have absent : name ∉ levels.flatten := by
    intro declared
    obtain ⟨depth, place, _, range⟩ := of_range (n := 0) declared
    rw [range] at found
    cases found
  rw [of_free absent] at found
  exact ⟨Reference.free.inj found, absent⟩

end Reference

namespace Renaming

variable {level now : List String} {name : String}

theorem apply_zip_not_mem (absent : name ∉ level) : apply (level.zip now) name = name := by
  apply apply_not_mem
  intro declared
  obtain ⟨entry, member, rfl⟩ := List.mem_map.mp declared
  exact absent (List.of_mem_zip member).1

/-- A declared alias becomes the one in its place. -/
theorem getElem?_idxOf_zip (shape : level.length = now.length) (declared : name ∈ level) :
    now[level.idxOf name]? = some (apply (level.zip now) name) := by
  induction level generalizing now with
  | nil => cases declared
  | cons first rest ih =>
    cases now with
    | nil => cases shape
    | cons used others =>
      rw [List.zip_cons_cons]
      by_cases same : first = name
      · subst same
        rw [List.idxOf_cons_self, apply_cons_self]
        rfl
      · have further : name ∈ rest :=
          (List.mem_cons.mp declared).resolve_left fun here => same here.symm
        rw [List.idxOf_cons_ne _ same, List.getElem?_cons_succ,
          apply_cons_ne fun here => same here.symm]
        exact ih (Nat.succ.inj shape) further

theorem map_apply_zip (shape : level.length = now.length) (distinct : level.Nodup) :
    level.map (apply (level.zip now)) = now := by
  apply List.ext_getElem (by rw [List.length_map, shape])
  intro place below within
  rw [List.length_map] at below
  have placed := getElem?_idxOf_zip shape (List.getElem_mem below)
  rw [distinct.idxOf_getElem place below, List.getElem?_eq_getElem within] at placed
  rw [List.getElem_map]
  exact (Option.some.inj placed).symm

end Renaming

/-! ### Other aliases for all levels -/

/-- What becomes of an alias when each level gets other aliases, the outermost first. A query hides
the aliases that it declares from the levels around it. -/
def follow : (levels used : List (List String)) → String → String
  | level :: inner, now :: rest, name =>
      follow inner rest (if name ∈ inner.flatten then name else Renaming.apply (level.zip now) name)
  | _, _, name => name

/-- The alias of a range. -/
def aliasAt (levels : List (List String)) (depth place : Nat) : Option String :=
  levels[depth]?.bind (·[place]?)

/-- Both have the same number of levels, and as many aliases at each of them. -/
def SameShape : (levels used : List (List String)) → Prop :=
  List.Forall₂ fun level now => level.length = now.length

section

variable {name : String} {levels used : List (List String)}

theorem follow_free (shape : SameShape levels used) (absent : name ∉ levels.flatten) :
    follow levels used name = name := by
  induction shape with
  | nil => rfl
  | @cons level now inner rest _ _ ih =>
    rw [List.flatten_cons, List.mem_append, not_or] at absent
    rw [follow, if_neg absent.2, Renaming.apply_zip_not_mem absent.1]
    exact ih absent.2

/-- What a declared alias becomes is declared afterwards. -/
theorem follow_mem (shape : SameShape levels used) (declared : name ∈ levels.flatten) :
    follow levels used name ∈ used.flatten := by
  induction shape generalizing name with
  | nil => cases declared
  | @cons level now inner rest length shape ih =>
    rw [follow, List.flatten_cons, List.mem_append]
    by_cases further : name ∈ inner.flatten
    · rw [if_pos further]
      exact .inr (ih further)
    · rw [if_neg further]
      rw [List.flatten_cons, List.mem_append] at declared
      have here := declared.resolve_right further
      have placed := Renaming.getElem?_idxOf_zip length here
      by_cases captured : Renaming.apply (level.zip now) name ∈ inner.flatten
      · exact .inr (ih captured)
      · rw [follow_free shape captured]
        exact .inl (List.mem_of_getElem? placed)

/-- What the alias of a range becomes refers to the same range, unless a query further inside
declares the other alias: then it refers to a range further inside. -/
theorem follow_range (shape : SameShape levels used) (distinct : used.flatten.Nodup)
    {depth place : Nat} (found : Reference.of name levels = .range depth place) :
    ∃ now, aliasAt used depth place = some now ∧
      (now ∉ (levels.drop (depth + 1)).flatten →
        Reference.of (follow levels used name) used = .range depth place) ∧
      (now ∈ (levels.drop (depth + 1)).flatten → ∃ further place', depth < further ∧
        Reference.of (follow levels used name) used = .range further place') := by
  induction shape generalizing name depth with
  | nil => cases found
  | @cons level now inner rest length shape ih =>
    rw [List.flatten_cons, List.nodup_append] at distinct
    obtain ⟨ofNow, ofRest, apart⟩ := distinct
    rw [follow]
    by_cases further : name ∈ inner.flatten
    · rw [if_pos further]
      obtain ⟨deep, place', _, inside⟩ := Reference.of_range (n := 0) further
      rw [Reference.of_inner inside] at found
      obtain ⟨rfl, rfl⟩ := Reference.range.inj found
      obtain ⟨used, placed, keeps, captured⟩ := ih ofRest inside
      refine ⟨used, placed, fun absent => Reference.of_inner (keeps absent), fun between => ?_⟩
      obtain ⟨nearer, place'', deeper, nearest⟩ := captured between
      exact ⟨nearer + 1, place'', Nat.succ_lt_succ deeper, Reference.of_inner nearest⟩
    · rw [if_neg further]
      have here : name ∈ level := by
        have declared := Reference.mem_of_range found
        rw [List.flatten_cons, List.mem_append] at declared
        exact declared.resolve_right further
      rw [Reference.of_here further here] at found
      obtain ⟨rfl, rfl⟩ := Reference.range.inj found
      have placed := Renaming.getElem?_idxOf_zip length here
      refine ⟨_, placed, fun absent => ?_, fun between => ?_⟩
      · rw [follow_free shape absent]
        have member := List.mem_of_getElem? placed
        have outside : Renaming.apply (level.zip now) name ∉ rest.flatten :=
          fun inside => apart _ member _ inside rfl
        rw [Reference.of_here outside member]
        obtain ⟨bound, same⟩ := List.getElem?_eq_some_iff.mp placed
        rw [← same, ofNow.idxOf_getElem _ bound]
      · exact Reference.of_range (n := 1) (follow_mem shape between)

end

end QueryGuard
