import Mathlib.Data.List.Perm.Basic
import QueryGuard.Proofs.Rewriting.Conjoining
import QueryGuard.Proofs.Siblings.Shape
/-!
Conditions that differ in parentheses and in the order and grouping of their conjuncts only. Whether
conditions for ranges are added in two steps or at once makes such a difference.
-/

set_option autoImplicit false

namespace QueryGuard

open Constraint

/-- The query without its conditions. -/
def Select.frame {α : Type} (query : Select α) : Select Unit := query.map fun _ => ()

/-- The conditions are the same up to parentheses and the order and nesting of conjunctions, also in the
queries inside. -/
inductive Predicate.Regroups : Predicate → Predicate → Prop where
  | refl (predicate : Predicate) : Regroups predicate predicate
  | symm {first second : Predicate} (related : Regroups first second) : Regroups second first
  | trans {first second third : Predicate} (here : Regroups first second)
      (there : Regroups second third) : Regroups first third
  | parentheses (predicate : Predicate) : Regroups (.group predicate) predicate
  | reorder {operands others : List Predicate} (same : operands.Perm others) :
      Regroups (.and operands) (.and others)
  | flatten (inner rest : List Predicate) :
      Regroups (.and (.and inner :: rest)) (.and (inner ++ rest))
  | and {operands others : List Predicate} (each : List.Forall₂ Regroups operands others) :
      Regroups (.and operands) (.and others)
  | or {operands others : List Predicate} (each : List.Forall₂ Regroups operands others) :
      Regroups (.or operands) (.or others)
  | not {operand other : Predicate} (related : Regroups operand other) :
      Regroups (.not operand) (.not other)
  | inQuery (tested : Expr) {query other : Query} (frame : query.frame = other.frame)
      (each : List.Forall₂ Regroups query.conditions other.conditions) (negated : Bool) :
      Regroups (.inQuery tested query negated) (.inQuery tested other negated)
  | existsIn {query other : Query} (frame : query.frame = other.frame)
      (each : List.Forall₂ Regroups query.conditions other.conditions) (negated : Bool) :
      Regroups (.existsIn query negated) (.existsIn other negated)

/-- The queries are the same but for their conditions, which are the same up to grouping and order. -/
structure Query.Regroups (query other : Query) : Prop where
  frame : query.frame = other.frame
  each : List.Forall₂ Predicate.Regroups query.conditions other.conditions

instance : Trans Predicate.Regroups Predicate.Regroups Predicate.Regroups :=
  ⟨Predicate.Regroups.trans⟩

namespace Predicate.Regroups

theorem refl_all (operands : List Predicate) : List.Forall₂ Regroups operands operands :=
  List.forall₂_same.mpr fun operand _ => .refl operand

theorem group {operand other : Predicate} (related : operand.Regroups other) :
    Predicate.Regroups operand.group other.group :=
  (parentheses operand).trans (related.trans (parentheses other).symm)

theorem grouped (predicate : Predicate) : predicate.grouped.Regroups predicate := by
  unfold Predicate.grouped
  split
  · exact .refl _
  · exact .parentheses _

end Predicate.Regroups

/-! ### Conditions put together -/

/-- Conditions that are put together are a conjunction, up to parentheses; a single one stands for
itself. -/
theorem Predicate.joint_regroups {operands : List Predicate} (several : operands.length ≠ 1) :
    (Predicate.joint operands).Regroups (.and operands) := by
  rcases operands with _ | ⟨first, _ | ⟨second, rest⟩⟩
  · exact .refl _
  · exact absurd rfl several
  · exact .and (List.forall₂_map_left_iff.mpr
      (List.forall₂_same.mpr fun operand _ => Regroups.grouped operand))

theorem Predicate.joint_congr {operands others : List Predicate}
    (each : List.Forall₂ Predicate.Regroups operands others) :
    (Predicate.joint operands).Regroups (Predicate.joint others) := by
  by_cases several : operands.length = 1
  · obtain ⟨operand, rfl⟩ := List.length_eq_one_iff.mp several
    obtain ⟨other, none, related, ends, rfl⟩ := List.forall₂_cons_left_iff.mp each
    rw [List.forall₂_nil_left_iff.mp ends]
    exact related
  · have several' : others.length ≠ 1 := each.length_eq ▸ several
    exact (joint_regroups several).trans ((Regroups.and each).trans (joint_regroups several').symm)

/-- Conditions that were put together are put together with others as they would be alone. -/
theorem Predicate.joint_joint {operands rest : List Predicate} (some : operands ≠ [])
    (others : rest ≠ []) :
    (Predicate.joint (Predicate.joint operands :: rest)).Regroups
      (Predicate.joint (operands ++ rest)) := by
  by_cases several : operands.length = 1
  · obtain ⟨operand, rfl⟩ := List.length_eq_one_iff.mp several
    exact .refl _
  · have filled := List.length_pos_iff.mpr some
    have further := List.length_pos_iff.mpr others
    have outer : (Predicate.joint operands :: rest).length ≠ 1 := by
      rw [List.length_cons]
      omega
    have together : (operands ++ rest).length ≠ 1 := by
      rw [List.length_append]
      omega
    calc Predicate.Regroups (Predicate.joint (Predicate.joint operands :: rest))
          (.and (Predicate.joint operands :: rest)) := joint_regroups outer
      Predicate.Regroups _ (.and (.and operands :: rest)) :=
        .and (.cons (joint_regroups several) (Regroups.refl_all rest))
      Predicate.Regroups _ (.and (operands ++ rest)) := .flatten operands rest
      Predicate.Regroups _ _ := (joint_regroups together).symm

theorem Predicate.joint_perm {operands others : List Predicate} (same : operands.Perm others) :
    (Predicate.joint operands).Regroups (Predicate.joint others) := by
  by_cases several : operands.length = 1
  · obtain ⟨operand, rfl⟩ := List.length_eq_one_iff.mp several
    rw [List.singleton_perm.mp same]
    exact .refl _
  · have several' : others.length ≠ 1 := same.length_eq ▸ several
    exact (joint_regroups several).trans ((Regroups.reorder same).trans (joint_regroups several').symm)

/-- Conditions may be added in any order. -/
theorem conjoin_regroups {condition other : Option Predicate}
    (related : Option.Rel Predicate.Regroups condition other) {parts all : List Predicate}
    (same : parts.Perm all) :
    Option.Rel Predicate.Regroups (conjoin condition parts) (conjoin other all) := by
  cases parts with
  | nil =>
    rw [List.nil_perm.mp same]
    exact related
  | cons part parts =>
    obtain ⟨first, rest, rfl⟩ : ∃ first rest, all = first :: rest :=
      List.exists_cons_of_ne_nil fun none => by cases (none ▸ same).eq_nil
    rw [conjoin_cons, conjoin_cons]
    have optional : List.Forall₂ Predicate.Regroups condition.toList other.toList := by
      cases related with
      | none => exact .nil
      | some holds => exact .cons holds .nil
    exact .some ((Predicate.joint_perm (same.append_left _)).trans
      (Predicate.joint_congr (List.rel_append optional (Predicate.Regroups.refl_all _))))

/-- Conditions may be added in two steps, and in any order. -/
theorem conjoin_conjoin_regroups {condition other : Option Predicate}
    (related : Option.Rel Predicate.Regroups condition other) {first rest all : List Predicate}
    (same : (first ++ rest).Perm all) :
    Option.Rel Predicate.Regroups (conjoin (conjoin condition first) rest) (conjoin other all) := by
  have once := conjoin_regroups related same
  cases first with
  | nil => exact once
  | cons part first =>
    cases rest with
    | nil => rwa [List.append_nil] at once
    | cons part' rest =>
      have some : condition.toList ++ part :: first ≠ [] :=
        List.append_ne_nil_of_right_ne_nil _ (List.cons_ne_nil _ _)
      have steps := Predicate.joint_joint some (List.cons_ne_nil part' rest)
      rw [List.append_assoc] at steps
      rw [List.cons_append, conjoin_cons] at once
      rw [conjoin_cons, conjoin_cons]
      generalize conjoin other all = together at once ⊢
      cases once with
      | some related => exact .some (steps.trans related)

/-! ### Queries -/

theorem Query.Regroups.of_related {query other : Query}
    (related : query.Related Predicate.Regroups other) : query.Regroups other :=
  ⟨(related.map_eq fun _ _ _ => rfl).symm, related.conditions⟩

section

variable {first rest all : String → List Predicate}

/-- If the conditions for ranges are the same up to order, whether they are added in two steps or at once
makes no difference up to grouping and order, provided that it makes none inside the conditions. -/
theorem Query.extended_regroups_of
    (unchanged : ∀ name, ∀ part ∈ first name, part.extended rest = part)
    (same : ∀ name, (first name ++ rest name).Perm (all name)) {query : Query}
    (each : ∀ condition ∈ query.conditions,
      ((condition.extended first).extended rest).Regroups (condition.extended all)) :
    ((query.extended first).extended rest).Regroups (query.extended all) := by
  let twice (condition : Predicate) : Predicate := (condition.extended first).extended rest
  have optional : ∀ condition : Option Predicate, (∀ inner ∈ condition, inner ∈ query.conditions) →
      Option.Rel Predicate.Regroups (condition.map twice)
        (condition.map (Predicate.extended all)) := by
    rintro (_ | condition) among
    · exact .none
    · exact .some (each condition (among condition rfl))
  have added : ∀ names : List String,
      (names.flatMap first ++ names.flatMap rest).Perm (names.flatMap all) := fun names =>
    (names.flatMap_append_perm _ _).trans (List.Perm.flatMap_left _ fun name _ => same name)
  rw [Query.extended_extended unchanged, Query.extended_eq]
  refine .of_related ⟨rfl, rfl, rfl, ?joins, ?filter, rfl,
    optional _ fun _ => Select.mem_of_having, rfl, rfl, rfl, rfl⟩
  case filter =>
    refine conjoin_conjoin_regroups (optional _ fun _ => Select.mem_of_filter) ?_
    rw [Query.filterNames_conjoined, Select.filterNames_map, Select.filterNames_map]
    exact added _
  case joins =>
    simp only [Query.conjoined, Select.map, List.map_map]
    refine List.forall₂_map_left_iff.mpr (List.forall₂_map_right_iff.mpr
      (List.forall₂_same.mpr fun join member => ?_))
    have inside := optional join.condition fun _ => Select.mem_of_join member
    by_cases kind : join.kind = .left
    · simp only [Function.comp_apply, Join.map, kind, ↓reduceIte]
      exact ⟨rfl, rfl, rfl, rfl, conjoin_conjoin_regroups inside (same _)⟩
    · simp only [Function.comp_apply, Join.map, kind, ↓reduceIte]
      exact ⟨rfl, rfl, rfl, rfl, inside⟩

/-- Conditions for ranges may be added in two steps, also to queries inside a condition. -/
theorem Predicate.extended_regroups
    (unchanged : ∀ name, ∀ part ∈ first name, part.extended rest = part)
    (same : ∀ name, (first name ++ rest name).Perm (all name)) (predicate : Predicate) :
    ((predicate.extended first).extended rest).Regroups (predicate.extended all) := by
  have operands : ∀ operands : List Predicate, (∀ operand ∈ operands,
      ((operand.extended first).extended rest).Regroups (operand.extended all)) →
      List.Forall₂ Predicate.Regroups
        ((operands.map (extended first)).map (extended rest)) (operands.map (extended all)) := by
    intro operands each
    rw [List.map_map]
    exact List.forall₂_map_left_iff.mpr (List.forall₂_map_right_iff.mpr (List.forall₂_same.mpr each))
  induction predicate using Predicate.induction with
  | and inner ih =>
    rw [extended_and, extended_and, extended_and]
    exact .and (operands inner ih)
  | or inner ih =>
    rw [extended_or, extended_or, extended_or]
    exact .or (operands inner ih)
  | not operand ih => exact .not ih
  | group operand ih => exact ih.group
  | test test => exact .refl _
  | inQuery tested query negated ih =>
    obtain ⟨frame, each⟩ := Query.extended_regroups_of unchanged same ih
    exact .inQuery tested frame each negated
  | existsIn query negated ih =>
    obtain ⟨frame, each⟩ := Query.extended_regroups_of unchanged same ih
    exact .existsIn frame each negated

theorem Query.extended_regroups
    (unchanged : ∀ name, ∀ part ∈ first name, part.extended rest = part)
    (same : ∀ name, (first name ++ rest name).Perm (all name)) (query : Query) :
    ((query.extended first).extended rest).Regroups (query.extended all) :=
  Query.extended_regroups_of unchanged same fun condition _ =>
    condition.extended_regroups unchanged same

end

end QueryGuard
