import QueryGuard.Proofs.Rewriting.Conjoining
/-!
What an extended query has: what the query has, and what the conditions for its ranges have. Criteria are
applied to the same ranges of it, if all ranges inside these conditions are ones that criteria added.
-/

set_option autoImplicit false

namespace QueryGuard

open Constraint

variable {parts : String → List Predicate}

/-! ### One level -/

/-- What the conditions of a level have, with those for its ranges. -/
theorem Query.flatMap_conditions_conjoined {β : Type} {list : Predicate → List β}
    (and : ∀ operands, list (.and operands) = operands.flatMap list)
    (group : ∀ operand, list (.group operand) = list operand) (query : Query) :
    (query.conjoined parts).conditions.flatMap list =
      query.joins.flatMap (fun join =>
        (join.condition.toList ++ if join.kind = .left then parts join.name.value else []).flatMap
          list) ++
        (query.filter.toList ++ query.filterNames.flatMap parts).flatMap list ++
        query.having.toList.flatMap list := by
  have joins : (query.conjoined parts).joins.flatMap (fun join =>
      join.condition.toList.flatMap list) = query.joins.flatMap fun join =>
        (join.condition.toList ++ if join.kind = .left then parts join.name.value else []).flatMap
          list := by
    rw [conjoined, List.flatMap_map]
    refine congrArg (query.joins.flatMap ·) (funext fun join => ?_)
    by_cases kind : join.kind = .left
    · simp only [kind, ↓reduceIte, flatMap_conjoin and group]
    · simp only [kind, ↓reduceIte, List.append_nil]
  have filter : (query.conjoined parts).filter.toList.flatMap list =
      (query.filter.toList ++ query.filterNames.flatMap parts).flatMap list :=
    flatMap_conjoin and group _ _
  rw [Select.flatMap_conditions, joins, filter]
  rfl

/-- The conditions for joins go to the WHERE clause or to the joins. -/
theorem Query.mem_level {query : Query} {name : String} :
    name ∈ query.aliases.map (·.value) ↔ name ∈ query.filterNames ∨
      ∃ join ∈ query.joins, join.kind = .left ∧ join.name.value = name := by
  simp only [Select.aliases, Select.filterNames, List.map_cons, List.map_map, List.mem_cons,
    List.mem_map, List.mem_filter, Function.comp_apply, decide_eq_true_eq, or_assoc]
  refine or_congr_right ⟨?_, ?_⟩
  · rintro ⟨join, member, named⟩
    cases kind : join.kind with
    | inner => exact .inl ⟨join, ⟨member, kind⟩, named⟩
    | left => exact .inr ⟨join, member, kind, named⟩
  · rintro (⟨join, ⟨member, _⟩, named⟩ | ⟨join, member, _, named⟩)
    · exact ⟨join, member, named⟩
    · exact ⟨join, member, named⟩

theorem Query.mem_conditions_conjoined {β : Type} {list : Predicate → List β}
    (and : ∀ operands, list (.and operands) = operands.flatMap list)
    (group : ∀ operand, list (.group operand) = list operand) (query : Query) (x : β) :
    x ∈ (query.conjoined parts).conditions.flatMap list ↔ x ∈ query.conditions.flatMap list ∨
      x ∈ ((query.aliases.map (·.value)).flatMap parts).flatMap list := by
  have added : x ∈ ((query.aliases.map (·.value)).flatMap parts).flatMap list ↔
      x ∈ (query.filterNames.flatMap parts).flatMap list ∨
        ∃ join ∈ query.joins, x ∈ (if join.kind = .left then parts join.name.value else []).flatMap
          list := by
    simp only [List.flatMap_assoc]
    constructor
    · intro member
      obtain ⟨name, level, found⟩ := List.mem_flatMap.mp member
      rcases mem_level.mp level with filtered | ⟨join, among, kind, rfl⟩
      · exact .inl (List.mem_flatMap.mpr ⟨name, filtered, found⟩)
      · exact .inr ⟨join, among, by rwa [if_pos kind]⟩
    · rintro (inFilter | ⟨join, among, inJoin⟩)
      · obtain ⟨name, filtered, found⟩ := List.mem_flatMap.mp inFilter
        exact List.mem_flatMap.mpr ⟨name, mem_level.mpr (.inl filtered), found⟩
      · by_cases kind : join.kind = .left
        · rw [if_pos kind] at inJoin
          exact List.mem_flatMap.mpr ⟨_, mem_level.mpr (.inr ⟨join, among, kind, rfl⟩), inJoin⟩
        · rw [if_neg kind] at inJoin
          cases inJoin
  have joins : x ∈ query.joins.flatMap (fun join => (join.condition.toList ++
      if join.kind = .left then parts join.name.value else []).flatMap list) ↔
      x ∈ query.joins.flatMap (fun join => join.condition.toList.flatMap list) ∨
        ∃ join ∈ query.joins, x ∈ (if join.kind = .left then parts join.name.value else []).flatMap
          list := by
    simp only [List.flatMap_append, List.mem_flatMap (b := x) (l := query.joins), List.mem_append,
      and_or_left, exists_or]
  rw [query.flatMap_conditions_conjoined and group, Select.flatMap_conditions, added,
    List.flatMap_append, List.mem_append, List.mem_append, List.mem_append, List.mem_append,
    List.mem_append, joins]
  exact Iff.of_eq (by ac_rfl)

/-! ### Trees -/

/-- Lists of what occurs in conditions and in queries, given what occurs in the other clauses of a query
and in a tested expression. -/
structure Occurring {β : Type} (list : Predicate → List β) (listQuery : Query → List β)
    (own : Query → List β) (tested : Expr → List β) : Prop where
  and : ∀ operands, list (.and operands) = operands.flatMap list
  or : ∀ operands, list (.or operands) = operands.flatMap list
  not : ∀ operand, list (.not operand) = list operand
  group : ∀ operand, list (.group operand) = list operand
  inQuery : ∀ expr query negated, list (.inQuery expr query negated) = tested expr ++ listQuery query
  existsIn : ∀ query negated, list (.existsIn query negated) = listQuery query
  query : ∀ query x, x ∈ listQuery query ↔ x ∈ own query ∨ x ∈ query.conditions.flatMap list
  mapped : ∀ (query : Query) f, own (query.map f) = own query
  conjoined : ∀ query parts, own (Query.conjoined parts query) = own query

namespace Occurring

variable {β : Type} {list : Predicate → List β} {listQuery own : Query → List β}
  {tested : Expr → List β} (occurring : Occurring list listQuery own tested)

include occurring

theorem mem_query_of {query : Query} (x : β) (each : ∀ condition ∈ query.conditions,
    (x ∈ list (condition.extended parts) ↔
      x ∈ list condition ∨ x ∈ (condition.allAliases.flatMap parts).flatMap list)) :
    x ∈ listQuery (query.extended parts) ↔
      x ∈ listQuery query ∨ x ∈ (query.allAliases.flatMap parts).flatMap list := by
  have inside : x ∈ (query.conditions.map (Predicate.extended parts)).flatMap list ↔
      x ∈ query.conditions.flatMap list ∨
        x ∈ ((query.conditions.flatMap Predicate.allAliases).flatMap parts).flatMap list := by
    rw [List.flatMap_map, List.flatMap_assoc, List.flatMap_assoc]
    simp only [List.mem_flatMap (b := x) (l := query.conditions), ← exists_or, ← and_or_left]
    refine exists_congr fun condition => and_congr_right fun member => ?_
    rw [each condition member, List.flatMap_assoc]
  rw [Query.extended_eq, occurring.query, occurring.conjoined, occurring.mapped,
    Query.mem_conditions_conjoined occurring.and occurring.group, Select.conditions_map, inside,
    Select.aliases_map, occurring.query, Query.allAliases_eq, List.flatMap_append,
    List.flatMap_append, List.mem_append]
  exact Iff.of_eq (by ac_rfl)

/-- An extended condition has what it has, and what the parts for the ranges inside it have. -/
theorem mem_condition (x : β) (condition : Predicate) :
    x ∈ list (condition.extended parts) ↔
      x ∈ list condition ∨ x ∈ (condition.allAliases.flatMap parts).flatMap list := by
  have all : ∀ operands : List Predicate, (∀ operand ∈ operands,
      (x ∈ list (operand.extended parts) ↔
        x ∈ list operand ∨ x ∈ (operand.allAliases.flatMap parts).flatMap list)) →
      (x ∈ (operands.map (Predicate.extended parts)).flatMap list ↔ x ∈ operands.flatMap list ∨
        x ∈ ((operands.flatMap Predicate.allAliases).flatMap parts).flatMap list) := by
    intro operands each
    rw [List.flatMap_map, List.flatMap_assoc, List.flatMap_assoc]
    simp only [List.mem_flatMap (b := x) (l := operands), ← exists_or, ← and_or_left]
    refine exists_congr fun operand => and_congr_right fun member => ?_
    rw [each operand member, List.flatMap_assoc]
  induction condition using Predicate.induction with
  | and operands ih =>
    rw [Predicate.extended_and, occurring.and, occurring.and, Predicate.allAliases_and,
      all operands ih]
  | or operands ih =>
    rw [Predicate.extended_or, occurring.or, occurring.or, Predicate.allAliases_or,
      all operands ih]
  | not operand ih =>
    rw [Predicate.extended_not, occurring.not, occurring.not]
    exact ih
  | group operand ih =>
    rw [Predicate.extended_group, occurring.group, occurring.group]
    exact ih
  | test test => exact ⟨.inl, fun found => found.elim id fun none => nomatch none⟩
  | inQuery expr query negated ih =>
    rw [Predicate.extended_inQuery, occurring.inQuery, occurring.inQuery, List.mem_append,
      List.mem_append, occurring.mem_query_of x ih, or_assoc]
    rfl
  | existsIn query negated ih =>
    rw [Predicate.extended_existsIn, occurring.existsIn, occurring.existsIn,
      occurring.mem_query_of x ih]
    rfl

theorem mem_query (x : β) (query : Query) :
    x ∈ listQuery (query.extended parts) ↔
      x ∈ listQuery query ∨ x ∈ (query.allAliases.flatMap parts).flatMap list :=
  occurring.mem_query_of x fun condition _ => occurring.mem_condition x condition

end Occurring

namespace Query

theorem aliases_conjoined (query : Query) : (query.conjoined parts).aliases = query.aliases := by
  have named : ∀ join : Join Predicate, (if join.kind = .left then
      { join with condition := conjoin join.condition (parts join.name.value) } else join).name =
        join.name := by
    intro join
    split <;> rfl
  simp only [Select.aliases, conjoined, List.map_map, Function.comp_def, named]

theorem occurring_allAliases : Occurring Predicate.allAliases Query.allAliases
    (fun query => query.aliases.map (·.value)) fun _ => [] where
  and := Predicate.allAliases_and
  or := Predicate.allAliases_or
  not := fun _ => rfl
  group := fun _ => rfl
  inQuery := fun _ _ _ => rfl
  existsIn := fun _ _ => rfl
  query := fun _ _ => by rw [allAliases_eq, List.mem_append]
  mapped := fun _ _ => by rw [Select.aliases_map]
  conjoined := fun _ _ => by rw [aliases_conjoined]

theorem occurring_markers : Occurring Predicate.markers Query.markers
    (fun query => query.exprs.flatMap Expr.markers) Expr.markers where
  and := Predicate.markers_and
  or := Predicate.markers_or
  not := fun _ => rfl
  group := fun _ => rfl
  inQuery := fun _ _ _ => rfl
  existsIn := fun _ _ => rfl
  query := fun _ _ => mem_markers
  mapped := fun _ _ => rfl
  conjoined := fun _ _ => rfl

/-- The aliases of an extended query. -/
theorem mem_allAliases_extended {query : Query} {name : String} :
    name ∈ (query.extended parts).allAliases ↔ name ∈ query.allAliases ∨
      name ∈ (query.allAliases.flatMap parts).flatMap Predicate.allAliases :=
  occurring_allAliases.mem_query name query

/-- The markers of an extended query. -/
theorem mem_markers_extended {query : Query} {marker : Name} :
    marker ∈ (query.extended parts).markers ↔ marker ∈ query.markers ∨
      marker ∈ (query.allAliases.flatMap parts).flatMap Predicate.markers :=
  occurring_markers.mem_query marker query

/-! ### Ranges that criteria are applied to -/

section

variable {scope : Scope} {isClosed isClosed' : String → Bool}

theorem ownReached_conjoined (query : Query) :
    (query.conjoined parts).ownReached scope = query.ownReached scope := by
  have names : (query.conjoined parts).joins.map (·.name.value) = query.joins.map (·.name.value) := by
    rw [conjoined, List.map_map]
    refine List.map_congr_left fun join _ => ?_
    simp only [Function.comp_apply]
    split <;> rfl
  rw [Select.ownReached, Select.ownReached, names]
  rfl

/-- Criteria are applied to the same ranges of an extended query. -/
theorem reached_extended_of {query : Query}
    (closed : ∀ name, ∀ part ∈ parts name, part.reached scope isClosed' = [])
    (each : ∀ condition ∈ query.conditions,
      (condition.extended parts).reached scope isClosed' = condition.reached scope isClosed) :
    (query.extended parts).reached scope isClosed' = query.reached scope isClosed := by
  let list : Predicate → List String := Predicate.reached scope isClosed'
  have silent : ∀ names : List String, (names.flatMap parts).flatMap list = [] := by
    intro names
    rw [List.flatMap_assoc, List.flatMap_eq_nil_iff]
    exact fun name _ => List.flatMap_eq_nil_iff.mpr (closed name)
  have added : ∀ join : Join Predicate,
      (if join.kind = .left then parts join.name.value else []).flatMap list = [] := by
    intro join
    split
    · exact List.flatMap_eq_nil_iff.mpr (closed _)
    · rfl
  have conjoined : ∀ query : Query, (query.conjoined parts).conditions.flatMap list =
      query.conditions.flatMap list := by
    intro query
    have and : ∀ operands, list (.and operands) = operands.flatMap list :=
      Predicate.reached_and scope isClosed'
    have group : ∀ operand, list (.group operand) = list operand := fun _ => rfl
    rw [query.flatMap_conditions_conjoined and group, Select.flatMap_conditions]
    simp only [List.flatMap_append, added, silent, List.append_nil]
  have inside : (query.conditions.map (Predicate.extended parts)).flatMap list =
      query.conditions.flatMap (Predicate.reached scope isClosed) := by
    rw [List.flatMap_map]
    exact List.flatMap_congr each
  rw [extended_eq, reached_conditions, reached_conditions, ownReached_conjoined,
    Select.ownReached_map, conjoined, Select.conditions_map, inside]

end

end Query

section

variable {scope : Scope} {isClosed isClosed' : String → Bool}

theorem Predicate.reached_extended
    (closed : ∀ name, ∀ part ∈ parts name, part.reached scope isClosed' = []) {condition : Predicate}
    (agree : ∀ name ∈ condition.allAliases, isClosed' name = isClosed name) :
    (condition.extended parts).reached scope isClosed' = condition.reached scope isClosed := by
  have all : ∀ operands : List Predicate,
      (∀ name ∈ operands.flatMap allAliases, isClosed' name = isClosed name) →
      (∀ operand ∈ operands, (∀ name ∈ operand.allAliases, isClosed' name = isClosed name) →
        (operand.extended parts).reached scope isClosed' = operand.reached scope isClosed) →
      (operands.map (extended parts)).flatMap (reached scope isClosed') =
        operands.flatMap (reached scope isClosed) := by
    intro operands agree each
    rw [List.flatMap_map]
    refine List.flatMap_congr fun operand member => ?_
    exact each operand member fun name found =>
      agree name (List.mem_flatMap.mpr ⟨operand, member, found⟩)
  have inside : ∀ query : Query, (∀ name ∈ query.allAliases, isClosed' name = isClosed name) →
      (∀ condition ∈ query.conditions, (∀ name ∈ condition.allAliases,
        isClosed' name = isClosed name) →
        (condition.extended parts).reached scope isClosed' = condition.reached scope isClosed) →
      (query.extended parts).reachedInside scope isClosed' =
        query.reachedInside scope isClosed := by
    intro query agree each
    have root : (query.extended parts).root = query.root := by
      rw [Query.extended_eq]
      rfl
    rw [Query.reachedInside, Query.reachedInside, root, agree _ query.root_mem_allAliases,
      Query.reached_extended_of closed fun condition member => each condition member ?_]
    intro name found
    rw [Query.allAliases_eq] at agree
    exact agree name (List.mem_append_right _ (List.mem_flatMap.mpr ⟨condition, member, found⟩))
  induction condition using Predicate.induction with
  | and operands ih =>
    rw [allAliases_and] at agree
    rw [extended_and, reached_and, reached_and, all operands agree ih]
  | or operands ih =>
    rw [allAliases_or] at agree
    rw [extended_or, reached_or, reached_or, all operands agree ih]
  | not operand ih => exact ih agree
  | group operand ih => exact ih agree
  | test test => rfl
  | inQuery tested query negated ih =>
    have same := inside query agree ih
    rwa [← fold_reachWalk, ← fold_reachWalk] at same
  | existsIn query negated ih =>
    have same := inside query agree ih
    rwa [← fold_reachWalk, ← fold_reachWalk] at same

/-- If all ranges inside the added conditions are ones that criteria added, criteria are applied to the
ranges of the query itself. -/
theorem Query.reached_extended {query : Query}
    (closed : ∀ name, ∀ part ∈ parts name, part.reached scope isClosed' = [])
    (agree : ∀ name ∈ query.allAliases, isClosed' name = isClosed name) :
    (query.extended parts).reached scope isClosed' = query.reached scope isClosed := by
  refine reached_extended_of closed fun condition member => Predicate.reached_extended closed ?_
  intro name found
  rw [allAliases_eq] at agree
  exact agree name (List.mem_append_right _ (List.mem_flatMap.mpr ⟨condition, member, found⟩))

end

end QueryGuard
