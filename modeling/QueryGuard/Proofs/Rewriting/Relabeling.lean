import QueryGuard.Proofs.Rewriting.Occurrences
import QueryGuard.Proofs.Rewriting.Refilling
/-!
Queries with other aliases: one function of names is applied to all aliases that a query declares
and to all that its paths start at, whatever is visible there.
-/

set_option autoImplicit false

namespace QueryGuard

section

variable (f : String → String)

def Name.relabel (name : Name) : Name := { name with value := f name.value }

/-- The path with another alias to start at. -/
def Path.relabel (path : Path) : Path := { path with root := path.root.relabel f }

def JoinTarget.relabel : JoinTarget → JoinTarget
  | .path chain => .path (chain.relabel f)
  | .entity name => .entity name

/-- The clauses of a query with other aliases, given its conditions with theirs. -/
def Select.relabel {α : Type} (query : Select α) : Select α :=
  { query with
    items := query.items.map fun item => { item with expr := item.expr.mapPaths (Path.relabel f) }
    root := { query.root with name := query.root.name.relabel f }
    joins := query.joins.map fun join =>
      { join with target := join.target.relabel f, name := join.name.relabel f }
    groupBy := query.groupBy.map (Expr.mapPaths (Path.relabel f))
    orderBy := query.orderBy.map fun item =>
      { item with expr := item.expr.mapPaths (Path.relabel f) } }

/-- The walk that changes aliases. -/
def relabelWalk : PredicateFold Predicate Query where
  and := .and
  or := .or
  not := .not
  group := .group
  test := fun leaf => .test (leaf.mapExprs (Expr.mapPaths (Path.relabel f)))
  inQuery := fun tested query negated => .inQuery (tested.mapPaths (Path.relabel f)) query negated
  existsIn := .existsIn
  query := Select.relabel f

def Predicate.relabel : Predicate → Predicate := Predicate.fold (relabelWalk f)

/-- The query with other aliases. -/
def Query.relabel : Query → Query := Query.fold (relabelWalk f)

/-! ### Equations -/

theorem Query.relabel_eq (query : Query) :
    query.relabel f = (query.map (Predicate.relabel f)).relabel f :=
  Query.fold_eq (relabelWalk f) query

namespace Predicate

@[simp] theorem relabel_and (operands : List Predicate) :
    (Predicate.and operands).relabel f = .and (operands.map (relabel f)) :=
  fold_and (relabelWalk f) operands

@[simp] theorem relabel_or (operands : List Predicate) :
    (Predicate.or operands).relabel f = .or (operands.map (relabel f)) :=
  fold_or (relabelWalk f) operands

@[simp] theorem relabel_not (operand : Predicate) :
    operand.not.relabel f = (operand.relabel f).not := rfl

@[simp] theorem relabel_group (operand : Predicate) :
    operand.group.relabel f = (operand.relabel f).group := rfl

@[simp] theorem relabel_test (test : Test) :
    (Predicate.test test).relabel f = .test (test.mapExprs (Expr.mapPaths (Path.relabel f))) := rfl

@[simp] theorem relabel_inQuery (tested : Expr) (query : Query) (negated : Bool) :
    (Predicate.inQuery tested query negated).relabel f =
      .inQuery (tested.mapPaths (Path.relabel f)) (query.relabel f) negated := rfl

@[simp] theorem relabel_existsIn (query : Query) (negated : Bool) :
    (Predicate.existsIn query negated).relabel f = .existsIn (query.relabel f) negated := rfl

end Predicate

theorem Select.conditions_relabel {α : Type} (query : Select α) :
    (query.relabel f).conditions = query.conditions := by
  simp only [conditions, relabel, List.filterMap_map, Function.comp_def]

theorem Query.conditions_relabel (query : Query) :
    (query.relabel f).conditions = query.conditions.map (Predicate.relabel f) := by
  rw [relabel_eq, Select.conditions_relabel, Select.conditions_map]

end

/-! ### Queries without others inside -/

/-- Renaming is changing all aliases, if no query inside declares one again. -/
theorem Predicate.rename_eq_relabel (names : Renaming) {predicate : Predicate}
    (none : predicate.subqueries = []) : predicate.rename names = predicate.relabel names.apply := by
  induction predicate using Predicate.induction with
  | and operands ih =>
    rw [subqueries_and, List.flatMap_eq_nil_iff] at none
    rw [rename_and, relabel_and]
    exact congrArg Predicate.and
      (List.map_congr_left fun operand member => ih operand member (none operand member))
  | or operands ih =>
    rw [subqueries_or, List.flatMap_eq_nil_iff] at none
    rw [rename_or, relabel_or]
    exact congrArg Predicate.or
      (List.map_congr_left fun operand member => ih operand member (none operand member))
  | not operand ih => exact congrArg Predicate.not (ih none)
  | group operand ih => exact congrArg Predicate.group (ih none)
  | test test => rfl
  | inQuery tested query negated => cases none
  | existsIn query negated => cases none

theorem Query.rename_eq_relabel (names : Renaming) {query : Query} (none : query.subqueries = []) :
    query.rename names = query.relabel names.apply := by
  have conditions : query.map (fun condition => condition.rename names) =
      query.map (Predicate.relabel names.apply) :=
    Select.map_congr fun condition member =>
      condition.rename_eq_relabel names (List.flatMap_eq_nil_iff.mp none condition member)
  have optional : ∀ condition : Option Predicate,
      (condition.map fun inner => inner.rename).map (· names) =
        condition.map (·.rename names) := by
    intro condition
    cases condition <;> rfl
  rw [relabel_eq, ← conditions]
  simp only [Query.rename, Renaming.walk.level, Select.relabel, Select.map, List.map_map, optional,
    Join.map, Function.comp_def]
  rfl

/-! ### Names that stay -/

theorem Expr.mapPaths_eq_self {f : Path → Path} {expr : Expr}
    (each : ∀ path ∈ expr.paths, f path = path) : expr.mapPaths f = expr := by
  induction expr using Expr.induction with
  | path path => exact congrArg Expr.path (each path List.mem_cons_self)
  | literal literal => rfl
  | parameter name => rfl
  | aggregate function distinct argument span ih =>
    exact congrArg (Expr.aggregate function distinct · span) (ih each)
  | call name arguments span ih =>
    rw [paths_call] at each
    rw [mapPaths, fold_call]
    refine congrArg (Expr.call name · span) ?_
    refine (List.map_congr_left fun argument member => ?_).trans (List.map_id _)
    exact ih argument member fun path found =>
      each path (List.mem_flatMap.mpr ⟨argument, member, found⟩)

theorem Test.mapExprs_eq_self {f : Expr → Expr} {test : Test}
    (each : ∀ expr ∈ test.exprs, f expr = expr) : test.mapExprs f = test := by
  cases test with
  | inList tested items negated =>
    obtain ⟨first, others⟩ := List.forall_mem_cons.mp each
    rw [mapExprs, first, (List.map_congr_left others).trans (List.map_id' items)]
  | _ => simp_all [exprs, mapExprs]

section

variable {f : String → String}

theorem Path.relabel_eq_self {path : Path} (same : f path.root.value = path.root.value) :
    path.relabel f = path := by
  obtain ⟨⟨value, span⟩, attributes, whole⟩ := path
  exact congrArg (Path.mk ⟨·, span⟩ attributes whole) same

/-- Paths that start at names which stay are not changed. -/
theorem Expr.relabel_eq_self {expr : Expr}
    (each : ∀ path ∈ expr.paths, f path.root.value = path.root.value) :
    expr.mapPaths (Path.relabel f) = expr :=
  mapPaths_eq_self fun path member => Path.relabel_eq_self (each path member)

theorem JoinTarget.relabel_eq_self {target : JoinTarget}
    (each : ∀ path ∈ target.paths, f path.root.value = path.root.value) :
    target.relabel f = target := by
  cases target with
  | path chain => exact congrArg JoinTarget.path (Path.relabel_eq_self (each chain List.mem_cons_self))
  | entity name => rfl

theorem Name.relabel_eq_self {name : Name} (same : f name.value = name.value) :
    name.relabel f = name :=
  congrArg (Located.mk · name.span) same

theorem Select.relabel_eq_self {α : Type} {query : Select α}
    (paths : ∀ path ∈ query.ownPaths, f path.root.value = path.root.value)
    (aliases : ∀ name ∈ query.aliases.map (·.value), f name = name) : query.relabel f = query := by
  simp only [ownPaths, List.forall_mem_append, List.forall_mem_flatMap] at paths
  obtain ⟨⟨⟨ofItems, ofJoins⟩, ofGroups⟩, ofOrder⟩ := paths
  obtain ⟨ofRoot, others⟩ := List.forall_mem_cons.mp aliases
  have items : query.items.map (fun item =>
      { item with expr := item.expr.mapPaths (Path.relabel f) }) = query.items := by
    refine (List.map_congr_left fun item member => ?_).trans (List.map_id _)
    rw [Expr.relabel_eq_self (ofItems item member)]
    rfl
  have joins : query.joins.map (fun join =>
      { join with target := join.target.relabel f, name := join.name.relabel f }) =
      query.joins := by
    refine (List.map_congr_left fun join member => ?_).trans (List.map_id _)
    have named := others join.name.value
      (List.mem_map_of_mem (List.mem_map_of_mem (f := fun join => join.name) member))
    rw [JoinTarget.relabel_eq_self (ofJoins join member), Name.relabel_eq_self named]
    rfl
  have groupBy : query.groupBy.map (Expr.mapPaths (Path.relabel f)) = query.groupBy :=
    (List.map_congr_left fun expr member => Expr.relabel_eq_self (ofGroups expr member)).trans
      (List.map_id _)
  have orderBy : query.orderBy.map (fun item =>
      { item with expr := item.expr.mapPaths (Path.relabel f) }) = query.orderBy := by
    refine (List.map_congr_left fun item member => ?_).trans (List.map_id _)
    rw [Expr.relabel_eq_self (ofOrder item member)]
    rfl
  rw [relabel, items, joins, groupBy, orderBy, Name.relabel_eq_self ofRoot]

/-- A query does not change if the aliases that it declares and those that its paths start at stay. -/
theorem Query.relabel_eq_self_of {query : Query}
    (paths : ∀ occurrence ∈ query.occurrences,
      f occurrence.path.root.value = occurrence.path.root.value)
    (aliases : ∀ name ∈ query.allAliases, f name = name)
    (each : ∀ condition ∈ query.conditions,
      (∀ occurrence ∈ condition.occurrences,
        f occurrence.path.root.value = occurrence.path.root.value) →
      (∀ name ∈ condition.allAliases, f name = name) → condition.relabel f = condition) :
    query.relabel f = query := by
  rw [occurrences_eq, List.forall_mem_map, levelOccurrences, List.forall_mem_append,
    List.forall_mem_map] at paths
  rw [allAliases_eq, List.forall_mem_append] at aliases
  have conditions : query.map (Predicate.relabel f) = query :=
    Select.map_eq_self fun condition member => each condition member
      (fun occurrence found => paths.2 occurrence (List.mem_flatMap.mpr ⟨condition, member, found⟩))
      (fun name found => aliases.2 name (List.mem_flatMap.mpr ⟨condition, member, found⟩))
  rw [relabel_eq, conditions]
  exact Select.relabel_eq_self paths.1 aliases.1

theorem Predicate.relabel_eq_self {predicate : Predicate}
    (paths : ∀ occurrence ∈ predicate.occurrences,
      f occurrence.path.root.value = occurrence.path.root.value)
    (aliases : ∀ name ∈ predicate.allAliases, f name = name) :
    predicate.relabel f = predicate := by
  have all : ∀ operands : List Predicate,
      (∀ occurrence ∈ operands.flatMap occurrences,
        f occurrence.path.root.value = occurrence.path.root.value) →
      (∀ name ∈ operands.flatMap allAliases, f name = name) →
      (∀ operand ∈ operands, (∀ occurrence ∈ operand.occurrences,
        f occurrence.path.root.value = occurrence.path.root.value) →
        (∀ name ∈ operand.allAliases, f name = name) → operand.relabel f = operand) →
      operands.map (relabel f) = operands := by
    intro operands paths aliases each
    refine (List.map_congr_left fun operand member => ?_).trans (List.map_id _)
    exact each operand member
      (fun occurrence found => paths occurrence (List.mem_flatMap.mpr ⟨operand, member, found⟩))
      (fun name found => aliases name (List.mem_flatMap.mpr ⟨operand, member, found⟩))
  induction predicate using Predicate.induction with
  | and operands ih =>
    rw [occurrences_and] at paths
    rw [allAliases_and] at aliases
    rw [relabel_and, all operands paths aliases ih]
  | or operands ih =>
    rw [occurrences_or] at paths
    rw [allAliases_or] at aliases
    rw [relabel_or, all operands paths aliases ih]
  | not operand ih => exact congrArg Predicate.not (ih paths aliases)
  | group operand ih => exact congrArg Predicate.group (ih paths aliases)
  | test test =>
    have bare := List.forall_mem_map.mp paths
    refine congrArg Predicate.test (Test.mapExprs_eq_self fun expr member => ?_)
    exact Expr.relabel_eq_self fun path found =>
      bare path (List.mem_flatMap.mpr ⟨expr, member, found⟩)
  | inQuery tested query negated ih =>
    rw [occurrences_inQuery, List.forall_mem_append, List.forall_mem_map] at paths
    rw [relabel_inQuery, Expr.relabel_eq_self paths.1, Query.relabel_eq_self_of paths.2 aliases ih]
  | existsIn query negated ih =>
    rw [relabel_existsIn, Query.relabel_eq_self_of paths aliases ih]

theorem Query.relabel_eq_self {query : Query}
    (paths : ∀ occurrence ∈ query.occurrences,
      f occurrence.path.root.value = occurrence.path.root.value)
    (aliases : ∀ name ∈ query.allAliases, f name = name) : query.relabel f = query :=
  relabel_eq_self_of paths aliases fun _ _ => Predicate.relabel_eq_self

end

end QueryGuard
