import QueryGuard.Proofs.Criterion.BuiltIn
import QueryGuard.Proofs.Binding.Sites
import QueryGuard.Proofs.Rewriting.Relabeling
/-!
What the criteria contribute that come with the engine: conditions on the range alone, or on the range
and one more; and parameters that are the same for all ranges.
-/

set_option autoImplicit false

namespace QueryGuard

/-! ### Markers -/

namespace Predicate

theorem markers_and (operands : List Predicate) :
    (Predicate.and operands).markers = operands.flatMap markers := by
  rw [markers, fold_and, List.flatMap_def]
  rfl

theorem markers_or (operands : List Predicate) :
    (Predicate.or operands).markers = operands.flatMap markers := by
  rw [markers, fold_or, List.flatMap_def]
  rfl

end Predicate

/-- A query has the markers of its expressions and those of its conditions. -/
theorem Query.mem_markers {query : Query} {marker : Name} :
    marker ∈ query.markers ↔
      marker ∈ query.exprs.flatMap Expr.markers ∨
        marker ∈ query.conditions.flatMap Predicate.markers := by
  have optional : ∀ condition : Option Predicate,
      (condition.map Predicate.markers).getD [] = condition.toList.flatMap Predicate.markers := by
    intro condition
    cases condition <;> simp
  rw [markers, fold_eq]
  change marker ∈ (query.map Predicate.markers).markersFrom ↔ _
  simp only [Select.markersFrom, Select.map, Select.exprs, Select.flatMap_conditions,
    List.mem_append, List.flatMap_append, List.flatMap_map, Join.map, optional]
  tauto

/-! ### Conditions -/

/-- What holds of the conditions of comparisons, and of conjunctions and disjunctions if it holds of
their operands, holds of the condition of a filter. -/
theorem RowFilter.compile_induction {motive : Predicate → Prop} {leaf : RowMatch → Predicate}
    (allOf : ∀ operands, (∀ operand ∈ operands, motive operand) → motive (.allOf operands))
    (anyOf : ∀ operands, (∀ operand ∈ operands, motive operand) → motive (.anyOf operands))
    (filter : RowFilter) (leaves : ∀ found ∈ filter.leaves, motive (leaf found)) :
    motive (filter.compile leaf) := by
  revert leaves
  refine RowFilter.rec
    (motive_1 := fun filter => (∀ found ∈ filter.leaves, motive (leaf found)) →
      motive (filter.compile leaf))
    (motive_2 := fun filters => (∀ found ∈ leavesOfAll filters, motive (leaf found)) →
      ∀ operand ∈ compileAll leaf filters, motive operand) ?_ ?_ ?_ ?_ ?_ filter
  · exact fun found each => each found List.mem_cons_self
  · exact fun filters each leaves => allOf _ (each leaves)
  · exact fun filters each leaves => anyOf _ (each leaves)
  · exact fun _ operand none => nomatch none
  · intro filter rest first others leaves
    obtain ⟨here, there⟩ := List.forall_mem_append.mp leaves
    exact List.forall_mem_cons.mpr ⟨first here, others there⟩

/-- The condition is one on the range of the alias alone. -/
structure Predicate.Plain (name : String) (predicate : Predicate) : Prop where
  subqueries : predicate.subqueries = []
  paths : ∀ occurrence ∈ predicate.occurrences, occurrence.path.root.value = name

namespace Predicate.Plain

variable {name : String} {operands : List Predicate}

theorem allOf (each : ∀ operand ∈ operands, operand.Plain name) :
    (Predicate.allOf operands).Plain name where
  subqueries := by
    rw [flatMap_allOf subqueries_and, List.flatMap_eq_nil_iff]
    exact fun operand member => (each operand member).subqueries
  paths := by
    rw [flatMap_allOf occurrences_and, List.forall_mem_flatMap]
    exact fun operand member => (each operand member).paths

theorem anyOf (each : ∀ operand ∈ operands, operand.Plain name) :
    (Predicate.anyOf operands).Plain name where
  subqueries := by
    rw [flatMap_anyOf subqueries_or, List.flatMap_eq_nil_iff]
    exact fun operand member => (each operand member).subqueries
  paths := by
    rw [flatMap_anyOf occurrences_or, List.forall_mem_flatMap]
    exact fun operand member => (each operand member).paths

theorem test {test : Test} (paths : ∀ path ∈ test.paths, path.root.value = name) :
    (Predicate.test test).Plain name :=
  ⟨rfl, List.forall_mem_map.mpr paths⟩

end Predicate.Plain

namespace Contribution

/-- The alias that the condition wants for the range of the query inside it, if there is one. -/
def label? (contribution : Contribution) : Option String :=
  contribution.predicate.subqueries.head?.map (·.root.name.value)

/-- The condition with the given alias for that range. -/
def worded (contribution : Contribution) (used : String) : Predicate :=
  Id.run <| contribution.predicate.mapSubqueries fun query =>
    query.relabel fun name => if name = query.root.name.value then used else name

end Contribution

namespace Membership

/-- The condition of the rule with the given alias for the range of the membership. -/
def predicateAs (rule : Membership) (context : CriterionContext) (parameter used : String) :
    Predicate :=
  .existsIn (Query.ofEntity rule.membership used (Predicate.allOf [
    .equality (.ofPath used [rule.reference]) context.range,
    .equality (.ofPath used [rule.member]) (.ofParameter parameter)])) false

theorem rangeName_ne (rule : Membership) (outer : String) : rule.rangeName outer ≠ outer := by
  unfold rangeName
  split
  · rename_i same
    intro longer
    have size := congrArg String.length (longer.trans same.symm)
    rw [String.length_append] at size
    exact absurd size (by simp)
  · assumption

theorem relabel_predicateAs (rule : Membership) {context : CriterionContext} {f : String → String}
    (outer : f context.name = context.name) (parameter used : String) :
    (rule.predicateAs context parameter used).relabel f =
      rule.predicateAs context parameter (f used) := by
  have inner : ∀ attrs, (Expr.ofPath used attrs).mapPaths (Path.relabel f) =
      Expr.ofPath (f used) attrs := fun _ => rfl
  have range : context.range.mapPaths (Path.relabel f) = context.range := by
    change Expr.ofPath (f context.name) [] = _
    rw [outer]
    rfl
  rw [predicateAs, Predicate.relabel_existsIn, Query.relabel_eq]
  simp only [Query.ofEntity, Select.map, Select.relabel, Option.map_some, List.map_cons, List.map_nil,
    Predicate.allOf, Predicate.equality, Predicate.relabel_and, Predicate.relabel_test, Test.mapExprs,
    inner, range]
  rfl

end Membership

/-- The condition is on the range of the alias alone, or it is that of a membership. -/
inductive Contribution.Simple (name : String) (contribution : Contribution) : Prop where
  | plain (plain : contribution.predicate.Plain name)
  | inside {rule : Membership} {context : CriterionContext} {parameter : String}
      (outer : context.name = name) (is : contribution.predicate = rule.predicate context parameter)

namespace Contribution.Simple

variable {name : String} {contribution : Contribution}

theorem worded_plain (plain : contribution.predicate.Plain name) (used : String) :
    contribution.worded used = contribution.predicate :=
  Predicate.mapSubqueries_of_nil (m := Id) _ plain.subqueries

theorem worded_inside {rule : Membership} {context : CriterionContext} {parameter : String}
    (is : contribution.predicate = rule.predicate context parameter) (used : String) :
    contribution.worded used = rule.predicateAs context parameter used := by
  let change (name : String) : String := if name = rule.rangeName context.name then used else name
  have outer : change context.name = context.name := if_neg (rule.rangeName_ne context.name).symm
  have inner : change (rule.rangeName context.name) = used := if_pos rfl
  have relabeled := rule.relabel_predicateAs outer parameter (rule.rangeName context.name)
  rw [inner] at relabeled
  rw [Contribution.worded, is]
  exact relabeled

theorem label?_plain (plain : contribution.predicate.Plain name) : contribution.label? = none := by
  rw [Contribution.label?, plain.subqueries]
  rfl

theorem label?_inside {rule : Membership} {context : CriterionContext} {parameter : String}
    (is : contribution.predicate = rule.predicate context parameter) :
    contribution.label? = some (rule.rangeName context.name) := by
  rw [Contribution.label?, is]
  rfl

/-- The only range that the condition declares is the one that wanted the alias. -/
theorem allAliases_worded (simple : contribution.Simple name) (used : String) :
    (contribution.worded used).allAliases = contribution.label?.toList.map fun _ => used := by
  cases simple with
  | plain plain =>
    rw [worded_plain plain, label?_plain plain, Predicate.allAliases_eq, plain.subqueries]
    rfl
  | inside _ is =>
    rw [worded_inside is, label?_inside is]
    rfl

/-- The query inside the condition has the used alias for its root. -/
theorem root_worded (simple : contribution.Simple name) (used : String) :
    ∀ inner ∈ (contribution.worded used).subqueries, inner.root.name.value = used := by
  cases simple with
  | plain plain =>
    rw [worded_plain plain, plain.subqueries]
    exact fun _ none => nomatch none
  | inside _ is =>
    rw [worded_inside is]
    intro inner member
    rw [List.mem_singleton.mp member]
    rfl

/-- The wording does not change the markers. -/
theorem markers_worded (simple : contribution.Simple name) (used : String) :
    (contribution.worded used).markers.map (·.value) =
      contribution.predicate.markers.map (·.value) := by
  cases simple with
  | plain plain => rw [worded_plain plain]
  | inside _ is =>
    rw [worded_inside is, is]
    rfl

/-- The condition with another alias is worded with that alias, if the range keeps its own. -/
theorem relabel_worded (simple : contribution.Simple name) {f : String → String}
    (outer : f name = name) (used : String) :
    (contribution.worded used).relabel f = contribution.worded (f used) := by
  cases simple with
  | plain plain =>
    rw [worded_plain plain, worded_plain plain]
    refine Predicate.relabel_eq_self (fun occurrence member => ?_) ?_
    · rw [plain.paths occurrence member, outer]
    · rw [Predicate.allAliases_eq, plain.subqueries]
      exact fun _ none => nomatch none
  | @inside rule context parameter same is =>
    rw [worded_inside is, worded_inside is]
    exact rule.relabel_predicateAs (same ▸ outer) parameter used

end Contribution.Simple

/-! ### Contributions -/

namespace RowPolicy

theorem plain_leafPredicate (policy : RowPolicy) (context : CriterionContext) (leaf : RowMatch) :
    (policy.leafPredicate context leaf).Plain context.name := by
  unfold leafPredicate
  split
  · exact .test fun path member => by rw [List.mem_singleton.mp member]; rfl
  · exact .test fun path member => by rw [List.mem_singleton.mp member]; rfl

/-- The parameter of a comparison is the only one in its condition. -/
theorem markers_leafPredicate (policy : RowPolicy) (context : CriterionContext) (leaf : RowMatch) :
    (policy.leafPredicate context leaf).markers.map (·.value) =
      [policy.parameter context leaf.contextAttr] := by
  unfold leafPredicate
  split
  · rfl
  · rfl

theorem leafParameter_name {policy : RowPolicy} {context : CriterionContext} {leaf : RowMatch}
    {parameter : String × Value} (result : policy.leafParameter context leaf = .ok parameter) :
    parameter.1 = policy.parameter context leaf.contextAttr := by
  unfold leafParameter at result
  split at result
  · rw [← Except.ok.inj result]
  · cases result

/-- What a comparison is made with does not depend on the range. -/
theorem leafParameter_eq {policy : RowPolicy} {context other : CriterionContext}
    (security : other.security = context.security)
    (parameterPrefix : other.parameterPrefix = context.parameterPrefix) :
    policy.leafParameter other = policy.leafParameter context := by
  funext leaf
  simp only [leafParameter, parameter, CriterionContext.parameter, security, parameterPrefix]

/-- One pair of each name is kept. -/
theorem firstOfEach_keeps (pairs : List (String × Value)) :
    ((firstOfEach pairs).map (·.1)).Nodup ∧
      ∀ name, name ∈ (firstOfEach pairs).map (·.1) ↔ name ∈ pairs.map (·.1) := by
  have step : ∀ kept : List (String × Value), (kept.map (·.1)).Nodup →
      let result := pairs.foldl
        (fun kept pair => if kept.any (·.1 == pair.1) then kept else kept ++ [pair]) kept
      (result.map (·.1)).Nodup ∧ ∀ name, name ∈ result.map (·.1) ↔
        name ∈ kept.map (·.1) ∨ name ∈ pairs.map (·.1) := by
    induction pairs with
    | nil => exact fun kept distinct => ⟨distinct, by simp⟩
    | cons pair rest ih =>
      intro kept distinct
      have known : kept.any (·.1 == pair.1) = true ↔ pair.1 ∈ kept.map (·.1) := by
        simp [List.any_eq_true]
      rw [List.foldl_cons]
      by_cases among : pair.1 ∈ kept.map (·.1)
      · rw [if_pos (known.mpr among)]
        obtain ⟨nodup, names⟩ := ih kept distinct
        refine ⟨nodup, fun name => (names name).trans ?_⟩
        rw [List.map_cons, List.mem_cons]
        exact ⟨fun found => found.imp_right .inr, fun found => found.elim .inl fun found =>
          found.elim (fun same => .inl (same ▸ among)) .inr⟩
      · rw [if_neg (known.not.mpr among)]
        have extended : ((kept ++ [pair]).map (·.1)).Nodup := by
          rw [List.map_append, List.nodup_append]
          refine ⟨distinct, List.pairwise_singleton _ _, fun name member other only same => ?_⟩
          have here : name = pair.1 := same.trans (List.mem_singleton.mp only)
          exact among (here ▸ member)
        obtain ⟨nodup, names⟩ := ih (kept ++ [pair]) extended
        refine ⟨nodup, fun name => (names name).trans ?_⟩
        simp only [List.map_append, List.map_cons, List.map_nil, List.mem_append, List.mem_cons,
          List.not_mem_nil, or_false, or_assoc]
  obtain ⟨nodup, names⟩ := step [] List.nodup_nil
  exact ⟨nodup, fun name => (names name).trans (by simp)⟩

end RowPolicy

namespace Criterion

/-- The criteria that come with the engine, the tenant criterion with any name for its parameter. -/
inductive Standard : Criterion → Prop where
  | tenant (parameter : String) : Standard (tenant parameter)
  | softDelete : Standard softDelete
  | policy (policy : RowPolicy) : Standard policy.criterion
  | membership (rule : Membership) : Standard rule.criterion

variable {criterion : Criterion} {context : CriterionContext} {contribution : Contribution}

theorem plain_tenantPredicate (context : CriterionContext) (attr parameter : String) :
    (tenantPredicate context attr parameter).Plain context.name := by
  apply Predicate.Plain.anyOf
  intro operand member
  rcases List.mem_cons.mp member with rfl | member
  · exact .test fun path none => nomatch none
  · rw [List.mem_singleton.mp member]
    exact .test fun path member => by rw [List.mem_singleton.mp member]; rfl

namespace Standard

/-- What a criterion contributes is a condition on the range alone, or one of a membership. -/
theorem simple (standard : criterion.Standard)
    (result : criterion.contribute context = .ok (some contribution)) :
    contribution.Simple context.name := by
  cases standard with
  | tenant parameter =>
    obtain ⟨attr, rfl⟩ := tenant_contribute_ok result
    exact .plain (plain_tenantPredicate context attr _)
  | softDelete =>
    obtain ⟨attr, rfl⟩ := softDelete_contribute_ok result
    exact .plain (.test fun path member => by rw [List.mem_singleton.mp member]; rfl)
  | policy policy =>
    obtain ⟨parameters, _, rfl⟩ := RowPolicy.contribute_ok result
    exact .plain (policy.filter.compile_induction (fun _ => .allOf) (fun _ => .anyOf)
      fun leaf _ => policy.plain_leafPredicate context leaf)
  | membership rule =>
    obtain ⟨value, _, rfl⟩ := Membership.contribute_ok result
    exact .inside rfl rfl

/-- A criterion supplies each parameter once. -/
theorem parameters_nodup (standard : criterion.Standard)
    (result : criterion.contribute context = .ok (some contribution)) :
    (contribution.parameters.map (·.1)).Nodup := by
  cases standard with
  | tenant parameter =>
    obtain ⟨attr, rfl⟩ := tenant_contribute_ok result
    exact List.pairwise_singleton _ _
  | softDelete =>
    obtain ⟨attr, rfl⟩ := softDelete_contribute_ok result
    exact List.nodup_nil
  | policy policy =>
    obtain ⟨parameters, _, rfl⟩ := RowPolicy.contribute_ok result
    exact (RowPolicy.firstOfEach_keeps parameters).1
  | membership rule =>
    obtain ⟨value, _, rfl⟩ := Membership.contribute_ok result
    exact List.pairwise_singleton _ _

/-- A criterion supplies the parameters that its condition mentions. -/
theorem markers_subset (standard : criterion.Standard)
    (result : criterion.contribute context = .ok (some contribution)) :
    contribution.predicate.markers.map (·.value) ⊆ contribution.parameters.map (·.1) := by
  cases standard with
  | tenant parameter =>
    obtain ⟨attr, rfl⟩ := tenant_contribute_ok result
    have twice : (tenantPredicate context attr (context.parameter parameter)).markers.map (·.value) =
        [context.parameter parameter, context.parameter parameter] := rfl
    rw [twice]
    simp
  | softDelete =>
    obtain ⟨attr, rfl⟩ := softDelete_contribute_ok result
    exact List.nil_subset _
  | policy policy =>
    obtain ⟨parameters, values, rfl⟩ := RowPolicy.contribute_ok result
    refine List.forall_mem_map.mpr ?_
    refine policy.filter.compile_induction (motive := fun predicate => ∀ marker ∈ predicate.markers,
      marker.value ∈ (RowPolicy.firstOfEach parameters).map (·.1)) ?_ ?_ ?_
    · intro operands each
      rw [Predicate.flatMap_allOf Predicate.markers_and]
      exact List.forall_mem_flatMap.mpr each
    · intro operands each
      rw [Predicate.flatMap_anyOf Predicate.markers_or]
      exact List.forall_mem_flatMap.mpr each
    · intro leaf member marker found
      have named : marker.value ∈ [policy.parameter context leaf.contextAttr] :=
        policy.markers_leafPredicate context leaf ▸ List.mem_map_of_mem found
      obtain ⟨parameter, among, here⟩ := exists_mem_of_forall₂ (mapM_ok_iff.mp values) leaf member
      rw [List.mem_singleton.mp named, ← RowPolicy.leafParameter_name here]
      exact ((RowPolicy.firstOfEach_keeps parameters).2 _).mpr (List.mem_map_of_mem among)
  | membership rule =>
    obtain ⟨value, _, rfl⟩ := Membership.contribute_ok result
    exact List.Subset.refl _

/-- The parameters of a criterion are the same for all ranges. -/
theorem parameters_eq (standard : criterion.Standard) {other : CriterionContext}
    {contributed : Contribution} (schema : other.schema = context.schema)
    (security : other.security = context.security)
    (parameterPrefix : other.parameterPrefix = context.parameterPrefix)
    (result : criterion.contribute context = .ok (some contribution))
    (result' : criterion.contribute other = .ok (some contributed)) :
    contributed.parameters = contribution.parameters := by
  cases standard with
  | tenant parameter =>
    obtain ⟨attr, rfl⟩ := tenant_contribute_ok result
    obtain ⟨attr', rfl⟩ := tenant_contribute_ok result'
    simp only [CriterionContext.parameter, schema, security, parameterPrefix]
  | softDelete =>
    obtain ⟨attr, rfl⟩ := softDelete_contribute_ok result
    obtain ⟨attr', rfl⟩ := softDelete_contribute_ok result'
    rfl
  | policy policy =>
    obtain ⟨parameters, values, rfl⟩ := RowPolicy.contribute_ok result
    obtain ⟨parameters', values', rfl⟩ := RowPolicy.contribute_ok result'
    rw [RowPolicy.leafParameter_eq security parameterPrefix, values] at values'
    rw [Except.ok.inj values']
  | membership rule =>
    obtain ⟨value, known, rfl⟩ := Membership.contribute_ok result
    obtain ⟨value', known', rfl⟩ := Membership.contribute_ok result'
    rw [security, known] at known'
    simp only [CriterionContext.parameter, parameterPrefix, Option.some.inj known']

end Standard

end Criterion

end QueryGuard
