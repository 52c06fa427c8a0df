import QueryGuard.Criterion.Membership
import QueryGuard.Criterion.RowPolicy
import QueryGuard.Criterion.SoftDelete
import QueryGuard.Criterion.Tenant
import QueryGuard.Engine.Settings
import QueryGuard.Proofs.Rewriting.Printable
/-!
What the criteria contribute that come with the engine can be written down.
-/

set_option autoImplicit false

namespace QueryGuard

/-! ### Names of parameters -/

theorem Lexing.IsMarker.append {front back : List Char} (marker : IsMarker front)
    (each : ∀ c ∈ back, isMarkerPart c) : IsMarker (front ++ back) := by
  cases front with
  | nil => exact marker.elim
  | cons c rest => exact ⟨marker.1, List.forall_mem_append.mpr ⟨marker.2, each⟩⟩

theorem Settings.isMarker_of_isPrefix {text : List Char} (accepted : isPrefix text) :
    Lexing.IsMarker text := by
  unfold isPrefix at accepted
  obtain ⟨start, each⟩ := Bool.and_eq_true_iff.mp accepted
  cases text with
  | nil => cases start
  | cons c rest =>
    exact ⟨start, fun d member => List.all_eq_true.mp each d (List.mem_cons_of_mem c member)⟩

/-- Checked settings have a text that parameter names may start with. -/
theorem Settings.isMarker_of_check {settings : Settings} (checked : settings.check = .ok ()) :
    Lexing.IsMarker settings.scope.parameterPrefix.toList := by
  apply isMarker_of_isPrefix
  cases accepted : isPrefix settings.scope.parameterPrefix.toList with
  | true => rfl
  | false =>
    rw [check, accepted] at checked
    cases checked

theorem Criterion.isMarkerPart_localName (criterion attr : String) :
    ∀ c ∈ (localName criterion attr).toList, Lexing.isMarkerPart c := by
  intro c member
  rw [localName, String.toList_ofList] at member
  obtain ⟨written, _, rfl⟩ := List.mem_map.mp member
  unfold Lexing.isMarkerPart
  split
  · rename_i letter
    rw [letter, Bool.true_or]
  · rfl

theorem CriterionContext.isMarker_parameter {context : CriterionContext}
    (start : Lexing.IsMarker context.parameterPrefix.toList) {localName : String}
    (each : ∀ c ∈ localName.toList, Lexing.isMarkerPart c) :
    Lexing.IsMarker (context.parameter localName).toList := by
  rw [parameter, String.toList_append]
  exact start.append each

/-! ### Conditions -/

namespace Predicate

theorem printable_equality {left right : Expr} (first : left.Printable) (second : right.Printable) :
    (equality left right).Printable := by
  refine .test ⟨fun expr member => ?_, trivial⟩
  rcases List.mem_cons.mp member with rfl | member
  · exact first
  · rw [List.mem_singleton.mp member]
    exact second

theorem printable_allOf {operands : List Predicate}
    (each : ∀ operand ∈ operands, operand.Printable) : (allOf operands).Printable := by
  rcases operands with _ | ⟨first, _ | ⟨second, rest⟩⟩
  · exact .and (by simp) each
  · exact each first List.mem_cons_self
  · exact .and (by simp) each

theorem printable_anyOf {operands : List Predicate}
    (each : ∀ operand ∈ operands, operand.Printable) : (anyOf operands).Printable := by
  rcases operands with _ | ⟨first, _ | ⟨second, rest⟩⟩
  · exact .or (by simp) each
  · exact each first List.mem_cons_self
  · exact .or (by simp) each

end Predicate

theorem Query.printable_ofEntity (entity name : String) {filter : Predicate}
    (printable : filter.Printable) : (Query.ofEntity entity name filter).Printable where
  level := levelPrintable_ofEntity entity name filter
  each := by
    intro condition member
    have only : condition ∈ [filter] := member
    rw [List.mem_singleton.mp only]
    exact printable

/-! ### Contributions -/

section

variable {context : CriterionContext} {contribution : Contribution}

theorem RowPolicy.contribute_ok {policy : RowPolicy}
    (result : policy.criterion.contribute context = .ok (some contribution)) :
    ∃ parameters, policy.filter.leaves.mapM (policy.leafParameter context) = .ok parameters ∧
      contribution =
        ⟨policy.filter.compile (policy.leafPredicate context), RowPolicy.firstOfEach parameters⟩ := by
  change (if policy.exempts context.security then _ else _) = _ at result
  split at result
  · cases result
  · obtain ⟨contributed, result, same⟩ := ok_of_bind result
    obtain ⟨parameters, values, returned⟩ := ok_of_bind result
    refine ⟨parameters, values, ?_⟩
    rw [← Option.some.inj (Except.ok.inj same), ← Except.ok.inj returned]

theorem Membership.contribute_ok {rule : Membership}
    (result : rule.criterion.contribute context = .ok (some contribution)) :
    ∃ value, rule.memberValue? context.security = some value ∧
      let parameter := context.parameter (Criterion.localName rule.name rule.contextAttr)
      contribution = ⟨rule.predicate context parameter, [(parameter, value)]⟩ := by
  change (if context.security.admin then _ else _) = _ at result
  split at result
  · cases result
  · cases value : rule.memberValue? context.security with
    | none =>
      rw [value] at result
      cases result
    | some found =>
      rw [value] at result
      exact ⟨found, rfl, (Option.some.inj (Except.ok.inj result)).symm⟩

theorem Criterion.tenant_contribute_ok {parameter : String}
    (result : (tenant parameter).contribute context = .ok (some contribution)) :
    ∃ attr, contribution = ⟨tenantPredicate context attr (context.parameter parameter),
      [(context.parameter parameter,
        .string (context.security.tenantOr context.schema.sentinel))]⟩ := by
  obtain ⟨attr, _, rfl⟩ := Option.map_eq_some_iff.mp (Except.ok.inj result)
  exact ⟨attr, rfl⟩

theorem Criterion.softDelete_contribute_ok
    (result : softDelete.contribute context = .ok (some contribution)) :
    ∃ attr, contribution = ⟨.test (.isNull (context.attr attr) false), []⟩ := by
  obtain ⟨attr, _, rfl⟩ := Option.map_eq_some_iff.mp (Except.ok.inj result)
  exact ⟨attr, rfl⟩

end

/-! ### Criteria -/

section

variable {context : CriterionContext}
  (start : Lexing.IsMarker context.parameterPrefix.toList)

include start

theorem Criterion.printable_tenantPredicate (attr : String) {localName : String}
    (each : ∀ c ∈ localName.toList, Lexing.isMarkerPart c) :
    (tenantPredicate context attr (context.parameter localName)).Printable := by
  have marker := context.isMarker_parameter start each
  apply Predicate.printable_anyOf
  intro operand member
  rcases List.mem_cons.mp member with rfl | member
  · exact Predicate.printable_equality (.parameter marker) (.literal trivial)
  · rw [List.mem_singleton.mp member]
    exact Predicate.printable_equality (.path _) (.parameter marker)

theorem RowPolicy.printable_leafPredicate (policy : RowPolicy) (leaf : RowMatch) :
    (policy.leafPredicate context leaf).Printable := by
  have marker := context.isMarker_parameter start
    (Criterion.isMarkerPart_localName policy.name leaf.contextAttr)
  unfold leafPredicate
  split
  · refine .test ⟨fun expr member => ?_, marker⟩
    rw [List.mem_singleton.mp member]
    exact .path _
  · exact Predicate.printable_equality (.path _) (.parameter marker)

theorem Membership.printable_predicate (rule : Membership) {localName : String}
    (each : ∀ c ∈ localName.toList, Lexing.isMarkerPart c) :
    (rule.predicate context (context.parameter localName)).Printable := by
  have marker := context.isMarker_parameter start each
  have filter : (Predicate.allOf [
      .equality (.ofPath (rule.rangeName context.name) [rule.reference]) context.range,
      .equality (.ofPath (rule.rangeName context.name) [rule.member])
        (.ofParameter (context.parameter localName))]).Printable := by
    apply Predicate.printable_allOf
    intro operand member
    rcases List.mem_cons.mp member with rfl | member
    · exact Predicate.printable_equality (.path _) (.path _)
    · rw [List.mem_singleton.mp member]
      exact Predicate.printable_equality (.path _) (.parameter marker)
  have query := Query.printable_ofEntity rule.membership (rule.rangeName context.name) filter
  exact .existsIn query.level query.each

end

namespace RowFilter

theorem printable_compile {leaf : RowMatch → Predicate} (leaves : ∀ found, (leaf found).Printable)
    (filter : RowFilter) : (filter.compile leaf).Printable := by
  refine RowFilter.rec (motive_1 := fun filter => (filter.compile leaf).Printable)
    (motive_2 := fun filters => ∀ operand ∈ compileAll leaf filters, operand.Printable)
    leaves ?_ ?_ ?_ ?_ filter
  · exact fun filters each => Predicate.printable_allOf each
  · exact fun filters each => Predicate.printable_anyOf each
  · simp [compileAll]
  · intro filter rest first others
    exact List.forall_mem_cons.mpr ⟨first, others⟩

end RowFilter

namespace Criterion

/-- The criteria that come with the engine. The parameter of the tenant criterion has a name of
letters, digits and underscores. -/
inductive BuiltIn : Criterion → Prop where
  | tenant {parameter : String} (letters : ∀ c ∈ parameter.toList, Lexing.isMarkerPart c) :
      BuiltIn (tenant parameter)
  | softDelete : BuiltIn softDelete
  | policy (policy : RowPolicy) : BuiltIn policy.criterion
  | membership (rule : Membership) : BuiltIn rule.criterion

theorem BuiltIn.printable {criterion : Criterion} (builtIn : criterion.BuiltIn)
    {context : CriterionContext} (start : Lexing.IsMarker context.parameterPrefix.toList)
    {contribution : Contribution} (result : criterion.contribute context = .ok (some contribution)) :
    contribution.predicate.Printable := by
  cases builtIn with
  | tenant letters =>
    obtain ⟨attr, rfl⟩ := tenant_contribute_ok result
    exact printable_tenantPredicate start attr letters
  | softDelete =>
    obtain ⟨attr, rfl⟩ := softDelete_contribute_ok result
    refine .test ⟨fun expr member => ?_, trivial⟩
    rw [List.mem_singleton.mp member]
    exact .path _
  | policy policy =>
    obtain ⟨parameters, _, rfl⟩ := RowPolicy.contribute_ok result
    exact policy.filter.printable_compile (policy.printable_leafPredicate start)
  | membership rule =>
    obtain ⟨value, _, rfl⟩ := Membership.contribute_ok result
    exact rule.printable_predicate start (isMarkerPart_localName _ _)

end Criterion

end QueryGuard
