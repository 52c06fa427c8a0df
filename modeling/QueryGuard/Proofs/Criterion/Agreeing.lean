import QueryGuard.Proofs.Criterion.Standard
/-!
Callers who differ in values only get the same conditions, with parameters of the same names.
-/

set_option autoImplicit false

namespace QueryGuard

/-- What criteria ask about the callers has the same answer for both, apart from values: whether they are
administrators, whether an attribute is known, and whether a policy exempts them. -/
structure SecurityContext.Agree (criteria : List Criterion) (first second : SecurityContext) :
    Prop where
  admin : second.admin = first.admin
  known : ∀ name, (second.attribute? name).isSome = (first.attribute? name).isSome
  bypass : ∀ policy : RowPolicy, policy.criterion ∈ criteria → ∀ name ∈ policy.bypass,
    (second.attribute? name = some (.bool true) ↔ first.attribute? name = some (.bool true))

/-- A contribution without the values of its parameters. -/
def Contribution.shape (contribution : Contribution) : Predicate × List String :=
  (contribution.predicate, contribution.parameters.map (·.1))

/-- What a criterion may look at, with another caller. -/
def CriterionContext.asked (context : CriterionContext) (security : SecurityContext) :
    CriterionContext := { context with security }

namespace RowPolicy

theorem exempts_iff (policy : RowPolicy) (security : SecurityContext) :
    policy.exempts security = true ↔ security.admin = true ∨
      ∃ name ∈ policy.bypass, security.attribute? name = some (.bool true) := by
  rw [exempts, Bool.or_eq_true]
  refine or_congr Iff.rfl ?_
  cases policy.bypass with
  | none => simp
  | some name =>
    simp only [Option.mem_def, Option.some.injEq, exists_eq_left']
    split
    · rename_i value known
      rw [known, Option.some.injEq, Value.bool.injEq]
    · rename_i other
      exact ⟨nofun, fun is => absurd is (other true)⟩

theorem isSome_of_contribute {policy : RowPolicy} {context : CriterionContext}
    {result : Option Contribution} (answers : policy.criterion.contribute context = .ok result) :
    result.isSome = !policy.exempts context.security := by
  change (if policy.exempts context.security then _ else _) = _ at answers
  split at answers
  · rename_i exempt
    rw [← Except.ok.inj answers, exempt]
    rfl
  · rename_i subject
    obtain ⟨contribution, _, same⟩ := ok_of_bind answers
    rw [← Except.ok.inj same, Bool.eq_false_iff.mpr subject]
    rfl

theorem names_leafParameters {policy : RowPolicy} {context : CriterionContext}
    {leaves : List RowMatch} {parameters : List (String × Value)}
    (values : leaves.mapM (policy.leafParameter context) = .ok parameters) :
    parameters.map (·.1) = leaves.map fun leaf => policy.parameter context leaf.contextAttr := by
  induction mapM_ok_iff.mp values with
  | nil => rfl
  | cons found others ih =>
    rw [List.map_cons, List.map_cons, ih (mapM_ok_iff.mpr others), leafParameter_name found]

/-- Which pairs are the first of their names, the names tell. -/
theorem firstOfEach_names {pairs others : List (String × Value)}
    (same : others.map (·.1) = pairs.map (·.1)) :
    (firstOfEach others).map (·.1) = (firstOfEach pairs).map (·.1) := by
  have seen : ∀ (kept : List (String × Value)) (name : String),
      kept.any (·.1 == name) = (kept.map (·.1)).contains name := by
    intro kept name
    rw [List.contains_eq_any_beq, List.any_map]
    exact congrArg kept.any (funext fun _ => Bool.beq_comm)
  have step : ∀ (kept kept' : List (String × Value)), kept'.map (·.1) = kept.map (·.1) →
      let keep (kept : List (String × Value)) (pair : String × Value) :=
        if kept.any (·.1 == pair.1) then kept else kept ++ [pair]
      (others.foldl keep kept').map (·.1) = (pairs.foldl keep kept).map (·.1) := by
    induction pairs generalizing others with
    | nil =>
      intro kept kept' names
      rw [List.map_eq_nil_iff.mp same]
      exact names
    | cons pair rest ih =>
      intro kept kept' names
      obtain ⟨other, further, rfl, first, same⟩ := List.map_eq_cons_iff.mp same
      refine ih same _ _ ?_
      dsimp only at first ⊢
      rw [seen, seen, names, first]
      split
      · exact names
      · rw [List.map_append, List.map_append, names, List.map_singleton, List.map_singleton, first]
  exact step [] [] rfl

end RowPolicy

theorem Membership.isSome_of_contribute {rule : Membership} {context : CriterionContext}
    {result : Option Contribution} (answers : rule.criterion.contribute context = .ok result) :
    result.isSome = !context.security.admin := by
  change (if context.security.admin then _ else _) = _ at answers
  split at answers
  · rename_i admin
    rw [← Except.ok.inj answers, admin]
    rfl
  · rename_i subject
    split at answers
    · rw [← Except.ok.inj answers, Bool.eq_false_iff.mpr subject]
      rfl
    · cases answers

namespace Criterion

variable {criteria : List Criterion} {criterion : Criterion} {context : CriterionContext}
  {other : SecurityContext} {result result' : Option Contribution}

/-- If a criterion answers for two callers who differ in values only, it asks for the same. -/
theorem Standard.contribute_agree (standard : criterion.Standard) (member : criterion ∈ criteria)
    (agree : context.security.Agree criteria other)
    (answers : criterion.contribute context = .ok result)
    (answers' : criterion.contribute (context.asked other) = .ok result') :
    result'.map Contribution.shape = result.map Contribution.shape := by
  have both : result'.isSome = result.isSome → (∀ contribution contribution',
      result = some contribution → result' = some contribution' →
        contribution'.shape = contribution.shape) →
      result'.map Contribution.shape = result.map Contribution.shape := by
    intro present same
    cases result with
    | none => rw [Option.not_isSome_iff_eq_none.mp (Bool.eq_false_iff.mp present)]
    | some contribution =>
      obtain ⟨contribution', rfl⟩ := Option.isSome_iff_exists.mp present
      exact congrArg some (same contribution contribution' rfl rfl)
  cases standard with
  | tenant parameter =>
    rw [← Except.ok.inj answers, ← Except.ok.inj answers', Option.map_map, Option.map_map]
    rfl
  | softDelete =>
    rw [← Except.ok.inj answers, ← Except.ok.inj answers', Option.map_map, Option.map_map]
    rfl
  | policy policy =>
    have exempts : policy.exempts other = policy.exempts context.security := by
      rw [Bool.eq_iff_iff, RowPolicy.exempts_iff, RowPolicy.exempts_iff, agree.admin]
      exact or_congr Iff.rfl (exists_congr fun name =>
        and_congr_right fun bypass => agree.bypass policy member name bypass)
    refine both ?_ ?_
    · rw [RowPolicy.isSome_of_contribute answers, RowPolicy.isSome_of_contribute answers']
      exact congrArg _ exempts
    · rintro contribution contribution' rfl rfl
      obtain ⟨parameters, values, rfl⟩ := RowPolicy.contribute_ok answers
      obtain ⟨parameters', values', rfl⟩ := RowPolicy.contribute_ok answers'
      refine Prod.ext rfl (RowPolicy.firstOfEach_names ?_)
      rw [RowPolicy.names_leafParameters values, RowPolicy.names_leafParameters values']
      rfl
  | membership rule =>
    refine both ?_ ?_
    · rw [Membership.isSome_of_contribute answers, Membership.isSome_of_contribute answers']
      exact congrArg _ agree.admin
    · rintro contribution contribution' rfl rfl
      obtain ⟨value, _, rfl⟩ := Membership.contribute_ok answers
      obtain ⟨value', _, rfl⟩ := Membership.contribute_ok answers'
      rfl

end Criterion

end QueryGuard
