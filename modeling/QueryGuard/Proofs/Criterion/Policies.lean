import QueryGuard.Proofs.Criterion.Standard
import QueryGuard.Proofs.Meaning.Truth
import QueryGuard.Proofs.Parameters
/-!
What the condition of a policy means with the parameters that come with it. Comparisons whose parameters
have one name share the value that the first of them reads; where they read the same value, the condition
is true of the rows that the filter admits.
-/

set_option autoImplicit false

namespace QueryGuard

/-! ### Combined truth -/

namespace Truth

theorem all_singleton (operand : Option Bool) : all [operand] = operand := by
  rcases operand with _ | _ | _ <;> rfl

theorem any_singleton (operand : Option Bool) : any [operand] = operand := by
  rcases operand with _ | _ | _ <;> rfl

theorem negateIf_false (truth : Option Bool) : negateIf false truth = truth := by
  rcases truth with _ | _ | _ <;> rfl

end Truth

namespace Predicate

variable {row : Row}

theorem truth_allOf (operands : List Predicate) :
    (allOf operands).truth row = Truth.all (operands.map (truth row)) := by
  rcases operands with _ | ⟨first, _ | ⟨second, rest⟩⟩
  · rfl
  · exact (Truth.all_singleton _).symm
  · show Truth.all (truthOfAll row _) = _
    rw [truthOfAll_eq_map]

theorem truth_anyOf (operands : List Predicate) :
    (anyOf operands).truth row = Truth.any (operands.map (truth row)) := by
  rcases operands with _ | ⟨first, _ | ⟨second, rest⟩⟩
  · rfl
  · exact (Truth.any_singleton _).symm
  · show Truth.any (truthOfAll row _) = _
    rw [truthOfAll_eq_map]

end Predicate

/-! ### Filters -/

namespace RowFilter

mutual

/-- Whether the filter admits a row, given whether its comparisons do. -/
def truth (leaf : RowMatch → Option Bool) : RowFilter → Option Bool
  | .matching comparison => leaf comparison
  | .and filters => Truth.all (truthOfAll leaf filters)
  | .or filters => Truth.any (truthOfAll leaf filters)

def truthOfAll (leaf : RowMatch → Option Bool) : List RowFilter → List (Option Bool)
  | [] => []
  | filter :: rest => filter.truth leaf :: truthOfAll leaf rest

end

mutual

/-- The condition of a filter is true of the rows that the filter admits. -/
theorem truth_compile (row : Row) (leaf : RowMatch → Predicate) (filter : RowFilter) :
    (filter.compile leaf).truth row = filter.truth fun comparison => (leaf comparison).truth row :=
  match filter with
  | .matching _ => rfl
  | .and filters => by
    rw [compile, Predicate.truth_allOf, truthOfAll_compileAll, truth]
  | .or filters => by
    rw [compile, Predicate.truth_anyOf, truthOfAll_compileAll, truth]

theorem truthOfAll_compileAll (row : Row) (leaf : RowMatch → Predicate) (filters : List RowFilter) :
    (compileAll leaf filters).map (Predicate.truth row) =
      truthOfAll (fun comparison => (leaf comparison).truth row) filters :=
  match filters with
  | [] => rfl
  | filter :: rest => by
    rw [compileAll, List.map_cons, truth_compile row leaf filter, truthOfAll_compileAll row leaf rest,
      truthOfAll]

end

mutual

/-- The rows that a filter admits depend on its comparisons alone. -/
theorem truth_congr {first second : RowMatch → Option Bool} (filter : RowFilter)
    (same : ∀ comparison ∈ filter.leaves, first comparison = second comparison) :
    filter.truth first = filter.truth second :=
  match filter with
  | .matching comparison => same comparison List.mem_cons_self
  | .and filters => by rw [truth, truth, truthOfAll_congr filters same]
  | .or filters => by rw [truth, truth, truthOfAll_congr filters same]

theorem truthOfAll_congr {first second : RowMatch → Option Bool} (filters : List RowFilter)
    (same : ∀ comparison ∈ leavesOfAll filters, first comparison = second comparison) :
    truthOfAll first filters = truthOfAll second filters :=
  match filters with
  | [] => rfl
  | filter :: rest => by
    obtain ⟨here, there⟩ := List.forall_mem_append.mp same
    rw [truthOfAll, truthOfAll, truth_congr filter here, truthOfAll_congr rest there]

end

end RowFilter

/-! ### Comparisons -/

namespace RowMatch

/-- What the comparison compares with: the caller's attribute, as a list if it is to be one. -/
def reads (leaf : RowMatch) (security : SecurityContext) : Option Value :=
  (security.attribute? leaf.contextAttr).map fun value =>
    if leaf.many then RowPolicy.asList value else value

/-- Whether an attribute of the row is the caller's, or is one of those that the caller has. -/
def truth (leaf : RowMatch) (security : SecurityContext) (attr : Value) : Option Bool :=
  match security.attribute? leaf.contextAttr, leaf.many with
  | some value, false => attr.equals value
  | some (.list items), true => attr.isOneOf items
  | some single, true => attr.isOneOf [single]
  | none, _ => none

end RowMatch

namespace RowPolicy

variable {policy : RowPolicy} {context : CriterionContext}

/-- The parameter in the condition of a comparison. -/
def marker (policy : RowPolicy) (context : CriterionContext) (leaf : RowMatch) : String :=
  policy.parameter context leaf.contextAttr

/-- Comparisons that share a parameter read the same value. -/
def Unambiguous (policy : RowPolicy) (context : CriterionContext) : Prop :=
  ∀ leaf ∈ policy.filter.leaves, ∀ other ∈ policy.filter.leaves,
    policy.marker context leaf = policy.marker context other →
      leaf.reads context.security = other.reads context.security

theorem leafParameter_ok {leaf : RowMatch} {parameter : String × Value}
    (result : policy.leafParameter context leaf = .ok parameter) :
    leaf.reads context.security = some parameter.2 := by
  unfold leafParameter at result
  split at result
  · rename_i value known
    rw [RowMatch.reads, known, ← Except.ok.inj result]
    rfl
  · cases result

/-- The condition of a comparison is true of the rows that the comparison admits, if its parameter has
the value that the comparison reads. -/
theorem truth_leafPredicate {leaf : RowMatch} {row : Row} {value : Value}
    (reads : leaf.reads context.security = some value)
    (bound : row.parameter (policy.marker context leaf) = value) :
    (policy.leafPredicate context leaf).truth row =
      leaf.truth context.security ((context.attr leaf.attr).value row) := by
  obtain ⟨own, known, rfl⟩ := Option.map_eq_some_iff.mp reads
  rw [marker] at bound
  rcases leaf with ⟨attr, contextAttr, _ | _⟩
  · show Value.equals _ (row.parameter (policy.parameter context contextAttr)) = _
    rw [bound]
    simp only [RowMatch.truth, known, Bool.false_eq_true, ↓reduceIte]
  · have listed : row.parameter (policy.parameter context contextAttr) = asList own := bound
    show Test.truth row (.inParameter (context.attr attr) _ false) = _
    simp only [Test.truth, Located.synthetic_value, listed]
    cases own <;> simp only [RowMatch.truth, known, asList, Truth.negateIf_false]

/-! ### Parameters -/

/-- Keeping the first pair of each name does not change what a name is looked up as. -/
theorem lookup_firstOfEach (pairs : List (String × Value)) (name : String) :
    (firstOfEach pairs).lookup name = pairs.lookup name := by
  have step : ∀ kept : List (String × Value), (pairs.foldl
      (fun kept pair => if kept.any (·.1 == pair.1) then kept else kept ++ [pair]) kept).lookup name =
        (kept ++ pairs).lookup name := by
    induction pairs with
    | nil => exact fun kept => by rw [List.append_nil]; rfl
    | cons pair rest ih =>
      intro kept
      rw [List.foldl_cons, ih]
      by_cases known : kept.any (·.1 == pair.1) = true
      · rw [if_pos known, List.lookup_append, List.lookup_append, List.lookup_cons]
        split
        · rename_i same
          obtain ⟨earlier, member, named⟩ := List.any_eq_true.mp known
          have found : (kept.lookup name).isSome := by
            rw [List.lookup_isSome_iff]
            exact ⟨earlier, member, by rw [eq_of_beq same, ← eq_of_beq named]; exact beq_self_eq_true _⟩
          obtain ⟨value, is⟩ := Option.isSome_iff_exists.mp found
          rw [is, Option.some_or, Option.some_or]
        · rfl
      · rw [if_neg known, List.append_assoc, List.singleton_append]
  exact step []

/-- A name is looked up as the value that the first comparison with it reads. -/
theorem lookup_leafParameters {leaves : List RowMatch} {parameters : List (String × Value)}
    (values : List.Forall₂ (fun leaf parameter => policy.leafParameter context leaf = .ok parameter)
      leaves parameters) (name : String) :
    parameters.lookup name =
      (leaves.find? fun leaf => policy.marker context leaf == name).bind
        (·.reads context.security) := by
  induction values with
  | nil => rfl
  | @cons leaf parameter rest others here _ ih =>
    obtain ⟨key, value⟩ := parameter
    have named : key = policy.marker context leaf := leafParameter_name here
    rw [List.lookup_cons, List.find?_cons, ← named]
    by_cases same : name = key
    · rw [same, beq_self_eq_true, Option.bind_some, leafParameter_ok here]
    · rw [beq_eq_false_iff_ne.mpr same, beq_eq_false_iff_ne.mpr (Ne.symm same), ih]

/-- Comparisons with attributes that a parameter can be named after are unambiguous, if each attribute is
compared with in one way. -/
theorem unambiguous_of_plain
    (plain : ∀ leaf ∈ policy.filter.leaves, ∀ c ∈ leaf.contextAttr.toList, c.isAlphanum ∨ c = '_')
    (uniform : ∀ leaf ∈ policy.filter.leaves, ∀ other ∈ policy.filter.leaves,
      leaf.contextAttr = other.contextAttr → leaf.many = other.many) :
    policy.Unambiguous context := by
  -- the change of characters leaves such an attribute as it is
  have kept : ∀ leaf ∈ policy.filter.leaves,
      leaf.contextAttr.toList.map (fun c => if c.isAlphanum then c else '_') =
        leaf.contextAttr.toList := by
    intro leaf member
    refine (List.map_congr_left fun c among => ?_).trans (List.map_id _)
    rcases plain leaf member c among with holds | rfl
    · exact if_pos holds
    · rfl
  intro leaf member other among same
  have spelled := congrArg String.toList same
  simp only [marker, parameter, CriterionContext.parameter, Criterion.localName, String.toList_append,
    String.toList_ofList, List.map_append, List.map_cons, kept leaf member, kept other among,
    List.append_cancel_left_eq] at spelled
  have attrs : leaf.contextAttr = other.contextAttr :=
    String.toList_injective (List.cons_injective spelled)
  rw [RowMatch.reads, RowMatch.reads, attrs, uniform leaf member other among attrs]

/-- Each comparison is bound to what the first with its parameter reads; so each is bound to what it
reads itself just if those that share a parameter read the same, and then the condition is true of the
rows that the filter admits. -/
theorem contributed_meaning {contribution : Contribution}
    (result : policy.criterion.contribute context = .ok (some contribution)) :
    (∀ leaf ∈ policy.filter.leaves,
      contribution.parameters.lookup (policy.marker context leaf) =
        (policy.filter.leaves.find? fun other =>
          policy.marker context other == policy.marker context leaf).bind
            (·.reads context.security)) ∧
    ((∀ leaf ∈ policy.filter.leaves,
      contribution.parameters.lookup (policy.marker context leaf) = leaf.reads context.security) ↔
        policy.Unambiguous context) ∧
    (policy.Unambiguous context → ∀ row : Row,
      (∀ pair ∈ contribution.parameters, row.parameter pair.1 = pair.2) →
        contribution.predicate.truth row =
          policy.filter.truth fun leaf =>
            leaf.truth context.security ((context.attr leaf.attr).value row)) := by
  obtain ⟨parameters, values, rfl⟩ := contribute_ok result
  have each := mapM_ok_iff.mp values
  have looked : ∀ name, (firstOfEach parameters).lookup name =
      (policy.filter.leaves.find? fun other => policy.marker context other == name).bind
        (·.reads context.security) := fun name =>
    (lookup_firstOfEach parameters name).trans (lookup_leafParameters each name)
  have own (unambiguous : policy.Unambiguous context) : ∀ leaf ∈ policy.filter.leaves,
      (firstOfEach parameters).lookup (policy.marker context leaf) =
        leaf.reads context.security := by
    intro leaf member
    obtain ⟨first, found⟩ := Option.isSome_iff_exists.mp
      (List.find?_isSome (p := fun other => policy.marker context other == policy.marker context leaf).mpr
        ⟨leaf, member, beq_self_eq_true _⟩)
    rw [looked, found]
    have shared := List.find?_some
      (p := fun other => policy.marker context other == policy.marker context leaf) found
    exact unambiguous first (List.mem_of_find?_eq_some found) leaf member (eq_of_beq shared)
  refine ⟨fun leaf _ => looked _, ⟨fun bound leaf member other among same => ?_, own⟩, ?_⟩
  · rw [← bound leaf member, ← bound other among, same]
  · intro unambiguous row supplied
    refine (RowFilter.truth_compile row _ _).trans (RowFilter.truth_congr _ fun leaf member => ?_)
    obtain ⟨parameter, among, here⟩ := exists_mem_of_forall₂ each leaf member
    have reads := leafParameter_ok here
    have known := (own unambiguous leaf member).trans reads
    exact truth_leafPredicate reads (supplied (_, _) (mem_of_lookup known))

/-- A policy that compares with two attributes of the caller after which it names one parameter. -/
def regionAndOwner : RowPolicy where
  name := "own"
  entity := "Document"
  filter := .and [.matching ⟨"region", "user-id", false⟩, .matching ⟨"ownerId", "user_id", false⟩]
  bypass := none

/-- A document, of which a caller asks for whom both attributes are known. -/
def ownDocument : CriterionContext where
  name := "d"
  entity := ⟨"Document", "id", [], ⟨none, none⟩⟩
  schema := .empty
  security := ((SecurityContext.ofPrincipal "ann").withAttribute "user-id" (.string "EU")).withAttribute
    "user_id" (.string "u-1")
  parameterPrefix := "criterion_"

/-- The owner of the document is compared with the region of the caller. -/
theorem contributed_meaning_shared : ∃ contribution,
    regionAndOwner.criterion.contribute ownDocument = .ok (some contribution) ∧
    contribution.parameters.lookup (regionAndOwner.marker ownDocument ⟨"ownerId", "user_id", false⟩) =
      some (.string "EU") ∧
    ¬ regionAndOwner.Unambiguous ownDocument := by
  have result : regionAndOwner.criterion.contribute ownDocument = .ok (some
      ⟨regionAndOwner.filter.compile (regionAndOwner.leafPredicate ownDocument),
        [("criterion_own_user_id", .string "EU")]⟩) := rfl
  obtain ⟨bound, own, _⟩ := contributed_meaning result
  have member : ⟨"ownerId", "user_id", false⟩ ∈ regionAndOwner.filter.leaves :=
    List.mem_cons_of_mem _ List.mem_cons_self
  have region := bound _ member
  refine ⟨_, result, region, fun unambiguous => ?_⟩
  have owner := (own.mpr unambiguous _ member).symm.trans region
  have same : "u-1" = "EU" := Value.string.inj (Option.some.inj owner)
  exact absurd same (by decide)

end RowPolicy

end QueryGuard
