import QueryGuard.Proofs.Reading.Reread
import QueryGuard.Proofs.Rewriting.Coverage
import QueryGuard.Proofs.Rewriting.Renaming
/-!
Trees that can be written down stay so while they are renamed, replaced and constrained.
-/

set_option autoImplicit false

namespace QueryGuard

/-! ### Renaming -/

theorem Expr.Printable.mapPaths {expr : Expr} (printable : expr.Printable) (f : Path → Path) :
    (expr.mapPaths f).Printable := by
  induction printable with
  | path path => exact .path (f path)
  | literal good => exact .literal good
  | parameter marker => exact .parameter marker
  | aggregate _ ih => exact .aggregate ih
  | call callee _ ih =>
    rw [Expr.mapPaths, fold_call]
    refine .call callee fun argument member => ?_
    obtain ⟨written, among, rfl⟩ := List.mem_map.mp member
    exact ih written among

theorem Test.Printable.mapExprs {test : Test} (printable : test.Printable) {f : Expr → Expr}
    (keeps : ∀ expr : Expr, expr.Printable → (f expr).Printable) :
    (test.mapExprs f).Printable where
  exprs := by
    intro expr member
    rw [exprs_mapExprs] at member
    obtain ⟨written, among, rfl⟩ := List.mem_map.mp member
    exact keeps written (printable.exprs written among)
  shape := by
    have shape := printable.shape
    cases test with
    | inList tested items negated =>
      have nonempty : items ≠ [] := shape
      exact List.map_eq_nil_iff.not.mpr nonempty
    | inParameter tested parameter negated => exact shape
    | _ => trivial

/-- Only the target and whether there is a condition matter. -/
theorem Join.Printable.mono {α β : Type} {join : Join α} {result : Join β}
    (printable : join.Printable) (target : result.target = join.target)
    (condition : join.condition.isSome → result.condition.isSome) : result.Printable := by
  unfold Join.Printable at printable ⊢
  rw [target]
  split at printable
  · exact printable
  · exact condition printable

theorem Select.LevelPrintable.map {α β : Type} {query : Select α}
    (level : query.LevelPrintable) (f : α → β) : (query.map f).LevelPrintable where
  nonempty := level.nonempty
  items := level.items
  joins := by
    intro join member
    obtain ⟨written, among, rfl⟩ := List.mem_map.mp member
    exact (level.joins written among).mono rfl Option.isSome_map.trans
  groupBy := level.groupBy
  orderBy := level.orderBy
  limit := level.limit
  offset := level.offset

theorem Renaming.level_printable {query : Select (Renaming → Predicate)}
    (level : query.LevelPrintable) (names : Renaming) :
    (walk.level query names).LevelPrintable where
  nonempty := List.map_eq_nil_iff.not.mpr level.nonempty
  items := by
    intro item member
    obtain ⟨written, among, rfl⟩ := List.mem_map.mp member
    exact (level.items written among).mapPaths names.path
  joins := by
    intro join member
    obtain ⟨written, among, rfl⟩ := List.mem_map.mp member
    have printable := level.joins written among
    unfold Join.Printable at printable ⊢
    cases target : written.target with
    | path path =>
      rw [target] at printable
      exact printable
    | entity entity =>
      rw [target] at printable
      exact Option.isSome_map.trans printable
  groupBy := by
    intro expr member
    obtain ⟨written, among, rfl⟩ := List.mem_map.mp member
    exact (level.groupBy written among).mapPaths names.path
  orderBy := by
    intro item member
    obtain ⟨written, among, rfl⟩ := List.mem_map.mp member
    exact (level.orderBy written among).mapPaths names.path
  limit := level.limit
  offset := level.offset

theorem Select.LevelPrintable.rename {query : Query} (level : query.LevelPrintable)
    (names : Renaming) : (query.rename names).LevelPrintable :=
  Renaming.level_printable (level.map _) names

/-- The conditions of a renamed query can be written down if they can be with all names. -/
theorem Query.each_rename {query : Query} (each : ∀ condition ∈ query.conditions,
    ∀ names, (condition.rename names).Printable) (names : Renaming) :
    ∀ condition ∈ (query.rename names).conditions, condition.Printable := by
  intro condition member
  rw [conditions_rename] at member
  obtain ⟨written, among, rfl⟩ := List.mem_map.mp member
  exact each written among names

theorem Predicate.Printable.rename {predicate : Predicate} (printable : predicate.Printable)
    (names : Renaming) : (predicate.rename names).Printable := by
  induction printable generalizing names with
  | and several _ ih =>
    rw [rename_and]
    refine .and (by rwa [List.length_map]) fun operand member => ?_
    obtain ⟨written, among, rfl⟩ := List.mem_map.mp member
    exact ih written among names
  | or several _ ih =>
    rw [rename_or]
    refine .or (by rwa [List.length_map]) fun operand member => ?_
    obtain ⟨written, among, rfl⟩ := List.mem_map.mp member
    exact ih written among names
  | not other _ ih =>
    refine .not (fun query same => ?_) (ih names)
    obtain ⟨inner, rfl⟩ := eq_existsIn_of_rename same
    exact other inner rfl
  | group _ ih => exact .group (ih names)
  | test leaf => exact .test (leaf.mapExprs fun _ expr => expr.mapPaths names.path)
  | inQuery expr level _ ih =>
    rw [rename_inQuery]
    exact .inQuery (expr.mapPaths _) (level.rename _) (Query.each_rename ih _)
  | existsIn level _ ih =>
    rw [rename_existsIn]
    exact .existsIn (level.rename _) (Query.each_rename ih _)

theorem Query.Printable.rename {query : Query} (printable : query.Printable) (names : Renaming) :
    (query.rename names).Printable :=
  ⟨printable.level.rename names,
    Query.each_rename (fun condition member => (printable.each condition member).rename) names⟩

/-! ### Replacing -/

theorem Join.Related.printable {α β : Type} {related : α → β → Prop} {join : Join α}
    {result : Join β} (same : join.Related related result) (printable : join.Printable) :
    result.Printable := by
  apply printable.mono same.target
  have condition := same.condition
  generalize join.condition = written at condition
  generalize result.condition = changed at condition
  cases condition with
  | some => exact id
  | none => exact id

theorem Select.Related.levelPrintable {α β : Type} {related : α → β → Prop} {query : Select α}
    {result : Select β} (same : query.Related related result) (level : query.LevelPrintable) :
    result.LevelPrintable where
  nonempty := same.items ▸ level.nonempty
  items := same.items ▸ level.items
  joins := forall_mem_of_forall₂ same.joins fun join member _ holds =>
    holds.printable (level.joins join member)
  groupBy := same.groupBy ▸ level.groupBy
  orderBy := same.orderBy ▸ level.orderBy
  limit := same.limit ▸ level.limit
  offset := same.offset ▸ level.offset

/-- The second query can be written down if the first one can. -/
def KeepsPrintable (query result : Query) : Prop := query.Printable → result.Printable

section

variable {related : Query → Query → Prop}
  (keeps : ∀ inner added, related inner added → KeepsPrintable inner added)

include keeps

theorem Predicate.Replaced.printable {predicate result : Predicate}
    (replaced : predicate.Replaced related result) (printable : predicate.Printable) :
    result.Printable := by
  induction printable generalizing result with
  | and several _ ih =>
    cases replaced with
    | and each =>
      refine .and (each.length_eq ▸ several) ?_
      exact forall_mem_of_forall₂ each fun operand member _ => ih operand member
  | or several _ ih =>
    cases replaced with
    | or each =>
      refine .or (each.length_eq ▸ several) ?_
      exact forall_mem_of_forall₂ each fun operand member _ => ih operand member
  | not other _ ih =>
    cases replaced with
    | not inner =>
      refine .not (fun query same => ?_) (ih inner)
      subst same
      cases inner
      exact other _ rfl
  | group _ ih =>
    cases replaced with
    | group inner => exact .group (ih inner)
  | test leaf =>
    cases replaced with
    | test => exact .test leaf
  | inQuery expr level each =>
    cases replaced with
    | inQuery _ _ inside =>
      have changed := keeps _ _ inside ⟨level, each⟩
      exact .inQuery expr changed.level changed.each
  | existsIn level each =>
    cases replaced with
    | existsIn _ inside =>
      have changed := keeps _ _ inside ⟨level, each⟩
      exact .existsIn changed.level changed.each

theorem Query.Replaced.printable {query result : Query}
    (replaced : query.Replaced related result) (printable : query.Printable) :
    result.Printable :=
  ⟨replaced.levelPrintable printable.level,
    forall_mem_of_forall₂ (Select.Related.conditions replaced) fun condition member _ holds =>
      holds.printable keeps (printable.each condition member)⟩

end

/-- Renaming a query and replacing the ones inside it keeps that it can be written down. -/
theorem Query.keepsPrintable_rename {query result : Query} {names : Renaming}
    (replaced : (query.rename names).Replaced KeepsPrintable result) :
    KeepsPrintable query result :=
  fun printable => replaced.printable (fun _ _ => id) (printable.rename names)

namespace Siblings

/-- What steps that cannot fail ensure from all states. -/
def always : Ensuring (StateM State) where
  of step good := ∀ before, good (step.run before).1
  pure := fun holds _ => holds
  bind := fun first rest before => rest _ (first before) _

theorem level_keepsPrintable {nested : List Chosen → Query → StateM State Query}
    (inside : ∀ visible inner, always.of (nested visible inner) (KeepsPrintable inner))
    (visible : List Chosen) (query : Query) :
    always.of (level nested visible query) (KeepsPrintable query) := by
  refine always.bind (P := fun _ => True) (fun _ => trivial) fun chosen _ => ?_
  refine always.bind (Query.mapSubqueries_ensures always _ fun inner _ => inside _ inner) ?_
  intro result replaced
  refine always.bind (P := fun _ => True) (fun _ => trivial) fun _ _ => ?_
  exact always.pure (Query.keepsPrintable_rename replaced)

theorem levels_keepsPrintable (depth : Nat) (visible : List Chosen) (query : Query) :
    always.of (levels depth visible query) (KeepsPrintable query) := by
  induction depth generalizing visible query with
  | zero => exact level_keepsPrintable (fun _ _ => always.pure id) visible query
  | succ depth ih => exact level_keepsPrintable ih visible query

end Siblings

theorem Query.Printable.separateSiblings {query : Query} (printable : query.Printable) :
    query.separateSiblings.Printable :=
  Siblings.levels_keepsPrintable query.nesting [] query _ printable

/-! ### Constraining -/

namespace Constraint

theorem freshen_keepsPrintable {names : List String} (criterion : String) (depth : Nat)
    (query : Query) :
    (keeping (Progress.Spares names)).of (freshen criterion depth query) (KeepsPrintable query) := by
  induction depth generalizing query with
  | zero =>
    refine (keeping _).mono (freshenLevel_ensures (R := KeepsPrintable) fun inner => ?_) ?_
    · exact (keeping _).pure id
    · exact fun result ⟨_, replaced⟩ => Query.keepsPrintable_rename replaced
  | succ depth ih =>
    apply (keeping _).mono (freshenLevel_ensures (R := KeepsPrintable) ih)
    exact fun result ⟨_, replaced⟩ => Query.keepsPrintable_rename replaced

/-- A copy can be written down if the condition can. -/
def CopiesPrintable (_criterion : String) (predicate copy : Predicate) : Prop :=
  predicate.Printable → copy.Printable

theorem copies_printable (names : List String) (criterion : String) (predicate : Predicate) :
    (keeping (Progress.Spares names)).of
      (predicate.mapSubqueries fun query => freshen criterion query.nesting query)
      (CopiesPrintable criterion predicate) := by
  refine (keeping _).mono (predicate.mapSubqueries_ensures (keeping _) fun query _ =>
    freshen_keepsPrintable criterion query.nesting query) ?_
  exact fun copy replaced printable => replaced.printable (fun _ _ => id) printable

theorem Grouped.printable {predicate result : Predicate} (grouped : Grouped predicate result)
    (printable : predicate.Printable) : result.Printable := by
  cases grouped with
  | already inner => exact printable
  | now bare => exact .group printable

/-- The conjunction has two operands at least, or there is none. -/
theorem Conjoined.printable {condition result : Option Predicate} {parts : List Predicate}
    (conjoined : Conjoined condition parts result)
    (written : ∀ predicate ∈ condition, predicate.Printable)
    (added : ∀ part ∈ parts, part.Printable) : ∀ predicate ∈ result, predicate.Printable := by
  cases conjoined with
  | unchanged => exact written
  | only part =>
    intro predicate same
    rw [← Option.some.inj same]
    exact added part List.mem_cons_self
  | several nonempty several grouped =>
    intro predicate same
    rw [← Option.some.inj same]
    have length := grouped.length_eq
    refine .and (by omega) (forall_mem_of_forall₂ grouped fun part member _ holds =>
      holds.printable ?_)
    rcases List.mem_append.mp member with old | new
    · exact written part (Option.mem_toList.mp old)
    · exact added part new

theorem Conjoined.isSome {condition result : Option Predicate} {parts : List Predicate}
    (conjoined : Conjoined condition parts result) (written : condition.isSome) :
    result.isSome := by
  cases conjoined with
  | unchanged => exact written
  | only => rfl
  | several => rfl

/-- What the criteria contribute can be written down. -/
def ContributesPrintable (setting : Setting) : Prop :=
  ∀ criterion ∈ setting.criteria, ∀ entity name contribution,
    criterion.contribute (contextOf setting entity name) = .ok (some contribution) →
    contribution.predicate.Printable

variable {setting : Setting} (contributes : ContributesPrintable setting)

include contributes

theorem Contributed.printable {name : String} {parts : List Predicate}
    (contributed : Contributed setting CopiesPrintable name parts) :
    ∀ part ∈ parts, part.Printable := by
  obtain ⟨found, each⟩ := contributed
  have added := forall_mem_of_forall₂ (P := fun added => ∀ part ∈ added, part.Printable) each ?_
  · intro part member
    obtain ⟨_, among, rfl⟩ := List.mem_filterMap.mp member
    exact added _ among part rfl
  · intro criterion member added adds part same
    cases adds with
    | exempt => cases same
    | silent => cases same
    | @condition _ contribution copy _ _ result copied =>
      rw [← Option.some.inj same]
      exact copied (contributes criterion member _ _ contribution result)

theorem JoinContributed.printable {name : String} {parts : List Predicate}
    (contributed : JoinContributed setting CopiesPrintable name parts) :
    ∀ part ∈ parts, part.Printable := by
  unfold JoinContributed at contributed
  split at contributed
  · exact contributed.printable contributes
  · rw [contributed]
    simp

/-- The joins and their conditions can be written down, and so can the parts for inner joins. -/
theorem JoinsConstrained.printable {joins results : List (Join Predicate)}
    {parts : List Predicate} (joined : JoinsConstrained setting CopiesPrintable joins results parts)
    (level : ∀ join ∈ joins, join.Printable)
    (each : ∀ join ∈ joins, ∀ condition ∈ join.condition, condition.Printable) :
    (∀ join ∈ results, join.Printable) ∧
      (∀ join ∈ results, ∀ condition ∈ join.condition, condition.Printable) ∧
      ∀ part ∈ parts, part.Printable := by
  induction joined with
  | nil => simp
  | @inner join _ _ _ _ kind contributed _ ih =>
    rw [List.forall_mem_cons] at level each
    obtain ⟨ofLevel, ofEach, ofParts⟩ := ih level.2 each.2
    simp only [List.forall_mem_cons, List.forall_mem_append]
    exact ⟨⟨level.1, ofLevel⟩, ⟨each.1, ofEach⟩, contributed.printable contributes, ofParts⟩
  | @left join _ _ _ _ condition kind contributed conjoined _ ih =>
    rw [List.forall_mem_cons] at level each
    obtain ⟨ofLevel, ofEach, ofParts⟩ := ih level.2 each.2
    simp only [List.forall_mem_cons]
    have constrained := conjoined.printable each.1 (contributed.printable contributes)
    exact ⟨⟨level.1.mono rfl conjoined.isSome, ofLevel⟩, ⟨constrained, ofEach⟩, ofParts⟩

theorem LevelConstrained.printable {related : Query → Query → Prop} {query result : Query}
    (level : LevelConstrained setting CopiesPrintable related query result)
    (keeps : ∀ inner added, related inner added → KeepsPrintable inner added)
    (printable : query.Printable) : result.Printable := by
  obtain ⟨nested, kept, root, joined, conjoined⟩ := level
  rename_i inside joins rootParts innerParts filter
  have inside : inside.Printable := by
    cases subqueries : setting.scope.subqueries with
    | true => exact (nested subqueries).printable keeps printable
    | false => rwa [kept subqueries]
  obtain ⟨ofJoins, ofConditions, ofParts⟩ := joined.printable contributes inside.level.joins
    fun join member condition found => inside.each condition (Select.mem_of_join member found)
  have ofFilter := conjoined.printable
    (fun condition found => inside.each condition (Select.mem_of_filter found))
    (List.forall_mem_append.mpr ⟨root.printable contributes, ofParts⟩)
  refine ⟨{ inside.level with joins := ofJoins }, fun condition member => ?_⟩
  rcases List.mem_append.mp member with member | having
  · rcases List.mem_append.mp member with joined | filtered
    · obtain ⟨join, among, found⟩ := List.mem_filterMap.mp joined
      exact ofConditions join among condition found
    · exact ofFilter condition (Option.mem_toList.mp filtered)
  · exact inside.each condition (Select.mem_of_having (Option.mem_toList.mp having))

/-- A query can be written down with all conditions added, if it can be without them. -/
theorem Constrained.printable {query result : Query}
    (constrained : Constrained setting CopiesPrintable query result) :
    KeepsPrintable query result := by
  induction constrained with
  | intro level _ ih => exact level.printable contributes ih

end Constraint

end QueryGuard
