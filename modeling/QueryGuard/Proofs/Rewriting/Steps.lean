import QueryGuard.Proofs.Rewriting.Levels
/-!
The steps that apply criteria do what is said of a level, whatever is known of the copies of the
conditions that they add.
-/

set_option autoImplicit false

namespace QueryGuard

namespace Constraint

/-- The names are in use, and no criterion added one of them. -/
structure Progress.Spares (names : List String) (progress : Progress) : Prop where
  taken : names ⊆ progress.taken
  apart : ∀ entry ∈ progress.injected, entry.1 ∉ names

/-- What the steps ensure if they start where the invariant holds; they keep it. -/
def keeping (invariant : Progress → Prop) : Ensuring Constrain where
  of step good := ∀ before value after, step.run before = .ok (value, after) → invariant before →
    good value ∧ invariant after
  pure := by
    intro α value good holds before result after same kept
    obtain ⟨rfl, rfl⟩ := Prod.mk.inj (Except.ok.inj same)
    exact ⟨holds, kept⟩
  bind := by
    intro α β step next good good' first rest before result after same kept
    rw [StateT.run_bind] at same
    cases run : step.run before with
    | error error =>
      rw [run] at same
      cases same
    | ok reached =>
      rw [run] at same
      obtain ⟨holds, kept⟩ := first before reached.1 reached.2 run kept
      exact rest reached.1 holds reached.2 result after same kept

section

variable {invariant : Progress → Prop} {α : Type} {good : α → Prop}

theorem keeping_throw (error : QueryError) :
    (keeping invariant).of (throw error : Constrain α) good := by
  intro before value after same
  cases same

theorem keeping_get : (keeping invariant).of (get : Constrain Progress) invariant := by
  intro before value after same kept
  obtain ⟨rfl, rfl⟩ := Prod.mk.inj (Except.ok.inj same)
  exact ⟨kept, kept⟩

theorem keeping_set {progress : Progress} (kept : invariant progress) :
    (keeping invariant).of (set progress : Constrain Unit) fun _ => True := by
  intro before value after same _
  obtain ⟨rfl, rfl⟩ := Prod.mk.inj (Except.ok.inj same)
  exact ⟨trivial, kept⟩

theorem keeping_lift (result : Except QueryError α) :
    (keeping invariant).of (liftM result : Constrain α) fun value => result = .ok value := by
  intro before value after same kept
  cases result with
  | error error => cases same
  | ok found =>
    obtain ⟨rfl, rfl⟩ := Prod.mk.inj (Except.ok.inj same)
    exact ⟨rfl, kept⟩

end

/-! ### Aliases of added queries -/

/-- The aliases of a level with the ones to be used. -/
def chosenFor (progress : Progress) (query : Query) : List (String × String) :=
  let names := query.aliases.map (·.value)
  chooseAliases progress.taken names names

/-- What is known when the aliases of a level have been chosen. -/
def Progress.declare (progress : Progress) (criterion : String) (chosen : List (String × String)) :
    Progress :=
  { progress with
    taken := chosen.map (·.2) ++ progress.taken
    injected := chosen.map (fun (_, used) => (used, criterion)) ++ progress.injected }

/-- A level is renamed, and the queries inside it are left to the given step. -/
theorem freshenLevel_run (nested : Query → Constrain Query) (criterion : String) (query : Query)
    (before : Progress) :
    (freshenLevel nested criterion query).run before =
      ((query.rename (Siblings.changes (chosenFor before query))).mapSubqueries nested).run
        (before.declare criterion (chosenFor before query)) := rfl

variable {names : List String}

theorem Progress.Spares.declare {before : Progress} (spares : before.Spares names)
    (criterion : String) (query : Query) :
    (before.declare criterion (chosenFor before query)).Spares names := by
  refine ⟨fun name member => List.mem_append_right _ (spares.taken member), ?_⟩
  intro entry found member
  rcases List.mem_append.mp found with chosen | old
  · obtain ⟨⟨written, used⟩, among, rfl⟩ := List.mem_map.mp chosen
    exact (of_mem_chooseAliases among).1 (spares.taken member)
  · exact spares.apart entry old member

theorem Progress.Spares.lookup_eq_none {progress : Progress} (spares : progress.Spares names)
    {name : String} (member : name ∈ names) : progress.injected.lookup name = none := by
  rw [List.lookup_eq_none_iff]
  intro entry among
  have differs : name ≠ entry.1 := by
    rintro rfl
    exact spares.apart entry among member
  exact bne_iff_ne.mpr differs

/-- No criterion added a query whose aliases are spared. -/
theorem Progress.Spares.not_injected {progress : Progress} (spares : progress.Spares names)
    {query : Query} (caller : query.allAliases ⊆ names) :
    progress.injected.any (·.1 == query.root.name.value) = false := by
  rw [List.any_eq_false]
  intro entry found same
  have root := caller query.root_mem_allAliases
  exact spares.apart entry found (by simpa using (beq_iff_eq.mp same) ▸ root)

/-- One level gets other aliases, and the queries inside it are as the given step leaves them. -/
theorem freshenLevel_ensures {nested : Query → Constrain Query} {R : Query → Query → Prop}
    {criterion : String} {query : Query}
    (inside : ∀ inner, (keeping (Progress.Spares names)).of (nested inner) (R inner)) :
    (keeping (Progress.Spares names)).of (freshenLevel nested criterion query) fun result =>
      ∃ changes : Renaming, (query.rename changes).Replaced R result := by
  intro before result after run spares
  rw [freshenLevel_run] at run
  have ensures := Query.mapSubqueries_ensures (keeping (Progress.Spares names))
    (query.rename (Siblings.changes (chosenFor before query))) fun inner _ => inside inner
  obtain ⟨replaced, kept⟩ := ensures _ result after run (spares.declare criterion query)
  exact ⟨⟨_, replaced⟩, kept⟩

/-- The aliases of an added query do not touch those that the caller uses. -/
theorem freshen_keeps (criterion : String) (depth : Nat) (query : Query) :
    (keeping (Progress.Spares names)).of (freshen criterion depth query) fun _ => True := by
  induction depth generalizing query with
  | zero =>
    exact (keeping _).mono (freshenLevel_ensures (R := fun _ _ => True)
      fun _ => (keeping _).pure trivial) fun _ _ => trivial
  | succ depth ih =>
    exact (keeping _).mono (freshenLevel_ensures (R := fun _ _ => True) ih)
      fun _ _ => trivial

/-! ### What criteria add -/

theorem supply_keeps (setting : Setting) (criterion name : String) (value : Value) :
    (keeping (Progress.Spares names)).of (supply setting criterion name value) fun _ => True := by
  apply (keeping _).bind keeping_get
  intro progress spares
  split
  · split
    · exact keeping_throw _
    · exact (keeping _).pure trivial
  · split
    · exact keeping_throw _
    · exact keeping_set ⟨spares.taken, spares.apart⟩

variable {setting : Setting} {copied : String → Predicate → Predicate → Prop}

/-- The names are those of ranges that the caller wrote, and the steps that copy the conditions of
the criteria ensure what is known of the copies. -/
structure Prepared (setting : Setting) (names : List String)
    (copied : String → Predicate → Predicate → Prop) : Prop where
  written : ∀ name ∈ names, ∃ range, setting.model.range? name = some range ∧
    range.injectedBy = none
  copies : ∀ criterion ∈ setting.criteria, ∀ predicate : Predicate,
    (keeping (Progress.Spares names)).of
      (predicate.mapSubqueries fun query => freshen criterion.name query.nesting query)
      (copied criterion.name predicate)

theorem part_ensures (prepared : Prepared setting names copied) {range : BoundRange} {entity : Entity}
    (found : setting.schema.entity? range.entity = some entity) {criterion : Criterion}
    (member : criterion ∈ setting.criteria) :
    (keeping (Progress.Spares names)).of (part setting entity range.name criterion)
      (Adds setting copied range criterion) := by
  unfold part
  split
  · rename_i other
    exact (keeping _).pure (.exempt found (by simpa using other))
  · rename_i applies
    have applies : criterion.appliesTo entity = true := by simpa using applies
    apply (keeping _).bind (keeping_lift _)
    intro contributed result
    split
    · exact (keeping _).pure (.silent found applies result)
    · rename_i contribution
      refine (keeping _).bind ((keeping _).forM fun entry _ => supply_keeps _ _ _ _) fun _ _ => ?_
      apply (keeping _).bind (prepared.copies criterion member contribution.predicate)
      intro copy holds
      exact (keeping _).pure (.condition found applies result holds)

theorem parts_ensures (prepared : Prepared setting names copied) {name : String}
    (caller : name ∈ names) :
    (keeping (Progress.Spares names)).of (parts setting name)
      (Contributed setting copied name) := by
  obtain ⟨range, found, written⟩ := prepared.written name caller
  obtain rfl : range.name = name := by simpa using List.find?_some found
  unfold parts
  simp only [found, written, Option.isSome_none, Bool.false_eq_true, ↓reduceIte]
  split
  · exact keeping_throw _
  · rename_i entity known
    refine (keeping _).bind ((keeping _).mapM fun criterion member =>
      part_ensures prepared known member) fun added each => ?_
    exact (keeping _).pure (.intro found each)

theorem joinParts_ensures (prepared : Prepared setting names copied) {join : Join Predicate}
    (caller : join.name.value ∈ names) :
    (keeping (Progress.Spares names)).of
      (if setting.scope.joins then parts setting join.name.value else return [])
      (JoinContributed setting copied join.name.value) := by
  by_cases joins : setting.scope.joins
  · rw [if_pos joins]
    apply (keeping _).mono (parts_ensures prepared caller)
    intro parts contributed
    rwa [JoinContributed, if_pos joins]
  · rw [if_neg joins]
    apply (keeping _).pure
    rw [JoinContributed, if_neg joins]

/-! ### Levels -/

theorem joinsConstrained {joins : List (Join Predicate)} {joinParts : List (List Predicate)}
    (each : List.Forall₂ (fun join => JoinContributed setting copied join.name.value)
      joins joinParts) :
    JoinsConstrained setting copied joins
      ((joins.zip joinParts).map fun (join, parts) =>
        if join.kind = .left then { join with condition := conjoin join.condition parts } else join)
      ((joins.zip joinParts).flatMap fun (join, parts) =>
        if join.kind = .inner then parts else []) := by
  induction each with
  | nil => exact .nil
  | @cons join parts joins joinParts contributed _ ih =>
    rw [List.zip_cons_cons, List.map_cons, List.flatMap_cons]
    cases kind : join.kind with
    | inner => simpa [kind] using JoinsConstrained.inner kind contributed ih
    | left =>
      simpa [kind] using
        JoinsConstrained.left kind contributed (conjoined_conjoin join.condition parts) ih

/-- A level is put together from what is added for its root and for its joins, and from the queries
inside it as the given step leaves them. -/
theorem constrainLevel_of (ensuring : Ensuring Constrain) {nested : Query → Constrain Query}
    {query : Query} {P : List Predicate → Prop} {J : Join Predicate → List Predicate → Prop}
    {R : Query → Query → Prop} (root : ensuring.of (parts setting query.root.name.value) P)
    (joined : ∀ join ∈ query.joins, ensuring.of
      (if setting.scope.joins then parts setting join.name.value else return []) (J join))
    (inside : ∀ inner ∈ query.subqueries, ensuring.of (nested inner) (R inner)) :
    ensuring.of (constrainLevel setting nested query) fun result =>
      ∃ rootParts joinParts replaced, P rootParts ∧ List.Forall₂ J query.joins joinParts ∧
        (setting.scope.subqueries = true → query.Replaced R replaced) ∧
        (setting.scope.subqueries = false → replaced = query) ∧
        result = conjoinLevel replaced rootParts joinParts := by
  apply ensuring.bind root
  intro rootParts ofRoot
  apply ensuring.bind (ensuring.mapM joined)
  intro joinParts ofJoins
  by_cases subqueries : setting.scope.subqueries
  · simp only [subqueries, ↓reduceIte]
    apply ensuring.bind (query.mapSubqueries_ensures ensuring inside)
    intro replaced related
    exact ensuring.pure
      ⟨rootParts, joinParts, replaced, ofRoot, ofJoins, fun _ => related, nofun, rfl⟩
  · simp only [subqueries, Bool.false_eq_true, ↓reduceIte]
    apply ensuring.bind (P := (· = query)) (ensuring.pure rfl)
    rintro replaced rfl
    exact ensuring.pure
      ⟨rootParts, joinParts, replaced, ofRoot, ofJoins, nofun, fun _ => rfl, rfl⟩

/-- A level gets its conditions, and the queries inside it are as the given step leaves them. -/
theorem constrainLevel_ensures (prepared : Prepared setting names copied)
    {nested : Query → Constrain Query} {R : Query → Query → Prop} {query : Query}
    (caller : query.allAliases ⊆ names) (inside : ∀ inner ∈ query.subqueries,
      (keeping (Progress.Spares names)).of (nested inner) (R inner)) :
    (keeping (Progress.Spares names)).of (constrainLevel setting nested query)
      (LevelConstrained setting copied R query) := by
  have root := parts_ensures prepared (caller query.root_mem_allAliases)
  have joined : ∀ join ∈ query.joins, (keeping (Progress.Spares names)).of _ _ :=
    fun join member => joinParts_ensures prepared (caller (query.join_mem_allAliases member))
  refine (keeping _).mono (constrainLevel_of (keeping _) root joined inside) ?_
  rintro _ ⟨rootParts, joinParts, replaced, ofRoot, ofJoins, nested, kept, rfl⟩
  have each : List.Forall₂ (fun join => JoinContributed setting copied join.name.value)
      replaced.joins joinParts := by
    by_cases subqueries : setting.scope.subqueries
    · exact (nested subqueries).joinsNamed
        (P := fun name => JoinContributed setting copied name.value) ofJoins
    · rw [kept (by simpa using subqueries)]
      exact ofJoins
  exact .intro nested kept ofRoot (joinsConstrained each) (conjoined_conjoin _ _)

/-- A query that the caller wrote gets its conditions, and so do the queries inside it. -/
theorem constrainLevels_ensures (prepared : Prepared setting names copied) (depth : Nat)
    (query : Query) (within : query.nesting ≤ depth) (caller : query.allAliases ⊆ names) :
    (keeping (Progress.Spares names)).of (constrainLevels setting depth query)
      (Constrained setting copied query) := by
  induction depth generalizing query with
  | zero =>
    refine (keeping _).mono (constrainLevel_ensures prepared (R := fun _ _ => False) caller ?_) ?_
    · intro inner member
      exact absurd (Query.nesting_lt member) (by omega)
    · exact fun result level => .intro level fun _ _ none => none.elim
  | succ depth ih =>
    refine (keeping _).mono (constrainLevel_ensures prepared
      (R := Constrained setting copied) caller ?_) fun result level => .intro level fun _ _ => id
    intro inner member
    have within : inner.nesting ≤ depth := by
      have := Query.nesting_lt member
      omega
    have caller : inner.allAliases ⊆ names := fun name found =>
      caller (Query.allAliases_subset member found)
    apply (keeping _).bind keeping_get
    intro progress spares
    rw [if_neg (by simp [spares.not_injected caller])]
    exact ih inner within caller

end Constraint

end QueryGuard
