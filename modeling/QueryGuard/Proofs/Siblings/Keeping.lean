import QueryGuard.Proofs.Rewriting.Relabeling
import QueryGuard.Proofs.Siblings.Separation
/-!
Telling queries side by side apart changes nothing if it changes no alias.
-/

set_option autoImplicit false

namespace QueryGuard

/-! ### Renaming nothing -/

theorem Expr.mapPaths_nil : Expr.mapPaths (Renaming.path []) = id :=
  funext fun _ => mapPaths_eq_self fun _ _ => rfl

/-- Renaming nothing at a level is renaming nothing in its conditions. -/
theorem Query.rename_nil_eq (query : Query) : query.rename [] = query.map (·.rename []) := by
  have items : (query.items.map fun item => { item with expr := item.expr }) = query.items :=
    List.map_id _
  have ordered : (query.orderBy.map fun item => { item with expr := item.expr }) = query.orderBy :=
    List.map_id _
  have target : ∀ target : JoinTarget, Renaming.target [] target = target := by
    intro target
    cases target <;> rfl
  rw [Query.rename, Renaming.walk.level]
  simp only [Select.map, items, ordered, Expr.mapPaths_nil, List.map_id_fun, id_eq, List.map_map,
    Option.map_map, Join.map, target, Function.comp_def]
  rfl

theorem Query.rename_nil_of {query : Query}
    (each : ∀ condition ∈ query.conditions, condition.rename [] = condition) :
    query.rename [] = query :=
  query.rename_nil_eq.trans (Select.map_eq_self each)

theorem Predicate.rename_nil (predicate : Predicate) : predicate.rename [] = predicate := by
  have all : ∀ operands : List Predicate,
      (∀ operand ∈ operands, operand.rename [] = operand) →
      operands.map (·.rename []) = operands := fun operands each =>
    (List.map_congr_left (g := id) each).trans (List.map_id _)
  induction predicate using Predicate.induction with
  | and operands ih => rw [rename_and, all operands ih]
  | or operands ih => rw [rename_or, all operands ih]
  | not operand ih => exact congrArg Predicate.not ih
  | group operand ih => exact congrArg Predicate.group ih
  | test test =>
    rw [rename_test, Expr.mapPaths_nil]
    exact congrArg Predicate.test (Test.mapExprs_eq_self fun _ _ => rfl)
  | inQuery tested query negated ih =>
    rw [rename_inQuery, Expr.mapPaths_nil]
    exact congrArg (Predicate.inQuery tested · negated) (Query.rename_nil_of ih)
  | existsIn query negated ih =>
    rw [rename_existsIn]
    exact congrArg (Predicate.existsIn · negated) (Query.rename_nil_of ih)

theorem Query.rename_nil (query : Query) : query.rename [] = query :=
  rename_nil_of fun condition _ => condition.rename_nil

/-! ### Trees that their aliases tell apart -/

/-- A change that keeps all aliases changes nothing. -/
structure Told {α : Type} (aliases : α → List String) (before after : α) : Prop where
  length : (aliases after).length = (aliases before).length
  same : aliases after = aliases before → after = before

namespace Told

variable {α β : Type} {f : α → List String} {g : β → List String}

theorem refl (before : α) : Told f before before := ⟨rfl, fun _ => rfl⟩

theorem list {items results : List α} (each : List.Forall₂ (Told f) items results) :
    Told (·.flatMap f) items results := by
  induction each with
  | nil => exact .refl []
  | @cons item result items results first _ ih =>
    refine ⟨?_, fun same => ?_⟩
    · simp only [List.flatMap_cons, List.length_append, first.length, ih.length]
    · rw [List.flatMap_cons, List.flatMap_cons] at same
      obtain ⟨here, others⟩ := List.append_inj same first.length
      rw [first.same here, ih.same others]

theorem optional {condition changed : Option α} (related : Option.Rel (Told f) condition changed) :
    Told (·.toList.flatMap f) condition changed := by
  cases related with
  | none => exact .refl none
  | @some item result told =>
    refine ⟨by simpa using told.length, fun same => congrArg some (told.same ?_)⟩
    simpa using same

/-- What one part tells and what another one tells, tells what both are. -/
theorem pair {before after : α} {before' after' : β} (first : Told f before after)
    (second : Told g before' after') :
    Told (fun both : α × β => f both.1 ++ g both.2) (before, before') (after, after') := by
  refine ⟨by simp only [List.length_append, first.length, second.length], fun same => ?_⟩
  obtain ⟨here, others⟩ := List.append_inj same first.length
  rw [first.same here, second.same others]

theorem node {before after : β} (told : Told g before after) (make : β → α)
    (aliases : ∀ x, f (make x) = g x) : Told f (make before) (make after) where
  length := by rw [aliases, aliases, told.length]
  same same := congrArg make (told.same (by rwa [aliases, aliases] at same))

end Told

namespace Predicate

/-- A condition is the same if the aliases of the queries inside it are. -/
theorem Replaced.told {predicate result : Predicate}
    (replaced : predicate.Replaced (Told Query.allAliases) result) :
    Told allAliases predicate result := by
  refine replaced.induction ?and ?or ?not ?group ?test ?inQuery ?existsIn
  case and => exact fun _ _ each => (Told.list each).node Predicate.and allAliases_and
  case or => exact fun _ _ each => (Told.list each).node Predicate.or allAliases_or
  case not => exact fun _ _ inner => inner.node Predicate.not fun _ => rfl
  case group => exact fun _ _ inner => inner.node Predicate.group fun _ => rfl
  case test => exact fun _ => .refl _
  case inQuery =>
    exact fun tested _ _ negated told => told.node (Predicate.inQuery tested · negated) fun _ => rfl
  case existsIn =>
    exact fun _ _ negated told => told.node (Predicate.existsIn · negated) fun _ => rfl

end Predicate

theorem Select.Related.mono {α β : Type} {first second : α → β → Prop} {query : Select α}
    {result : Select β} (same : query.Related first result)
    (weaker : ∀ x y, first x y → second x y) : query.Related second result := by
  have optional : ∀ {condition : Option α} {changed : Option β},
      Option.Rel first condition changed → Option.Rel second condition changed := by
    intro condition changed related
    cases related with
    | none => exact .none
    | some holds => exact .some (weaker _ _ holds)
  exact ⟨same.distinct, same.items, same.root, same.joins.imp fun _ _ join =>
      ⟨join.kind, join.target, join.name, join.span, optional join.condition⟩,
    optional same.filter, same.groupBy, optional same.having, same.orderBy, same.limit, same.offset,
    same.span⟩

theorem Join.Related.told {α : Type} {f : α → List String} {join result : Join α}
    (related : join.Related (Told f) result) :
    Told (fun join : Join α => join.condition.toList.flatMap f) join result := by
  have told := Told.optional related.condition
  refine ⟨told.length, fun same => ?_⟩
  calc result = ⟨result.kind, result.target, result.name, result.condition, result.span⟩ := rfl
    _ = join := by
      rw [related.kind, related.target, related.name, told.same same, related.span]

theorem Select.Related.told {α : Type} {f : α → List String} {query result : Select α}
    (related : query.Related (Told f) result) :
    Told (fun query : Select α => query.conditions.flatMap f) query result := by
  have joins := Told.list (related.joins.imp fun _ _ join => join.told)
  have told := (joins.pair (Told.optional related.filter)).pair (Told.optional related.having)
  have aliases := Select.flatMap_conditions f
  refine ⟨by rw [aliases, aliases]; exact told.length, fun same => ?_⟩
  rw [aliases, aliases] at same
  have clauses := told.same same
  simp only [Prod.mk.injEq] at clauses
  calc result = ⟨result.distinct, result.items, result.root, result.joins, result.filter,
        result.groupBy, result.having, result.orderBy, result.limit, result.offset,
        result.span⟩ := rfl
    _ = query := by
      rw [related.distinct, related.items, related.root, clauses.1.1, clauses.1.2, related.groupBy,
        clauses.2, related.orderBy, related.limit, related.offset, related.span]

/-- A query is the same if the aliases of the queries inside it are. -/
theorem Query.Replaced.told {query result : Query}
    (replaced : query.Replaced (Told Query.allAliases) result) :
    Told Query.allAliases query result := by
  have told := (Select.Related.mono replaced fun _ _ inner => inner.told).told
  have own := Select.Related.aliases replaced
  refine ⟨?_, fun same => told.same ?_⟩
  · rw [allAliases_eq, allAliases_eq, own, List.length_append, List.length_append, told.length]
  · rw [allAliases_eq, allAliases_eq, own] at same
    exact List.append_cancel_left same

/-! ### Levels -/

namespace Siblings

theorem written_chooseAll {names : List String} {visible chosen : List Chosen}
    {before after : State} (run : (chooseAll visible names).run before = (chosen, after)) :
    chosen.map (·.1) = names := by
  induction names generalizing visible chosen before with
  | nil =>
    obtain ⟨rfl, rfl⟩ := Prod.mk.inj run
    rfl
  | cons name rest ih =>
    cases first : (choose visible name).run before with
    | mk used between =>
      cases others : (chooseAll ((name, used) :: visible) rest).run between with
      | mk next reached =>
        rw [chooseAll, run_bind first, run_bind others] at run
        obtain ⟨rfl, rfl⟩ := Prod.mk.inj run
        exact congrArg (name :: ·) (ih others)

/-- Pairs that keep all aliases they are for change nothing. -/
theorem changes_eq_nil {chosen : List Chosen}
    (kept : ∀ name ∈ chosen.map (·.1), (changes chosen).apply name = name) :
    changes chosen = [] := by
  cases listed : changes chosen with
  | nil => rfl
  | cons pair rest =>
    have member : pair ∈ changes chosen := listed ▸ List.mem_cons_self
    obtain ⟨among, changed⟩ := List.mem_filter.mp member
    have same := kept pair.1 (List.mem_map_of_mem among)
    rw [listed, Renaming.apply_cons_self] at same
    simp [same] at changed

theorem level_told {nested : List Chosen → Query → StateM State Query} {visible : List Chosen}
    {query : Query}
    (inside : ∀ visible inner, (steady fun _ => True).of (nested visible inner)
      (Told Query.allAliases inner)) :
    (steady fun _ => True).of (level nested visible query) (Told Query.allAliases query) := by
  intro before result after run _
  obtain ⟨chosen, between, reached, choice, replaced, _⟩ := of_level_run run
  have ensures := (query.rename (changes chosen)).mapSubqueries_ensures (steady fun _ => True)
    fun inner _ => inside (chosen ++ visible) inner
  have told := (ensures between result reached replaced trivial).1.told
  have aliases := (mapSubqueries_run replaced).1
  have renamed : (query.rename (changes chosen)).allAliases =
      (query.aliases.map (·.value)).map (changes chosen).apply ++
        query.conditions.flatMap Predicate.allAliases := by
    rw [Query.allAliases_eq, Query.aliases_rename, Query.conditions_rename, List.map_map,
      List.map_map, List.flatMap_map]
    exact congrArg (_ ++ ·) (List.flatMap_congr fun condition _ => condition.allAliases_rename _)
  refine ⟨⟨?_, fun same => ?_⟩, trivial⟩
  · rw [told.length, renamed, Query.allAliases_eq]
    simp only [List.length_append, List.length_map]
  · have own : result.aliases.map (·.value) =
        (query.aliases.map (·.value)).map (changes chosen).apply := by
      rw [aliases, Query.aliases_rename, List.map_map, List.map_map]
      rfl
    have kept : changes chosen = [] := by
      apply changes_eq_nil
      rw [written_chooseAll choice]
      have split := same
      rw [result.allAliases_eq, query.allAliases_eq, own] at split
      have level := (List.append_inj split (List.length_map _)).1
      exact List.map_inj_left.mp (level.trans (List.map_id _).symm)
    rw [kept, Query.rename_nil] at told
    exact told.same same

theorem levels_told (depth : Nat) (visible : List Chosen) (query : Query) :
    (steady fun _ => True).of (levels depth visible query) (Told Query.allAliases query) := by
  induction depth generalizing visible query with
  | zero => exact level_told fun _ inner => (steady _).pure (.refl inner)
  | succ depth ih => exact level_told ih

end Siblings

theorem Query.separateSiblings_told (query : Query) :
    Told Query.allAliases query query.separateSiblings :=
  (Siblings.levels_told query.nesting [] query ⟨query.allAliases, []⟩ _ _ rfl trivial).1

end QueryGuard
