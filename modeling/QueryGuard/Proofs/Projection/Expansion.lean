import QueryGuard.Model.Projection
import QueryGuard.Proofs.Rewriting.Reachable
/-!
Paths with their joins followed. The alias of a join along a path stands for that path, whose alias
may be that of a join again. In a query that was looked up each join starts at a range before it, so
this comes to an end.
-/

set_option autoImplicit false

namespace QueryGuard

/-! ### The recursion -/

namespace Select

variable {α : Type}

/-- The joins along paths, by their aliases. -/
def pathJoins (query : Select α) : List (String × Path) :=
  query.joins.filterMap fun join =>
    match join.target with
    | .path path => some (join.name.value, path)
    | .entity _ => none

/-- The path that an alias is joined along, by the last join of that alias. -/
def joined? (query : Select α) (name : String) : Option Path := query.pathJoins.reverse.lookup name

end Select

namespace PathKey

/-- The path, followed further along attributes. -/
def further (key : PathKey) (attributes : List String) : PathKey :=
  ⟨key.root, key.attributes ++ attributes⟩

theorem further_nil (key : PathKey) : key.further [] = key :=
  congrArg (mk key.root) (List.append_nil _)

theorem further_further (key : PathKey) (first rest : List String) :
    (key.further first).further rest = key.further (first ++ rest) :=
  congrArg (mk key.root) (List.append_assoc _ _ _)

theorem further_ne (key : PathKey) {attributes : List String} (some : attributes ≠ []) :
    key.further attributes ≠ key :=
  fun same => some (List.append_right_eq_self.mp (congrArg PathKey.attributes same))

/-- Following the joins of a path to the end gives a result: nothing is left to follow, or the path
that the alias is joined along is followed to the end, and then the rest of the path. -/
inductive Expands {α : Type} (query : Select α) : PathKey → PathKey → Prop where
  | done {key : PathKey}
      (last : ∀ path, query.joined? key.root = some path → path.root.value = key.root) :
      Expands query key key
  | follow {key result : PathKey} {path : Path} (joined : query.joined? key.root = some path)
      (other : path.root.value ≠ key.root) (expands : Expands query path.key result) :
      Expands query key (result.further key.attributes)

theorem Expands.unique {α : Type} {query : Select α} {key first second : PathKey}
    (here : Expands query key first) (there : Expands query key second) : first = second := by
  induction here generalizing second with
  | done last =>
    cases there with
    | done => rfl
    | follow joined other _ => exact absurd (last _ joined) other
  | follow joined other _ ih =>
    cases there with
    | done last => exact absurd (last _ joined) other
    | follow joined' _ expands =>
      obtain rfl := Option.some.inj (joined.symm.trans joined')
      rw [ih expands]

end PathKey

/-! ### Joins in order -/

namespace Select

variable {α : Type} {query : Select α} {name : String} {path : Path}

theorem exists_join (joined : query.joined? name = some path) :
    ∃ before join after, query.joins = before ++ join :: after ∧
      join.target = .path path ∧ join.name.value = name := by
  have member := List.mem_reverse.mp (mem_of_lookup joined)
  obtain ⟨join, among, found⟩ := List.mem_filterMap.mp member
  obtain ⟨before, after, split⟩ := List.append_of_mem among
  refine ⟨before, join, after, split, ?_⟩
  cases target : join.target with
  | entity entity => simp [target] at found
  | path other =>
    rw [target] at found
    obtain ⟨same, rfl⟩ := Prod.mk.inj (Option.some.inj found)
    exact ⟨rfl, same⟩

theorem not_joined (none : query.joined? name = none) {join : Join α} (member : join ∈ query.joins)
    (target : join.target = .path path) : join.name.value ≠ name := by
  rintro rfl
  have listed : (join.name.value, path) ∈ query.pathJoins.reverse := by
    refine List.mem_reverse.mpr (List.mem_filterMap.mpr ⟨join, member, ?_⟩)
    rw [target]
  simpa using List.lookup_eq_none_iff.mp none _ listed

/-- The aliases of a level are different, and each of its joins along a path starts at a range
before the joined one. -/
structure Ordered (query : Select α) : Prop where
  distinct : (query.aliases.map (·.value)).Nodup
  earlier : ∀ before join after path, query.joins = before ++ join :: after →
    join.target = .path path →
      path.root.value ∈ query.root.name.value :: before.map (·.name.value)

theorem aliases_split {before after : List (Join α)} {join : Join α}
    (split : query.joins = before ++ join :: after) :
    query.aliases.map (·.value) = (query.root.name.value :: before.map (·.name.value)) ++
      join.name.value :: after.map (·.name.value) := by
  simp [aliases, split, Function.comp_def]

namespace Ordered

/-- Behind the path of a join neither the joined range nor one after it is where the path starts. -/
theorem not_later (ordered : query.Ordered) {before after : List (Join α)} {join : Join α}
    (split : query.joins = before ++ join :: after) (target : join.target = .path path) :
    path.root.value ∉ (join :: after).map (·.name.value) := by
  have distinct := ordered.distinct
  rw [aliases_split split, List.nodup_append] at distinct
  exact fun later => distinct.2.2 _ (ordered.earlier _ _ _ _ split target) _ later rfl

/-- Following a join leads to a range further in front. -/
theorem idxOf_lt (ordered : query.Ordered) (joined : query.joined? name = some path) :
    name ∈ query.aliases.map (·.value) ∧
      (query.aliases.map (·.value)).idxOf path.root.value <
        (query.aliases.map (·.value)).idxOf name := by
  obtain ⟨before, join, after, split, target, rfl⟩ := exists_join joined
  have distinct := ordered.distinct
  have start := ordered.earlier _ _ _ _ split target
  rw [aliases_split split] at distinct ⊢
  refine ⟨List.mem_append_right _ List.mem_cons_self, ?_⟩
  have new : join.name.value ∉ query.root.name.value :: before.map (·.name.value) := fun old =>
    (List.nodup_append.mp distinct).2.2 _ old _ List.mem_cons_self rfl
  rw [List.idxOf_append_of_mem start, List.idxOf_append_of_notMem new]
  exact Nat.lt_of_lt_of_le (List.idxOf_lt_length_of_mem start) (Nat.le_add_right _ _)

end Ordered

end Select

/-! ### The joins from the last one to the first -/

namespace PathKey

variable {α : Type} {query : Select α} {key : PathKey}

theorem through_further (join : Join α) (key : PathKey) (attributes : List String) :
    through join (key.further attributes) = (through join key).further attributes := by
  unfold through further
  split
  · split
    · simp
    · rfl
  · rfl

theorem expand_further (joins : List (Join α)) (key : PathKey) (attributes : List String) :
    (key.further attributes).expand joins = (key.expand joins).further attributes := by
  induction joins with
  | nil => rfl
  | cons join rest ih =>
    have step : through join ((key.further attributes).expand rest) =
        (through join (key.expand rest)).further attributes := by
      rw [ih, through_further]
    exact step

theorem through_other {join : Join α}
    (other : ∀ path, join.target = .path path → join.name.value ≠ key.root) :
    through join key = key := by
  unfold through
  split
  · rename_i target
    exact if_neg fun same => other _ target same.symm
  · rfl

/-- Joins of other aliases do not matter. -/
theorem expand_other {joins : List (Join α)} (other : ∀ join ∈ joins, ∀ path,
    join.target = .path path → join.name.value ≠ key.root) : key.expand joins = key := by
  induction joins with
  | nil => rfl
  | cons join rest ih =>
    have step : through join (key.expand rest) = key := by
      rw [ih fun further member => other further (List.mem_cons_of_mem _ member)]
      exact through_other (other join List.mem_cons_self)
    exact step

theorem expand_split (before after : List (Join α)) (join : Join α) (key : PathKey) :
    key.expand (before ++ join :: after) =
      (through join (key.expand after)).expand before := by
  simp only [expand, List.foldr_append, List.foldr_cons]

/-- In a query whose joins are in order, a path is followed along the path of its join. -/
theorem expand_joined (ordered : query.Ordered) {path : Path}
    (joined : query.joined? key.root = some path) :
    key.expand query.joins = (path.key.expand query.joins).further key.attributes := by
  obtain ⟨before, join, after, split, target, name⟩ := Select.exists_join joined
  have distinct := ordered.distinct
  rw [Select.aliases_split split, List.nodup_append] at distinct
  have absent := (List.nodup_cons.mp distinct.2.1).1
  have later := ordered.not_later split target
  have own : key.expand after = key := by
    refine expand_other fun other member _ _ same => absent ?_
    rw [name, ← same]
    exact List.mem_map_of_mem member
  have start : path.key.expand (join :: after) = path.key := by
    refine expand_other fun other member _ _ same => later ?_
    rw [show path.root.value = other.name.value from same.symm]
    exact List.mem_map_of_mem member
  have once : through join key = path.key.further key.attributes := by
    unfold through
    rw [target]
    exact if_pos name.symm
  have whole : path.key.expand query.joins = path.key.expand before := by
    rw [split, expand_split]
    exact congrArg (expand before) start
  rw [whole, split, expand_split, own, once, expand_further]

/-- In a query whose joins are in order, following the joins of a path comes to an end. -/
theorem expands_expand (ordered : query.Ordered) (key : PathKey) :
    Expands query key (key.expand query.joins) := by
  induction size : (query.aliases.map (·.value)).idxOf key.root using Nat.strongRecOn
    generalizing key with
  | ind size ih =>
    cases joined : query.joined? key.root with
    | none =>
      rw [expand_other fun join member path target => Select.not_joined joined member target]
      exact .done fun path found => nomatch joined.symm.trans found
    | some path =>
      obtain ⟨_, less⟩ := ordered.idxOf_lt joined
      rw [expand_joined ordered joined]
      refine .follow joined (fun same => ?_) (ih _ (size ▸ less) path.key rfl)
      rw [same] at less
      exact Nat.lt_irrefl _ less

theorem expands_iff (ordered : query.Ordered) {result : PathKey} :
    Expands query key result ↔ key.expand query.joins = result := by
  constructor
  · exact (expands_expand ordered key).unique
  · rintro rfl
    exact expands_expand ordered key

end PathKey

/-! ### Bound queries -/

/-- The path of a join sees the ranges before it, and no other of its level. -/
theorem Select.mem_joinSites {α : Type} (level earlier : List String) (before after : List (Join α))
    {join : Join α} {path : Path} (target : path ∈ join.target.paths) :
    ⟨⟨path, [level]⟩, earlier ++ before.map (·.name.value)⟩ ∈
      joinSites level earlier (before ++ join :: after) := by
  induction before generalizing earlier with
  | nil =>
    rw [List.map_nil, List.append_nil]
    exact List.mem_append_left _ (List.mem_map_of_mem target)
  | cons first rest ih =>
    have further := ih (earlier ++ [first.name.value])
    rw [List.append_assoc] at further
    exact List.mem_append_right _ further

theorem Query.join_mem_sites {query : Query} {path : Path} {before after : List (Join Predicate)}
    {join : Join Predicate} (split : query.joins = before ++ join :: after)
    (target : join.target = .path path) :
    ⟨⟨path, [query.aliases.map (·.value)]⟩,
      query.root.name.value :: before.map (·.name.value)⟩ ∈ query.sites := by
  have among : path ∈ join.target.paths := by
    rw [target]
    exact List.mem_cons_self
  have listed := Select.mem_joinSites (query.aliases.map (·.value)) [query.root.name.value] before
    after among
  rw [← split] at listed
  rw [Query.sites_eq, Select.ownSites]
  exact List.mem_append_left _ (List.mem_append_left _ (List.mem_append_left _
    (List.mem_append_right _ listed)))

theorem Query.item_mem_sites {query : Query} {item : SelectItem} {path : Path}
    (member : item ∈ query.items) (among : path ∈ item.expr.paths) :
    .own (query.aliases.map (·.value)) path ∈ query.sites := by
  rw [Query.sites_eq, Select.ownSites]
  exact List.mem_append_left _ (List.mem_append_left _ (List.mem_append_left _
    (List.mem_append_left _ (List.mem_flatMap.mpr ⟨item, member, List.mem_map_of_mem among⟩))))

theorem Model.Reachable.ordered {schema : Schema} {model : Model}
    (reachable : Model.Reachable schema model) : model.query.Ordered := by
  obtain ⟨distinct, aliases, resolved⟩ := reachable.resolves
  constructor
  · rw [aliases, Query.allAliases_eq] at distinct
    exact (List.nodup_append.mp distinct).1
  · intro before join after path split target
    obtain ⟨range, _, named, visible, _⟩ := resolved _ (Query.join_mem_sites split target)
    exact named ▸ visible

end QueryGuard
