import Mathlib.Logic.Relation
import QueryGuard.Proofs.Binding.Entities
import QueryGuard.Proofs.Projection.Exactness
/-!
Positions of paths that start at a join over a collection. Followed joins do not tell two joins over
one collection apart, so the item found may belong to the other one, or be the collection itself.
-/

set_option autoImplicit false

namespace QueryGuard

/-! ### Where joins come from -/

namespace Select

variable {α : Type} {query : Select α} {name : String} {path : Path}

/-- The path that an alias stands for, with all joins followed. -/
def origin (query : Select α) (name : String) : PathKey := PathKey.expand query.joins ⟨name, []⟩

/-- The joins that lead to an alias lead from it to another one. -/
def Leads (query : Select α) : String → String → Prop :=
  Relation.ReflTransGen fun name next =>
    ∃ path, query.joined? name = some path ∧ path.root.value = next

/-- Two aliases stand for one path with all joins followed. -/
def SameOrigin (query : Select α) (first second : String) : Prop :=
  ∃ key, PathKey.Expands query ⟨first, []⟩ key ∧ PathKey.Expands query ⟨second, []⟩ key

theorem expand_key (query : Select α) (path : Path) :
    path.key.expand query.joins =
      (query.origin path.root.value).further path.attributeNames :=
  PathKey.expand_further query.joins ⟨path.root.value, []⟩ path.attributeNames

namespace Ordered

theorem origin_joined (ordered : query.Ordered) (joined : query.joined? name = some path) :
    query.origin name = (query.origin path.root.value).further path.attributeNames := by
  rw [← expand_key, origin, PathKey.expand_joined ordered joined, PathKey.further_nil]

theorem origin_free (free : query.joined? name = none) : query.origin name = ⟨name, []⟩ :=
  PathKey.expand_other fun _ member _ target => not_joined free member target

theorem sameOrigin_iff (ordered : query.Ordered) {first second : String} :
    query.SameOrigin first second ↔ query.origin first = query.origin second := by
  simp only [SameOrigin, PathKey.expands_iff ordered, origin]
  exact ⟨fun ⟨_, here, there⟩ => here.trans there.symm, fun same => ⟨_, same, rfl⟩⟩

/-- An alias that leads to another one stands for a path that goes on from what that one stands
for. -/
theorem origin_leads (ordered : query.Ordered) {first second : String}
    (leads : query.Leads first second) :
    ∃ attributes, query.origin first = (query.origin second).further attributes := by
  induction leads using Relation.ReflTransGen.head_induction_on with
  | refl => exact ⟨[], (PathKey.further_nil _).symm⟩
  | head step _ ih =>
    obtain ⟨path, joined, rfl⟩ := step
    obtain ⟨attributes, same⟩ := ih
    refine ⟨attributes ++ path.attributeNames, ?_⟩
    rw [ordered.origin_joined joined, same, PathKey.further_further]

end Ordered

end Select

namespace Model

variable {schema : Schema} {model : Model}

/-- A path of the query ends on a collection. -/
def IsCollection (model : Model) (path : Path) : Prop :=
  ∃ navigation, model.navigation? path = some navigation ∧ navigation.isCollection = true

/-- An alias of the outermost level is joined over a collection. -/
def JoinedCollection (model : Model) (name : String) : Prop :=
  ∃ path, model.query.joined? name = some path ∧ model.IsCollection path

instance (model : Model) (path : Path) : Decidable (model.IsCollection path) :=
  decidable_of_iff ((model.navigation? path).any (·.isCollection) = true)
    (Option.any_eq_true _ _)

instance (model : Model) (name : String) : Decidable (model.JoinedCollection name) :=
  decidable_of_iff ((model.query.joined? name).any (decide <| model.IsCollection ·) = true)
    (by simp only [Option.any_eq_true, decide_eq_true_eq, JoinedCollection])

/-! ### What ranges stand for -/

namespace Reachable

theorem mem_ranges (reachable : Reachable schema model) {name : String}
    (declared : name ∈ model.query.aliases.map (·.value)) :
    ∃ range ∈ model.ranges, range.name = name := by
  have listed : name ∈ model.aliases := by
    rw [reachable.aliases_eq, Query.allAliases_eq]
    exact List.mem_append_left _ declared
  exact List.mem_map.mp listed

/-- The range of a join along a path stands for what the path leads to. -/
theorem joined_navigates (reachable : Reachable schema model) {name : String} {path : Path}
    (joined : model.query.joined? name = some path) :
    ∃ start ∈ model.ranges, ∃ range ∈ model.ranges, ∃ navigation,
      start.name = path.root.value ∧ range.name = name ∧
        model.navigation? path = some navigation ∧
        schema.navigate start.entity path.attributeNames = .ok navigation ∧
        navigation.entity? = some range.entity := by
  obtain ⟨query, parameters, applied, injected, result⟩ := reachable.ofTree
  obtain ⟨before, join, after, split, target, rfl⟩ := Select.exists_join joined
  rw [ofTree_query result] at split
  exact ofTree_join result split target

theorem joined_declared (reachable : Reachable schema model) {name : String} {path : Path}
    (joined : model.query.joined? name = some path) :
    path.root.value ∈ model.query.aliases.map (·.value) := by
  obtain ⟨before, join, after, split, target, rfl⟩ := Select.exists_join joined
  rw [Select.aliases_split split]
  exact List.mem_append_left _ (reachable.ordered.earlier _ _ _ _ split target)

/-- The path that an alias stands for leads to the entities of its range. -/
theorem origin_reaches (reachable : Reachable schema model) {name : String}
    (declared : name ∈ model.query.aliases.map (·.value)) :
    ∃ start ∈ model.ranges, ∃ range ∈ model.ranges,
      start.name = (model.query.origin name).root ∧ range.name = name ∧
        schema.reach? start.entity (model.query.origin name).attributes = some range.entity := by
  induction place : (model.query.aliases.map (·.value)).idxOf name using Nat.strongRecOn
    generalizing name with
  | ind place ih =>
    cases joined : model.query.joined? name with
    | none =>
      obtain ⟨range, member, named⟩ := reachable.mem_ranges declared
      rw [Select.Ordered.origin_free joined]
      exact ⟨range, member, range, member, named, named, rfl⟩
    | some path =>
      have less := (reachable.ordered.idxOf_lt joined).2
      obtain ⟨start, first, between, middle, root, named, reach⟩ :=
        ih _ (place ▸ less) (reachable.joined_declared joined) rfl
      obtain ⟨between', middle', range, member, navigation, named', final, _, navigates, ends⟩ :=
        reachable.joined_navigates joined
      obtain rfl := eq_of_name reachable.nodup_aliases middle middle' (named.trans named'.symm)
      refine ⟨start, first, range, member, ?_, final, ?_⟩
      · rw [reachable.ordered.origin_joined joined]
        exact root
      · rw [reachable.ordered.origin_joined joined, PathKey.further, Schema.reach?_append, reach]
        exact Schema.navigate_reach navigates ends

/-- The path that the alias of a join over a collection stands for ends on a collection. -/
theorem origin_collection (reachable : Reachable schema model) {name : String}
    (collection : model.JoinedCollection name) :
    ∃ start ∈ model.ranges, ∃ front last owner,
      model.query.origin name = ⟨start.name, front ++ [last]⟩ ∧
        schema.reach? start.entity front = some owner ∧ schema.Collects owner last := by
  obtain ⟨path, joined, navigation, known, many⟩ := collection
  obtain ⟨between, middle, _, _, navigation', named, _, known', navigates, _⟩ :=
    reachable.joined_navigates joined
  obtain rfl := Option.some.inj (known.symm.trans known')
  obtain ⟨start, first, between', middle', root, named', reach⟩ :=
    reachable.origin_reaches (reachable.joined_declared joined)
  obtain rfl := eq_of_name reachable.nodup_aliases middle middle' (named.trans named'.symm)
  obtain ⟨front, last, owner, split, within, collects⟩ := Schema.navigate_last navigates many
  refine ⟨start, first, (model.query.origin path.root.value).attributes ++ front, last, owner, ?_,
    ?_, collects⟩
  · rw [reachable.ordered.origin_joined joined, split, root, List.append_assoc]
    rfl
  · rw [Schema.reach?_append, reach]
    exact within

end Reachable

/-! ### Paths through a collection -/

/-- A path from an alias comes through a collection either before the alias, or at its very end. -/
theorem Reachable.through_collection (reachable : Reachable schema model) {start : BoundRange}
    (first : start ∈ model.ranges) {front rest : List String} {last owner : String}
    (reach : schema.reach? start.entity front = some owner) (collects : schema.Collects owner last)
    {path : Path} (declared : path.root.value ∈ model.query.aliases.map (·.value))
    {range : BoundRange} (member : range ∈ model.ranges) (named : range.name = path.root.value)
    {navigation : Navigation}
    (navigates : schema.navigate range.entity path.attributeNames = .ok navigation)
    (through : (model.query.origin path.root.value).further path.attributeNames =
      ⟨start.name, front ++ last :: rest⟩) :
    (∃ others, model.query.origin path.root.value = ⟨start.name, front ++ last :: others⟩) ∨
      rest = [] ∧ navigation.isCollection = true := by
  obtain ⟨start', first', range', member', root, named', before⟩ :=
    reachable.origin_reaches declared
  obtain rfl := eq_of_name reachable.nodup_aliases member member' (named.trans named'.symm)
  obtain ⟨same, split⟩ := PathKey.mk.inj through
  obtain rfl := eq_of_name reachable.nodup_aliases first first' (same.symm.trans root.symm)
  have origin : model.query.origin path.root.value =
      ⟨start.name, (model.query.origin path.root.value).attributes⟩ := by
    rw [root]
  -- either the alias stands for a part of the chain in front of the collection, or for more
  rcases List.append_eq_append_iff.mp split with ⟨behind, whole, own⟩ | ⟨behind, whole, own⟩
  · rw [own] at navigates
    rw [whole, Schema.reach?_append, before] at reach
    exact .inr (Schema.navigate_collects navigates reach collects)
  · cases behind with
    | nil =>
      rw [List.nil_append] at own
      rw [List.append_nil] at whole
      rw [← whole, before] at reach
      obtain rfl := Option.some.inj reach
      rw [← own, ← List.nil_append (last :: rest)] at navigates
      exact .inr (Schema.navigate_collects navigates rfl collects)
    | cons next others =>
      obtain ⟨rfl, _⟩ := List.cons.inj own
      exact .inl ⟨others, origin.trans (congrArg (PathKey.mk _) whole)⟩

/-- An alias that stands for a path through a collection leads to a join over it. -/
theorem Reachable.leads_collection (reachable : Reachable schema model) {start : BoundRange}
    (first : start ∈ model.ranges) {front : List String} {last owner : String}
    (reach : schema.reach? start.entity front = some owner) (collects : schema.Collects owner last)
    {name : String} (declared : name ∈ model.query.aliases.map (·.value)) {rest : List String}
    (through : model.query.origin name = ⟨start.name, front ++ last :: rest⟩) :
    ∃ other, model.JoinedCollection other ∧
      model.query.origin other = ⟨start.name, front ++ [last]⟩ ∧ model.query.Leads name other := by
  induction place : (model.query.aliases.map (·.value)).idxOf name using Nat.strongRecOn
    generalizing name rest with
  | ind place ih =>
    cases joined : model.query.joined? name with
    | none =>
      rw [Select.Ordered.origin_free joined] at through
      simp at through
    | some path =>
      have less := (reachable.ordered.idxOf_lt joined).2
      have origin := reachable.ordered.origin_joined joined
      have declared' := reachable.joined_declared joined
      obtain ⟨range, member, _, _, navigation, named, _, known, navigates, _⟩ :=
        reachable.joined_navigates joined
      rcases reachable.through_collection first reach collects declared' member named navigates
        (origin.symm.trans through) with ⟨others, further⟩ | ⟨rfl, many⟩
      · obtain ⟨other, collection, same, leads⟩ := ih _ (place ▸ less) declared' further rfl
        exact ⟨other, collection, same, leads.head ⟨path, joined, rfl⟩⟩
      · exact ⟨name, ⟨path, joined, navigation, known, many⟩, through, .refl⟩

/-! ### Joins over one collection -/

namespace Reachable

theorem joined_ne_nil (reachable : Reachable schema model) {name : String} {path : Path}
    (joined : model.query.joined? name = some path) (many : model.IsCollection path) :
    path.attributeNames ≠ [] := by
  obtain ⟨navigation, known, many⟩ := many
  obtain ⟨_, _, _, _, navigation', _, _, known', navigates, _⟩ := reachable.joined_navigates joined
  obtain rfl := Option.some.inj (known.symm.trans known')
  exact Schema.navigate_ne_nil navigates many

/-- An alias that leads to another one of the same origin is that one, if it is joined over a
collection. -/
theorem eq_of_leads (reachable : Reachable schema model) {first second : String}
    (collection : model.JoinedCollection first)
    (same : model.query.origin first = model.query.origin second)
    (leads : model.query.Leads first second) : first = second := by
  rcases Relation.ReflTransGen.cases_head leads with equal | ⟨next, step, further⟩
  · exact equal
  · obtain ⟨path, joined, rfl⟩ := step
    obtain ⟨joinedPath, joined', many⟩ := collection
    obtain rfl := Option.some.inj (joined.symm.trans joined')
    obtain ⟨attributes, origin⟩ := reachable.ordered.origin_leads further
    have whole : (model.query.origin second).further (attributes ++ path.attributeNames) =
        model.query.origin second := by
      rw [← PathKey.further_further, ← origin, ← reachable.ordered.origin_joined joined, same]
    exact absurd whole (PathKey.further_ne _ (List.append_ne_nil_of_right_ne_nil _
      (reachable.joined_ne_nil joined many)))

/-- An alias leads to one join over a collection at most. -/
theorem leads_unique (reachable : Reachable schema model) {name first second : String}
    (here : model.JoinedCollection first) (there : model.JoinedCollection second)
    (same : model.query.origin first = model.query.origin second)
    (leads : model.query.Leads name first) (leads' : model.query.Leads name second) :
    first = second := by
  have functional : Relator.RightUnique fun name next =>
      ∃ path, model.query.joined? name = some path ∧ path.root.value = next := by
    rintro name _ _ ⟨path, joined, rfl⟩ ⟨path', joined', rfl⟩
    obtain rfl := Option.some.inj (joined.symm.trans joined')
    rfl
  rcases Relation.ReflTransGen.total_of_right_unique functional leads leads' with between | between
  · exact reachable.eq_of_leads here same between
  · exact (reachable.eq_of_leads there same.symm between).symm

/-! ### The position of a path from a collection -/

/-- An item of the select list follows its path from a range of the outermost level. -/
theorem item_navigates (reachable : Reachable schema model) {item : SelectItem} {path : Path}
    (member : item ∈ model.query.items) (among : path ∈ item.expr.paths) :
    path.root.value ∈ model.query.aliases.map (·.value) ∧
      ∃ range ∈ model.ranges, range.name = path.root.value ∧
        ∃ navigation, model.navigation? path = some navigation ∧
          schema.navigate range.entity path.attributeNames = .ok navigation := by
  obtain ⟨range, ofModel, named, visible, leads⟩ :=
    reachable.resolves.2.2 _ (Query.item_mem_sites member among)
  exact ⟨(named ▸ visible : path.root.value ∈ _), range, ofModel, named, leads⟩

/-- A path from a join over a collection is found at an item from a join over the same collection,
or at the collection itself. -/
theorem positionOf_origin (reachable : Reachable schema model) {target : Path}
    (collection : model.JoinedCollection target.root.value) {index : Nat} {aggregate : Bool}
    (found : model.positionOf target = .ok (some ⟨index, aggregate⟩)) :
    ∃ item path, model.query.items[index]? = some item ∧ item.Shows path aggregate ∧
      (model.query.origin path.root.value).further path.attributeNames =
        (model.query.origin target.root.value).further target.attributeNames ∧
      ((∃ other, model.JoinedCollection other ∧
          model.query.origin other = model.query.origin target.root.value ∧
          model.query.Leads path.root.value other) ∨
        target.attributeNames = [] ∧ model.IsCollection path) := by
  have ordered := reachable.ordered
  have declared : target.root.value ∈ model.aliases := by
    by_contra undeclared
    rw [positionOf_undeclared undeclared] at found
    cases found
  obtain ⟨⟨item, listed, path, shows, expands⟩, _⟩ :=
    ((positionOf_iff ordered (PathKey.expands_expand ordered target.key) declared).1 _ _).mp found
  have same := (PathKey.expands_iff ordered).mp expands
  rw [Select.expand_key, Select.expand_key] at same
  refine ⟨item, path, listed, shows, same, ?_⟩
  obtain ⟨level, range, member, named, navigation, known, navigates⟩ :=
    reachable.item_navigates (List.mem_of_getElem? listed) shows.mem_paths
  obtain ⟨start, first, front, last, owner, origin, reach, collects⟩ :=
    reachable.origin_collection collection
  have through : (model.query.origin path.root.value).further path.attributeNames =
      ⟨start.name, front ++ last :: target.attributeNames⟩ := by
    rw [same, origin]
    exact congrArg (PathKey.mk _) (List.append_assoc _ _ _)
  rcases reachable.through_collection first reach collects level member named navigates through with
    ⟨others, further⟩ | ⟨none, many⟩
  · obtain ⟨other, joined, whole, leads⟩ :=
      reachable.leads_collection first reach collects level further
    exact .inl ⟨other, joined, whole.trans origin.symm, leads⟩
  · exact .inr ⟨none, navigation, known, many⟩

/-- A path from a join over a collection is found at an item that starts at this join or at an alias
that leads to it, unless the item starts so at another join over the same collection, or shows the
collection itself and the whole of a joined entity was looked for. -/
theorem positionOf_collection (reachable : Reachable schema model) {target : Path}
    (collection : model.JoinedCollection target.root.value) {index : Nat} {aggregate : Bool}
    (found : model.positionOf target = .ok (some ⟨index, aggregate⟩)) :
    ∃ item path, model.query.items[index]? = some item ∧ item.Shows path aggregate ∧
      (model.query.Leads path.root.value target.root.value ↔
        ¬ (∃ other, other ≠ target.root.value ∧ model.JoinedCollection other ∧
            model.query.SameOrigin other target.root.value ∧
            model.query.Leads path.root.value other) ∧
          ¬ (target.attributes = [] ∧ model.IsCollection path)) := by
  obtain ⟨item, path, listed, shows, same, comes⟩ := reachable.positionOf_origin collection found
  have bare : target.attributes = [] ↔ target.attributeNames = [] := List.map_eq_nil_iff.symm
  refine ⟨item, path, listed, shows, fun leads => ⟨?_, ?_⟩, fun ⟨noOther, notWhole⟩ => ?_⟩
  · rintro ⟨other, different, joined, origin, leads'⟩
    have origin := reachable.ordered.sameOrigin_iff.mp origin
    exact different (reachable.leads_unique joined collection origin leads' leads)
  · rintro ⟨none, navigation, known, many⟩
    obtain ⟨_, _, _, _, navigation', known', navigates⟩ :=
      reachable.item_navigates (List.mem_of_getElem? listed) shows.mem_paths
    obtain rfl := Option.some.inj (known.symm.trans known')
    obtain ⟨attributes, origin⟩ := reachable.ordered.origin_leads leads
    rw [bare.mp none, PathKey.further_nil, origin, PathKey.further_further] at same
    exact PathKey.further_ne _ (List.append_ne_nil_of_right_ne_nil _
      (Schema.navigate_ne_nil navigates many)) same
  · rcases comes with ⟨other, joined, origin, leads⟩ | ⟨none, many⟩
    · by_cases equal : other = target.root.value
      · exact equal ▸ leads
      · exact absurd ⟨other, equal, joined, reachable.ordered.sameOrigin_iff.mpr origin, leads⟩
          noOther
    · exact absurd ⟨bare.mpr none, many⟩ notWhole

/-- Orders are joined twice, and the total of the one is found at that of the other. -/
theorem positionOf_collection_market :
    ∃ query model target,
      Query.parse "select m.total, o.total from Customer c join c.orders o join c.orders m" 2 =
        .ok query ∧
      Model.bind .market query .empty = .ok model ∧ Path.parse "o.total" = .ok target ∧
      model.JoinedCollection target.root.value ∧
      model.positionOf target = .ok (some ⟨0, false⟩) ∧
      ∃ item path, model.query.items[0]? = some item ∧ item.Shows path false ∧
        path.root.value = "m" ∧ ¬ model.query.Leads path.root.value target.root.value := by
  have runs : ((Query.parse "select m.total, o.total from Customer c join c.orders o join c.orders m"
      2).toOption.bind fun query => (Model.bind .market query .empty).toOption.bind fun model =>
        (Path.parse "o.total").toOption.map fun target =>
          (decide (target.root.value = "o" ∧ (∀ name ∈ ["o", "m"], model.JoinedCollection name) ∧
              model.query.origin "m" = model.query.origin "o"),
            model.query.items.head?.bind fun item => item.shown?.map (·.1.root.value),
            (model.positionOf target).toOption)) =
      some (true, some "m", some (some ⟨0, false⟩)) := by
    decide +kernel
  obtain ⟨query, parsed, runs⟩ := Option.bind_eq_some_iff.mp runs
  obtain ⟨model, bind, runs⟩ := Option.bind_eq_some_iff.mp runs
  obtain ⟨target, read, runs⟩ := Option.map_eq_some_iff.mp runs
  obtain ⟨joins, runs⟩ := Prod.mk.inj runs
  obtain ⟨roots, position⟩ := Prod.mk.inj runs
  obtain ⟨start, collections, same⟩ := of_decide_eq_true joins
  have position := ok_of_toOption position
  have reachable : Reachable .market model := .bound (ok_of_toOption bind)
  have collection : model.JoinedCollection target.root.value :=
    start.symm ▸ collections "o" List.mem_cons_self
  obtain ⟨item, path, listed, shows, exact⟩ := reachable.positionOf_collection collection position
  have root : path.root.value = "m" := by
    rw [List.head?_eq_getElem?, listed, Option.bind_some, SelectItem.shows_iff.mp shows] at roots
    exact Option.some.inj roots
  refine ⟨query, model, target, ok_of_toOption parsed, ok_of_toOption bind, ok_of_toOption read,
    collection, position, item, path, listed, shows, root, fun leads => (exact.mp leads).1 ?_⟩
  refine ⟨"m", by rw [start]; decide, collections "m" (by simp), ?_, root ▸ .refl⟩
  exact reachable.ordered.sameOrigin_iff.mpr (start.symm ▸ same)

end Reachable

end Model

end QueryGuard
