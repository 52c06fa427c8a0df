import QueryGuard.Proofs.Binding.Placeless
import QueryGuard.Proofs.Engine.Serialization
import QueryGuard.Proofs.Siblings.Adoption
import QueryGuard.Proofs.Siblings.Repeats
import QueryGuard.Proofs.Siblings.Rereading
/-!
An engine without criteria only tells queries side by side apart. What it hands on stays as it is
when it is guarded again: each stage leaves the results of the one before it as they are.
-/

set_option autoImplicit false

namespace QueryGuard

/-! ### Parameters -/

/-- What is kept of items that were parted is in parts, and all of it is kept again. -/
theorem filter_parted {α : Type} (first keep : α → Bool) {items kept : List α}
    (parted : kept = (items.filter first ++ items.filter (!first ·)).filter keep) :
    (kept.filter first ++ kept.filter (!first ·)).filter keep = kept := by
  have alike : ∀ part : α → Bool,
      ((items.filter part).filter keep).filter part = (items.filter part).filter keep :=
    fun part => List.filter_eq_self.mpr fun item member =>
      (List.mem_filter.mp (List.mem_filter.mp member).1).2
  have others : ∀ part other : α → Bool, (∀ item, other item = !part item) →
      ((items.filter other).filter keep).filter part = [] := by
    intro part other apart
    refine List.filter_eq_nil_iff.mpr fun item member => ?_
    have outside := (List.mem_filter.mp (List.mem_filter.mp member).1).2
    simpa [apart] using outside
  have front : kept.filter first = (items.filter first).filter keep := by
    rw [parted, List.filter_append, List.filter_append, alike, others first _ fun _ => rfl,
      List.append_nil]
  have back : kept.filter (!first ·) = (items.filter (!first ·)).filter keep := by
    have apart : ∀ item, first item = !!first item := fun item => (Bool.not_not _).symm
    rw [parted, List.filter_append, List.filter_append, others _ first apart, alike,
      List.nil_append]
  rw [front, back, ← List.filter_append, List.filter_filter, parted]
  simp only [Bool.and_self]

namespace ParameterMap

theorem untyped_mentioned {first second : ParameterMap} (same : first.untyped = second.untyped)
    (names : List String) : (first.mentioned names).untyped = (second.mentioned names).untyped := by
  have entries : ∀ parameters : ParameterMap, (parameters.mentioned names).untyped =
      (parameters.untyped.filter (fun entry => decide (entry.2.2 = .caller)) ++
        parameters.untyped.filter fun entry => !decide (entry.2.2 = .caller)).filter
          fun entry => decide (entry.1 ∈ names) := by
    intro parameters
    simp only [untyped, List.filter_map, ← List.map_append]
    rfl
  rw [entries, entries, same]

/-- Parameters that are all the caller's keep their order. -/
theorem untyped_mentioned_caller {parameters : ParameterMap}
    (caller : ∀ entry ∈ parameters.entries, entry.2.owner = .caller) (names : List String) :
    (parameters.mentioned names).untyped =
      parameters.untyped.filter fun entry => decide (entry.1 ∈ names) := by
  have first : parameters.callerFirst.entries = parameters.entries := by
    have all : parameters.entries.filter (fun entry => decide (entry.2.owner = .caller)) =
        parameters.entries :=
      List.filter_eq_self.mpr fun entry member => decide_eq_true (caller entry member)
    have none : parameters.entries.filter (fun entry => !decide (entry.2.owner = .caller)) = [] :=
      List.filter_eq_nil_iff.mpr fun entry member => by simp [caller entry member]
    change parameters.entries.filter _ ++ parameters.entries.filter _ = _
    rw [all, none, List.append_nil]
  change (parameters.callerFirst.entries.filter _).map _ = _
  rw [first, untyped, List.filter_map]
  rfl

theorem mentioned_mentioned (parameters : ParameterMap) (names : List String) :
    (parameters.mentioned names).mentioned names = parameters.mentioned names :=
  eq_of_entries (filter_parted (fun entry : String × Binding => decide (entry.2.owner = .caller))
    (fun entry => decide (entry.1 ∈ names)) rfl)

/-- The parameters have the last types of their names, if there are any. -/
def Typed (parameters : ParameterMap) (types : List (String × ScalarType)) : Prop :=
  ∀ entry ∈ parameters.entries, ∀ type, types.reverse.lookup entry.1 = some type →
    entry.2.declaredType = some type

theorem typed_setTypes (parameters : ParameterMap) (types : List (String × ScalarType)) :
    (types.foldl (fun parameters (name, type) => parameters.setType name type)
      parameters).Typed types := by
  intro entry member type last
  rw [entries_setTypes] at member
  obtain ⟨⟨name, binding⟩, _, rfl⟩ := List.mem_map.mp member
  change Option.or _ _ = _
  rw [last, Option.some_or]

theorem Typed.setTypes {parameters : ParameterMap} {types : List (String × ScalarType)}
    (typed : parameters.Typed types) :
    types.foldl (fun parameters (name, type) => parameters.setType name type) parameters =
      parameters := by
  apply eq_of_entries
  rw [entries_setTypes]
  refine (List.map_congr_left fun (name, binding) member => ?_).trans (List.map_id _)
  change (name, { binding with declaredType := (types.reverse.lookup name).or _ }) = (name, binding)
  cases last : types.reverse.lookup name with
  | none => rfl
  | some type => rw [Option.some_or, ← typed _ member type last]

end ParameterMap

/-! ### Queries side by side -/

/-- The second query is the first one up to aliases. They are all different, and each is the one that
the first query has at its place exactly if that does not occur before it. Paths start at the ranges
that they started at; those that started at none keep their alias. -/
structure Query.ToldApart (query result : Query) : Prop where
  shape : result.shape = query.shape
  items : result.items = query.items
  markers : result.markers = query.markers
  distinct : result.allAliases.Nodup
  kept : ∀ place name, query.allAliases[place]? = some name →
    (result.allAliases[place]? = some name ↔ name ∉ query.allAliases.take place)
  references : List.Forall₂ (fun before after : Occurrence =>
    if before.path.root.value ∈ before.levels.flatten then after.reference = before.reference
    else after.path.root.value = before.path.root.value) query.occurrences result.occurrences

theorem Query.toldApart {query : Query} (once : query.DeclaresOnce) :
    query.ToldApart query.separateSiblings where
  shape := query.shape_separateSiblings
  items := query.items_separateSiblings
  markers := query.markers_separateSiblings
  distinct := query.nodup_separateSiblings.mpr once
  kept place name written := by
    rw [(separateSiblings_repeats once).place_iff (List.Subset.refl _) written]
    simp
  references := by
    have renamed := separateSiblings_renamed once
    have distinct := query.nodup_separateSiblings.mpr once
    rw [Siblings.QueryRenamed, List.forall₂_iff_zip] at renamed
    refine List.forall₂_iff_zip.mpr ⟨renamed.1, fun {before after} member => ?_⟩
    obtain ⟨first, second⟩ := List.of_mem_zip member
    split
    · rename_i scope
      exact (renamed.2 member).reference (levels_sublist_of_mem first).subset
        (distinct.sublist (levels_sublist_of_mem second)) scope
    · rename_i outside
      exact (renamed.2 member).root_outside outside

/-- The text of a parsed query whose siblings were told apart is read as that query. -/
theorem Query.parse_separateSiblings {source : String} {depth : Nat} {query : Query}
    (parsed : Query.parse source depth = .ok query)
    (finite : ∀ x ∈ query.decimals, x.IsFinite) :
    ∃ found, Query.parse query.separateSiblings.text depth = .ok found ∧
      found.unplaced = query.separateSiblings.unplaced := by
  have written := parsed_of_parse parsed
  have within : query.separateSiblings.nesting ≤ depth := by
    have below := written.within
    rw [nesting_separateSiblings]
    omega
  obtain ⟨found, result, same⟩ := (written.printable finite).separateSiblings.parse_text within
  rw [reread_separateSiblings written.reread] at same
  exact ⟨found, result, same⟩

/-! ### Guarding again -/

namespace Model

variable {schema : Schema} {query found : Query} {parameters : ParameterMap} {bound : Model}
  {serialized : Serialized}

/-- What a bound query hands on is bound again, to what hands on the same. -/
theorem bind_again (bind : Model.bind schema query parameters = .ok bound)
    (serialize : bound.serialize = .ok serialized)
    (same : found.unplaced = bound.query.unplaced) :
    ∃ again, Model.bind schema found serialized.parameters = .ok again ∧
      again.serialize = .ok serialized := by
  have aliases : found.allAliases = bound.query.allAliases := by
    rw [← found.allAliases_unplaced, same, Query.allAliases_unplaced]
  have markers : found.markers.map (·.value) = bound.query.markers.map (·.value) := by
    rw [← found.markers_unplaced, same, Query.markers_unplaced]
  have separate : found.separateSiblings = found := by
    apply Query.separateSiblings_eq_self
    rw [aliases, (Model.bind_ranges bind).1, ← ofTree_aliases bind]
    exact ofTree_nodup bind
  have tree := bind
  rw [Model.bind, ← (Model.bind_ranges bind).1] at tree
  obtain ⟨again, result⟩ := ofTree_placeless same.symm tree serialized.parameters
  have queries := ofTree_query result
  -- the types that were noted first are noted again
  have typed : serialized.parameters.Typed _ := fun entry member =>
    (ofTree_parameters tree ▸ ParameterMap.typed_setTypes parameters _) entry
      ((mem_serialize serialize).mp member).1
  have kept : again.parameters = serialized.parameters := by
    rw [ofTree_parameters result, Binding.typesOf_placeless ⟨schema, []⟩ same, typed.setTypes]
  have text : again.query.text = bound.query.text := by
    rw [queries, ← found.text_unplaced, same, Query.text_unplaced]
  refine ⟨again, by rw [Model.bind, separate, result], serialize_ok_iff.mpr ⟨?_, ?_⟩⟩
  · intro marker member
    have among : marker.value ∈ bound.query.markers.map (·.value) := by
      rw [← markers, ← queries]
      exact List.mem_map_of_mem member
    rw [kept]
    exact mem_names_serialize serialize among
  · obtain ⟨_, rfl⟩ := serialize_ok_iff.mp serialize
    rw [kept, queries, markers, ParameterMap.mentioned_mentioned, ← queries, text]

end Model

namespace Engine

variable {engine : Engine}

/-- Without criteria a query is bound and handed on. -/
theorem guard_iff_of_none {cache : Option ParseCache} (reachable : engine.Reachable cache)
    (none : engine.registry.criteria = []) {source : String} {parameters : ParameterMap}
    {security : SecurityContext} {text : String} {others : ParameterMap} {bound : Model} :
    (engine.guard source parameters security cache).1 = .ok ⟨text, others, bound⟩ ↔
      ∃ query, Query.parse source engine.settings.depth = .ok query ∧
        Model.bind engine.schema query parameters = .ok bound ∧
        bound.serialize = .ok ⟨text, others⟩ := by
  have idle : ∀ {query : Query} {bound : Model},
      Model.bind engine.schema query parameters = .ok bound →
        bound.constrain engine.schema engine.registry engine.settings.scope security =
          .ok bound :=
    fun bind => Model.constrain_nothing ((Model.bind_pending bind engine.registry).trans none)
  constructor
  · intro guards
    obtain ⟨query, first, parsed, bind, constrain, serialize⟩ := guard_ok reachable guards
    rw [idle bind] at constrain
    obtain rfl := Except.ok.inj constrain
    exact ⟨query, parsed, bind, serialize⟩
  · rintro ⟨query, parsed, bind, serialize⟩
    exact guard_of_ok reachable parsed bind (idle bind) serialize

/-- An engine without criteria hands on the query that it was given, with its siblings told apart,
and those of the caller's parameters that the query mentions, in the caller's order. What it hands
on comes back as it is when it is given to the engine again, whoever asks and whatever was asked in
between. -/
theorem guard_stable {cache : Option ParseCache} (reachable : engine.Reachable cache)
    (none : engine.registry.criteria = []) {source : String} {parameters : ParameterMap}
    {security : SecurityContext} {guarded : Guarded}
    (guards : (engine.guard source parameters security cache).1 = .ok guarded)
    (finite : ∀ query, Query.parse source engine.settings.depth = .ok query →
      ∀ x ∈ query.decimals, x.IsFinite) :
    ∃ query, Query.parse source engine.settings.depth = .ok query ∧
      guarded.text = guarded.model.query.text ∧ query.ToldApart guarded.model.query ∧
      (query.allAliases.Nodup → guarded.text = query.text) ∧
      guarded.parameters.untyped =
        (parameters.mentioned (query.markers.map (·.value))).untyped ∧
      ((∀ entry ∈ parameters.entries, entry.2.owner = .caller) → guarded.parameters.untyped =
        parameters.untyped.filter fun entry => decide (entry.1 ∈ query.markers.map (·.value))) ∧
      ∀ later caller, engine.Reachable later →
        ∃ again, (engine.guard guarded.text guarded.parameters caller later).1 = .ok again ∧
          again.text = guarded.text ∧ again.parameters = guarded.parameters := by
  obtain ⟨text, others, bound⟩ := guarded
  obtain ⟨query, parsed, bind, serialize⟩ := (guard_iff_of_none reachable none).mp guards
  have printed : text = bound.query.text := Model.text_serialize serialize
  have tree := (Model.bind_ranges bind).1
  have once : query.DeclaresOnce := by
    rw [← query.nodup_separateSiblings, ← Model.ofTree_aliases bind]
    exact Model.ofTree_nodup bind
  have apart : query.ToldApart bound.query := tree ▸ query.toldApart once
  have mentioned : others.untyped =
      (parameters.mentioned (query.markers.map (·.value))).untyped := by
    have handed : others = bound.parameters.mentioned (bound.query.markers.map (·.value)) :=
      congrArg Serialized.parameters (Model.serialize_ok_iff.mp serialize).2
    rw [handed, apart.markers]
    apply ParameterMap.untyped_mentioned
    rw [Model.ofTree_parameters bind, ParameterMap.untyped_setTypes]
  obtain ⟨found, read, same⟩ := Query.parse_separateSiblings parsed (finite query parsed)
  rw [← tree, ← printed] at read
  rw [← tree] at same
  refine ⟨query, parsed, printed, apart, fun distinct => ?_, mentioned, fun caller => ?_,
    fun later caller reachable => ?_⟩
  · rw [printed, tree, Query.separateSiblings_eq_self distinct]
  · exact mentioned.trans (ParameterMap.untyped_mentioned_caller caller _)
  · obtain ⟨again, bindAgain, serializeAgain⟩ := Model.bind_again bind serialize same
    exact ⟨_, (guard_iff_of_none reachable none).mpr ⟨found, read, bindAgain, serializeAgain⟩,
      rfl, rfl⟩

/-- The engine of the shop that hides nothing. -/
def openShop : Engine := { shop with registry := ⟨[], List.nodup_nil⟩ }

/-- The second query inside gets an alias of its own and keeps it; a parameter that the text does not
mention is left out. -/
theorem guard_stable_shop :
    ∃ guarded query,
      (openShop.guard "select c from Customer c where exists (select o from Order o where o.customer = c and o.total > :low) and exists (select o from Order o where o.total > 1.5) and c.name = :name"
        (.ofList [("unused", .null), ("name", .string "a"), ("low", .int32 5)]) .anonymous
        openShop.initialCache).1 = .ok guarded ∧
      Query.parse "select c from Customer c where exists (select o from Order o where o.customer = c and o.total > :low) and exists (select o from Order o where o.total > 1.5) and c.name = :name"
        openShop.settings.depth = .ok query ∧
      guarded.text = "select c from Customer c where exists (select o from Order o where o.customer = c and o.total > :low) and exists (select o1 from Order o1 where o1.total > 1.5) and c.name = :name" ∧
      guarded.parameters.names = ["name", "low"] ∧ query.ToldApart guarded.model.query ∧
      ∃ again, (openShop.guard guarded.text guarded.parameters (.ofPrincipal "ann")
          openShop.initialCache).1 = .ok again ∧
        again.text = guarded.text ∧ again.parameters = guarded.parameters := by
  have runs : (openShop.guard "select c from Customer c where exists (select o from Order o where o.customer = c and o.total > :low) and exists (select o from Order o where o.total > 1.5) and c.name = :name"
      (.ofList [("unused", .null), ("name", .string "a"), ("low", .int32 5)]) .anonymous
      openShop.initialCache).1.toOption.map
        (fun guarded => (guarded.text, guarded.parameters.names)) =
      some ("select c from Customer c where exists (select o from Order o where o.customer = c and o.total > :low) and exists (select o1 from Order o1 where o1.total > 1.5) and c.name = :name", ["name", "low"]) := by
    decide +kernel
  have read : (Query.parse "select c from Customer c where exists (select o from Order o where o.customer = c and o.total > :low) and exists (select o from Order o where o.total > 1.5) and c.name = :name"
      openShop.settings.depth).toOption.all
        (fun query => decide (∀ x ∈ query.decimals, x.IsFinite)) := by
    decide +kernel
  obtain ⟨guarded, guards, same⟩ := Option.map_eq_some_iff.mp runs
  obtain ⟨text, names⟩ := Prod.mk.inj same
  have finite : ∀ query, Query.parse "select c from Customer c where exists (select o from Order o where o.customer = c and o.total > :low) and exists (select o from Order o where o.total > 1.5) and c.name = :name"
      openShop.settings.depth = .ok query → ∀ x ∈ query.decimals, x.IsFinite := by
    intro query parsed
    rw [parsed] at read
    exact of_decide_eq_true read
  obtain ⟨query, parsed, _, apart, _, _, _, again⟩ :=
    guard_stable .initial rfl (ok_of_toOption guards) finite
  exact ⟨guarded, query, ok_of_toOption guards, parsed, text, names, apart, again _ _ .initial⟩

end Engine

end QueryGuard
