import QueryGuard.Proofs.Criterion.BuiltIn
import QueryGuard.Proofs.Engine.Caching
import QueryGuard.Proofs.Reading.NormalForm
import QueryGuard.Proofs.Reading.Results
/-!
The text of a guarded query says what its model does.
-/

set_option autoImplicit false

namespace QueryGuard

theorem Model.text_serialize {model : Model} {serialized : Serialized}
    (result : model.serialize = .ok serialized) : serialized.text = model.query.text := by
  unfold serialize at result
  dsimp only at result
  split at result
  · cases result
  · rw [← Except.ok.inj result]

namespace Engine

variable {engine : Engine}

/-- A query is guarded by binding it, constraining it and writing it down. -/
theorem guardQuery_ok {query : Query} {parameters : ParameterMap} {security : SecurityContext}
    {guarded : Guarded} (guards : engine.guardQuery query parameters security = .ok guarded) :
    ∃ bound, Model.bind engine.schema query parameters = .ok bound ∧
      bound.constrain engine.schema engine.registry engine.settings.scope security =
        .ok guarded.model ∧
      guarded.text = guarded.model.query.text := by
  obtain ⟨bound, bind, guards⟩ := ok_of_bind guards
  obtain ⟨model, constrain, guards⟩ := ok_of_bind guards
  obtain ⟨serialized, serialize, returned⟩ := ok_of_bind guards
  rw [← Except.ok.inj returned]
  exact ⟨bound, bind, constrain, Model.text_serialize serialize⟩

/-- The tree of a guarded query can be written down, if the engine knows its own criteria only and
all numbers of the query are finite. -/
theorem guardQuery_printable {query : Query} {parameters : ParameterMap}
    {security : SecurityContext} {guarded : Guarded}
    (guards : engine.guardQuery query parameters security = .ok guarded)
    (builtIn : ∀ criterion ∈ engine.registry.criteria, criterion.BuiltIn)
    (printable : query.Printable) : guarded.model.query.Printable := by
  obtain ⟨bound, bind, constrain, _⟩ := guardQuery_ok guards
  have constrained := Model.constrained_of_copies bind constrain
    (Constraint.copies_printable bound.aliases)
  refine constrained.printable ?_ ?_
  · intro criterion member entity name contribution result
    exact (builtIn criterion member).printable (Settings.isMarker_of_check engine.checked) result
  · rw [(Model.bind_ranges bind).1]
    exact printable.separateSiblings

/-- The text of a guarded query is read as its model, at any depth that its queries are nested in;
the two are the same up to places and to how conditions are put together. -/
theorem guard_text_reads {cache : Option ParseCache} (reachable : engine.Reachable cache)
    (builtIn : ∀ criterion ∈ engine.registry.criteria, criterion.BuiltIn) {source : String}
    {parameters : ParameterMap} {security : SecurityContext} {guarded : Guarded}
    (guards : (engine.guard source parameters security cache).1 = .ok guarded)
    (finite : ∀ query, Query.parse source engine.settings.depth = .ok query →
      ∀ x ∈ query.decimals, x.IsFinite)
    {depth : Nat} (within : guarded.model.query.nesting ≤ depth) :
    ∃ reread, Query.parse guarded.text depth = .ok reread ∧
      reread.normal.unplaced = guarded.model.query.normal.unplaced := by
  have answers := engine.parse_reachable reachable source
  unfold guard at guards
  simp only [answers] at guards
  cases parsed : engine.parseDirectly source with
  | error error =>
    rw [parsed] at guards
    cases guards
  | ok query =>
    rw [parsed] at guards
    have printable := (Query.parsed_of_parse parsed).printable (finite query parsed)
    obtain ⟨_, _, _, text⟩ := guardQuery_ok guards
    rw [text]
    exact (guardQuery_printable guards builtIn printable).parse_normal within

/-- The engine of the shop. Customers are seen by their tenant if they placed the order that the
caller names, and orders if they were not deleted. -/
def shop : Engine where
  schema := .shop
  registry := ⟨[Criterion.tenant, Criterion.softDelete,
    RowPolicy.criterion ⟨"cheap", "Order", .or [.matching ⟨"total", "price", false⟩, .and []], none⟩,
    Membership.criterion { name := "placed", target := "Customer", membership := "Order",
                           reference := "customer", member := "id", contextAttr := "order" }],
    by decide⟩
  settings := .standard
  checked := rfl

theorem builtIn_shop : ∀ criterion ∈ shop.registry.criteria, criterion.BuiltIn := by
  have letters : ∀ c ∈ "tenantId".toList, Lexing.isMarkerPart c := List.all_eq_true.mp rfl
  refine List.forall_mem_cons.mpr ⟨.tenant letters, List.forall_mem_cons.mpr ⟨.softDelete, ?_⟩⟩
  refine List.forall_mem_cons.mpr ⟨.policy _, List.forall_mem_cons.mpr ⟨.membership _, ?_⟩⟩
  exact List.forall_mem_nil _

/-- The caller's OR does not reach beyond its parentheses. -/
theorem guard_text_reads_shop :
    ∃ guarded,
      (shop.guard "select c from Customer c left join Order o on o.customer = c where c.name = 'a' or c.name = 'b'"
        .empty (((SecurityContext.ofPrincipal "ann").withAttribute "price" (.int32 5)).withAttribute
          "order" (.string "17")) shop.initialCache).1 = .ok guarded ∧
      guarded.text = "select c from Customer c left join Order o on (o.customer = c) and (o.deleted is null) and (o.total = :criterion_cheap_price or 1 = 1) where (c.name = 'a' or c.name = 'b') and (:criterion_tenantId = 'NO_TENANT' or c.tenant = :criterion_tenantId) and (exists (select m from Order m where m.customer = c and m.id = :criterion_placed_order))" ∧
      ∃ reread, Query.parse guarded.text 1 = .ok reread ∧
        reread.normal.unplaced = guarded.model.query.normal.unplaced := by
  have runs : (shop.guard "select c from Customer c left join Order o on o.customer = c where c.name = 'a' or c.name = 'b'"
      .empty (((SecurityContext.ofPrincipal "ann").withAttribute "price" (.int32 5)).withAttribute
        "order" (.string "17")) shop.initialCache).1.toOption.map
        (fun guarded => (guarded.text, guarded.model.query.nesting)) =
      some ("select c from Customer c left join Order o on (o.customer = c) and (o.deleted is null) and (o.total = :criterion_cheap_price or 1 = 1) where (c.name = 'a' or c.name = 'b') and (:criterion_tenantId = 'NO_TENANT' or c.tenant = :criterion_tenantId) and (exists (select m from Order m where m.customer = c and m.id = :criterion_placed_order))", 1) := by
    decide +kernel
  have read : (Query.parse "select c from Customer c left join Order o on o.customer = c where c.name = 'a' or c.name = 'b'"
      shop.settings.depth).toOption.all (fun query => decide (∀ x ∈ query.decimals, x.IsFinite)) := by
    decide +kernel
  obtain ⟨guarded, guards, same⟩ := Option.map_eq_some_iff.mp runs
  obtain ⟨text, nesting⟩ := Prod.mk.inj same
  refine ⟨guarded, ok_of_toOption guards, text, guard_text_reads .initial builtIn_shop
    (ok_of_toOption guards) (fun query parsed => ?_) (Nat.le_of_eq nesting)⟩
  rw [parsed] at read
  exact of_decide_eq_true read

end Engine

end QueryGuard
