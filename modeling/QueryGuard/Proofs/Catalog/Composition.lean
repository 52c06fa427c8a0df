import QueryGuard.Proofs.Binding.Chains
import QueryGuard.Proofs.Criterion.Lifecycle
import QueryGuard.Proofs.Rewriting.Coverage
/-!
Chains of attributes one after the other. Where a chain ends on one entity, another chain can go on from
there, and both are followed like one. A checked catalog knows all entities on the way.
-/

set_option autoImplicit false

namespace QueryGuard

namespace Schema

variable {schema : Schema}

/-! ### One attribute -/

theorem requireEntity_iff {name : String} {entity : Entity} :
    schema.requireEntity name = .ok entity ↔ schema.entity? name = some entity := by
  refine ⟨requireEntity_ok, fun known => ?_⟩
  rw [requireEntity, known]
  rfl

theorem requireAttribute_iff {owner : Entity} {name : String} {attr : Attribute} :
    requireAttribute owner name = .ok attr ↔ owner.attribute? name = some attr := by
  refine ⟨requireAttribute_ok, fun found => ?_⟩
  rw [requireAttribute, found]
  rfl

/-- The attribute of an entity leads to one entity, from which a chain can go on. -/
structure Leads (schema : Schema) (owner : Entity) (segment : String) (attr : Attribute)
    (next : Entity) : Prop where
  found : owner.attribute? segment = some attr
  kind : attr.kind = .reference next.name
  single : attr.isCollection = false
  known : schema.entity? next.name = some next

theorem Leads.follow {owner next : Entity} {segment : String} {attr : Attribute} {rest : List String}
    {attributes : List Attribute} {terminal : Terminal} (leads : schema.Leads owner segment attr next)
    (follows : schema.follow next rest = .ok (attributes, terminal)) :
    schema.follow owner (segment :: rest) = .ok (attr :: attributes, terminal) := by
  have required := requireAttribute_iff.mpr leads.found
  have known := requireEntity_iff.mpr leads.known
  cases rest with
  | nil =>
    obtain ⟨rfl, rfl⟩ := Prod.mk.inj (Except.ok.inj follows)
    rw [Schema.follow, required, Binding.ok_bind]
    simp only [leads.kind, known, Binding.ok_bind, leads.single]
    rfl
  | cons other others =>
    rw [Schema.follow, required, Binding.ok_bind]
    simp only [leads.kind, leads.single, known, follows, Binding.ok_bind, Bool.false_eq_true,
      ↓reduceIte]
    rfl

/-- The last attribute of a chain that ends on one entity leads to it. -/
theorem leads_of_follow_last {owner : Entity} {last name : String} {attributes : List Attribute}
    (follows : schema.follow owner [last] = .ok (attributes, .entity name false)) :
    ∃ attr next, schema.Leads owner last attr next ∧ next.name = name ∧ attributes = [attr] := by
  obtain ⟨attr, required, follows⟩ := ok_of_bind follows
  split at follows
  · cases follows
  · rename_i target kind
    obtain ⟨next, known, follows⟩ := ok_of_bind follows
    obtain ⟨rfl, ends⟩ := Prod.mk.inj (Except.ok.inj follows)
    obtain ⟨rfl, single⟩ := Terminal.entity.inj ends
    have known := requireEntity_ok known
    obtain rfl := entity?_name known
    exact ⟨attr, next, ⟨requireAttribute_ok required, kind, single, known⟩, rfl, rfl⟩

/-- All attributes of a chain but the last one lead to an entity. -/
theorem leads_of_follow_cons {owner : Entity} {segment : String} {rest : List String}
    {attributes : List Attribute} {terminal : Terminal} (goes : rest ≠ [])
    (follows : schema.follow owner (segment :: rest) = .ok (attributes, terminal)) :
    ∃ attr next others, schema.Leads owner segment attr next ∧
      schema.follow next rest = .ok (others, terminal) ∧ attributes = attr :: others := by
  obtain ⟨other, rest, rfl⟩ := List.exists_cons_of_ne_nil goes
  obtain ⟨attr, required, follows⟩ := ok_of_bind follows
  split at follows
  · cases follows
  · rename_i target kind
    dsimp only at follows
    split at follows
    · cases follows
    · rename_i single
      obtain ⟨next, known, follows⟩ := ok_of_bind follows
      obtain ⟨⟨others, _⟩, further, follows⟩ := ok_of_bind follows
      obtain ⟨rfl, rfl⟩ := Prod.mk.inj (Except.ok.inj follows)
      have known := requireEntity_ok known
      obtain rfl := entity?_name known
      exact ⟨attr, next, others,
        ⟨requireAttribute_ok required, kind, Bool.eq_false_iff.mpr single, known⟩, further, rfl⟩

/-! ### Chains -/

/-- A chain that goes on is followed like its two parts, the second one from where the first ends. -/
theorem follow_append {owner : Entity} {first rest : List String} {attributes : List Attribute}
    {terminal : Terminal} (start : schema.entity? owner.name = some owner) (goes : rest ≠ []) :
    schema.follow owner (first ++ rest) = .ok (attributes, terminal) ↔
      ∃ front next back, schema.follow owner first = .ok (front, .entity next.name false) ∧
        schema.entity? next.name = some next ∧ schema.follow next rest = .ok (back, terminal) ∧
        attributes = front ++ back := by
  induction first generalizing owner attributes with
  | nil =>
    constructor
    · intro follows
      exact ⟨[], owner, attributes, rfl, start, follows, rfl⟩
    · rintro ⟨front, next, back, ends, known, follows, rfl⟩
      obtain ⟨rfl, same⟩ := Prod.mk.inj (Except.ok.inj ends)
      rw [← (Terminal.entity.inj same).1] at known
      obtain rfl := Option.some.inj (start.symm.trans known)
      exact follows
  | cons segment others ih =>
    constructor
    · intro follows
      obtain ⟨attr, next, behind, leads, further, rfl⟩ :=
        leads_of_follow_cons (List.append_ne_nil_of_right_ne_nil _ goes) follows
      obtain ⟨front, last, back, ends, known, behind, rfl⟩ := (ih leads.known).mp further
      exact ⟨attr :: front, last, back, leads.follow ends, known, behind, rfl⟩
    · rintro ⟨front, last, back, ends, known, follows, rfl⟩
      have leads : ∃ attr next behind, schema.Leads owner segment attr next ∧
          schema.follow next others = .ok (behind, .entity last.name false) ∧
          front = attr :: behind := by
        clear ih
        cases others with
        | nil =>
          obtain ⟨attr, next, leads, named, rfl⟩ := leads_of_follow_last ends
          exact ⟨attr, next, [], leads, by rw [← named]; rfl, rfl⟩
        | cons other others => exact leads_of_follow_cons (List.cons_ne_nil _ _) ends
      obtain ⟨attr, next, behind, leads, front, rfl⟩ := leads
      exact leads.follow ((ih leads.known).mpr ⟨behind, last, back, front, known, follows, rfl⟩)

/-! ### Checked catalogs -/

/-- A checked catalog knows the entities that the attributes of its entities refer to. -/
theorem known_of_check {owner : Entity} {segment target : String} {attr : Attribute}
    (checked : schema.check = .ok ()) (start : schema.entity? owner.name = some owner)
    (found : owner.attribute? segment = some attr) (kind : attr.kind = .reference target) :
    ∃ next, schema.entity? target = some next := by
  have passes := checkEntity_of_check checked start
  unfold checkEntity at passes
  split at passes
  · cases passes
  obtain ⟨⟨⟩, references, _⟩ := ok_of_bind passes
  have passes := forM_ok references attr (List.mem_of_find?_eq_some found)
  rw [checkReference, kind] at passes
  dsimp only at passes
  split at passes
  · rename_i contained
    exact Option.isSome_iff_exists.mp contained
  · cases passes

theorem requireAttribute_error {owner : Entity} {segment name : String} :
    requireAttribute owner segment ≠ .error (.unknownEntity name) := by
  intro fails
  rw [requireAttribute] at fails
  split at fails <;> cases fails

/-- A chain comes to an unknown entity at its first attribute or behind it. -/
theorem follow_cons_error {owner : Entity} {segment name : String} {rest : List String}
    (fails : schema.follow owner (segment :: rest) = .error (.unknownEntity name)) :
    ∃ attr target, owner.attribute? segment = some attr ∧ attr.kind = .reference target ∧
      (schema.entity? target = none ∨ ∃ next, schema.entity? target = some next ∧
        schema.follow next rest = .error (.unknownEntity name)) := by
  have unknown : ∀ {target : String} {error : NavigationError},
      schema.requireEntity target = .error error → schema.entity? target = none := by
    intro target error required
    cases known : schema.entity? target with
    | none => rfl
    | some next =>
      rw [requireEntity_iff.mpr known] at required
      cases required
  cases rest with
  | nil =>
    rcases error_of_bind fails with fails | ⟨attr, required, fails⟩
    · exact absurd fails requireAttribute_error
    · split at fails
      · cases fails
      · rename_i target kind
        rcases error_of_bind fails with fails | ⟨_, _, fails⟩
        · exact ⟨attr, target, requireAttribute_ok required, kind, .inl (unknown fails)⟩
        · cases fails
  | cons other others =>
    rcases error_of_bind fails with fails | ⟨attr, required, fails⟩
    · exact absurd fails requireAttribute_error
    · split at fails
      · cases fails
      · rename_i target kind
        dsimp only at fails
        split at fails
        · cases fails
        refine ⟨attr, target, requireAttribute_ok required, kind, ?_⟩
        rcases error_of_bind fails with fails | ⟨next, known, fails⟩
        · exact .inl (unknown fails)
        · rcases error_of_bind fails with fails | ⟨⟨_, _⟩, _, fails⟩
          · exact .inr ⟨next, requireEntity_ok known, fails⟩
          · cases fails

/-- In a checked catalog a chain from a known entity does not come to an unknown one. -/
theorem follow_known {owner : Entity} {segments : List String} {name : String}
    (checked : schema.check = .ok ()) (start : schema.entity? owner.name = some owner) :
    schema.follow owner segments ≠ .error (.unknownEntity name) := by
  induction segments generalizing owner with
  | nil => exact nofun
  | cons segment rest ih =>
    intro fails
    obtain ⟨attr, target, found, kind, fails⟩ := follow_cons_error fails
    obtain ⟨next, known⟩ := known_of_check checked start found kind
    rw [known] at fails
    obtain ⟨_, same, fails⟩ := fails.resolve_left nofun
    obtain rfl := Option.some.inj same
    exact ih ((entity?_name known).symm ▸ known) fails

/-! ### Navigations -/

theorem navigate_iff {entity : String} {segments : List String} {navigation : Navigation} :
    schema.navigate entity segments = .ok navigation ↔
      ∃ owner, schema.entity? entity = some owner ∧ owner.name = navigation.root ∧
        schema.follow owner segments = .ok (navigation.attributes, navigation.terminal) := by
  constructor
  · intro navigates
    obtain ⟨owner, required, navigates⟩ := ok_of_bind navigates
    obtain ⟨⟨_, _⟩, follows, navigates⟩ := ok_of_bind navigates
    obtain rfl := Except.ok.inj navigates
    exact ⟨owner, requireEntity_ok required, rfl, follows⟩
  · rintro ⟨owner, known, root, follows⟩
    rw [navigate, requireEntity_iff.mpr known, Binding.ok_bind, follows, Binding.ok_bind, root]
    rfl

/-- Two chains of attributes are followed like one if the first ends on one entity, where the second
starts. A checked catalog knows all entities that chains come to. -/
theorem navigate_append (schema : Schema) (entity : String) (first : List String)
    {rest : List String} (goes : rest ≠ []) :
    (∀ navigation, schema.navigate entity (first ++ rest) = .ok navigation ↔
      ∃ front name back, schema.navigate entity first = .ok front ∧
        front.terminal = .entity name false ∧ schema.navigate name rest = .ok back ∧
        navigation = ⟨front.root, front.attributes ++ back.attributes, back.terminal⟩) ∧
    (schema.check = .ok () → schema.contains entity = true → ∀ segments name,
      schema.navigate entity segments ≠ .error (.unknownEntity name)) := by
  refine ⟨fun navigation => ⟨fun navigates => ?_, ?_⟩, fun checked contained _ _ fails => ?_⟩
  · obtain ⟨owner, known, root, follows⟩ := navigate_iff.mp navigates
    have start := (entity?_name known).symm ▸ known
    obtain ⟨front, next, back, ends, found, follows, joined⟩ :=
      (follow_append start goes).mp follows
    refine ⟨⟨owner.name, front, _⟩, next.name, ⟨next.name, back, navigation.terminal⟩, ?_, rfl, ?_,
      ?_⟩
    · exact navigate_iff.mpr ⟨owner, known, rfl, ends⟩
    · exact navigate_iff.mpr ⟨next, found, rfl, follows⟩
    · rw [← joined, root]
  · rintro ⟨front, name, back, navigates, ends, further, rfl⟩
    obtain ⟨owner, known, root, follows⟩ := navigate_iff.mp navigates
    obtain ⟨next, found, _, behind⟩ := navigate_iff.mp further
    obtain rfl := entity?_name found
    rw [ends] at follows
    refine navigate_iff.mpr ⟨owner, known, root, ?_⟩
    exact (follow_append ((entity?_name known).symm ▸ known) goes).mpr
      ⟨_, next, _, follows, found, behind, rfl⟩
  · obtain ⟨owner, known⟩ := Option.isSome_iff_exists.mp contained
    rcases error_of_bind fails with fails | ⟨_, required, fails⟩
    · rw [requireEntity_iff.mpr known] at fails
      cases fails
    · rcases error_of_bind fails with fails | ⟨⟨_, _⟩, _, fails⟩
      · have start := requireEntity_ok required
        exact follow_known checked ((entity?_name start).symm ▸ start) fails
      · cases fails

/-- The name of an order's customer. -/
theorem navigate_append_shop :
    ["name"] ≠ [] ∧ Schema.shop.check = .ok () ∧
      (∃ front name back, Schema.shop.navigate "Order" ["customer"] = .ok front ∧
        front.terminal = .entity name false ∧ Schema.shop.navigate name ["name"] = .ok back ∧
        Schema.shop.navigate "Order" ["customer", "name"] =
          .ok ⟨front.root, front.attributes ++ back.attributes, back.terminal⟩) ∧
      ∀ segments name, Schema.shop.navigate "Order" segments ≠ .error (.unknownEntity name) := by
  have checked : Schema.shop.check = .ok () := by decide +kernel
  have runs : (Schema.shop.navigate "Order" ["customer", "name"]).toOption.isSome := by decide +kernel
  obtain ⟨navigation, runs⟩ := Option.isSome_iff_exists.mp runs
  obtain ⟨composes, known⟩ := navigate_append .shop "Order" ["customer"] (List.cons_ne_nil "name" [])
  obtain ⟨front, name, back, first, ends, second, same⟩ :=
    (composes navigation).mp (ok_of_toOption runs)
  exact ⟨List.cons_ne_nil _ _, checked, ⟨front, name, back, first, ends, second,
    same ▸ ok_of_toOption runs⟩, known checked (by decide +kernel)⟩

end Schema

end QueryGuard
