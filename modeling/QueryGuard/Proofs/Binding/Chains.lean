import QueryGuard.Catalog.Navigation
import QueryGuard.Proofs.Rewriting.Replacement
/-!
Where chains of attributes lead, through collections or not. A chain may end on a collection, but
goes no further than that.
-/

set_option autoImplicit false

namespace QueryGuard

namespace Schema

variable {schema : Schema}

/-- The kind of entities that a chain of references leads to, through collections or not. -/
def reach? (schema : Schema) : (entity : String) → List String → Option String
  | entity, [] => some entity
  | entity, segment :: rest => do
      let owner ← schema.entity? entity
      let attr ← owner.attribute? segment
      match attr.kind with
      | .reference target => schema.reach? target rest
      | .scalar _ => none

/-- The attribute leads to any number of entities. -/
def Collects (schema : Schema) (entity name : String) : Prop :=
  ∃ owner attr, schema.entity? entity = some owner ∧ owner.attribute? name = some attr ∧
    attr.isReference = true ∧ attr.isCollection = true

theorem reach?_append (entity : String) (first rest : List String) :
    schema.reach? entity (first ++ rest) =
      (schema.reach? entity first).bind (schema.reach? · rest) := by
  induction first generalizing entity with
  | nil => rfl
  | cons segment others ih =>
    simp only [List.cons_append, reach?, Option.bind_eq_bind, Option.bind_assoc]
    refine Option.bind_congr fun owner _ => Option.bind_congr fun attr _ => ?_
    split
    · exact ih _
    · rfl

theorem requireEntity_ok {name : String} {entity : Entity}
    (required : schema.requireEntity name = .ok entity) : schema.entity? name = some entity := by
  unfold requireEntity at required
  split at required
  · rename_i found
    rw [found, Except.ok.inj required]
  · cases required

theorem requireAttribute_ok {owner : Entity} {name : String} {attr : Attribute}
    (required : requireAttribute owner name = .ok attr) : owner.attribute? name = some attr := by
  unfold requireAttribute at required
  split at required
  · rename_i found
    rw [found, Except.ok.inj required]
  · cases required

/-- What following a chain does at its first attribute: the chain ends there, or it goes on from one
entity. -/
inductive Followed (schema : Schema) (attr : Attribute) : List String → Terminal → Prop where
  | scalar {type : ScalarType} (kind : attr.kind = .scalar type) :
      Followed schema attr [] (.scalar type)
  | reference {target : String} {entity : Entity} (kind : attr.kind = .reference target)
      (known : schema.entity? target = some entity) :
      Followed schema attr [] (.entity target attr.isCollection)
  | further {target : String} {entity : Entity} {rest : List String} {attributes : List Attribute}
      {terminal : Terminal} (kind : attr.kind = .reference target)
      (single : attr.isCollection = false) (known : schema.entity? target = some entity)
      (follows : schema.follow entity rest = .ok (attributes, terminal)) :
      Followed schema attr rest terminal

theorem follow_cons {owner : Entity} {segment : String} {rest : List String}
    {attributes : List Attribute} {terminal : Terminal}
    (follows : schema.follow owner (segment :: rest) = .ok (attributes, terminal)) :
    ∃ attr, owner.attribute? segment = some attr ∧ Followed schema attr rest terminal := by
  cases rest with
  | nil =>
    obtain ⟨attr, required, follows⟩ := ok_of_bind follows
    refine ⟨attr, requireAttribute_ok required, ?_⟩
    split at follows
    · rename_i kind
      obtain ⟨_, rfl⟩ := Prod.mk.inj (Except.ok.inj follows)
      exact .scalar kind
    · rename_i kind
      obtain ⟨_, known, follows⟩ := ok_of_bind follows
      obtain ⟨_, rfl⟩ := Prod.mk.inj (Except.ok.inj follows)
      exact .reference kind (requireEntity_ok known)
  | cons next others =>
    obtain ⟨attr, required, follows⟩ := ok_of_bind follows
    refine ⟨attr, requireAttribute_ok required, ?_⟩
    split at follows
    · cases follows
    · rename_i kind
      dsimp only at follows
      split at follows
      · cases follows
      · rename_i single
        obtain ⟨entity, known, follows⟩ := ok_of_bind follows
        obtain ⟨⟨_, _⟩, further, follows⟩ := ok_of_bind follows
        obtain ⟨_, rfl⟩ := Prod.mk.inj (Except.ok.inj follows)
        exact .further kind (Bool.eq_false_iff.mpr single) (requireEntity_ok known) further

/-- A chain of attributes that starts at a known entity ends on one, if it does not end on a
scalar. -/
theorem follow_entity {owner : Entity} {segments : List String} {attributes : List Attribute}
    {name : String} {collection : Bool} (start : schema.entity? owner.name = some owner)
    (follows : schema.follow owner segments = .ok (attributes, .entity name collection)) :
    ∃ entity, schema.entity? name = some entity := by
  induction segments generalizing owner attributes with
  | nil =>
    obtain ⟨_, same⟩ := Prod.mk.inj (Except.ok.inj follows)
    rw [← (Terminal.entity.inj same).1]
    exact ⟨owner, start⟩
  | cons segment rest ih =>
    obtain ⟨attr, _, followed⟩ := follow_cons follows
    cases followed with
    | reference _ known => exact ⟨_, known⟩
    | further _ _ known further =>
      have named := entity?_name known
      exact ih (named.symm ▸ known) further

/-- A chain that is followed to an entity reaches its kind. -/
theorem follow_reach {owner : Entity} {segments : List String} {attributes : List Attribute}
    {name : String} {collection : Bool} (start : schema.entity? owner.name = some owner)
    (follows : schema.follow owner segments = .ok (attributes, .entity name collection)) :
    schema.reach? owner.name segments = some name := by
  induction segments generalizing owner attributes with
  | nil =>
    obtain ⟨_, same⟩ := Prod.mk.inj (Except.ok.inj follows)
    exact congrArg some (Terminal.entity.inj same).1
  | cons segment rest ih =>
    obtain ⟨attr, found, followed⟩ := follow_cons follows
    simp only [reach?, start, Option.bind_eq_bind, Option.bind_some, found]
    cases followed with
    | reference kind _ =>
      rw [kind]
      rfl
    | further kind _ known further =>
      rw [kind]
      have named := entity?_name known
      subst named
      exact ih known further

/-- A collection is the last attribute of a chain that is followed to it. -/
theorem follow_last {owner : Entity} {segments : List String} {attributes : List Attribute}
    {name : String} (start : schema.entity? owner.name = some owner)
    (follows : schema.follow owner segments = .ok (attributes, .entity name true)) :
    ∃ front last entity, segments = front ++ [last] ∧
      schema.reach? owner.name front = some entity ∧ schema.Collects entity last := by
  induction segments generalizing owner attributes with
  | nil => cases follows
  | cons segment rest ih =>
    obtain ⟨attr, found, followed⟩ := follow_cons follows
    generalize terminal : Terminal.entity name true = terminal at followed
    cases followed with
    | scalar => cases terminal
    | @reference target _ kind _ =>
      have many := (Terminal.entity.inj terminal).2
      have reference : attr.isReference = true := by rw [Attribute.isReference, kind]
      exact ⟨[], segment, owner.name, rfl, rfl, owner, attr, start, found, reference, many.symm⟩
    | @further target entity _ _ _ kind single known further =>
      subst terminal
      have named := entity?_name known
      obtain ⟨front, last, owned, rfl, reach, collects⟩ := ih (named.symm ▸ known) further
      refine ⟨segment :: front, last, owned, rfl, ?_, collects⟩
      simp only [reach?, start, Option.bind_eq_bind, Option.bind_some, found]
      rw [kind, ← named]
      exact reach

/-- A chain that is followed goes no further than its first collection. -/
theorem follow_collects {owner : Entity} {front rest : List String} {last entity : String}
    {attributes : List Attribute} {terminal : Terminal}
    (start : schema.entity? owner.name = some owner)
    (follows : schema.follow owner (front ++ last :: rest) = .ok (attributes, terminal))
    (reach : schema.reach? owner.name front = some entity)
    (collects : schema.Collects entity last) :
    rest = [] ∧ ∃ name, terminal = .entity name true := by
  induction front generalizing owner attributes with
  | nil =>
    obtain rfl := Option.some.inj reach
    obtain ⟨owner', attr', start', found', reference, many⟩ := collects
    obtain rfl := Option.some.inj (start.symm.trans start')
    obtain ⟨attr, found, followed⟩ := follow_cons follows
    obtain rfl := Option.some.inj (found.symm.trans found')
    cases followed with
    | scalar kind =>
      rw [Attribute.isReference, kind] at reference
      cases reference
    | reference => exact ⟨rfl, _, congrArg _ many⟩
    | further _ single =>
      rw [many] at single
      cases single
  | cons segment others ih =>
    rw [List.cons_append] at follows
    obtain ⟨attr, found, followed⟩ := follow_cons follows
    simp only [reach?, start, Option.bind_eq_bind, Option.bind_some, found] at reach
    generalize split : others ++ last :: rest = behind at followed
    cases followed with
    | scalar => simp at split
    | reference => simp at split
    | further kind _ known further =>
      subst split
      rw [kind] at reach
      have named := entity?_name known
      subst named
      exact ih known further reach

section

variable {entity : String} {segments : List String} {navigation : Navigation}

theorem navigate_ok (navigates : schema.navigate entity segments = .ok navigation) :
    ∃ owner, owner.name = entity ∧ schema.entity? owner.name = some owner ∧
      schema.follow owner segments = .ok (navigation.attributes, navigation.terminal) := by
  obtain ⟨owner, required, navigates⟩ := ok_of_bind navigates
  obtain ⟨⟨attributes, terminal⟩, follows, navigates⟩ := ok_of_bind navigates
  obtain rfl := Except.ok.inj navigates
  have known := requireEntity_ok required
  have named := entity?_name known
  exact ⟨owner, named, named.symm ▸ known, follows⟩

theorem navigate_entity {name : String}
    (navigates : schema.navigate entity segments = .ok navigation)
    (ends : navigation.entity? = some name) : ∃ known, schema.entity? name = some known := by
  obtain ⟨owner, _, start, follows⟩ := navigate_ok navigates
  unfold Navigation.entity? at ends
  split at ends
  · rename_i terminal
    rw [terminal] at follows
    rw [← Option.some.inj ends]
    exact follow_entity start follows
  · cases ends

theorem navigate_reach {name : String}
    (navigates : schema.navigate entity segments = .ok navigation)
    (ends : navigation.entity? = some name) : schema.reach? entity segments = some name := by
  obtain ⟨owner, rfl, start, follows⟩ := navigate_ok navigates
  unfold Navigation.entity? at ends
  split at ends
  · rename_i terminal
    rw [terminal] at follows
    rw [← ends]
    exact follow_reach start follows
  · cases ends

theorem navigate_last (navigates : schema.navigate entity segments = .ok navigation)
    (collection : navigation.isCollection = true) :
    ∃ front last owner, segments = front ++ [last] ∧ schema.reach? entity front = some owner ∧
      schema.Collects owner last := by
  obtain ⟨owner, rfl, start, follows⟩ := navigate_ok navigates
  unfold Navigation.isCollection at collection
  split at collection
  · rename_i terminal
    rw [terminal, collection] at follows
    exact follow_last start follows
  · cases collection

theorem navigate_ne_nil (navigates : schema.navigate entity segments = .ok navigation)
    (collection : navigation.isCollection = true) : segments ≠ [] := by
  obtain ⟨front, last, _, split, _⟩ := navigate_last navigates collection
  rw [split]
  exact List.append_ne_nil_of_right_ne_nil _ (List.cons_ne_nil _ _)

theorem navigate_collects {front rest : List String} {last owner : String}
    (navigates : schema.navigate entity (front ++ last :: rest) = .ok navigation)
    (reach : schema.reach? entity front = some owner) (collects : schema.Collects owner last) :
    rest = [] ∧ navigation.isCollection = true := by
  obtain ⟨_, rfl, start, follows⟩ := navigate_ok navigates
  obtain ⟨none, name, terminal⟩ := follow_collects start follows reach collects
  refine ⟨none, ?_⟩
  rw [Navigation.isCollection, terminal]

end

end Schema

end QueryGuard
