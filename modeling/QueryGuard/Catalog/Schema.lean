import QueryGuard.Catalog.Entity
import QueryGuard.ConfigurationError
/-!
The catalog of all kinds of entities, in the order of their names.
-/

set_option autoImplicit false

namespace QueryGuard

/-- Puts an entity in its place among others, instead of one of its name. -/
def Entity.insertInto (entity : Entity) : List Entity → List Entity
  | [] => [entity]
  | other :: rest =>
      if entity.name = other.name then entity :: rest
      else if entity.name < other.name then entity :: other :: rest
      else other :: entity.insertInto rest

/-- The names of a list of entities increase. -/
def Entity.Increasing (entities : List Entity) : Prop :=
  entities.Pairwise fun first second => first.name < second.name

namespace Entity

theorem mem_insertInto {entity member : Entity} {entities : List Entity}
    (found : member ∈ entity.insertInto entities) : member = entity ∨ member ∈ entities := by
  induction entities with
  | nil =>
    simp only [insertInto, List.mem_singleton] at found
    exact .inl found
  | cons other rest ih =>
    simp only [insertInto] at found
    split at found
    · simp only [List.mem_cons] at found ⊢
      exact found.imp_right .inr
    · split at found
      · simpa only [List.mem_cons] using found
      · simp only [List.mem_cons] at found ⊢
        rcases found with same | found
        · exact .inr (.inl same)
        · exact (ih found).imp_right .inr

theorem increasing_insertInto (entity : Entity) {entities : List Entity}
    (sorted : Increasing entities) : Increasing (entity.insertInto entities) := by
  induction entities with
  | nil => exact List.pairwise_singleton _ _
  | cons other rest ih =>
    obtain ⟨first, others⟩ := List.pairwise_cons.mp sorted
    simp only [insertInto]
    split
    · rename_i same
      exact List.pairwise_cons.mpr ⟨fun member found => same ▸ first member found, others⟩
    · rename_i different
      split
      · rename_i less
        refine List.pairwise_cons.mpr ⟨?_, sorted⟩
        intro member found
        rcases List.mem_cons.mp found with rfl | found
        · exact less
        · exact String.lt_trans less (first member found)
      · rename_i notLess
        refine List.pairwise_cons.mpr ⟨?_, ih others⟩
        intro member found
        rcases mem_insertInto found with rfl | found
        · exact Std.lt_of_le_of_ne (String.not_lt.mp notLess) (Ne.symm different)
        · exact first member found

end Entity

/-- All kinds of entities, and the tenant that stands for none. -/
structure Schema where
  entities : List Entity
  sentinel : String
  increasing : Entity.Increasing entities

namespace Schema

/-- The tenant that stands for none unless stated otherwise. -/
def defaultSentinel : String := "NO_TENANT"

def empty : Schema := ⟨[], defaultSentinel, List.Pairwise.nil⟩

/-- Adds an entity in the place of one of its name. -/
def insert (schema : Schema) (entity : Entity) : Schema :=
  ⟨entity.insertInto schema.entities, schema.sentinel,
    entity.increasing_insertInto schema.increasing⟩

def withSentinel (schema : Schema) (sentinel : String) : Schema := { schema with sentinel }

def entity? (schema : Schema) (name : String) : Option Entity :=
  schema.entities.find? (·.name == name)

theorem entity?_name {schema : Schema} {name : String} {entity : Entity}
    (found : schema.entity? name = some entity) : entity.name = name := by
  have holds := List.find?_some found
  simpa using holds

def contains (schema : Schema) (name : String) : Bool := (schema.entity? name).isSome

def names (schema : Schema) : List String := schema.entities.map (·.name)

/-- Whether the attribute can say which tenant owns an entity. -/
def canHoldTenant (attr : Attribute) : Bool := attr.scalarType?.isSome && !attr.isCollection

/-- Whether the attribute can say that an entity was deleted. -/
def canMarkDeletion (attr : Attribute) : Bool := attr.nullable && attr.scalarType?.isSome

/-- Checks that an attribute leads to a known kind of entities. -/
def checkReference (schema : Schema) (entity : Entity) (attr : Attribute) :
    Except ConfigurationError Unit :=
  match attr.kind with
  | .reference target =>
      if schema.contains target then return
      else throw (.unknownReference entity.name attr.name target)
  | .scalar _ => return

/-- Checks an attribute of the lifecycle, if one is named. -/
def checkLifecycle (entity : Entity) (name : Option String) (fits : Attribute → Bool)
    (error : (name entity : String) → ConfigurationError) : Except ConfigurationError Unit :=
  match name with
  | some name =>
      if (entity.attribute? name).any fits then return else throw (error name entity.name)
  | none => return

/-- Checks the identity, the references and the lifecycle of an entity, in this order. -/
def checkEntity (schema : Schema) (entity : Entity) : Except ConfigurationError Unit := do
  if entity.identity?.isNone then throw (.missingIdentity entity.name entity.identity)
  entity.attributes.forM (schema.checkReference entity)
  checkLifecycle entity entity.lifecycle.tenant canHoldTenant .tenantAttribute
  checkLifecycle entity entity.lifecycle.softDelete canMarkDeletion .softDeleteAttribute

/-- Checks all entities; the first fault is reported. -/
def check (schema : Schema) : Except ConfigurationError Unit :=
  schema.entities.forM schema.checkEntity

/-- Adds entities of new names only. -/
def insertNew (schema : Schema) : List Entity → Except ConfigurationError Schema
  | [] => return schema
  | entity :: rest =>
      if schema.contains entity.name then throw (.duplicateEntity entity.name)
      else (schema.insert entity).insertNew rest

/-- The checked catalog of the given entities. -/
def ofEntities (entities : List Entity) : Except ConfigurationError Schema := do
  let schema ← empty.insertNew entities
  schema.check
  return schema

end Schema

end QueryGuard
