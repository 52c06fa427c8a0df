import QueryGuard.Catalog.ScalarType
/-!
Kinds of entities and their attributes.
-/

set_option autoImplicit false

namespace QueryGuard

/-- What an attribute holds: a simple value, or entities of a kind. -/
inductive AttributeKind where
  | scalar (type : ScalarType)
  | reference (entity : String)
deriving DecidableEq, Repr

/-- How many values an attribute holds. -/
inductive Cardinality where
  | single | collection
deriving DecidableEq, Repr

structure Attribute where
  name : String
  kind : AttributeKind
  cardinality : Cardinality
  nullable : Bool
deriving DecidableEq, Repr

namespace Attribute

/-- The name of the type or of the kind of entity. -/
def target (attr : Attribute) : String :=
  match attr.kind with
  | .scalar type => type.spelling
  | .reference entity => entity

def isReference (attr : Attribute) : Bool :=
  match attr.kind with
  | .scalar _ => false
  | .reference _ => true

def isCollection (attr : Attribute) : Bool := attr.cardinality = .collection

def scalarType? (attr : Attribute) : Option ScalarType :=
  match attr.kind with
  | .scalar type => some type
  | .reference _ => none

end Attribute

/-- The attributes that say who owns an entity and whether it was deleted. -/
structure Lifecycle where
  softDelete : Option String
  tenant : Option String
deriving DecidableEq, Repr

/-- A kind of entities. -/
structure Entity where
  name : String
  identity : String
  attributes : List Attribute
  lifecycle : Lifecycle
deriving DecidableEq, Repr

namespace Entity

/-- The first attribute of the name. -/
def attribute? (entity : Entity) (name : String) : Option Attribute :=
  entity.attributes.find? (·.name == name)

/-- The attribute that tells entities of the kind apart. -/
def identity? (entity : Entity) : Option Attribute := entity.attribute? entity.identity

theorem attribute?_name {entity : Entity} {name : String} {attr : Attribute}
    (found : entity.attribute? name = some attr) : attr.name = name := by
  have holds := List.find?_some found
  simpa using holds

end Entity

end QueryGuard
