import QueryGuard.Catalog.Schema
/-!
Following a chain of attributes from an entity. Each attribute but the last leads to one entity.
-/

set_option autoImplicit false

namespace QueryGuard

/-- What a chain of attributes ends on. -/
inductive Terminal where
  | entity (name : String) (collection : Bool)
  | scalar (type : ScalarType)
deriving DecidableEq, Repr

/-- A chain of attributes that the catalog knows. -/
structure Navigation where
  root : String
  attributes : List Attribute
  terminal : Terminal
deriving DecidableEq, Repr

namespace Navigation

def scalarType? (navigation : Navigation) : Option ScalarType :=
  match navigation.terminal with
  | .scalar type => some type
  | .entity _ _ => none

def entity? (navigation : Navigation) : Option String :=
  match navigation.terminal with
  | .entity name _ => some name
  | .scalar _ => none

def isCollection (navigation : Navigation) : Bool :=
  match navigation.terminal with
  | .entity _ collection => collection
  | .scalar _ => false

end Navigation

/-- Why a chain of attributes cannot be followed. -/
inductive NavigationError where
  | unknownEntity (name : String)
  | unknownAttribute (entity attr : String)
  | scalarNotTraversable (entity attr : String)
  | collectionNotTraversable (entity attr : String)
deriving DecidableEq, Repr

def NavigationError.message : NavigationError → String
  | unknownEntity name => "unknown entity '" ++ name ++ "'"
  | unknownAttribute entity attr => "entity '" ++ entity ++ "' has no attribute '" ++ attr ++ "'"
  | scalarNotTraversable entity attr =>
      "'" ++ entity ++ "." ++ attr ++ "' is a scalar and cannot be navigated further"
  | collectionNotTraversable entity attr =>
      "'" ++ entity ++ "." ++ attr ++ "' is collection-valued; join it to navigate further"

namespace Schema

/-- The entity of a name. -/
def requireEntity (schema : Schema) (name : String) : Except NavigationError Entity :=
  match schema.entity? name with
  | some entity => return entity
  | none => throw (.unknownEntity name)

/-- The attribute of a name. -/
def requireAttribute (owner : Entity) (name : String) : Except NavigationError Attribute :=
  match owner.attribute? name with
  | some attr => return attr
  | none => throw (.unknownAttribute owner.name name)

/-- The attributes of a chain and what it ends on. -/
def follow (schema : Schema) (owner : Entity) :
    List String → Except NavigationError (List Attribute × Terminal)
  | [] => return ([], .entity owner.name false)
  | [last] => do
      let attr ← requireAttribute owner last
      match attr.kind with
      | .scalar type => return ([attr], .scalar type)
      | .reference target =>
          let _ ← schema.requireEntity target
          return ([attr], .entity target attr.isCollection)
  | segment :: next :: rest => do
      let attr ← requireAttribute owner segment
      match attr.kind with
      | .scalar _ => throw (.scalarNotTraversable owner.name attr.name)
      | .reference target =>
          if attr.isCollection then throw (.collectionNotTraversable owner.name attr.name)
          let entity ← schema.requireEntity target
          let (attributes, terminal) ← schema.follow entity (next :: rest)
          return (attr :: attributes, terminal)

/-- Follows a chain of attributes from an entity. -/
def navigate (schema : Schema) (entity : String) (segments : List String) :
    Except NavigationError Navigation := do
  let root ← schema.requireEntity entity
  let (attributes, terminal) ← schema.follow root segments
  return ⟨root.name, attributes, terminal⟩

end Schema

end QueryGuard
