import QueryGuard.Syntax.Parts
/-!
Renaming of aliases. A query inside another hides the aliases that it declares itself.
-/

set_option autoImplicit false

namespace QueryGuard

/-- New names by old ones; the first pair of an old name counts. -/
abbrev Renaming := List (String × String)

namespace Renaming

/-- The new name, or the old one if it is not renamed. -/
def apply (names : Renaming) (name : String) : String := (names.lookup name).getD name

def name (names : Renaming) (name : Name) : Name :=
  { name with value := names.apply name.value }

def path (names : Renaming) (path : Path) : Path :=
  { path with root := names.name path.root }

def target (names : Renaming) : JoinTarget → JoinTarget
  | .path chain => .path (names.path chain)
  | .entity name => .entity name

def range (names : Renaming) (range : Range) : Range :=
  { range with name := names.name range.name }

/-- The part that is visible inside a query which declares aliases of its own. -/
def inside {α : Type} (names : Renaming) (query : Select α) : Renaming :=
  names.filter fun (old, _) => !query.declares old

/-- The walk that renames; a query inside a condition gets what it leaves visible. -/
def walk : PredicateFold (Renaming → Predicate) (Renaming → Query) where
  and := fun operands names => .and (operands.map (· names))
  or := fun operands names => .or (operands.map (· names))
  not := fun operand names => .not (operand names)
  group := fun operand names => .group (operand names)
  test := fun leaf names => .test (leaf.mapExprs (Expr.mapPaths names.path))
  inQuery := fun tested query negated names =>
    .inQuery (tested.mapPaths names.path) (query names) negated
  existsIn := fun query negated names => .existsIn (query names) negated
  query := fun query outer => level query (outer.inside query)
where
  /-- One level, given how its conditions are renamed. -/
  level (query : Select (Renaming → Predicate)) (names : Renaming) : Query :=
    { query.map (· names) with
      items := query.items.map fun item => { item with expr := item.expr.mapPaths names.path }
      root := names.range query.root
      joins := query.joins.map fun join =>
        { join.map (· names) with
          target := names.target join.target, name := names.name join.name }
      groupBy := query.groupBy.map (Expr.mapPaths names.path)
      orderBy := query.orderBy.map fun item =>
        { item with expr := item.expr.mapPaths names.path } }

end Renaming

/-- The path with its first name renamed. -/
def Path.rename (path : Path) (names : Renaming) : Path := names.path path

/-- The condition with all paths renamed that do not start at a range inside it. -/
def Predicate.rename (predicate : Predicate) (names : Renaming) : Predicate :=
  predicate.fold Renaming.walk names

/-- The query with the aliases of its ranges renamed, and all paths that start there. -/
def Query.rename (query : Query) (names : Renaming) : Query :=
  Renaming.walk.level (query.map fun condition => condition.rename) names

/-- The condition with one alias renamed. -/
def Predicate.renameAlias (predicate : Predicate) (old new : String) : Predicate :=
  predicate.rename [(old, new)]

/-- The query with one alias renamed. -/
def Query.renameAlias (query : Query) (old new : String) : Query := query.rename [(old, new)]

end QueryGuard
