import QueryGuard.Model.FreshAlias
import QueryGuard.Syntax.Renaming
/-!
Queries side by side may use the same alias; each but the first gets an alias of its own.
-/

set_option autoImplicit false

namespace QueryGuard

namespace Siblings

/-- The aliases that occur or have been chosen, and those of queries that have been left. -/
structure State where
  taken : List String
  closed : List String

/-- An alias of the query with the one that is used for it. -/
abbrev Chosen := String × String

/-- Chooses an alias: a new one if a query that has been left uses it, unless it is visible. -/
def choose (visible : List Chosen) (name : String) : StateM State String := do
  let state ← get
  let isVisible := visible.any fun (written, used) => written == name || used == name
  if !isVisible && state.closed.contains name then
    let fresh := FreshAlias.choose state.taken name
    set { state with taken := fresh :: state.taken }
    return fresh
  else return name

/-- Chooses the aliases of a level, given those of the levels around it. -/
def chooseAll (visible : List Chosen) : List String → StateM State (List Chosen)
  | [] => return []
  | name :: rest => do
      let used ← choose visible name
      let others ← chooseAll ((name, used) :: visible) rest
      return (name, used) :: others

/-- The pairs that change an alias. -/
def changes (chosen : List Chosen) : Renaming :=
  chosen.filter fun (written, used) => written != used

/-- Renames one level and leaves the queries inside to the given step. -/
def level (nested : List Chosen → Query → StateM State Query) (visible : List Chosen)
    (query : Query) : StateM State Query := do
  let chosen ← chooseAll visible (query.aliases.map (·.value))
  let renamed := query.rename (changes chosen)
  let result ← renamed.mapSubqueries (nested (chosen ++ visible))
  modify fun state => { state with closed := chosen.map (·.2) ++ state.closed }
  return result

/-- Renames a query with at most `depth` levels of queries inside. -/
def levels : (depth : Nat) → List Chosen → Query → StateM State Query
  | 0 => level fun _ query => return query
  | depth + 1 => level (levels depth)

end Siblings

/-- The query with aliases that tell queries side by side apart. -/
def Query.separateSiblings (query : Query) : Query :=
  (Siblings.levels query.nesting [] query |>.run ⟨query.allAliases, []⟩).1

end QueryGuard
