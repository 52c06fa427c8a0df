import QueryGuard.ConfigurationError
import QueryGuard.Model.Scope
import QueryGuard.Json.Reader
import QueryGuard.Json.Record
import QueryGuard.Syntax.Lexing
import QueryGuard.Syntax.Parser
/-!
Settings of the engine.
-/

set_option autoImplicit false

namespace QueryGuard

/-- How many parsed queries are kept, how deeply queries may be nested, and how criteria are
applied. -/
structure Settings where
  /-- No number stands for no cache. -/
  cacheCapacity : Option Nat
  depth : Nat
  scope : Scope
deriving DecidableEq, Repr

namespace Settings

def defaultCapacity : Nat := 1024

def standard : Settings := ⟨some defaultCapacity, Query.defaultDepth, .standard⟩

/-- Whether parameter names may start with the text. -/
def isPrefix (text : List Char) : Bool :=
  text.head?.any Lexing.isNameStart && text.all Lexing.isMarkerPart

/-- Checks the text that parameter names start with, and the capacity. -/
def check (settings : Settings) : Except ConfigurationError Unit := do
  if !isPrefix settings.scope.parameterPrefix.toList then
    throw (.parameterPrefix settings.scope.parameterPrefix)
  if settings.cacheCapacity = some 0 then throw .cacheCapacity

open Json

/-- The settings that a document writes; those left out are the standard ones. -/
def ofWritten? (written : Written) : Option Settings := do
  let record ← written.record? ["parse_cache_capacity", "criterion_parameter_prefix",
    "max_subquery_depth", "apply_to_joins", "apply_to_subqueries"]
  return {
    cacheCapacity := ← record.optional "parse_cache_capacity" standard.cacheCapacity
      (Written.nullable? Written.count?)
    depth := ← record.optional "max_subquery_depth" standard.depth Written.count?
    scope := {
      parameterPrefix := ← record.optional "criterion_parameter_prefix"
        standard.scope.parameterPrefix Written.string?
      joins := ← record.optional "apply_to_joins" standard.scope.joins Written.bool?
      subqueries := ← record.optional "apply_to_subqueries" standard.scope.subqueries
        Written.bool? } }

/-- The checked settings of a document. -/
def ofText (text : String) : Except ConfigurationError Settings := do
  match (Written.read? text).bind ofWritten? with
  | none => throw .unreadableSettings
  | some settings =>
      settings.check
      return settings

end Settings

end QueryGuard
