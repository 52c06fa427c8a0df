import QueryGuard.Engine.ParseCache
import QueryGuard.Engine.Settings
import QueryGuard.Model.Constraint
import QueryGuard.Model.Projection
import QueryGuard.Model.Serialized
/-!
From the text of a query to the text that shows its caller only what the criteria allow.
-/

set_option autoImplicit false

namespace QueryGuard

/-- A catalog with the criteria that guard it, and checked settings. -/
structure Engine where
  schema : Schema
  registry : Registry
  settings : Settings
  checked : settings.check = .ok ()

/-- A guarded query, as text and as model. -/
structure Guarded where
  text : String
  parameters : ParameterMap
  model : Model

namespace Engine

/-- The engine of the given parts, if the settings pass their check. -/
def ofParts (schema : Schema) (registry : Registry) (settings : Settings) :
    Except ConfigurationError Engine :=
  match checked : settings.check with
  | .ok () => .ok ⟨schema, registry, settings, checked⟩
  | .error error => .error error

/-- The cache that the engine starts with, if it has one. -/
def initialCache (engine : Engine) : Option ParseCache :=
  engine.settings.cacheCapacity.map .ofCapacity

/-- Parses a text without a cache. -/
def parseDirectly (engine : Engine) (text : String) : Except SyntaxError Query :=
  Query.parse text engine.settings.depth

/-- Parses a text with the cache, if there is one. -/
def parse (engine : Engine) (text : String) (cache : Option ParseCache) :
    Except SyntaxError Query × Option ParseCache :=
  match cache with
  | some cache =>
      let (result, cache) := cache.get engine.parseDirectly text
      (result, some cache)
  | none => (engine.parseDirectly text, none)

/-- Guards a parsed query. -/
def guardQuery (engine : Engine) (query : Query) (parameters : ParameterMap)
    (security : SecurityContext) : Except QueryError Guarded := do
  let bound ← Model.bind engine.schema query parameters
  let model ← bound.constrain engine.schema engine.registry engine.settings.scope security
  let serialized ← model.serialize
  return ⟨serialized.text, serialized.parameters, model⟩

/-- Guards the query that a text writes, with the cache that is left afterwards. -/
def guard (engine : Engine) (text : String) (parameters : ParameterMap)
    (security : SecurityContext) (cache : Option ParseCache) :
    Except QueryError Guarded × Option ParseCache :=
  let (result, cache) := engine.parse text cache
  match result with
  | .ok query => (engine.guardQuery query parameters security, cache)
  | .error error => (.error (.syntactic error), cache)

end Engine

end QueryGuard
