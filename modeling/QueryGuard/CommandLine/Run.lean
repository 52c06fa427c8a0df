import QueryGuard.Catalog.Document
import QueryGuard.CommandLine.Arguments
import QueryGuard.CommandLine.Sources
import QueryGuard.Criterion.RowPolicy
import QueryGuard.Criterion.SoftDelete
import QueryGuard.Criterion.Tenant
import QueryGuard.Engine.Basic
/-!
One run of the command line: reading the files, guarding the query, and showing the result. How
files are read is left open.
-/

set_option autoImplicit false

namespace QueryGuard.CommandLine

/-- Why a run has no result. -/
inductive RunError where
  | unreadableFile (path : String) (reason : ReadError)
  | unreadableInput (reason : ReadError)
  | invalidPolicies (path : String)
  | emptyQuery
  | configuration (error : ConfigurationError)
  /-- An error of a text, which is the query or a path. -/
  | query (error : QueryError) (source : String)
deriving DecidableEq, Repr

def RunError.message : RunError → String
  | unreadableFile path reason => "failed to read " ++ path ++ ": " ++ reason.message
  | unreadableInput reason => "failed to read query from stdin: " ++ reason.message
  | invalidPolicies path => "invalid policy file " ++ path
  | emptyQuery => "query is empty"
  | configuration error => error.message
  | query error source => error.report source

/-- What a run prints and the code it ends with. -/
structure Outcome where
  exit : Nat
  output : String
  errors : String
deriving DecidableEq, Repr

/-- A path whose position was asked for, with its place in the select list. -/
abbrev Position := String × Option Projection

namespace Format

/-- The line of a position. -/
def positionLine (position : Position) : String :=
  let (path, place) := position
  match place with
  | some place =>
      path ++ " is select item " ++ toString place.index ++
        if place.aggregate then " (aggregate)" else ""
  | none => path ++ " is not in the select list"

/-- The line of a parameter. -/
def parameterLine (name : String) (binding : Binding) : String :=
  "  :" ++ name ++ " = " ++ binding.value.text ++ " (" ++ binding.owner.text ++ ")"

/-- The text of the query, a line for each parameter, and the position. -/
def plain (guarded : Guarded) (position : Option Position) : String :=
  let parameters := guarded.parameters.entries.map fun (name, binding) => parameterLine name binding
  "\n".intercalate (guarded.text :: parameters ++ position.toList.map positionLine)

/-- The document of a parameter. -/
def parameterDocument (name : String) (binding : Binding) : Json :=
  .ofFields [
    ("name", .string name),
    ("value", binding.value.toJson),
    ("type", (binding.declaredType.map fun type => Json.string type.spelling).getD .null),
    ("origin", .string binding.owner.text)]

/-- The document of a position. -/
def positionDocument (position : Position) : Json :=
  let (path, place) := position
  .ofFields [
    ("path", .string path),
    ("index", (place.map fun place => Json.integer place.index).getD .null),
    ("aggregate", (place.map fun place => Json.bool place.aggregate).getD .null)]

/-- The same as a document. -/
def document (guarded : Guarded) (position : Option Position) : Json :=
  .ofFields <| [
    ("query", .string guarded.text),
    ("parameters", .array (guarded.parameters.entries.map fun (name, binding) =>
      parameterDocument name binding)),
    ("criteria", .array (guarded.model.applied.map .string))] ++
    position.toList.map fun position => ("position", positionDocument position)

/-- A result in a format. -/
def result (format : Format) (guarded : Guarded) (position : Option Position) : String :=
  match format with
  | .text => plain guarded position
  | .json => (document guarded position).prettyText

/-- An error message in a format. -/
def error (format : Format) (message : String) : String :=
  match format with
  | .text => message
  | .json => (Json.ofFields [("error", .string message)]).text

end Format

section

variable {m : Type → Type} [Monad m]

/-- The steps of a run. -/
abbrev Steps (m : Type → Type) := ExceptT RunError m

/-- A step that needs no sources. -/
def attempt {α : Type} (result : Except ConfigurationError α) : Steps m α :=
  match result with
  | .ok value => return value
  | .error error => throw (.configuration error)

/-- The text of a file. -/
def readFile (sources : Sources m) (path : String) : Steps m String := do
  match ← sources.file path with
  | .ok text => return text
  | .error reason => throw (.unreadableFile path reason)

/-- The policies of a file, if one is named. -/
def readPolicies (sources : Sources m) : Option String → Steps m (List RowPolicy)
  | none => return []
  | some path => do
      match RowPolicy.listOfText? (← readFile sources path) with
      | some policies => return policies
      | none => throw (.invalidPolicies path)

/-- The criteria that the arguments ask for. -/
def readRegistry (sources : Sources m) (arguments : Arguments) : Steps m Registry := do
  let policies ← readPolicies sources arguments.policies
  attempt <| Registry.ofList <|
    (if arguments.noTenant then [] else [.tenant]) ++
    (if arguments.softDelete then [.softDelete] else []) ++
    policies.map RowPolicy.criterion

/-- The settings of a file, if one is named, or else the standard ones. -/
def readSettings (sources : Sources m) : Option String → Steps m Settings
  | none => return .standard
  | some path => do attempt (Settings.ofText (← readFile sources path))

/-- The query that the arguments hold, or else the input, without white space around it. -/
def readQuery (sources : Sources m) (arguments : Arguments) : Steps m String := do
  let text ← match arguments.query with
    | some text => pure text
    | none =>
        match ← sources.input with
        | .ok text => pure text
        | .error reason => throw (.unreadableInput reason)
  let query := Text.trimmed text
  if query.isEmpty then throw .emptyQuery else return query

/-- A step on a text, which its errors are shown with. -/
def located {α : Type} (source : String) (result : Except QueryError α) : Steps m α :=
  match result with
  | .ok value => return value
  | .error error => throw (.query error source)

end

/-- The caller that the arguments describe. -/
def Arguments.security (arguments : Arguments) : SecurityContext :=
  let caller : SecurityContext :=
    { SecurityContext.ofPrincipal arguments.principal with
      tenant := arguments.tenant, admin := arguments.admin }
  arguments.attributes.foldl (fun caller (name, value) => caller.withAttribute name value) caller

section

variable {m : Type → Type} [Monad m]

/-- Runs the command line and returns what it shows. -/
def steps (sources : Sources m) (arguments : Arguments) : Steps m String := do
  let schema ← attempt (Schema.ofText (← readFile sources arguments.schema))
  let settings ← readSettings sources arguments.config
  let registry ← readRegistry sources arguments
  let engine ← attempt (Engine.ofParts schema registry settings)
  let query ← readQuery sources arguments
  let parameters := ParameterMap.ofList arguments.parameters
  let (result, _) := engine.guard query parameters arguments.security engine.initialCache
  let guarded ← located query result
  let position ← arguments.position.mapM fun path => do
    return (path, ← located path (guarded.model.positionOfText path))
  return arguments.format.result guarded position

/-- The outcome of a command line. Words that make no request end it with code 2, errors with
code 1. -/
def run (sources : Sources m) (words : List String) : m Outcome := do
  match Request.ofWords words with
  | .error _ => return ⟨2, "", Help.usage ++ "\n"⟩
  | .ok (.help detail) => return ⟨0, Help.text detail ++ "\n", ""⟩
  | .ok .version => return ⟨0, Help.version ++ "\n", ""⟩
  | .ok (.run arguments) =>
      match ← (steps sources arguments).run with
      | .ok shown => return ⟨0, shown ++ "\n", ""⟩
      | .error error => return ⟨1, "", arguments.format.error error.message ++ "\n"⟩

end

end QueryGuard.CommandLine
