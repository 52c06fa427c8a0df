import QueryGuard.CommandLine.Assignment
import QueryGuard.CommandLine.Help
/-!
The arguments of the command line.
-/

set_option autoImplicit false

namespace QueryGuard.CommandLine

/-- Why arguments make no request. -/
inductive UsageError where
  | unknown (argument : String)
  | missingValue (option : OptionName)
  | needlessValue (switch : Switch)
  | invalidValue (option : OptionName)
  | repeatedOption (option : OptionName)
  | repeatedSwitch (switch : Switch)
  | missingSchema
deriving DecidableEq, Repr

/-- What a run needs to know. -/
structure Arguments where
  schema : String
  config : Option String
  query : Option String
  parameters : List (String × Value)
  tenant : Option String
  principal : String
  attributes : List (String × Value)
  admin : Bool
  softDelete : Bool
  noTenant : Bool
  policies : Option String
  position : Option String
  format : Format

/-- What the arguments ask for. -/
inductive Request where
  | run (arguments : Arguments)
  | help (detail : Detail)
  | version

/-- A word of the command line: an option with the value attached to it, a switch, or neither. -/
inductive Word where
  | option (name : OptionName) (value : Option String)
  | switch (switch : Switch) (value : Option String)
  | other (text : String)

namespace Word

/-- A name after two hyphens, with a value after an equals sign. -/
def ofLong (letters : List Char) : Word :=
  let name := String.ofList (letters.takeWhile (· ≠ '='))
  let value := match letters.dropWhile (· ≠ '=') with
    | [] => none
    | _ :: rest => some (String.ofList rest)
  match OptionName.ofName? name, Switch.ofName? name with
  | some known, _ => .option known value
  | _, some known => .switch known value
  | _, _ => .other ("--" ++ String.ofList letters)

/-- A letter after one hyphen, with a value behind it or after an equals sign. -/
def ofShort (letter : Char) (rest : List Char) : Word :=
  match OptionName.ofLetter? letter, Switch.ofLetter? letter with
  | some known, _ =>
      match rest with
      | [] => .option known none
      | '=' :: value => .option known (some (String.ofList value))
      | value => .option known (some (String.ofList value))
  | _, some known => .switch known none
  | _, _ => .other (String.ofList ('-' :: letter :: rest))

def ofText (text : String) : Word :=
  match text.toList with
  | '-' :: '-' :: letters => ofLong letters
  | '-' :: letter :: rest => ofShort letter rest
  | _ => .other text

/-- Whether a word may be the value of the option before it. -/
def isValue (text : String) : Bool :=
  match text.toList with
  | '-' :: _ :: _ => false
  | _ => true

end Word

/-- The options read so far. -/
structure Draft where
  schema : Option String := none
  config : Option String := none
  query : Option String := none
  parameters : List (String × Value) := []
  tenant : Option String := none
  principal : Option String := none
  attributes : List (String × Value) := []
  switches : List Switch := []
  policies : Option String := none
  position : Option String := none
  format : Option Format := none

namespace Draft

/-- A value that may be given once. -/
def once {α : Type} (option : OptionName) (current : Option α) (value : α) :
    Except UsageError (Option α) :=
  if current.isSome then throw (.repeatedOption option) else return some value

/-- The name of a file, which is not empty. -/
def file (option : OptionName) (current : Option String) (value : String) :
    Except UsageError (Option String) :=
  if value.isEmpty then throw (.invalidValue option) else once option current value

/-- One more assignment. -/
def assigned (option : OptionName) (current : List (String × Value)) (value : String) :
    Except UsageError (List (String × Value)) :=
  match Assignment.parse value with
  | .ok pair => return current ++ [pair]
  | .error _ => throw (.invalidValue option)

/-- The draft with the value of an option. -/
def set (draft : Draft) (option : OptionName) (value : String) : Except UsageError Draft := do
  match option with
  | .schema => return { draft with schema := ← file option draft.schema value }
  | .config => return { draft with config := ← file option draft.config value }
  | .policies => return { draft with policies := ← file option draft.policies value }
  | .query => return { draft with query := ← once option draft.query value }
  | .tenant => return { draft with tenant := ← once option draft.tenant value }
  | .principal => return { draft with principal := ← once option draft.principal value }
  | .position => return { draft with position := ← once option draft.position value }
  | .parameter => return { draft with parameters := ← assigned option draft.parameters value }
  | .attr => return { draft with attributes := ← assigned option draft.attributes value }
  | .format =>
      match Format.ofName? value with
      | some format => return { draft with format := ← once option draft.format format }
      | none => throw (.invalidValue option)

/-- The draft with a switch turned on. -/
def turnOn (draft : Draft) (switch : Switch) : Except UsageError Draft :=
  if switch ∈ draft.switches then throw (.repeatedSwitch switch)
  else return { draft with switches := switch :: draft.switches }

/-- The arguments, once all words are read. -/
def finish (draft : Draft) : Except UsageError Arguments :=
  match draft.schema with
  | none => throw .missingSchema
  | some schema =>
      return {
        schema
        config := draft.config
        query := draft.query
        parameters := draft.parameters
        tenant := draft.tenant
        principal := draft.principal.getD SecurityContext.anonymousName
        attributes := draft.attributes
        admin := draft.switches.contains .admin
        softDelete := draft.switches.contains .softDelete
        noTenant := draft.switches.contains .noTenant
        policies := draft.policies
        position := draft.position
        format := draft.format.getD .text }

end Draft

namespace Request

/-- Reads words from left to right. Asking for help or the version ends the reading. The letter asks
for the brief help, the name for the full one. -/
def read (draft : Draft) : List String → Except UsageError Request
  | [] => return .run (← draft.finish)
  | ["--"] => return .run (← draft.finish)
  | word :: rest =>
      match Word.ofText word with
      | .switch .help none => return .help (if word = "--help" then .full else .brief)
      | .switch .version none => return .version
      | .switch switch none => do read (← draft.turnOn switch) rest
      | .switch switch (some _) => throw (.needlessValue switch)
      | .option option (some value) => do read (← draft.set option value) rest
      | .option option none =>
          match rest with
          | value :: rest =>
              if Word.isValue value then do read (← draft.set option value) rest
              else throw (.missingValue option)
          | [] => throw (.missingValue option)
      | .other text => throw (.unknown text)

/-- The request that the words of a command line make. -/
def ofWords (words : List String) : Except UsageError Request := read {} words

end Request

end QueryGuard.CommandLine
