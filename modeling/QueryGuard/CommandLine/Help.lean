import QueryGuard.CommandLine.Options
import QueryGuard.Criterion.SecurityContext
/-!
The texts that explain the command line: a brief one with a line for each option, and a full one
with a paragraph for each.
-/

set_option autoImplicit false

namespace QueryGuard.CommandLine

/-- How much the help says. -/
inductive Detail where
  | brief | full
deriving DecidableEq, Repr

/-- What the help says about an option. -/
structure Entry where
  spelling : Spelling
  /-- The word that stands for the value. -/
  placeholder : Option String
  description : String
  /-- The value when none is given. -/
  standard : Option String := none
  /-- The possible values with their meanings. -/
  choices : List (String × String) := []

/-- What a format shows. -/
def Format.meaning : Format → String
  | text => "Query text followed by one parameter per line"
  | json => "JSON object"

def OptionName.entry (option : OptionName) : Entry :=
  match option with
  | schema => ⟨option.spelling, "SCHEMA", "Schema file (JSON)", none, []⟩
  | config => ⟨option.spelling, "CONFIG", "Engine configuration file (JSON)", none, []⟩
  | query => ⟨option.spelling, "QUERY", "Query text; read from stdin when omitted", none, []⟩
  | parameter => ⟨option.spelling, "PARAMS",
      "Query parameter as name=value; JSON values are typed, anything else is a string", none, []⟩
  | tenant => ⟨option.spelling, "TENANT",
      "Current tenant; the schema's sentinel is used when omitted", none, []⟩
  | principal => ⟨option.spelling, "PRINCIPAL", "Current principal",
      SecurityContext.anonymousName, []⟩
  | attr => ⟨option.spelling, "ATTRIBUTES", "Security-context attribute as name=value", none, []⟩
  | policies => ⟨option.spelling, "POLICIES", "Row-level policy file (JSON array)", none, []⟩
  | position => ⟨option.spelling, "POSITION",
      "Report the select-list position of this path, e.g. e.id", none, []⟩
  | format => ⟨option.spelling, "FORMAT", "Output format", Format.text.name,
      Format.all.map fun format => (format.name, format.meaning)⟩

/-- The entry of a switch. That of the help names the other detail. -/
def Switch.entry (detail : Detail) (switch : Switch) : Entry :=
  ⟨switch.spelling, none, description, none, []⟩
where
  description : String :=
    match switch with
    | admin => "Run as an admin context (bypasses row-level policies)"
    | softDelete => "Hide soft-deleted rows"
    | noTenant => "Do not apply the tenant criterion"
    | version => "Print version"
    | help =>
        match detail with
        | .brief => "Print help (see more with '--help')"
        | .full => "Print help (see a summary with '-h')"

namespace Entry

/-- The letter and the name with the placeholder. Names stand below each other. -/
def head (entry : Entry) : String :=
  (match entry.spelling.letter with
    | some letter => "  -" ++ letter.toString ++ ", "
    | none => "      ") ++
  "--" ++ entry.spelling.name ++
  ((entry.placeholder.map fun word => " <" ++ word ++ ">").getD "")

/-- The description, with the standard value and the choices in brackets. -/
def summary (entry : Entry) : String :=
  entry.description ++
  ((entry.standard.map fun value => " [default: " ++ value ++ "]").getD "") ++
  if entry.choices.isEmpty then ""
  else " [possible values: " ++ ", ".intercalate (entry.choices.map (·.1)) ++ "]"

/-- The head, with the summary from a column on, on one line however long. -/
def brief (column : Nat) (entry : Entry) : String :=
  entry.head ++ "".pushn ' ' (column - entry.head.length) ++ entry.summary

/-- The head, with the description, the choices and the standard value below it. -/
def full (entry : Entry) : String :=
  let next := "\n" ++ "".pushn ' ' 10
  let choice := fun (name, meaning) => next ++ "- " ++ name ++ ": " ++ meaning
  entry.head ++ next ++ entry.description ++
  (if entry.choices.isEmpty then ""
    else "\n" ++ next ++ "Possible values:" ++ String.join (entry.choices.map choice)) ++
  ((entry.standard.map fun value => next ++ next ++ "[default: " ++ value ++ "]").getD "")

end Entry

namespace Help

/-- The entries in the order in which they are shown. -/
def entries (detail : Detail) : List Entry :=
  [.schema, .config, .query, .parameter, .tenant, .principal, .attr].map OptionName.entry ++
  [.admin, .softDelete, .noTenant].map (Switch.entry detail) ++
  [.policies, .position, .format].map OptionName.entry ++
  [.help, .version].map (Switch.entry detail)

/-- The column of the summaries, two after the longest head. -/
def column (entries : List Entry) : Nat :=
  (entries.map (·.head.length)).foldl max 0 + 2

def programName : String := "entql"

def usage : String := "Usage: " ++ programName ++ " [OPTIONS] --schema <SCHEMA>"

/-- The name and the number of the version. -/
def version : String := programName ++ " 0.1.0"

/-- What the program is for, how it is called, and its options. -/
def text (detail : Detail) : String :=
  let entries := entries detail
  "Rewrite ENTQL queries with tenant, soft-delete and row-level criteria\n\n" ++
  usage ++ "\n\nOptions:\n" ++
  match detail with
  | .brief => "\n".intercalate (entries.map (Entry.brief (column entries)))
  | .full => "\n\n".intercalate (entries.map Entry.full)

end Help

end QueryGuard.CommandLine
