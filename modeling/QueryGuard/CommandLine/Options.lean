/-!
The options of the command line and how they are written: by a name after two hyphens, and some also
by a letter after one.
-/

set_option autoImplicit false

namespace QueryGuard.CommandLine

/-- How an option is written. -/
structure Spelling where
  name : String
  letter : Option Char := none
deriving DecidableEq, Repr

/-- Options with a value. -/
inductive OptionName where
  | schema | config | query | parameter | tenant | principal | attr | policies | position | format
deriving DecidableEq, Repr

namespace OptionName

def all : List OptionName :=
  [schema, config, query, parameter, tenant, principal, attr, policies, position, format]

def spelling : OptionName → Spelling
  | schema => ⟨"schema", some 's'⟩
  | config => ⟨"config", some 'c'⟩
  | query => ⟨"query", some 'q'⟩
  | parameter => ⟨"param", some 'p'⟩
  | tenant => ⟨"tenant", some 't'⟩
  | principal => ⟨"principal", none⟩
  | attr => ⟨"attribute", some 'a'⟩
  | policies => ⟨"policies", none⟩
  | position => ⟨"position", none⟩
  | format => ⟨"format", none⟩

def ofName? (name : String) : Option OptionName := all.find? (·.spelling.name = name)

def ofLetter? (letter : Char) : Option OptionName := all.find? (·.spelling.letter = some letter)

theorem ofName?_name (option : OptionName) : ofName? option.spelling.name = some option := by
  cases option <;> decide +kernel

end OptionName

/-- Options without a value. -/
inductive Switch where
  | admin | softDelete | noTenant | help | version
deriving DecidableEq, Repr

namespace Switch

def all : List Switch := [admin, softDelete, noTenant, help, version]

def spelling : Switch → Spelling
  | admin => ⟨"admin", none⟩
  | softDelete => ⟨"soft-delete", none⟩
  | noTenant => ⟨"no-tenant", none⟩
  | help => ⟨"help", some 'h'⟩
  | version => ⟨"version", some 'V'⟩

def ofName? (name : String) : Option Switch := all.find? (·.spelling.name = name)

def ofLetter? (letter : Char) : Option Switch := all.find? (·.spelling.letter = some letter)

theorem ofName?_name (switch : Switch) : ofName? switch.spelling.name = some switch := by
  cases switch <;> decide +kernel

end Switch

/-- How results are shown. -/
inductive Format where
  | text | json
deriving DecidableEq, Repr

namespace Format

def all : List Format := [text, json]

def name : Format → String
  | text => "text"
  | json => "json"

def ofName? (name : String) : Option Format := all.find? (·.name = name)

theorem ofName?_name (format : Format) : ofName? format.name = some format := by
  cases format <;> decide +kernel

end Format

end QueryGuard.CommandLine
