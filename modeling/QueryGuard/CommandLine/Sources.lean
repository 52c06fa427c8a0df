/-!
Where the texts of a run come from: named files and the input. Reading fails for a reason, and the
reason has a message.
-/

set_option autoImplicit false

namespace QueryGuard.CommandLine

/-- Why a path leads to no text. -/
inductive FileError where
  | missing | denied | notFolder | folder | nameTooLong | looping
deriving DecidableEq, Repr

namespace FileError

def all : List FileError := [missing, denied, notFolder, folder, nameTooLong, looping]

/-- The number that systems give to an error. -/
def code : FileError → Nat
  | missing => 2
  | denied => 13
  | notFolder => 20
  | folder => 21
  | nameTooLong => 36
  | looping => 40

def description : FileError → String
  | missing => "No such file or directory"
  | denied => "Permission denied"
  | notFolder => "Not a directory"
  | folder => "Is a directory"
  | nameTooLong => "File name too long"
  | looping => "Too many levels of symbolic links"

def message (error : FileError) : String :=
  error.description ++ " (os error " ++ toString error.code ++ ")"

/-- The error with a number. -/
def ofCode? (code : Nat) : Option FileError := all.find? (·.code = code)

theorem ofCode?_code (error : FileError) : ofCode? error.code = some error := by
  cases error <;> rfl

end FileError

/-- Why a text cannot be read. -/
inductive ReadError where
  | file (error : FileError)
  /-- The bytes are no UTF-8. -/
  | notText
  | other (reason : String)
deriving DecidableEq, Repr

def ReadError.message : ReadError → String
  | file error => error.message
  | notText => "stream did not contain valid UTF-8"
  | other reason => reason

/-- Where a run reads from. -/
structure Sources (m : Type → Type) where
  file : String → m (Except ReadError String)
  input : m (Except ReadError String)

end QueryGuard.CommandLine
