import QueryGuard.CommandLine.Run
/-!
The program: runs its command line over the files and the input of the system.
-/

set_option autoImplicit false

namespace QueryGuard

open CommandLine

/-- The number of an error of the system. Some come negated. -/
def systemCode? : IO.Error → Option Nat
  | .noFileOrDirectory _ code _ | .permissionDenied _ code _ | .inappropriateType _ code _
  | .invalidArgument _ code _ => some (min code.toNat (-code).toNat)
  | _ => none

/-- The text that a read gives, or the reason why there is none. -/
def readingOf (read : IO ByteArray) : IO (Except ReadError String) := do
  try
    match String.fromUTF8? (← read) with
    | some text => return .ok text
    | none => return .error .notText
  catch error =>
    match (systemCode? error).bind FileError.ofCode? with
    | some known => return .error (.file known)
    | none => return .error (.other (toString error))

/-- The files and the input of the system. -/
def systemSources : Sources IO where
  file path := readingOf (IO.FS.readBinFile path)
  input := readingOf do (← IO.getStdin).readBinToEnd

end QueryGuard

def main (words : List String) : IO UInt32 := do
  let outcome ← QueryGuard.CommandLine.run QueryGuard.systemSources words
  IO.print outcome.output
  IO.eprint outcome.errors
  return outcome.exit.toUInt32
