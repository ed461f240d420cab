/-
# The command

Disassembles an object file on the machine at hand.  Everything is decided in the library; this
module reaches for files, prints, and reports how the run ended.
-/
import MipsListing.Command.Run

namespace MipsListing

/-! ## The machine as a host -/

/-- The wording of an operating system for a fault. -/
def deviceFault (code : UInt32) (details : String) : Fault :=
  .device (details ++ " (os error " ++ toString code ++ ")")

/-- The fault behind a failed access to a file. -/
def faultOfError : IO.Error → Fault
  | .noFileOrDirectory .. => .notFound
  | .inappropriateType _ 20 _ => .notDirectory
  | .inappropriateType _ 21 _ => .isDirectory
  | .inappropriateType _ code details | .permissionDenied _ code details
  | .invalidArgument _ code details | .resourceExhausted _ code details =>
    deviceFault code details
  | error => .device (toString error)

/-- Whether something can be opened for reading. -/
def canOpen (text : String) : IO Bool :=
  try
    let _ ← IO.FS.Handle.mk text .read
    return true
  catch _ => return false

/-- Whether a path can be given to the operating system at all. -/
def isUsable (path : Path) : Bool := path.text ≠ "" && !path.text.toList.contains '\x00'

/-- Whether a path leads to a directory: only there does a dot lead on. -/
def leadsToDirectory (path : Path) : IO Bool := canOpen (path.text ++ "/.")

/-- Accesses a file, with the fault as the outcome if this fails. -/
def access {α : Type} (path : Path) (action : IO α) : IO (Except Fault α) :=
  if path.text.toList.contains '\x00' then return .error .nulInPath
  else try
    return .ok (← action)
  catch error => return .error (faultOfError error)

instance : Host IO where
  isFile path := do
    if !isUsable path then return false
    if ← leadsToDirectory path then return false
    canOpen path.text
  isDirectory path := do
    if !isUsable path then return false
    leadsToDirectory path
  read path := access path (IO.FS.readBinFile path.text)
  write path content := access path (IO.FS.writeBinFile path.text content)
  print text := do
    let output ← IO.getStdout
    output.putStr text
    output.flush

/-! ## Messages -/

/-- How the command is called. -/
def usage : String :=
  "Usage: mips-listing [--out FILE] [--format text|json] [--indent N] [--stdout] OBJFILE"

/-- The message of a failure, with its causes below it. -/
def failureMessage (chain : List String) : String :=
  match chain with
  | [] => "Error"
  | [message] => "Error: " ++ message
  | message :: causes =>
    "Error: " ++ message ++ "\n\nCaused by:\n" ++ "\n".intercalate (causes.map ("    " ++ ·))

/-- Reads the arguments, carries the request out, and gives the exit code. -/
def runCommand (arguments : List String) : IO UInt32 := do
  match Arguments.parse arguments with
  | .error .information =>
    IO.println usage
    return 0
  | .error .usage =>
    IO.eprintln usage
    return 2
  | .ok request =>
    match ← (request.run : ExceptT RunError IO Unit).run with
    | .ok () => return 0
    | .error failure =>
      IO.eprintln (failureMessage failure.chain)
      return 1

end MipsListing

/-- The command. -/
def main (arguments : List String) : IO UInt32 := MipsListing.runCommand arguments
