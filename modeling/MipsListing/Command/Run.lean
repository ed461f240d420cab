/-
# Running the command

An object file is loaded and disassembled, and the outcome is printed or saved.  Whatever can
fail fails before the output at the end.  A run asks a host for files and for printing, so that the
same run can be carried out on a real machine and on a session kept as a value.
-/
import MipsListing.Command.Arguments
import MipsListing.FileStore
import MipsListing.Report

namespace MipsListing

/-! ## Hosts -/

/-- What a run needs of the machine on which it is carried out. -/
class Host (m : Type → Type) where
  /-- Whether a path leads to a file. -/
  isFile : Path → m Bool
  /-- Whether a path leads to a directory. -/
  isDirectory : Path → m Bool
  /-- The content of a file. -/
  read : Path → m (Except Fault ByteArray)
  /-- Writes a file as a whole, or not at all. -/
  write : Path → ByteArray → m (Except Fault Unit)
  /-- Prints a text. -/
  print : String → m Unit

/-- Files, the text printed so far, and the paths at which the device has faults of its own. -/
structure Session where
  store : FileStore := {}
  printed : String := ""
  /-- What the device reports where a file is read. -/
  readFaults : List (Path × Fault) := []
  /-- What the device reports where a file is written. -/
  writeFaults : List (Path × Fault) := []
  deriving DecidableEq

namespace Session

/-- The content of a file, unless the device has a fault. -/
def read (session : Session) (path : Path) : Except Fault ByteArray :=
  match session.readFaults.lookup path with
  | some fault => .error fault
  | none => session.store.read path

/-- The store with a new content of a file, unless the device has a fault. -/
def write (session : Session) (path : Path) (content : ByteArray) : Except Fault FileStore :=
  match session.writeFaults.lookup path with
  | some fault => .error fault
  | none => session.store.write path content

end Session

instance : Host (StateM Session) where
  isFile path := do return (← get).store.isFile path
  isDirectory path := do return (← get).store.isDirectory path
  read path := do return (← get).read path
  write path content := do
    match (← get).write path content with
    | .error fault => return .error fault
    | .ok store =>
      modify fun session => { session with store }
      return .ok ()
  print text := modify fun session => { session with printed := session.printed ++ text }

/-- The outcome of an action on a session, and the session that it leaves. -/
def Session.carryOut {ε α : Type} (session : Session) (action : ExceptT ε (StateM Session) α) :
    Except ε α × Session :=
  Id.run (action.run.run session)

/-! ## Failures -/

/-- Why a run fails. -/
inductive RunError where
  /-- The object file is not there. -/
  | noObjectFile (path : Path)
  /-- A file cannot be read. -/
  | reading (path : Path) (fault : Fault)
  /-- The program is not disassembled. -/
  | disassembly (error : ListingFailure)
  /-- An indentation is longer than any text can be. -/
  | indentTooLong (count : Nat)
  /-- The directory of an output file is not there. -/
  | noDirectory (path : Path)
  /-- A file cannot be written. -/
  | writing (path : Path) (fault : Fault)
  deriving DecidableEq, Repr

/-- The wording of a failure, followed by that of its causes. -/
def RunError.chain : RunError → List String
  | noObjectFile path =>
    ["No object file found at " ++ path.text ++ ", ensure that your path is correct"]
  | reading path fault => ["reading " ++ path.text, fault.message]
  | disassembly (.atLine error) => [error.message, error.cause.message]
  | disassembly error => [error.message]
  | indentTooLong count => ["an indentation of " ++ toString count ++ " spaces is too long"]
  | noDirectory path =>
    ["Path to " ++ path.text ++ " does not exist, cannot save assembly instructions"]
  | writing path fault => ["writing " ++ path.text, fault.message]

section Files

variable {m : Type → Type} [Monad m] [Host m]

/-! ## Loading and saving -/

/-- Loads the program in an object file. -/
def loadProgram (path : Path) : ExceptT RunError m (List Word) := do
  unless ← (Host.isFile path : m Bool) do
    throw (.noObjectFile path)
  match ← (Host.read path : m _) with
  | .error fault => throw (.reading path fault)
  | .ok bytes =>
    match String.fromUTF8? bytes with
    | none => throw (.reading path .notText)
    | some text =>
      match ObjectText.parse text with
      | .error error => throw (.disassembly (.atLine error))
      | .ok program => return program

/-- Whether the directory of a file is there.  A path that names none means the working
directory. -/
def hasDirectory (path : Path) : m Bool :=
  match path.parent? with
  | none => pure true
  | some directory => if directory.text = "" then pure true else Host.isDirectory directory

/-- Saves a text in a file, provided that the directory of the file is there. -/
def saveText (path : Path) (text : String) : ExceptT RunError m Unit := do
  unless ← (hasDirectory path : m Bool) do
    throw (.noDirectory path)
  match ← (Host.write path text.toUTF8 : m _) with
  | .error fault => throw (.writing path fault)
  | .ok () => return ()

/-! ## Printing -/

/-- Prints a text and a line feed behind it. -/
def printLine (text : String) : m Unit := Host.print (text ++ "\n")

/-- Prints lines one after the other. -/
def printLines (lines : List String) : m Unit := lines.forM printLine

end Files

/-! ## Output -/

/-- Lines of text, each ended by a line feed. -/
def joinLines (lines : List String) : String := String.join (lines.map (· ++ "\n"))

namespace Arguments

/-- The layout that a request asks for. -/
def layout (arguments : Arguments) : Except RunError Layout :=
  match arguments.indent with
  | none => .ok {}
  | some count =>
    if count < UInt64.size / 2 then .ok { indent := String.ofList (List.replicate count ' ') }
    else .error (.indentTooLong count)

/-- The content of the output file for a listing. -/
def content (arguments : Arguments) (listing : Listing) (layout : Layout) : String :=
  match arguments.format with
  | .text => joinLines (listing.render layout)
  | .json => (Report.ofListing arguments.input.text listing layout).pretty

section Run

variable {m : Type → Type} [Monad m] [Host m]

/-- Prints the output for a listing: a text line by line, a report as a whole. -/
def print (arguments : Arguments) (listing : Listing) (layout : Layout) : m Unit :=
  match arguments.format with
  | .text => printLines (listing.render layout)
  | .json => printLine (Report.ofListing arguments.input.text listing layout).pretty

/-- Carries a request out. -/
def run (arguments : Arguments) : ExceptT RunError m Unit := do
  let program ← loadProgram arguments.input
  let listing ← liftExcept ((Listing.ofProgram program).mapError RunError.disassembly)
  let layout ← liftExcept arguments.layout
  if arguments.stdout then (arguments.print listing layout : m Unit)
  else saveText arguments.destination (arguments.content listing layout)

end Run

end Arguments

end MipsListing
