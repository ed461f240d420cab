/-
# File stores

Files and directories by place, as a file system without links holds them: where a path leads,
and when reading or writing there fails.
-/
import MipsListing.Path

namespace MipsListing

/-! ## Faults -/

/-- Why a file cannot be read or written. -/
inductive Fault where
  | notFound
  | notDirectory
  | isDirectory
  /-- A path has a character that no file name can have. -/
  | nulInPath
  /-- A file is not text. -/
  | notText
  /-- A fault that only a real device reports. -/
  | device (text : String)
  deriving DecidableEq, Repr

/-- The wording of a fault. -/
def Fault.message : Fault → String
  | notFound => "No such file or directory (os error 2)"
  | notDirectory => "Not a directory (os error 20)"
  | isDirectory => "Is a directory (os error 21)"
  | nulInPath => "file name contained an unexpected NUL byte"
  | notText => "stream did not contain valid UTF-8"
  | device text => text

/-! ## Places -/

/-- A place in a file system: the names that lead down to it from the root. -/
structure Place where
  names : List String
  deriving DecidableEq, Repr

namespace Place

/-- The root directory. -/
def root : Place := ⟨[]⟩

/-- The place of a name in a directory. -/
def child (place : Place) (name : String) : Place := ⟨place.names ++ [name]⟩

/-- The directory above a place; the root lies above itself. -/
def above (place : Place) : Place := ⟨place.names.dropLast⟩

/-- The place to which a segment leads from a directory. -/
def follow (place : Place) (segment : String) : Place :=
  if Path.isIdle segment then place
  else if segment = ".." then place.above
  else place.child segment

/-- Whether a place is another one or a directory on the way to it. -/
def leadsTo (place other : Place) : Bool := place.names.isPrefixOf other.names

end Place

/-! ## Stores -/

/-- What is found at a place. -/
inductive Node where
  | file (content : ByteArray)
  | directory

/-- Files are equal if their contents are. -/
instance decidableEqNode : DecidableEq Node
  | .file a, .file b => @decidable_of_iff _ (a = b) (by simp) (ByteArray.instDecidableEq a b)
  | .directory, .directory => isTrue rfl
  | .file _, .directory => isFalse (by simp)
  | .directory, .file _ => isFalse (by simp)

/-- The files and directories of a file system, except the working directory and those above it,
which are always there. -/
structure FileStore where
  /-- The directory in which a path starts that does not start at the root. -/
  working : Place := ⟨["work"]⟩
  nodes : List (Place × Node) := []
  deriving DecidableEq

/-- Puts a value under a key, in the place of the one that is there. -/
def setEntry {α β : Type} [DecidableEq α] (key : α) (value : β) : List (α × β) → List (α × β)
  | [] => [(key, value)]
  | entry :: rest =>
    if entry.1 = key then (key, value) :: rest else entry :: setEntry key value rest

namespace FileStore

/-- What is at a place. -/
def node? (store : FileStore) (place : Place) : Option Node :=
  if place.leadsTo store.working then some .directory else store.nodes.lookup place

/-- Puts a node at a place. -/
def set (store : FileStore) (place : Place) (node : Node) : FileStore :=
  { store with nodes := setEntry place node store.nodes }

/-- Takes a place and all that lies below it away. -/
def erase (store : FileStore) (place : Place) : FileStore :=
  { store with nodes := store.nodes.filter (!place.leadsTo ·.1) }

/-- The files below the working directory, by the names that lead to them from there. -/
def files (store : FileStore) : List (List String × ByteArray) :=
  store.nodes.filterMap fun
    | (place, .file content) =>
      if store.working.leadsTo place then
        some (place.names.drop store.working.names.length, content)
      else none
    | _ => none

/-! ## Following paths -/

/-- The place from which a path leads. -/
def origin (store : FileStore) (path : Path) : Place :=
  if path.isAbsolute then .root else store.working

/-- Follows segments from a place.  Each leads on from a directory only. -/
def walk (store : FileStore) : Place → List String → Except Fault Place
  | place, [] => .ok place
  | place, segment :: rest =>
    match store.node? place with
    | none => .error .notFound
    | some (.file _) => .error .notDirectory
    | some .directory => store.walk (place.follow segment) rest

/-- The segments of a path that can lead somewhere. -/
def route (path : Path) : Except Fault (List String) :=
  if path.text.toList.contains '\x00' then .error .nulInPath
  else if path.text = "" then .error .notFound
  else .ok path.segments

/-- The place to which a path leads, whether or not anything is there. -/
def locate (store : FileStore) (path : Path) : Except Fault Place := do
  store.walk (store.origin path) (← route path)

/-- What a path leads to. -/
def find (store : FileStore) (path : Path) : Except Fault Node := do
  match store.node? (← store.locate path) with
  | none => throw .notFound
  | some node => return node

/-- Whether a path leads to a file. -/
def isFile (store : FileStore) (path : Path) : Bool :=
  match store.find path with
  | .ok (.file _) => true
  | _ => false

/-- Whether a path leads to a directory. -/
def isDirectory (store : FileStore) (path : Path) : Bool :=
  match store.find path with
  | .ok .directory => true
  | _ => false

/-! ## Reading and writing -/

/-- The content of the file to which a path leads. -/
def read (store : FileStore) (path : Path) : Except Fault ByteArray := do
  match ← store.find path with
  | .file content => return content
  | .directory => throw .isDirectory

/-- The store with a new content of the file to which a path leads, in a directory that is
there.  A path that ends in a slash means a directory, whatever it leads to. -/
def write (store : FileStore) (path : Path) (content : ByteArray) : Except Fault FileStore := do
  let segments ← route path
  match segments.reverse.dropWhile (· == "") with
  | [] => throw .isDirectory
  | last :: front =>
    let directory ← store.walk (store.origin path) front.reverse
    match store.node? directory with
    | none => throw .notFound
    | some (.file _) => throw .notDirectory
    | some .directory =>
      let place := directory.follow last
      if segments.getLast? = some "" ∨ store.node? place = some .directory then
        throw .isDirectory
      else return store.set place (.file content)

/-- The store with the directories on the way of a path, those that are missing made. -/
def makeDirectories (store : FileStore) (path : Path) : FileStore :=
  let step := fun (walked : FileStore × Place) segment =>
    let place := walked.2.follow segment
    match walked.1.node? place with
    | none => (walked.1.set place .directory, place)
    | some _ => (walked.1, place)
  (path.segments.foldl step (store, store.origin path)).1

/-- The store without the file or directory to which a path leads. -/
def remove (store : FileStore) (path : Path) : Except Fault FileStore := do
  return store.erase (← store.locate path)

end FileStore

end MipsListing
