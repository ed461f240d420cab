/-
# Paths

Paths as a file system with one root reads them: segments between slashes, of which the empty
ones and the single dots lead nowhere.  A file name has an extension if it has a dot that is
not its first character.
-/
import MipsListing.Text

namespace MipsListing

/-- The path of a file or a directory, as it was written. -/
structure Path where
  text : String
  deriving DecidableEq, Repr

namespace Path

/-! ## Components -/

/-- A step on the way that a path describes. -/
inductive Component where
  /-- The root directory. -/
  | root
  /-- The working directory, where a path begins with a dot of its own. -/
  | here
  /-- The directory above. -/
  | up
  /-- A file or a directory by its name. -/
  | named (name : String)
  deriving DecidableEq, Repr

/-- The segments of a path between its slashes. -/
def segments (path : Path) : List String :=
  (Text.pieces '/' path.text.toList).map String.ofList

/-- Whether a path starts at the root. -/
def isAbsolute (path : Path) : Bool := path.text.toList.head? == some '/'

/-- Whether a segment leads nowhere. -/
def isIdle (segment : String) : Bool := segment == "" || segment == "."

/-- The step that a segment stands for. -/
def Component.ofSegment? (segment : String) : Option Component :=
  if isIdle segment then none
  else if segment = ".." then some .up
  else some (.named segment)

/-- The component that a path begins with on account of its first segment. -/
def start (path : Path) : List Component :=
  if path.isAbsolute then [.root]
  else if path.segments.head? = some "." then [.here]
  else []

/-- The steps that a path describes. -/
def components (path : Path) : List Component :=
  path.start ++ path.segments.filterMap Component.ofSegment?

/-- The text of a component. -/
def Component.text : Component → String
  | root => ""
  | here => "."
  | up => ".."
  | named name => name

/-- The path that describes the given steps. -/
def ofComponents : List Component → Path
  | [] => ⟨""⟩
  | [.root] => ⟨"/"⟩
  | components => ⟨"/".intercalate (components.map Component.text)⟩

/-- The path without its last step.  The root and the empty path have none. -/
def parent? (path : Path) : Option Path :=
  match path.components.getLast? with
  | none | some .root => none
  | some _ => some (ofComponents path.components.dropLast)

/-! ## File names -/

/-- A path cut in front of its file name: the last segment that leads somewhere, unless it
leads up.  What follows the name is left out. -/
def splitFileName? (path : Path) : Option (String × String) :=
  match path.segments.reverse.dropWhile isIdle with
  | [] => none
  | name :: front =>
    if name = ".." then none
    else some (String.join (front.reverse.map (· ++ "/")), name)

/-- A file name cut at its last dot, which goes with neither part.  A name whose last dot is
its first character, or that has no dot, is a stem without extension. -/
def splitExtension (name : String) : String × Option String :=
  let reversed := name.toList.reverse
  match reversed.dropWhile (· ≠ '.') with
  | _ :: c :: stem =>
    (String.ofList (c :: stem).reverse,
      some (String.ofList (reversed.takeWhile (· ≠ '.')).reverse))
  | _ => (name, none)

/-- The last part of a path that leads somewhere, if it is a name. -/
def fileName? (path : Path) : Option String := path.splitFileName?.map (·.2)

/-- The file name without its extension. -/
def fileStem? (path : Path) : Option String :=
  path.fileName?.map fun name => (splitExtension name).1

/-- The extension of the file name. -/
def extension? (path : Path) : Option String :=
  path.fileName?.bind fun name => (splitExtension name).2

/-! ## Derived paths -/

/-- The path cut behind the stem of its file name, and a new extension.  A path without a file
name is left as it is. -/
def setExtension (path : Path) (extension : String) : Path :=
  match path.splitFileName? with
  | none => path
  | some (front, name) => ⟨front ++ (splitExtension name).1 ++ "." ++ extension⟩

/-- The path with a new extension in the place of the one it has: the characters of the old
one are first cut off the end of the path. -/
def replaceExtension (path : Path) (old new : String) : Path :=
  setExtension ⟨String.ofList (path.text.toList.take (path.text.length - old.length))⟩ new

/-- The path of an output that belongs to an object file: `obj` gives way to the new extension,
and behind any other name the new extension is appended. -/
def withSuffix (path : Path) (extension : String) : Path :=
  if path.extension? = some "obj" then path.replaceExtension "obj" extension
  else ⟨path.text ++ "." ++ extension⟩

/-- The path of the assembly text of an object file. -/
def assembly (path : Path) : Path := path.withSuffix "s"

/-- The path of the JSON report on an object file. -/
def report (path : Path) : Path := path.withSuffix "json"

end Path

end MipsListing
