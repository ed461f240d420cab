/-
# Listings

The lines of a disassembled program: instructions, and labels at the places to which branches
lead.  A program becomes a listing in two phases.  First every word is decoded in order, and the
places to which it branches are named in an ordered map, each once.  Then the labels are inserted
from the highest target down, so that the places still to be filled keep their numbers.
-/
import MipsListing.Instruction
import Std.Data.TreeMap

namespace MipsListing

/-! ## Lines -/

/-- A line of a listing. -/
inductive Line where
  /-- The mark of a place to which a branch leads. -/
  | label (index : Nat) (name : String)
  /-- An instruction and its position in the program. -/
  | instruction (index : Nat) (content : Instruction)
  deriving DecidableEq, Repr

namespace Line

/-- The text of a line without indentation. -/
def text : Line → String
  | label _ name => name ++ ":"
  | instruction _ content => content.text

/-- Whether a line is a label. -/
def isLabel : Line → Bool
  | label .. => true
  | instruction .. => false

/-- The position and the name of a label line. -/
def label? : Line → Option (Nat × String)
  | label index name => some (index, name)
  | instruction .. => none

end Line

/-! ## Layout -/

/-- How a listing is set. -/
structure Layout where
  /-- What stands in front of each instruction; labels start at the margin. -/
  indent : String := "\t"
  deriving DecidableEq, Repr

/-- The text of a line set in a layout. -/
def Line.render (layout : Layout) : Line → String
  | label index name => (label index name).text
  | instruction _ content => layout.indent ++ content.text

/-! ## Listings -/

/-- The lines of a program from top to bottom. -/
structure Listing where
  lines : List Line
  deriving DecidableEq, Repr

namespace Listing

/-- The number of lines. -/
def size (listing : Listing) : Nat := listing.lines.length

/-- Whether there is no line at all. -/
def isEmpty (listing : Listing) : Bool := listing.lines.isEmpty

/-- The positions and names of the labels, from top to bottom. -/
def labels (listing : Listing) : List (Nat × String) := listing.lines.filterMap Line.label?

/-- The number of instruction lines. -/
def instructionCount (listing : Listing) : Nat := listing.lines.countP (!·.isLabel)

/-- The lines as text set in a layout. -/
def render (listing : Listing) (layout : Layout) : List String :=
  listing.lines.map (Line.render layout)

end Listing

/-! ## Failures -/

/-- Why a program has no listing. -/
inductive ListingFailure where
  /-- A line is refused. -/
  | atLine (error : LineRefusal)
  /-- A decoder reports a target behind the end of the program. -/
  | targetPastEnd (target : Nat)
  deriving DecidableEq, Repr

/-- The wording of a failed disassembly. -/
def ListingFailure.message : ListingFailure → String
  | atLine error => error.message
  | targetPastEnd target => "target " ++ toString target ++ " lies behind the end of the program"

/-! ## Labels -/

/-- Labels by the positions of the places that they name. -/
abbrev LabelMap := Std.TreeMap Nat String

/-- Names the place to which an instruction branches, unless that place has its name already. -/
def LabelMap.record (labels : LabelMap) : Option Nat → Except Refusal LabelMap
  | none => .ok labels
  | some target =>
    if labels.contains target then .ok labels
    else do return labels.insert target (← labelName target)

/-! ## Decoding every word -/

/-- A program as far as it is decoded. -/
structure Decoding where
  /-- The instructions so far. -/
  instructions : Array Instruction := #[]
  /-- The labels of the places to which they branch. -/
  labels : LabelMap := {}

/-- Pins a refusal to the word at a position. -/
def refusalAt (word : Word) (index : Nat) (cause : Refusal) : LineRefusal :=
  { line := index + 1, word := word.toHex, cause }

namespace Decoding

/-- Decodes the word at a position and names the place to which it branches. -/
def step (decoder : Decoder) (size : Nat) (decoding : Decoding) (word : Word) (index : Nat) :
    Except Refusal Decoding := do
  let instruction ← decoder word index size
  let labels ← decoding.labels.record instruction.target
  return { instructions := decoding.instructions.push instruction, labels }

/-- Decodes one more word, given with its position, to which a refusal is pinned. -/
def next (decoder : Decoder) (size : Nat) (decoding : Decoding) (item : Word × Nat) :
    Except LineRefusal Decoding :=
  (decoding.step decoder size item.1 item.2).mapError (refusalAt item.1 item.2)

/-- Decodes the words of a program in order, up to the first that is refused. -/
def ofProgram (decoder : Decoder) (program : List Word) : Except LineRefusal Decoding :=
  program.zipIdx.foldlM (next decoder program.length) {}

end Decoding

/-! ## Placing the labels -/

/-- The instruction lines of a program. -/
def instructionLines (program : List Instruction) : List Line :=
  program.zipIdx.map fun (instruction, index) => .instruction index instruction

/-- Inserts a label line at its position, which counts off the lines above it.  There is no
place behind the line that follows the last one. -/
def insertLabel (label : Nat × String) (lines : List Line) : Except ListingFailure (List Line) :=
  if lines.length < label.1 then .error (.targetPastEnd label.1)
  else .ok (lines.insertIdx label.1 (.label label.1 label.2))

/-- Inserts every label, the highest first. -/
def LabelMap.placeIn (labels : LabelMap) (lines : List Line) : Except ListingFailure (List Line) :=
  labels.toList.foldrM insertLabel lines

/-! ## Whole programs -/

/-- The words that binary texts stand for, up to the first text that is none. -/
def Word.listOfBinary (texts : List String) : Except LineRefusal (List Word) :=
  texts.zipIdx.mapM fun (text, index) =>
    (Word.ofBinary text).mapError fun cause => { line := index + 1, word := text, cause }

namespace Listing

/-- The listing of a program, decoded by a given decoder. -/
def ofProgramBy (decoder : Decoder) (program : List Word) : Except ListingFailure Listing := do
  let decoding ← (Decoding.ofProgram decoder program).mapError .atLine
  let lines ← decoding.labels.placeIn (instructionLines decoding.instructions.toList)
  return { lines }

/-- The listing of a program. -/
def ofProgram (program : List Word) : Except ListingFailure Listing :=
  ofProgramBy Instruction.ofWord program

/-- The listing of a program whose words are given as binary texts.  All of them are read before
any is decoded. -/
def ofBinary (texts : List String) : Except ListingFailure Listing := do
  ofProgram (← (Word.listOfBinary texts).mapError .atLine)

end Listing

end MipsListing
