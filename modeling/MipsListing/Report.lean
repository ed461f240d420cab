/-
# Reports

A listing with an account of it: where it came from, how many instructions it has, and where
its labels lie in memory.
-/
import MipsListing.Json.Forms

namespace MipsListing

/-- A label in a report. -/
structure LabelEntry where
  /-- The position of the instruction that the label marks. -/
  index : Nat
  /-- The byte address of that instruction, as a 32-bit number. -/
  address : UInt32
  /-- The name of the label. -/
  name : String
  deriving DecidableEq, Repr

/-- The account of a listing. -/
structure Report where
  /-- Where the program came from. -/
  source : String
  /-- The number of instructions. -/
  instructions : Nat
  /-- The labels, from top to bottom. -/
  labels : List LabelEntry
  /-- The lines as text. -/
  lines : List String
  deriving DecidableEq, Repr

namespace LabelEntry

/-- The entry of a label: an instruction takes four bytes. -/
def ofLabel (index : Nat) (name : String) : LabelEntry :=
  { index, address := UInt32.ofNat index * 4, name }

/-- The JSON form of an entry. -/
def toJson (entry : LabelEntry) : Json := .object
  [("index", natToJson entry.index), ("address", natToJson entry.address.toNat),
   ("name", .string entry.name)]

end LabelEntry

namespace Report

/-- The report on a listing set in a layout. -/
def ofListing (source : String) (listing : Listing) (layout : Layout) : Report where
  source
  instructions := listing.instructionCount
  labels := listing.labels.map fun (index, name) => LabelEntry.ofLabel index name
  lines := listing.render layout

/-- The JSON form of a report. -/
def toJson (report : Report) : Json := .object
  [("source", .string report.source), ("instructions", natToJson report.instructions),
   ("labels", .array (report.labels.map LabelEntry.toJson)),
   ("lines", .array (report.lines.map .string))]

/-- The text of a report. -/
def pretty (report : Report) : String := report.toJson.pretty

end Report

end MipsListing
