/-
# Arguments of the command

What the command is asked to do, and how the request is read from its arguments: from left to
right, where the first thing that cannot be accepted, or that asks for information, ends it.
-/
import MipsListing.Path

namespace MipsListing

/-! ## Requests -/

/-- What the command produces. -/
inductive OutputFormat where
  | text
  | json
  deriving DecidableEq, Repr

namespace OutputFormat

/-- The word for an output format. -/
def name : OutputFormat → String
  | text => "text"
  | json => "json"

/-- The output format that a word stands for. -/
def ofName? (word : String) : Option OutputFormat :=
  [text, json].find? (·.name == word)

end OutputFormat

/-- A request to the command. -/
structure Arguments where
  /-- The object file. -/
  input : Path
  /-- The output file, if it is not the one that belongs to the object file. -/
  out : Option Path := none
  /-- What to produce. -/
  format : OutputFormat := .text
  /-- The number of spaces in front of instructions, if these are not set off by a tab. -/
  indent : Option Nat := none
  /-- Whether to print the output instead of writing it to a file. -/
  stdout : Bool := false
  deriving DecidableEq, Repr

/-- The file to which the output goes, unless it is printed. -/
def Arguments.destination (arguments : Arguments) : Path :=
  match arguments.out, arguments.format with
  | some path, _ => path
  | none, .text => arguments.input.assembly
  | none, .json => arguments.input.report

/-- Why the arguments lead to no request. -/
inductive Stop where
  /-- They ask for help or for the version. -/
  | information
  /-- They cannot be accepted. -/
  | usage
  deriving DecidableEq, Repr

/-- The exit code of the command when it stops at its arguments. -/
def Stop.exitCode : Stop → Nat
  | information => 0
  | usage => 2

/-! ## Single arguments -/

/-- The options that take a value. -/
inductive ValueOption where
  | out
  | format
  | indent
  deriving DecidableEq, Repr

/-- What a single argument is, before any option has been ended. -/
inductive Token where
  /-- The mark behind which no argument is an option. -/
  | endOfOptions
  /-- A path. -/
  | positional
  /-- The wish for help or for the version. -/
  | information
  /-- The flag that asks for printing. -/
  | stdout
  /-- An option, with its value if this is part of the argument. -/
  | option (name : ValueOption) (value : Option String)
  /-- Anything else with a dash in front. -/
  | unknown
  deriving DecidableEq, Repr

/-- A long option from its name and the value behind its equals sign. -/
def Token.ofLong (name : String) (value : Option String) : Token :=
  match name, value with
  | "out", value => .option .out value
  | "format", value => .option .format value
  | "indent", value => .option .indent value
  | "stdout", none => .stdout
  | "help", none => .information
  | "version", none => .information
  | _, _ => .unknown

/-- The value behind the first equals sign. -/
def attachedValue? (body : List Char) : Option String :=
  match body.dropWhile (· ≠ '=') with
  | [] => none
  | _ :: value => some (String.ofList value)

/-- What an argument is.  A dash alone is a path; of a group of short options the first
decides. -/
def Token.ofArgument (argument : String) : Token :=
  match argument.toList with
  | ['-', '-'] => .endOfOptions
  | '-' :: '-' :: body => .ofLong (String.ofList (body.takeWhile (· ≠ '='))) (attachedValue? body)
  | '-' :: c :: _ => if c = 'h' ∨ c = 'V' then .information else .unknown
  | _ => .positional

/-- Whether an argument can be the value of the option in front of it. -/
def isDetachedValue (argument : String) : Bool :=
  match argument.toList with
  | '-' :: _ :: _ => false
  | _ => true

/-! ## Values -/

/-- The path that a value stands for, which must not be empty. -/
def pathOfValue? (value : String) : Option Path := if value = "" then none else some ⟨value⟩

/-- The number that decimal digits stand for: at least one digit, and a number that
a machine word can hold. -/
def decimal? (digits : List Char) : Option Nat :=
  if digits = [] ∨ ¬ digits.all Char.isDigit then none
  else
    let number := digits.foldl (fun number c => 10 * number + (c.toNat - '0'.toNat)) 0
    if number < UInt64.size then some number else none

/-- The number that a value stands for: decimal digits, and a plus sign in front if one likes. -/
def numberOfValue? (value : String) : Option Nat :=
  match value.toList with
  | '+' :: digits => decimal? digits
  | digits => decimal? digits

/-! ## Reading the arguments -/

/-- What has been read of a request; every part may be given once. -/
structure Draft where
  input : Option Path := none
  out : Option Path := none
  format : Option OutputFormat := none
  indent : Option Nat := none
  stdout : Bool := false
  deriving DecidableEq, Repr

namespace Draft

/-- Fills a part that is still empty. -/
def fill {α : Type} (present : Option α) (value : Option α) : Except Stop (Option α) :=
  match present, value with
  | none, some value => .ok (some value)
  | _, _ => .error .usage

/-- Adds a path. -/
def addInput (draft : Draft) (value : String) : Except Stop Draft := do
  return { draft with input := ← fill draft.input (pathOfValue? value) }

/-- Adds the wish for printing. -/
def addStdout (draft : Draft) : Except Stop Draft :=
  if draft.stdout then .error .usage else .ok { draft with stdout := true }

/-- Adds the value of an option. -/
def addOption (draft : Draft) (value : String) : ValueOption → Except Stop Draft
  | .out => do return { draft with out := ← fill draft.out (pathOfValue? value) }
  | .format => do return { draft with format := ← fill draft.format (OutputFormat.ofName? value) }
  | .indent => do return { draft with indent := ← fill draft.indent (numberOfValue? value) }

/-- Reads arguments none of which is an option. -/
def readPaths (draft : Draft) (arguments : List String) : Except Stop Draft :=
  arguments.foldlM addInput draft

/-- Reads arguments. -/
def read (draft : Draft) : List String → Except Stop Draft
  | [] => .ok draft
  | argument :: rest =>
    match Token.ofArgument argument with
    | .endOfOptions => draft.readPaths rest
    | .positional => do (← draft.addInput argument).read rest
    | .information => .error .information
    | .stdout => do (← draft.addStdout).read rest
    | .option name (some value) => do (← draft.addOption value name).read rest
    | .option name none =>
      match rest with
      | [] => .error .usage
      | value :: rest =>
        if isDetachedValue value then do (← draft.addOption value name).read rest
        else .error .usage
    | .unknown => .error .usage

/-- The request that has been read; it needs an object file. -/
def finish (draft : Draft) : Except Stop Arguments :=
  match draft.input with
  | none => .error .usage
  | some input => .ok
    { input, out := draft.out, format := draft.format.getD .text, indent := draft.indent,
      stdout := draft.stdout }

end Draft

/-- The request that a list of arguments makes. -/
def Arguments.parse (arguments : List String) : Except Stop Arguments := do
  (← Draft.read {} arguments).finish

end MipsListing
