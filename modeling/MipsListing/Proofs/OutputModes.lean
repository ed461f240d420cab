/-
# Output modes

A listing is printed or saved, as a text or in a report.  Each of the four ways gives the same
listing away: a text is printed as it would be saved, a report likewise but for a line feed behind
it, and the lines that are read from the report are those of the text.  The text can be cut into its
lines again because no line has a line feed or a carriage return, for which the characters of all
lines have to be known.

* `Listing.isLineChar_of_mem_text` : the characters of the lines of a listing;
* `pieces_joinLines` : lines joined and cut apart again;
* `Arguments.Prints`, `Arguments.Saves` : what a request does with its output;
* `Arguments.output_modes_agree` : the four ways side by side.
-/
import MipsListing.Proofs.AssemblyText
import MipsListing.Proofs.Text
import MipsListing.Proofs.Run

namespace MipsListing

/-! ## The characters of lines -/

/-- A character of a line without indentation. -/
def isLineChar (c : Char) : Bool := isPartChar c || [',', ' ', ':'].contains c

namespace Listing

/-- The lines of a program are made of letters, digits and a few signs. -/
theorem isLineChar_of_mem_text {program : List Word} {listing : Listing}
    (h : ofProgram program = .ok listing) (line : Line) (hline : line ∈ listing.lines) :
    ∀ c ∈ line.text.toList, isLineChar c := by
  obtain ⟨instructions, hdecodes, hlines⟩ := exists_decodes_of_ofProgram program listing h
  rw [hlines] at hline
  intro c hc
  cases line with
  | label index name =>
    obtain ⟨-, rfl⟩ := eq_labelText_of_label_mem instructions index name hline
    rw [Line.text, String.toList_append, List.mem_append] at hc
    rcases hc with hname | hcolon
    · simp [isLineChar, (isPart_iff _).mp (isPart_labelText index) c hname]
    · obtain rfl : c = ':' := by simpa using hcolon
      decide
  | instruction index content =>
    obtain ⟨k, -, hk⟩ := (instruction_mem_interleave_iff _ instructions index content 0).mp hline
    rcases hdecodes.mem_text content (List.mem_of_getElem? hk) c hc with hpart | rfl | rfl
    · simp [isLineChar, hpart]
    · decide
    · decide

/-- The characters of the lines in a layout are those of the lines and of the indentation. -/
theorem forall_mem_render (p : Char → Prop) {program : List Word} {listing : Listing}
    (h : ofProgram program = .ok listing) (hline : ∀ c, isLineChar c → p c) {layout : Layout}
    (hindent : ∀ c ∈ layout.indent.toList, p c) :
    ∀ text ∈ listing.render layout, ∀ c ∈ text.toList, p c := by
  intro text htext c hc
  obtain ⟨line, hmem, rfl⟩ := List.mem_map.mp htext
  have hchars := isLineChar_of_mem_text h line hmem
  cases line with
  | label index name => exact hline c (hchars c hc)
  | instruction index content =>
    rw [Line.render, String.toList_append, List.mem_append] at hc
    exact hc.elim (hindent c) fun hc => hline c (hchars c hc)

end Listing

/-- The indentation of a request is a tab or blanks. -/
theorem Arguments.eq_tab_or_blank_of_mem_indentation (arguments : Arguments) :
    ∀ c ∈ arguments.indentation.toList, c = '\t' ∨ c = ' ' := by
  intro c hc
  unfold indentation at hc
  cases h : arguments.indent with
  | none =>
    rw [h] at hc
    exact .inl (by simpa using hc)
  | some count =>
    rw [h, String.toList_ofList] at hc
    exact .inr (List.eq_of_mem_replicate hc)

/-- No line of a program has a line feed or a carriage return, whatever the request. -/
theorem Listing.no_line_end_mem_render {program : List Word} {listing : Listing}
    (h : ofProgram program = .ok listing) {arguments : Arguments} {layout : Layout}
    (hlayout : arguments.layout = .ok layout) :
    ∀ text ∈ listing.render layout, '\n' ∉ text.toList ∧ '\r' ∉ text.toList := by
  intro text htext
  obtain ⟨-, rfl⟩ := (arguments.layout_eq_ok_iff layout).mp hlayout
  have hchars := forall_mem_render (fun c => c ≠ '\n' ∧ c ≠ '\r') h
    (fun c hc => ⟨by rintro rfl; exact absurd hc (by decide),
      by rintro rfl; exact absurd hc (by decide)⟩)
    (fun c hc => by
      rcases arguments.eq_tab_or_blank_of_mem_indentation c hc with rfl | rfl <;> decide)
    text htext
  exact ⟨fun hc => (hchars _ hc).1 rfl, fun hc => (hchars _ hc).2 rfl⟩

/-! ## Lines joined and cut apart -/

/-- Lines that are joined, each with a line feed, are cut apart again, and nothing stands behind
the last line feed. -/
theorem pieces_joinLines (lines : List String) (h : ∀ line ∈ lines, '\n' ∉ line.toList) :
    Text.pieces '\n' (joinLines lines).toList = lines.map String.toList ++ [[]] := by
  induction lines with
  | nil => rfl
  | cons line lines ih =>
    have hjoin : (joinLines (line :: lines)).toList
        = line.toList ++ '\n' :: (joinLines lines).toList := by
      simp [joinLines]
    rw [hjoin, Text.pieces_append_cons '\n' _ _ (h line List.mem_cons_self),
      ih fun other hother => h other (List.mem_cons_of_mem _ hother), List.map_cons,
      List.cons_append]

/-! ## What a request does with its output -/

/-- A file that was saved has the content with which it was saved. -/
theorem Session.find_of_write {session : Session} {path : Path} {content : ByteArray}
    {store : FileStore} (h : session.write path content = .ok store) :
    store.find path = .ok (.file content) := by
  obtain ⟨-, place, hlocate, hfree, rfl⟩ := (session.write_eq_ok_iff _ _ _).mp h
  exact session.store.find_set_self place _ hfree _ hlocate

namespace Arguments

variable {arguments : Arguments} {session : Session} {content : String}

/-- A request makes one output only. -/
theorem Makes.unique {a b : String} (ha : arguments.Makes session a)
    (hb : arguments.Makes session b) : a = b := by
  obtain ⟨program, listing, layout, hloads, hlisting, hlayout, rfl⟩ := ha
  obtain ⟨program', listing', layout', hloads', hlisting', hlayout', rfl⟩ := hb
  obtain rfl := hloads.unique hloads'
  obtain rfl := Except.ok.inj (hlisting.symm.trans hlisting')
  obtain rfl := Except.ok.inj (hlayout.symm.trans hlayout')
  rfl

/-- A request succeeds with what it does with the one output that it makes. -/
theorem Makes.run_eq_ok_iff (hmakes : arguments.Makes session content) (after : Session) :
    session.carryOut arguments.run = (.ok (), after) ↔
      arguments.Delivers session content after := by
  rw [(arguments.does_run session).ok_iff () after]
  constructor
  · rintro ⟨other, hother, hdelivers⟩
    rwa [hmakes.unique hother]
  · exact fun hdelivers => ⟨content, hmakes, hdelivers⟩

/-- A request prints a text, and touches no file. -/
def Prints (arguments : Arguments) (session : Session) (text : String) : Prop :=
  session.carryOut arguments.run =
    (.ok (), { session with printed := session.printed ++ text })

/-- A request saves a text.  It succeeds exactly if its destination can be written, and then the
file there has the text as its content, and nothing is printed. -/
structure Saves (arguments : Arguments) (session : Session) (text : String) : Prop where
  succeeds_iff : (∃ after, session.carryOut arguments.run = (.ok (), after)) ↔
    session.HasDirectory arguments.destination ∧
      ∃ store, session.write arguments.destination text.toUTF8 = .ok store
  find_eq : ∀ after, session.carryOut arguments.run = (.ok (), after) →
    after.store.find arguments.destination = .ok (.file text.toUTF8) ∧
      after.printed = session.printed

/-- A request that prints its output prints what it makes. -/
theorem Makes.prints (hmakes : arguments.Makes session content) (h : arguments.stdout = true) :
    arguments.Prints session (arguments.printed content) :=
  (hmakes.run_eq_ok_iff _).mpr (.printed h)

/-- A request that does not print its output saves what it makes. -/
theorem Makes.saves (hmakes : arguments.Makes session content) (h : arguments.stdout = false) :
    arguments.Saves session content where
  succeeds_iff := by
    simp only [hmakes.run_eq_ok_iff]
    constructor
    · rintro ⟨after, hprint | ⟨-, store, hdirectory, hwrite⟩⟩
      · simp [h] at hprint
      · exact ⟨hdirectory, store, hwrite⟩
    · rintro ⟨hdirectory, store, hwrite⟩
      exact ⟨_, .saved h store hdirectory hwrite⟩
  find_eq := by
    intro after hafter
    rcases (hmakes.run_eq_ok_iff after).mp hafter with hprint | ⟨-, store, -, hwrite⟩
    · simp [h] at hprint
    · exact ⟨Session.find_of_write hwrite, rfl⟩

/-- The same request in a format, with its output printed or saved. -/
def inMode (arguments : Arguments) (format : OutputFormat) (stdout : Bool) : Arguments :=
  { arguments with format, stdout }

/-- **The output modes agree.**  Let an object file hold a program that has a listing.  As a text
the listing is printed as it would be saved, and as a report it is printed as it would be saved,
with a line feed behind it.  The lines of the text are the names of labels with a colon and the
instructions behind a tab or blanks.  The text of the report is read as an account of the listing
with just these lines, and the text of the listing is cut at its line feeds into just these lines,
with nothing behind the last; none of them has a line feed or a carriage return.  Only an
indentation longer than any text keeps a listing from being given away, and it does so in every
mode. -/
theorem output_modes_agree (arguments : Arguments) (session : Session) (program : List Word)
    (listing : Listing) (hloads : session.Loads arguments.input program)
    (hlisting : Listing.ofProgram program = .ok listing) :
    (∀ layout, arguments.layout = .ok layout →
      let lines := listing.render layout
      let report := (Report.ofListing arguments.input.text listing layout).pretty
      (arguments.inMode .text true).Prints session (joinLines lines) ∧
      (arguments.inMode .text false).Saves session (joinLines lines) ∧
      (arguments.inMode .json true).Prints session (report ++ "\n") ∧
      (arguments.inMode .json false).Saves session report ∧
      lines = listing.lines.map arguments.lineText ∧
      Json.read? report = some (.object
        [("source", .string arguments.input.text), ("instructions", .integer program.length),
         ("labels", .array (listing.labels.map fun label => .object
            [("index", .integer label.1), ("address", .integer (4 * label.1)),
             ("name", .string label.2)])),
         ("lines", .array (lines.map .string))]) ∧
      Text.pieces '\n' (joinLines lines).toList = lines.map String.toList ++ [[]] ∧
      ∀ line ∈ lines, '\n' ∉ line.toList ∧ '\r' ∉ line.toList) ∧
    ∀ error, arguments.layout = .error error → ∀ format stdout,
      ∃ cause, session.carryOut (arguments.inMode format stdout).run = (.error cause, session) := by
  constructor
  · intro layout hlayout lines report
    have hmakes : ∀ format stdout, (arguments.inMode format stdout).Makes session
        ((arguments.inMode format stdout).content listing layout) :=
      fun _ _ => ⟨program, listing, layout, hloads, hlisting, hlayout, rfl⟩
    have hends := listing.no_line_end_mem_render hlisting hlayout
    exact ⟨(hmakes .text true).prints rfl, (hmakes .text false).saves rfl,
      (hmakes .json true).prints rfl, (hmakes .json false).saves rfl,
      render_of_layout hlayout listing, Report.read?_pretty_ofListing hlisting _ layout,
      pieces_joinLines lines fun line hline => (hends line hline).1, hends⟩
  · -- without a layout nothing is made, so the run fails, and a run that fails changes nothing
    intro error hlayout format stdout
    have hrun := (arguments.inMode format stdout).does_run session
    rcases hcarry : session.carryOut (arguments.inMode format stdout).run with ⟨cause | _, after⟩
    · rw [hrun.of_error cause after hcarry]
      exact ⟨cause, rfl⟩
    · obtain ⟨_, ⟨_, _, layout, -, -, hlayout', -⟩, -⟩ := (hrun.ok_iff _ _).mp hcarry
      exact absurd (hlayout.symm.trans hlayout') (by simp)

/-- A branch to the end of its program, so that a label is the last line. -/
theorem output_modes_agree_at_end :
    let arguments : Arguments := { input := ⟨"a.obj"⟩, indent := some 2 }
    let session : Session :=
      { store := { nodes := [(⟨["work", "a.obj"]⟩, .file "10000000".toUTF8)] }, printed := "> " }
    let text := "  beq $zero, $zero, Addr_0004\nAddr_0004:\n"
    let report := "\x7b\n  \"source\": \"a.obj\",\n  \"instructions\": 1,\n"
      ++ "  \"labels\": [\n    \x7b\n      \"index\": 1,\n      \"address\": 4,\n"
      ++ "      \"name\": \"Addr_0004\"\n    \x7d\n  ],\n"
      ++ "  \"lines\": [\n    \"  beq $zero, $zero, Addr_0004\",\n    \"Addr_0004:\"\n  ]\n\x7d"
    (arguments.inMode .text true).Prints session text ∧
    (arguments.inMode .text false).Saves session text ∧
    (arguments.inMode .json true).Prints session (report ++ "\n") ∧
    (arguments.inMode .json false).Saves session report ∧
    Json.read? report = some (.object
      [("source", .string "a.obj"), ("instructions", .integer 1),
       ("labels", .array [.object
          [("index", .integer 1), ("address", .integer 4), ("name", .string "Addr_0004")]]),
       ("lines", .array [.string "  beq $zero, $zero, Addr_0004", .string "Addr_0004:"])]) ∧
    Text.pieces '\n' text.toList =
      ["  beq $zero, $zero, Addr_0004".toList, "Addr_0004:".toList, []] := by
  intro arguments session text report
  let listing : Listing := { lines :=
    [.instruction 0 ⟨.beq, .immediate, "beq $zero, $zero, Addr_0004", some 1⟩,
     .label 1 "Addr_0004"] }
  have hloads : session.Loads arguments.input [0x10000000] :=
    ⟨"10000000".toUTF8, "10000000", by decide +kernel, by decide +kernel, by decide +kernel⟩
  obtain ⟨hmodes, -⟩ := output_modes_agree arguments session [0x10000000] listing hloads
    (by decide +kernel)
  obtain ⟨hprints, hsaves, hprinted, hsaved, -, hread, hpieces, -⟩ :=
    hmodes { indent := "  " } (by decide +kernel)
  have hreport : (Report.ofListing "a.obj" listing { indent := "  " }).pretty = report := by
    decide +kernel
  rw [← hreport]
  exact ⟨hprints, hsaves, hprinted, hsaved, hread, hpieces⟩

end Arguments

end MipsListing
