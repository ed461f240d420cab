/-
# What a run of the command does

A run only reads until it has the whole output, and its effect comes last: a text is printed, or a
file is written.  So a run that fails leaves everything as it was, and a run that succeeds
changes what is at one place at most, by what was in the object file when it began.

* `Session.Does` : an action that has its effect as a whole or not at all;
* `Session.Does.bind` : what comes in front of an effect may only read;
* `Arguments.layout_eq_ok_iff`, `Arguments.Makes.content_eq` : the content of the output, written
  out;
* `Arguments.does_run` : a run makes the content of the output and delivers it;
* `Arguments.run_all_or_nothing` : the files and the printed text after a run.
-/
import MipsListing.Command.Run
import MipsListing.Proofs.FileStore
import MipsListing.Proofs.Reading
import MipsListing.Proofs.Report

namespace MipsListing

namespace Session

/-! ## Actions with an effect as a whole or not at all -/

/-- An action succeeds with exactly the values, and leaves exactly the sessions, that a property
allows; if it fails it leaves the session as it was. -/
structure Does {ε α : Type} (session : Session) (action : ExceptT ε (StateM Session) α)
    (ends : α → Session → Prop) : Prop where
  ok_iff : ∀ value after, session.carryOut action = (.ok value, after) ↔ ends value after
  of_error : ∀ error after, session.carryOut action = (.error error, after) → after = session

/-- An action only reads: it succeeds with exactly the values that a property allows, and leaves
the session as it was. -/
abbrev Reads {ε α : Type} (session : Session) (action : ExceptT ε (StateM Session) α)
    (finds : α → Prop) : Prop :=
  session.Does action fun value after => finds value ∧ after = session

section Actions

variable {ε α β : Type} {session : Session}

/-- What an action does, in other words. -/
theorem Does.congr {action : ExceptT ε (StateM Session) α} {ends others : α → Session → Prop}
    (h : session.Does action ends) (hsame : ∀ value after, ends value after ↔ others value after) :
    session.Does action others where
  ok_iff value after := (h.ok_iff value after).trans (hsame value after)
  of_error := h.of_error

/-- An action whose outcome is an error and that leaves the session as it is. -/
theorem does_of_error (action : ExceptT ε (StateM Session) α) (error : ε)
    (h : session.carryOut action = (.error error, session)) :
    session.Does action fun _ _ => False where
  ok_iff value after := by simp [h]
  of_error other after hother := by
    rw [h] at hother
    exact (Prod.mk.inj hother).2.symm

/-- An action with a single way to end, which is a success. -/
theorem does_of_ok (action : ExceptT ε (StateM Session) α) (value : α) (after : Session)
    (h : session.carryOut action = (.ok value, after)) :
    session.Does action fun other final => other = value ∧ final = after where
  ok_iff other final := by simp [h, eq_comm]
  of_error error final herror := by
    rw [h] at herror
    simp at herror

/-- The second of two actions starts where the first has ended, unless that has failed. -/
theorem carryOut_bind (session : Session) (first : ExceptT ε (StateM Session) α)
    (next : α → ExceptT ε (StateM Session) β) :
    session.carryOut (first >>= next) =
      match session.carryOut first with
      | (.error error, after) => (.error error, after)
      | (.ok value, after) => after.carryOut (next value) := by
  simp only [carryOut, ExceptT.run_bind, StateT.run_bind]
  rcases first.run.run session with ⟨_ | _, after⟩ <;> rfl

/-- **Reading comes first.**  Behind an action that only reads, an action has its effect as a
whole or not at all. -/
theorem Does.bind {first : ExceptT ε (StateM Session) α}
    {next : α → ExceptT ε (StateM Session) β} {finds : α → Prop}
    (ends : α → β → Session → Prop) (hfirst : session.Reads first finds)
    (hnext : ∀ value, finds value → session.Does (next value) (ends value)) :
    session.Does (first >>= next) fun result after =>
      ∃ value, finds value ∧ ends value result after where
  ok_iff result after := by
    rw [carryOut_bind]
    rcases hrun : session.carryOut first with ⟨error | value, middle⟩
    · simp only [Prod.mk.injEq, reduceCtorEq, false_and, false_iff, not_exists, not_and]
      intro value hvalue
      have := (hfirst.ok_iff value session).mpr ⟨hvalue, rfl⟩
      rw [hrun] at this
      simp at this
    · obtain ⟨hvalue, rfl⟩ := (hfirst.ok_iff value middle).mp hrun
      have hunique : ∀ other, finds other → other = value := by
        intro other hother
        have := (hfirst.ok_iff other middle).mpr ⟨hother, rfl⟩
        rw [hrun] at this
        simpa [eq_comm] using this
      show middle.carryOut (next value) = _ ↔ _
      rw [(hnext value hvalue).ok_iff result after]
      constructor
      · exact fun hends => ⟨value, hvalue, hends⟩
      · rintro ⟨other, hother, hends⟩
        rwa [hunique other hother] at hends
  of_error error after herror := by
    rw [carryOut_bind] at herror
    rcases hrun : session.carryOut first with ⟨cause | value, middle⟩
    · rw [hrun] at herror
      obtain ⟨-, rfl⟩ := Prod.mk.inj herror
      exact hfirst.of_error cause middle hrun
    · obtain ⟨hvalue, rfl⟩ := (hfirst.ok_iff value middle).mp hrun
      rw [hrun] at herror
      exact (hnext value hvalue).of_error error after herror

/-- An outcome that is known beforehand is only read. -/
theorem reads_liftExcept (outcome : Except ε α) :
    session.Reads (liftExcept outcome : ExceptT ε (StateM Session) α)
      fun value => outcome = .ok value := by
  cases outcome with
  | error error => exact (does_of_error _ _ rfl).congr (by simp)
  | ok known => exact (does_of_ok _ _ _ rfl).congr (by simp [eq_comm])

/-- Looking for a file only reads. -/
theorem reads_isFile (path : Path) :
    session.Reads (liftM (Host.isFile path : StateM Session Bool) : ExceptT ε _ _)
      fun found => found = session.store.isFile path :=
  does_of_ok _ _ _ rfl

/-- Looking for a directory only reads. -/
theorem reads_isDirectory (path : Path) :
    session.Reads (liftM (Host.isDirectory path : StateM Session Bool) : ExceptT ε _ _)
      fun found => found = session.store.isDirectory path :=
  does_of_ok _ _ _ rfl

/-- Reading a file only reads. -/
theorem reads_read (path : Path) :
    session.Reads (liftM (Host.read path : StateM Session _) : ExceptT ε _ _)
      fun outcome => outcome = session.read path :=
  does_of_ok _ _ _ rfl

/-- An action on the session alone succeeds, with what it gives and leaves. -/
theorem does_of_run (action : StateM Session α) {value : α} {after : Session}
    (h : action.run session = (value, after)) :
    session.Does (liftM action : ExceptT ε _ _) fun other final =>
      other = value ∧ final = after := by
  apply does_of_ok
  show (Except.ok (action.run session).1, (action.run session).2) = _
  rw [h]

/-- Printing a text adds it to the printed text, with a line feed. -/
theorem run_printLine (text : String) (session : Session) :
    (printLine text : StateM Session Unit).run session =
      ((), { session with printed := session.printed ++ (text ++ "\n") }) := rfl

/-- Printing lines one after the other adds what joining them gives. -/
theorem run_printLines (lines : List String) : ∀ session : Session,
    (printLines lines : StateM Session Unit).run session =
      ((), { session with printed := session.printed ++ joinLines lines }) := by
  induction lines with
  | nil =>
    intro session
    show ((), session) = ((), { session with printed := session.printed ++ "" })
    rw [String.append_empty]
  | cons line lines ih =>
    -- the other lines are printed behind the first, on the session that it leaves
    intro session
    rw [printLines, List.forM_eq_forM, List.forM_cons, StateT.run_bind, run_printLine]
    exact (ih _).trans (by simp [joinLines, String.append_assoc])

/-- Writing a file replaces the store, or nothing if there is a fault. -/
theorem carryOut_write (session : Session) (path : Path) (content : ByteArray) :
    session.carryOut (liftM (Host.write path content : StateM Session _) : ExceptT ε _ _) =
      match session.write path content with
      | .error fault => (.ok (.error fault), session)
      | .ok store => (.ok (.ok ()), { session with store }) := by
  have hrun : (Host.write path content : StateM Session _).run session =
      match session.write path content with
      | .error fault => (.error fault, session)
      | .ok store => (.ok (), { session with store }) := by
    simp only [Host.write, StateT.run_bind, StateT.run_get, pure_bind]
    cases session.write path content <;> rfl
  show (Except.ok ((Host.write path content : StateM Session _).run session).1,
    ((Host.write path content : StateM Session _).run session).2) = _
  rw [hrun]
  cases session.write path content <;> rfl

end Actions

/-! ## Loading and saving -/

/-- The object file to which a path leads is text and holds a program. -/
def Loads (session : Session) (path : Path) (program : List Word) : Prop :=
  ∃ bytes text, session.read path = .ok bytes ∧ String.fromUTF8? bytes = some text ∧
    ObjectText.parse text = .ok program

/-- A program is loaded in one way only. -/
theorem Loads.unique {session : Session} {path : Path} {p q : List Word}
    (hp : session.Loads path p) (hq : session.Loads path q) : p = q := by
  obtain ⟨bytes, text, hbytes, htext, hparse⟩ := hp
  obtain ⟨bytes', text', hbytes', htext', hparse'⟩ := hq
  obtain rfl := Except.ok.inj (hbytes.symm.trans hbytes')
  obtain rfl := Option.some.inj (htext.symm.trans htext')
  exact Except.ok.inj (hparse.symm.trans hparse')

/-- What is read is the content of a file at which the device has no fault. -/
theorem read_eq_ok_iff (session : Session) (path : Path) (bytes : ByteArray) :
    session.read path = .ok bytes ↔
      session.readFaults.lookup path = none ∧ session.store.find path = .ok (.file bytes) := by
  rw [read]
  cases session.readFaults.lookup path <;> simp [FileStore.read_eq_ok_iff]

/-- A file is written at the place to which its path leads, unless the device has a fault or there
is a directory. -/
theorem write_eq_ok_iff (session : Session) (path : Path) (content : ByteArray)
    (store : FileStore) :
    session.write path content = .ok store ↔
      session.writeFaults.lookup path = none ∧ ∃ place, session.store.locate path = .ok place ∧
        session.store.node? place ≠ some .directory ∧
        store = session.store.set place (.file content) := by
  rw [write]
  cases session.writeFaults.lookup path <;> simp [FileStore.write_eq_ok_iff]

/-- Loading a program only reads. -/
theorem reads_loadProgram (session : Session) (path : Path) :
    session.Reads (loadProgram path) (session.Loads path) := by
  unfold loadProgram
  refine ((reads_isFile path).bind (fun found program after =>
    found = true ∧ session.Loads path program ∧ after = session) ?_).congr ?_
  · rintro found rfl
    by_cases hfile : session.store.isFile path
    · simp only [hfile, if_true]
      refine ((reads_read path).bind (fun _ program after =>
        session.Loads path program ∧ after = session) ?_).congr (by simp)
      rintro outcome rfl
      cases hread : session.read path with
      | error fault => exact (does_of_error _ _ rfl).congr (by simp [Loads, hread])
      | ok bytes =>
        cases htext : String.fromUTF8? bytes with
        | none =>
          simp only [htext]
          exact (does_of_error _ _ rfl).congr (by simp [Loads, hread, htext])
        | some text =>
          cases hparse : ObjectText.parse text with
          | error error =>
            simp only [htext, hparse]
            exact (does_of_error _ _ rfl).congr (by simp [Loads, hread, htext, hparse])
          | ok program =>
            simp only [htext, hparse]
            exact (does_of_ok _ _ _ rfl).congr (by simp [Loads, hread, htext, hparse, eq_comm])
    · simp only [hfile]
      exact (does_of_error _ _ rfl).congr (by simp)
  · intro program after
    constructor
    · rintro ⟨_, -, -, hloads⟩
      exact hloads
    · rintro ⟨⟨bytes, text, hread, hrest⟩, hafter⟩
      have hfind := ((session.read_eq_ok_iff path bytes).mp hread).2
      have hfile := (FileStore.isFile_iff _ _).mpr ⟨bytes, hfind⟩
      exact ⟨_, rfl, hfile, ⟨bytes, text, hread, hrest⟩, hafter⟩

/-- The directory of a file is there, unless its path names none. -/
def HasDirectory (session : Session) (path : Path) : Prop :=
  ∀ directory, path.parent? = some directory → directory.text ≠ "" →
    session.store.isDirectory directory = true

/-- Looking for the directory of a file only reads. -/
theorem reads_hasDirectory {ε : Type} (session : Session) (path : Path) :
    session.Reads (liftM (hasDirectory path : StateM Session Bool) : ExceptT ε _ _)
      fun found => (found = true ↔ session.HasDirectory path) := by
  unfold hasDirectory HasDirectory
  cases path.parent? with
  | none => exact (does_of_ok _ _ _ rfl).congr (by simp)
  | some directory =>
    by_cases h : directory.text = ""
    · simp only [h, if_true]
      exact (does_of_ok _ _ _ rfl).congr (by simp [h])
    · simp only [h, if_false]
      refine (reads_isDirectory directory).congr fun found after => ?_
      have hthere : (∀ other, some directory = some other → other.text ≠ "" →
          session.store.isDirectory other = true) ↔ session.store.isDirectory directory = true := by
        simp [h]
      show found = _ ∧ _ ↔ (found = true ↔ _) ∧ _
      rw [hthere, ← Bool.eq_iff_iff]

/-- Saving a text writes its file, in a directory that is there. -/
theorem does_saveText (session : Session) (path : Path) (text : String) :
    session.Does (saveText path text) fun _ after => session.HasDirectory path ∧
      ∃ store, session.write path text.toUTF8 = .ok store ∧ after = { session with store } := by
  unfold saveText
  refine ((session.reads_hasDirectory path).bind (fun found _ after => found = true ∧
    ∃ store, session.write path text.toUTF8 = .ok store ∧
      after = { session with store }) ?_).congr ?_
  · intro found hfound
    cases found with
    | false => exact (does_of_error _ _ rfl).congr (by simp)
    | true =>
      simp only [if_true]
      cases hwrite : session.write path text.toUTF8 with
      | error fault =>
        refine (does_of_error _ (.writing path fault) ?_).congr (by simp)
        rw [carryOut_bind, carryOut_write, hwrite]
        rfl
      | ok store =>
        refine (does_of_ok _ () { session with store } ?_).congr (by simp)
        rw [carryOut_bind, carryOut_write, hwrite]
        rfl
  · intro _ after
    constructor
    · rintro ⟨found, hfound, htrue, hstore⟩
      exact ⟨hfound.mp htrue, hstore⟩
    · rintro ⟨hdirectory, hstore⟩
      exact ⟨true, by simpa using hdirectory, rfl, hstore⟩

end Session

namespace Arguments

/-! ## The content of the output -/

/-- What a request puts in front of instructions: one tab, or as many blanks as it says. -/
def indentation (arguments : Arguments) : String :=
  match arguments.indent with
  | none => "\t"
  | some count => String.ofList (List.replicate count ' ')

/-- A line in the output of a request: the name of a label and a colon, or an instruction behind the
indentation. -/
def lineText (arguments : Arguments) : Line → String
  | .label _ name => name ++ ":"
  | .instruction _ content => arguments.indentation ++ content.text

/-- **The layout of a request** is its indentation, unless that is longer than any text. -/
theorem layout_eq_ok_iff (arguments : Arguments) (layout : Layout) :
    arguments.layout = .ok layout ↔
      (∀ count, arguments.indent = some count → count < 0x8000000000000000) ∧
        layout = { indent := arguments.indentation } := by
  unfold Arguments.layout indentation
  cases arguments.indent with
  | none => simp [eq_comm]
  | some count =>
    by_cases h : count < UInt64.size / 2
    · have hcount : count < 0x8000000000000000 := h
      simp [h, hcount, eq_comm]
    · have hcount : ¬ count < 0x8000000000000000 := h
      simp [h, hcount]

/-- The lines of a listing in the layout of a request. -/
theorem render_of_layout {arguments : Arguments} {layout : Layout}
    (h : arguments.layout = .ok layout) (listing : Listing) :
    listing.render layout = listing.lines.map arguments.lineText := by
  obtain ⟨-, rfl⟩ := (arguments.layout_eq_ok_iff layout).mp h
  refine List.map_congr_left fun line _ => ?_
  cases line <;> rfl

/-! ## Running -/

/-- What a request makes out of the object file of a session. -/
def Makes (arguments : Arguments) (session : Session) (content : String) : Prop :=
  ∃ program listing layout, session.Loads arguments.input program ∧
    Listing.ofProgram program = .ok listing ∧ arguments.layout = .ok layout ∧
    content = arguments.content listing layout

/-- What a request makes is a text with the lines of the listing, each ended by a line feed, or a
report that is read as the account of the listing. -/
theorem Makes.content_eq {arguments : Arguments} {session : Session} {content : String}
    (h : arguments.Makes session content) :
    ∃ program listing, session.Loads arguments.input program ∧
      Listing.ofProgram program = .ok listing ∧
      (arguments.format = .text →
        content = String.join (listing.lines.map fun line => arguments.lineText line ++ "\n")) ∧
      (arguments.format = .json →
        Json.read? content = some (listing.account arguments.input.text program.length
          (listing.lines.map arguments.lineText))) := by
  obtain ⟨program, listing, layout, hloads, hlisting, hlayout, rfl⟩ := h
  have hrender := render_of_layout hlayout listing
  refine ⟨program, listing, hloads, hlisting, fun hformat => ?_, fun hformat => ?_⟩
  · rw [Arguments.content, hformat]
    show joinLines (listing.render layout) = _
    rw [hrender, joinLines, List.map_map]
    rfl
  · rw [Arguments.content, hformat, ← hrender]
    exact Report.read?_pretty_ofListing hlisting _ layout

/-- What is printed instead of an output file: its content, and the line feed with which a
report does not end of its own. -/
def printed (arguments : Arguments) (content : String) : String :=
  match arguments.format with
  | .text => content
  | .json => content ++ "\n"

/-- How a request hands its output over: it is printed, or it becomes the content of a file in a
directory that is there. -/
inductive Delivers (arguments : Arguments) (session : Session) (content : String) :
    Session → Prop where
  | printed (h : arguments.stdout = true) :
    Delivers arguments session content
      { session with printed := session.printed ++ arguments.printed content }
  | saved (h : arguments.stdout = false) (store : FileStore)
    (hdirectory : session.HasDirectory arguments.destination)
    (hwrite : session.write arguments.destination content.toUTF8 = .ok store) :
    Delivers arguments session content { session with store }

/-- Printing an output adds the content of its file to the printed text. -/
theorem does_print (arguments : Arguments) (session : Session) (listing : Listing)
    (layout : Layout) :
    session.Does (liftM (arguments.print listing layout : StateM Session Unit) :
        ExceptT RunError _ _)
      fun _ after => after = { session with
        printed := session.printed ++ arguments.printed (arguments.content listing layout) } := by
  unfold print printed content
  cases arguments.format with
  | text => exact (Session.does_of_run _ (Session.run_printLines _ session)).congr (by simp)
  | json => exact (Session.does_of_run _ (Session.run_printLine _ session)).congr (by simp)

/-- The last step of a run hands the output over. -/
theorem does_deliver (arguments : Arguments) (session : Session) (listing : Listing)
    (layout : Layout) :
    session.Does (if arguments.stdout then
        (liftM (arguments.print listing layout : StateM Session Unit) : ExceptT RunError _ _)
      else saveText arguments.destination (arguments.content listing layout))
      fun _ => arguments.Delivers session (arguments.content listing layout) := by
  cases h : arguments.stdout with
  | true =>
    refine (arguments.does_print session listing layout).congr fun _ after => ⟨?_, ?_⟩
    · rintro rfl
      exact .printed h
    · rintro (_ | ⟨hfile, -⟩)
      · rfl
      · simp [h] at hfile
  | false =>
    refine (session.does_saveText _ _).congr fun _ after => ⟨?_, ?_⟩
    · rintro ⟨hdirectory, store, hwrite, rfl⟩
      exact .saved h store hdirectory hwrite
    · rintro (hprint | ⟨-, store, hdirectory, hwrite⟩)
      · simp [h] at hprint
      · exact ⟨hdirectory, store, hwrite, rfl⟩

/-- **A run** makes the output and hands it over. -/
theorem does_run (arguments : Arguments) (session : Session) :
    session.Does (arguments.run : ExceptT RunError (StateM Session) Unit) fun _ after =>
      ∃ content, arguments.Makes session content ∧ arguments.Delivers session content after := by
  unfold run
  refine ((session.reads_loadProgram arguments.input).bind _ fun program _ =>
    (Session.reads_liftExcept _).bind _ fun listing _ =>
    (Session.reads_liftExcept _).bind _ fun layout _ =>
    arguments.does_deliver session listing layout).congr ?_
  simp only [mapError_eq_ok_iff]
  intro _ after
  constructor
  · rintro ⟨program, hloads, listing, hlisting, layout, hlayout, hdelivers⟩
    exact ⟨_, ⟨program, listing, layout, hloads, hlisting, hlayout, rfl⟩, hdelivers⟩
  · rintro ⟨_, ⟨program, listing, layout, hloads, hlisting, hlayout, rfl⟩, hdelivers⟩
    exact ⟨program, hloads, listing, hlisting, layout, hlayout, hdelivers⟩

/-- **All or nothing.**  A run that fails leaves the session as it was.  A run that succeeds has
made its output from what the object file held before: a text with the lines of the listing, or a
report that is read as the account of the listing.  If the output is printed, the files are
as they were.  Else nothing is printed, and the output is the content of the file to which the
destination leads, even if that is the object file; at every other place there is what was there
before, and every path that leads elsewhere finds what it found before.  A run succeeds exactly
if the output can be made and, unless it is printed, the destination can be written. -/
theorem run_all_or_nothing (arguments : Arguments) (before : Session) :
    (∀ error after, before.carryOut arguments.run = (.error error, after) → after = before) ∧
    (∀ after, before.carryOut arguments.run = (.ok (), after) →
      ∃ content, arguments.Makes before content ∧
        (∃ program listing, before.Loads arguments.input program ∧
          Listing.ofProgram program = .ok listing ∧
          (arguments.format = .text →
            content = String.join (listing.lines.map fun line => arguments.lineText line ++ "\n")) ∧
          (arguments.format = .json →
            Json.read? content = some (listing.account arguments.input.text program.length
              (listing.lines.map arguments.lineText)))) ∧
        (arguments.stdout = true →
          after.store = before.store ∧
            after.printed = before.printed ++ arguments.printed content) ∧
        (arguments.stdout = false →
          after.printed = before.printed ∧
            ∃ place, before.store.locate arguments.destination = .ok place ∧
              after.store = before.store.set place (.file content.toUTF8) ∧
              after.store.find arguments.destination = .ok (.file content.toUTF8) ∧
              (∀ other, other ≠ place → after.store.node? other = before.store.node? other) ∧
              ∀ path node, before.store.locate path ≠ .ok place →
                (after.store.find path = .ok node ↔ before.store.find path = .ok node))) ∧
    ((∃ after, before.carryOut arguments.run = (.ok (), after)) ↔
      ∃ content, arguments.Makes before content ∧
        (arguments.stdout = true ∨ before.HasDirectory arguments.destination ∧
          ∃ store, before.write arguments.destination content.toUTF8 = .ok store)) := by
  obtain ⟨hok, herror⟩ := arguments.does_run before
  refine ⟨herror, fun after hafter => ?_, ?_⟩
  · obtain ⟨content, hmakes, hdelivers⟩ := (hok () after).mp hafter
    refine ⟨content, hmakes, hmakes.content_eq, ?_⟩
    cases hdelivers with
    | printed hprint =>
      refine ⟨fun _ => ⟨rfl, rfl⟩, fun hfile => ?_⟩
      simp [hprint] at hfile
    | saved hfile store _ hwrite =>
      refine ⟨fun hprint => ?_, fun _ => ?_⟩
      · simp [hfile] at hprint
      obtain ⟨-, place, hlocate, hfree, rfl⟩ := (before.write_eq_ok_iff _ _ _).mp hwrite
      refine ⟨rfl, place, hlocate, rfl, ?_, ?_, ?_⟩
      · exact before.store.find_set_self place _ hfree _ hlocate
      · exact fun other => before.store.node?_set_of_ne place other _
      · exact fun path node hpath => before.store.find_set_of_ne place _ hfree path hpath node
  · constructor
    · rintro ⟨after, hafter⟩
      obtain ⟨content, hmakes, hdelivers⟩ := (hok () after).mp hafter
      refine ⟨content, hmakes, ?_⟩
      cases hdelivers with
      | printed hprint => exact Or.inl hprint
      | saved _ store hdirectory hwrite => exact Or.inr ⟨hdirectory, store, hwrite⟩
    · rintro ⟨content, hmakes, hout⟩
      obtain ⟨after, hdelivers⟩ : ∃ after, arguments.Delivers before content after := by
        cases hprint : arguments.stdout with
        | true => exact ⟨_, .printed hprint⟩
        | false =>
          rw [hprint] at hout
          obtain ⟨hdirectory, store, hwrite⟩ := hout.resolve_left (by decide)
          exact ⟨_, .saved hprint store hdirectory hwrite⟩
      exact ⟨after, (hok () after).mpr ⟨content, hmakes, hdelivers⟩⟩

/-- The output takes the place of the object file itself, which the destination names by another
path, and is made from what was there before.  A report on the same program, with two blanks in
front of instructions, lies beside the object file.  A second line that is no instruction leaves
everything as it was. -/
theorem run_all_or_nothing_over_input :
    let arguments : Arguments := { input := ⟨"a.obj"⟩, out := some ⟨"/work/./a.obj"⟩ }
    let reporting : Arguments := { input := ⟨"a.obj"⟩, format := .json, indent := some 2 }
    let holding (text : String) : Session :=
      { store := { nodes := [(⟨["work", "a.obj"]⟩, .file text.toUTF8)] } }
    let after := holding "\tadd $zero, $zero, $zero\n"
    let report := "\x7b\n  \"source\": \"a.obj\",\n  \"instructions\": 1,\n  \"labels\": [],\n"
      ++ "  \"lines\": [\n    \"  add $zero, $zero, $zero\"\n  ]\n\x7d"
    let reported := (holding "0x20\n").store.set ⟨["work", "a.json"]⟩ (.file report.toUTF8)
    let stray := holding "0x20\n3F"
    let refusal : RunError := .disassembly (.atLine
      { line := 2, word := "0000003F", cause := .unknownCode .register 0x3F })
    ((holding "0x20\n").carryOut arguments.run = (.ok (), after) ∧
      ∃ content, arguments.Makes (holding "0x20\n") content ∧
        after.store.find arguments.destination = .ok (.file content.toUTF8)) ∧
    ((holding "0x20\n").carryOut reporting.run = (.ok (), { store := reported }) ∧
      ∃ content, Json.read? content = some (.object
          [("source", .string "a.obj"), ("instructions", .integer 1), ("labels", .array []),
           ("lines", .array [.string "  add $zero, $zero, $zero"])]) ∧
        reported.find reporting.destination = .ok (.file content.toUTF8)) ∧
    stray.carryOut arguments.run = (.error refusal, stray) := by
  intro arguments reporting holding after report reported stray refusal
  have hok : (holding "0x20\n").carryOut arguments.run = (.ok (), after) := by decide +kernel
  have hreport : (holding "0x20\n").carryOut reporting.run = (.ok (), { store := reported }) := by
    decide +kernel
  have hrefused : (stray.carryOut arguments.run).1 = .error refusal := by decide +kernel
  have hrun : stray.carryOut arguments.run = (.error refusal, (stray.carryOut arguments.run).2) :=
    Prod.ext hrefused rfl
  refine ⟨⟨hok, ?_⟩, ⟨hreport, ?_⟩, ?_⟩
  · obtain ⟨content, hmakes, -, -, hsaved⟩ := (run_all_or_nothing arguments _).2.1 after hok
    obtain ⟨-, place, -, -, hfind, -, -⟩ := hsaved rfl
    exact ⟨content, hmakes, hfind⟩
  · obtain ⟨content, -, ⟨program, listing, hloads, hlisting, -, hread⟩, -, hsaved⟩ :=
      (run_all_or_nothing reporting _).2.1 _ hreport
    obtain ⟨-, place, -, -, hfind, -, -⟩ := hsaved rfl
    have hword : (holding "0x20\n").Loads reporting.input [0x20] :=
      ⟨"0x20\n".toUTF8, "0x20\n", by decide +kernel, by decide +kernel, by decide +kernel⟩
    have hlines : Listing.ofProgram [0x20] = .ok { lines :=
        [.instruction 0 ⟨.add, .register, "add $zero, $zero, $zero", none⟩] } := by
      decide +kernel
    obtain rfl := hloads.unique hword
    obtain rfl := Except.ok.inj (hlisting.symm.trans hlines)
    exact ⟨content, hread rfl, hfind⟩
  · rw [hrun, (run_all_or_nothing arguments stray).1 refusal _ hrun]

end Arguments

end MipsListing
