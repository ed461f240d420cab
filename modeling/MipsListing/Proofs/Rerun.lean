/-
# Running the command again

The output that belongs to an object file lies elsewhere than the object file.  So a request that
does not name its output leaves the object file as it is, and once it has succeeded it can be
carried out again, as often as one likes, with the same output and no other change.

* `FileStore.locate_ne_of_differsInLast` : a derived path leads elsewhere than to the file;
* `Arguments.run_again` : what a request finds and does when it is carried out again.
-/
import MipsListing.Proofs.Run

namespace MipsListing

/-! ## Where derived paths lead -/

/-- Segments with different steps lead to different places. -/
theorem Place.follow_ne (place : Place) (a b : String) (ha : Path.isIdle a = false)
    (hb : Path.isIdle b = false)
    (h : Path.Component.ofSegment? a ≠ Path.Component.ofSegment? b) :
    place.follow a ≠ place.follow b := by
  have hlower : ∀ name, place.above ≠ place.child name := by
    intro name heq
    have hlength := congrArg (fun other : Place => other.names.length) heq
    simp only [above, child, List.length_dropLast, List.length_append, List.length_singleton]
      at hlength
    omega
  have hname : ∀ name other, place.child name = place.child other → name = other := by
    intro name other heq
    simpa [child] using heq
  simp only [Path.Component.ofSegment?, ha, hb, Bool.false_eq_true, if_false] at h
  simp only [follow, ha, hb, Bool.false_eq_true, if_false]
  split_ifs with hupA hupB hupB
  · simp [hupA, hupB] at h
  · exact hlower b
  · exact (hlower a).symm
  · intro heq
    simp [hname a b heq] at h

namespace FileStore

/-- A path with another last step does not lead to the file to which a path leads. -/
theorem locate_ne_of_differsInLast (store : FileStore) {path other : Path} {place : Place}
    {content : ByteArray} (h : path.DiffersInLast other) (hlocate : store.locate path = .ok place)
    (hfile : store.node? place = some (.file content)) : store.locate other ≠ .ok place := by
  have horigin : store.origin other = store.origin path := by
    rw [origin, origin, h.isAbsolute_eq]
  obtain ⟨above, last, idles, name, hpath, hidles, hlast, hother, hname, hne⟩ := h
  intro hderived
  obtain ⟨-, hderived⟩ := (store.locate_eq_ok_iff other place).mp hderived
  obtain ⟨-, hwalk⟩ := (store.locate_eq_ok_iff path place).mp hlocate
  rw [hother, walk_concat_eq_ok_iff, horigin] at hderived
  -- an idle segment at the end would lead to a directory
  have hends : ∀ front segment, path.segments = front ++ [segment] →
      Path.isIdle segment = false := by
    intro front segment hsegments
    rw [hsegments, walk_concat_eq_ok_iff] at hwalk
    obtain ⟨directory, -, hdirectory, rfl⟩ := hwalk
    by_contra hidle
    rw [Bool.not_eq_false] at hidle
    rw [Place.follow, if_pos hidle, hdirectory] at hfile
    simp at hfile
  obtain rfl : idles = [] := by
    rcases List.eq_nil_or_concat' idles with hnil | ⟨front, idle, rfl⟩
    · exact hnil
    · have := hends (above ++ last :: front) idle (by simp [hpath])
      simp [hidles idle (by simp)] at this
  rw [hpath, walk_concat_eq_ok_iff] at hwalk
  obtain ⟨directory, habove, -, hfollow⟩ := hwalk
  obtain ⟨same, hsame, -, hfollow'⟩ := hderived
  obtain rfl : directory = same := Except.ok.inj (habove.symm.trans hsame)
  exact directory.follow_ne last name (hends above last hpath) hname hne
    (hfollow.trans hfollow'.symm)

end FileStore

namespace Session

/-! ## Sessions after a file was saved -/

section Saved

variable {session : Session} {path : Path} {content : ByteArray} {store : FileStore}

/-- A file that was saved can be saved again, which changes nothing. -/
theorem write_again (h : session.write path content = .ok store) :
    ({ session with store } : Session).write path content = .ok store := by
  obtain ⟨hfault, place, hlocate, hfree, rfl⟩ := (session.write_eq_ok_iff _ _ _).mp h
  rw [write_eq_ok_iff]
  refine ⟨hfault, place, ?_, ?_, (session.store.set_set place _ _).symm⟩
  · exact (session.store.locate_set_iff place content hfree path place).mpr hlocate
  · simp [session.store.node?_set_self place _ hfree]

/-- Directories are still there after a file was saved. -/
theorem hasDirectory_of_write (h : session.write path content = .ok store) {other : Path}
    (hother : session.HasDirectory other) :
    ({ session with store } : Session).HasDirectory other := by
  obtain ⟨-, place, -, hfree, rfl⟩ := (session.write_eq_ok_iff _ _ _).mp h
  intro directory hparent hnamed
  have hthere := hother directory hparent hnamed
  rw [FileStore.isDirectory_iff] at hthere ⊢
  refine (session.store.find_set_of_ne place content hfree directory ?_ _).mpr hthere
  intro hplace
  obtain ⟨target, htarget, hdirectory⟩ := (FileStore.find_eq_ok_iff _ _ _).mp hthere
  exact hfree (Except.ok.inj (htarget.symm.trans hplace) ▸ hdirectory)

/-- A file is read as before when one with another last step of its path was saved. -/
theorem read_of_write (h : session.write path content = .ok store) {input : Path}
    {bytes : ByteArray} (hread : session.read input = .ok bytes)
    (hderived : input.DiffersInLast path) :
    ({ session with store } : Session).read input = .ok bytes := by
  obtain ⟨-, place, hlocate, hfree, rfl⟩ := (session.write_eq_ok_iff _ _ _).mp h
  obtain ⟨hfault, hfind⟩ := (session.read_eq_ok_iff _ _).mp hread
  obtain ⟨target, htarget, hfile⟩ := (FileStore.find_eq_ok_iff _ _ _).mp hfind
  rw [read_eq_ok_iff]
  refine ⟨hfault, (session.store.find_set_of_ne place content hfree input ?_ _).mpr hfind⟩
  intro hplace
  obtain rfl : target = place := Except.ok.inj (htarget.symm.trans hplace)
  exact session.store.locate_ne_of_differsInLast hderived htarget hfile hlocate

end Saved

end Session

namespace Arguments

/-! ## Running again -/

/-- A request without a path of its own for the output has a derived path as its destination. -/
theorem differsInLast_destination (arguments : Arguments) (h : arguments.out = none) :
    arguments.input.DiffersInLast arguments.destination := by
  unfold destination
  rw [h]
  cases arguments.format with
  | text => exact arguments.input.differsInLast_assembly
  | json => exact arguments.input.differsInLast_report

/-- The output depends on the content of the object file only. -/
theorem Makes.of_read {arguments : Arguments} {session other : Session} {content : String}
    (h : arguments.Makes session content)
    (hread : ∀ bytes, session.read arguments.input = .ok bytes →
      other.read arguments.input = .ok bytes) : arguments.Makes other content := by
  obtain ⟨program, listing, layout, ⟨bytes, text, hbytes, htext⟩, hrest⟩ := h
  exact ⟨program, listing, layout, ⟨bytes, text, hread bytes hbytes, htext⟩, hrest⟩

/-- A request that does not name its output leaves its object file to be read as before. -/
theorem read_of_delivers {arguments : Arguments} {session after : Session} {content : String}
    (hout : arguments.out = none) (h : arguments.Delivers session content after)
    (bytes : ByteArray) (hread : session.read arguments.input = .ok bytes) :
    after.read arguments.input = .ok bytes := by
  cases h with
  | printed => exact hread
  | saved _ store _ hwrite =>
    exact Session.read_of_write hwrite hread (arguments.differsInLast_destination hout)

/-- What was handed over can be handed over again: what was printed is printed once more, and a
file that was saved stays as it is. -/
theorem Delivers.again {arguments : Arguments} {session after : Session} {content : String}
    (h : arguments.Delivers session content after) :
    ∃ output, after.printed = session.printed ++ output ∧
      arguments.Delivers after content { after with printed := after.printed ++ output } ∧
      (arguments.stdout = false → output = "") := by
  cases h with
  | printed hprint =>
    exact ⟨arguments.printed content, rfl, .printed hprint, by simp [hprint]⟩
  | saved hfile store hdirectory hwrite =>
    refine ⟨"", by simp, ?_, fun _ => rfl⟩
    simpa using Delivers.saved hfile store (Session.hasDirectory_of_write hwrite hdirectory)
      (Session.write_again hwrite)

/-- **Running again.**  The path of an output that belongs to an object file is not the path of
the object file, nor does it describe the same steps.  So a run that succeeds without a path of
its own for the output leaves the content of the object file as it was, and the same request
succeeds again: what it prints is printed once more, if it prints, and nothing else changes. -/
theorem run_again :
    (∀ path : Path, path.assembly ≠ path ∧ path.report ≠ path ∧
      path.assembly.components ≠ path.components ∧ path.report.components ≠ path.components) ∧
    ∀ (arguments : Arguments) (before after : Session), arguments.out = none →
      before.carryOut arguments.run = (.ok (), after) →
      (∃ bytes, before.store.read arguments.input = .ok bytes ∧
        after.store.read arguments.input = .ok bytes) ∧
      ∃ output, after.printed = before.printed ++ output ∧
        after.carryOut arguments.run =
          (.ok (), { after with printed := after.printed ++ output }) ∧
        (arguments.stdout = false → output = "") := by
  refine ⟨fun path => ?_, fun arguments before after hout hrun => ?_⟩
  · have hassembly := path.differsInLast_assembly
    have hreport := path.differsInLast_report
    exact ⟨hassembly.ne.symm, hreport.ne.symm, hassembly.components_ne.symm,
      hreport.components_ne.symm⟩
  obtain ⟨content, hmakes, hdelivers⟩ := ((arguments.does_run before).ok_iff () after).mp hrun
  have hread := read_of_delivers hout hdelivers
  constructor
  · obtain ⟨_, _, _, ⟨bytes, _, hbytes, -⟩, -⟩ := hmakes
    refine ⟨bytes, ?_, ?_⟩
    · exact (FileStore.read_eq_ok_iff _ _ _).mpr ((before.read_eq_ok_iff _ _).mp hbytes).2
    · exact (FileStore.read_eq_ok_iff _ _ _).mpr
        ((after.read_eq_ok_iff _ _).mp (hread bytes hbytes)).2
  · obtain ⟨output, hprinted, hagain, hnothing⟩ := hdelivers.again
    refine ⟨output, hprinted, ?_, hnothing⟩
    exact ((arguments.does_run after).ok_iff () _).mpr ⟨content, hmakes.of_read hread, hagain⟩

/-- A branch to itself in a directory below the working directory: the assembly text is saved
beside the object file, and saved again over itself. -/
theorem run_again_below_directory :
    let arguments : Arguments := { input := ⟨"lib//./loop.obj"⟩ }
    let before : Session :=
      { store := { nodes := [(⟨["work", "lib"]⟩, .directory),
          (⟨["work", "lib", "loop.obj"]⟩, .file "0x1000FFFF\n".toUTF8)] } }
    let after : Session :=
      { store := before.store.set ⟨["work", "lib", "loop.s"]⟩
          (.file "Addr_0000:\n\tbeq $zero, $zero, Addr_0000\n".toUTF8) }
    arguments.out = none ∧ before.carryOut arguments.run = (.ok (), after) ∧
      after.carryOut arguments.run = (.ok (), after) := by
  intro arguments before after
  have hout : arguments.out = none := rfl
  have hrun : before.carryOut arguments.run = (.ok (), after) := by decide +kernel
  obtain ⟨-, output, -, hagain, hnothing⟩ := run_again.2 arguments before after hout hrun
  obtain rfl := hnothing rfl
  exact ⟨hout, hrun, hagain⟩

end Arguments

end MipsListing
