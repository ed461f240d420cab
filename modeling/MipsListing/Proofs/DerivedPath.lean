/-
# Paths of the outputs

The paths of the two outputs that belong to an object file.  If the file name ends in `.obj`, they
lead to files beside the object file, which have its stem and other extensions; behind any other
path their extensions are appended.  There is one exception: a path that ends in `..obj` leads to
the directory above once its extension is cut off, and then there is no name left to which another
extension could be given.

* `Path.HasNewExtension` : a path that differs from another in the extension of its file name only;
* `Path.components_of_segments`, `Path.stem_and_extension_of_segments` : the steps and the file
  name of a path;
* `Path.hasNewExtension_ofSegments`, `Path.components_ne_of_extensions` : the same file name with
  other extensions;
* `Path.derivesOutputs_iff` : which paths have outputs of this kind.
-/
import MipsListing.Proofs.Path

namespace MipsListing.Path

/-! ## Paths that differ in their extension -/

/-- A path differs from another in the extension of its file name only: it describes the same steps
down to the file name, and this has the same stem. -/
structure HasNewExtension (path : Path) (extension : String) (other : Path) : Prop where
  parent_components : other.components.dropLast = path.components.dropLast
  fileStem?_eq : other.fileStem? = path.fileStem?
  extension?_eq : other.extension? = some extension

/-- A path starts as another one does if the segments above their file names are the same. -/
theorem start_eq_of_segments (path other : Path) (above : List String) (last : String)
    (idles : List String) (name : String) (hpath : path.segments = above ++ last :: idles)
    (hother : other.segments = above ++ [name]) (hlast : isIdle last = false)
    (hname : isIdle name = false) : other.start = path.start := by
  have habsolute : path.isAbsolute = other.isAbsolute :=
    isAbsolute_eq_of_segments path other above last idles name hpath hother (by simp [hlast])
  have hhead : other.segments.head? = some "." ↔ path.segments.head? = some "." := by
    rw [hpath, hother]
    cases above with
    | nil => simp_all [isIdle]
    | cons first above => simp
  simp only [start, habsolute, hhead]

/-- The steps of a path with a file name are its start, those above the name, and the name. -/
theorem components_of_segments (path : Path) (above : List String) (last : String)
    (idles : List String) (step : Component) (h : path.segments = above ++ last :: idles)
    (hidles : ∀ idle ∈ idles, isIdle idle = true) (hstep : Component.ofSegment? last = some step) :
    path.components = path.start ++ above.filterMap Component.ofSegment? ++ [step] := by
  rw [components, h, List.filterMap_append, List.filterMap_cons, hstep,
    filterMap_ofSegment?_of_idle idles hidles, List.append_assoc]

/-- A file name with an extension is its stem and its extension. -/
theorem stem_and_extension_of_segments (path : Path) (above : List String) (stem extension : String)
    (idles : List String) (h : path.segments = above ++ (stem ++ "." ++ extension) :: idles)
    (hidles : ∀ idle ∈ idles, isIdle idle = true) (hstem : stem ≠ "") (hempty : extension ≠ "")
    (hdot : '.' ∉ extension.toList) :
    path.fileStem? = some stem ∧ path.extension? = some extension := by
  have hname : path.fileName? = some (stem ++ "." ++ extension) := by
    have hup : stem ++ "." ++ extension ≠ ".." :=
      fun heq => hempty ((append_eq_up_iff stem extension hstem).mp heq).2
    rw [fileName?, path.splitFileName?_of_segments above _ idles h hidles
      (isIdle_append stem extension (.inl hstem)), if_neg hup]
    rfl
  rw [fileStem?, extension?, hname, Option.map_some, Option.bind_some,
    splitExtension_append stem extension hstem hdot]
  exact ⟨rfl, rfl⟩

/-- Neither the segments above a file name nor its stem have a slash. -/
theorem slash_not_mem_of_segments (path : Path) (above : List String) (stem extension : String)
    (idles : List String) (h : path.segments = above ++ (stem ++ "." ++ extension) :: idles) :
    (∀ segment ∈ above, '/' ∉ segment.toList) ∧ '/' ∉ stem.toList := by
  refine ⟨fun segment hmem => path.slash_not_mem_segments segment (by simp [h, hmem]), ?_⟩
  have hname := path.slash_not_mem_segments (stem ++ "." ++ extension) (by simp [h])
  exact fun hmem => hname (by simp [hmem])

/-- The segments of a path that ends in a name with an extension. -/
theorem segments_ofSegments_extension (above : List String) (stem extension : String)
    (habove : ∀ segment ∈ above, '/' ∉ segment.toList) (hstem : '/' ∉ stem.toList)
    (hextension : '/' ∉ extension.toList) :
    (ofSegments (above ++ [stem ++ "." ++ extension])).segments
      = above ++ [stem ++ "." ++ extension] := by
  refine segments_ofSegments _ (by simp) fun segment hmem => ?_
  rcases List.mem_append.mp hmem with hmem | hmem
  · exact habove segment hmem
  · rw [List.mem_singleton.mp hmem]
    simp [hstem, hextension]

/-- Paths that end in the same stem with different extensions lead to different files. -/
theorem components_ne_of_extensions (above : List String) (stem a b : String)
    (habove : ∀ segment ∈ above, '/' ∉ segment.toList) (hstem : '/' ∉ stem.toList)
    (ha : a ≠ "" ∧ '.' ∉ a.toList ∧ '/' ∉ a.toList)
    (hb : b ≠ "" ∧ '.' ∉ b.toList ∧ '/' ∉ b.toList) (hne : a ≠ b) :
    (ofSegments (above ++ [stem ++ "." ++ a])).components
      ≠ (ofSegments (above ++ [stem ++ "." ++ b])).components := by
  have hsegments := segments_ofSegments_extension above stem a habove hstem ha.2.2
  apply DiffersInLast.components_ne
  refine differsInLast_ofSegments _ above _ [] _ hsegments (by simp) (by simp) ?_
    (isIdle_append stem b (.inr hb.1)) ?_
  · simp [hstem, hb.2.2]
  · rw [ofSegment?_append stem a ha.1 ha.2.1, ofSegment?_append stem b hb.1 hb.2.1]
    simpa using hne

/-- The path that ends in the file name with another extension differs from the path in nothing
else. -/
theorem hasNewExtension_ofSegments (path : Path) (above : List String) (stem old : String)
    (idles : List String) (h : path.segments = above ++ (stem ++ "." ++ old) :: idles)
    (hidles : ∀ idle ∈ idles, isIdle idle = true) (hstem : stem ≠ "") (hold : old ≠ "")
    (hdot : '.' ∉ old.toList) (new : String)
    (hnew : new ≠ "" ∧ '.' ∉ new.toList ∧ '/' ∉ new.toList) :
    path.HasNewExtension new (ofSegments (above ++ [stem ++ "." ++ new])) := by
  obtain ⟨habove, hslash⟩ := path.slash_not_mem_of_segments above stem old idles h
  have hother := segments_ofSegments_extension above stem new habove hslash hnew.2.2
  obtain ⟨hnewStem, hnewExtension⟩ :=
    stem_and_extension_of_segments _ above stem new [] hother (by simp) hstem hnew.1 hnew.2.1
  obtain ⟨holdStem, -⟩ :=
    path.stem_and_extension_of_segments above stem old idles h hidles hstem hold hdot
  have hstart := start_eq_of_segments path _ above _ idles _ h hother
    (isIdle_append stem old (.inl hstem)) (isIdle_append stem new (.inl hstem))
  refine ⟨?_, hnewStem.trans holdStem.symm, hnewExtension⟩
  rw [components_of_segments _ above _ [] _ hother (by simp)
      (ofSegment?_append stem new hnew.1 hnew.2.1),
    path.components_of_segments above _ idles _ h hidles (ofSegment?_append stem old hold hdot),
    List.dropLast_concat, List.dropLast_concat, hstart]

/-! ## Derived paths -/

/-- What the derived paths of an object file are to be: where the file name has the extension
`obj`, the paths that differ from it in this extension only, and behind any other path the new
extensions; and in no case the two lead to the same file. -/
def DerivesOutputs (path : Path) : Prop :=
  (path.extension? = some "obj" →
    path.HasNewExtension "s" path.assembly ∧ path.HasNewExtension "json" path.report) ∧
  (path.extension? ≠ some "obj" →
    path.assembly = ⟨path.text ++ ".s"⟩ ∧ path.report = ⟨path.text ++ ".json"⟩) ∧
  path.assembly.components ≠ path.report.components

/-- Cutting the extension off a path that ends in `..obj` leaves the path to the directory
above. -/
theorem withSuffix_of_getLast? (path : Path) (new : String)
    (h : path.segments.getLast? = some "..obj") :
    path.withSuffix new = ofSegments (path.segments.dropLast ++ [".."]) := by
  obtain ⟨above, habove⟩ := List.getLast?_eq_some_iff.mp h
  have hextension : path.extension? = some "obj" :=
    (path.stem_and_extension_of_segments above "." "obj" [] habove (by simp) (by decide)
      (by decide) (by decide)).2
  rw [withSuffix, if_pos hextension, path.replaceExtension_of_segments above "." "obj" [] new habove
    (by simp) (by decide) (by decide) (by decide), habove, List.dropLast_concat,
    if_pos ⟨rfl, rfl⟩]

/-- Any other path with the extension `obj` ends in another extension after its stem. -/
theorem withSuffix_of_segments (path : Path) (above : List String) (stem : String)
    (idles : List String) (new : String) (hextension : path.extension? = some "obj")
    (h : path.segments = above ++ (stem ++ "." ++ "obj") :: idles)
    (hidles : ∀ idle ∈ idles, isIdle idle = true) (hstem : stem ≠ "")
    (hlast : path.segments.getLast? ≠ some "..obj") :
    path.withSuffix new = ofSegments (above ++ [stem ++ "." ++ new]) := by
  have hnot : ¬ (stem = "." ∧ idles = []) := by
    rintro ⟨rfl, rfl⟩
    exact hlast (by rw [h, List.getLast?_concat]; rfl)
  rw [withSuffix, if_pos hextension, path.replaceExtension_of_segments above stem "obj" idles new h
    hidles hstem (by decide) (by decide), if_neg hnot]

/-- A path with the extension `obj` that does not end in `..obj` has derived paths with its
stem. -/
theorem derivesOutputs_of_extension (path : Path) (hextension : path.extension? = some "obj")
    (hlast : path.segments.getLast? ≠ some "..obj") : path.DerivesOutputs := by
  obtain ⟨above, stem, idles, h, hidles, -, hstem, -⟩ :=
    path.segments_of_extension? "obj" hextension
  have hsuffix := fun new =>
    path.withSuffix_of_segments above stem idles new hextension h hidles hstem hlast
  have hnew := fun new =>
    path.hasNewExtension_ofSegments above stem "obj" idles h hidles hstem (by decide) (by decide) new
  refine ⟨fun _ => ⟨?_, ?_⟩, fun hother => absurd hextension hother, ?_⟩
  · rw [assembly, hsuffix]
    exact hnew "s" (by decide)
  · rw [report, hsuffix]
    exact hnew "json" (by decide)
  · obtain ⟨habove, hslash⟩ := path.slash_not_mem_of_segments above stem "obj" idles h
    rw [assembly, report, hsuffix, hsuffix]
    exact components_ne_of_extensions above stem "s" "json" habove hslash (by decide) (by decide)
      (by decide)

/-- A path without the extension `obj` has derived paths with the extensions appended. -/
theorem derivesOutputs_of_ne (path : Path) (hextension : path.extension? ≠ some "obj") :
    path.DerivesOutputs := by
  have hsuffix : ∀ new, path.withSuffix new = ⟨path.text ++ "." ++ new⟩ := fun new =>
    if_neg hextension
  refine ⟨fun hobj => absurd hobj hextension, fun _ => ⟨?_, ?_⟩, ?_⟩
  · rw [assembly, hsuffix, String.append_assoc]
    rfl
  · rw [report, hsuffix, String.append_assoc]
    rfl
  · obtain ⟨front, last, h⟩ := path.exists_segments
    have hslash := path.slash_not_mem_segments
    rw [assembly, report, hsuffix, hsuffix, append_extension_eq_ofSegments path front last "s" h,
      append_extension_eq_ofSegments path front last "json" h]
    exact components_ne_of_extensions front last "s" "json"
      (fun segment hmem => hslash segment (by simp [h, hmem])) (hslash last (by simp [h]))
      (by decide) (by decide) (by decide)

/-- **Derived paths** are as they are to be for every path but those whose last segment is
`..obj`.  Such a path has the stem `.` and the extension `obj`, but without its extension it leads
to the directory above and has no file name to which another extension could be given; so both
derived paths are the path with its extension cut off. -/
theorem derivesOutputs_iff (path : Path) :
    (path.DerivesOutputs ↔ path.segments.getLast? ≠ some "..obj") ∧
      (path.segments.getLast? = some "..obj" →
        path.report = path.assembly ∧ path.text = path.assembly.text ++ "obj") := by
  have hsame : path.segments.getLast? = some "..obj" → path.report = path.assembly := fun hlast =>
    (path.withSuffix_of_getLast? _ hlast).trans (path.withSuffix_of_getLast? _ hlast).symm
  refine ⟨⟨?_, fun hlast => ?_⟩, fun hlast => ⟨hsame hlast, ?_⟩⟩
  · rintro ⟨-, -, hne⟩ hlast
    exact hne (by rw [hsame hlast])
  · by_cases hextension : path.extension? = some "obj"
    · exact path.derivesOutputs_of_extension hextension hlast
    · exact path.derivesOutputs_of_ne hextension
  · obtain ⟨above, habove⟩ := List.getLast?_eq_some_iff.mp hlast
    have hpath : path = ofSegments (above ++ ["..obj"]) := by
      rw [← habove, ofSegments_segments]
    rw [assembly, path.withSuffix_of_getLast? _ hlast, habove, List.dropLast_concat, hpath,
      ← join_append_eq_ofSegments, ← join_append_eq_ofSegments, String.append_assoc]
    rfl

/-- The object file `..obj` of the directory `x` has twice the directory above for an output. -/
theorem derivesOutputs_iff_of_dots :
    Path.report ⟨"x/..obj"⟩ = Path.assembly ⟨"x/..obj"⟩ ∧
      "x/..obj" = (Path.assembly ⟨"x/..obj"⟩).text ++ "obj" ∧
      Path.DerivesOutputs ⟨"x/..obj/"⟩ :=
  have hdots := (derivesOutputs_iff ⟨"x/..obj"⟩).2 (by decide +kernel)
  ⟨hdots.1, hdots.2, (derivesOutputs_iff ⟨"x/..obj/"⟩).1.mpr (by decide +kernel)⟩

/-- A name that is two dots and `obj` loses its extension, but gets no other. -/
theorem not_derivesOutputs_dots : ¬ Path.DerivesOutputs ⟨"..obj"⟩ := by
  intro h
  have hextension := (h.1 (by decide +kernel)).1.extension?_eq
  have hnone : (Path.assembly ⟨"..obj"⟩).extension? = none := by decide +kernel
  rw [hnone] at hextension
  simp at hextension

end MipsListing.Path
