/-
# Derived paths

A path is its segments with slashes between them.  Cutting an extension off the end of a path and
setting another in its place gives the file name another extension and leaves out what follows the
name.  So a derived path has another last step than the path that it is derived from, and leads
elsewhere.

* `Path.ofSegments_segments` and `Path.segments_ofSegments` : paths and their segments;
* `Path.replaceExtension_of_segments` : the path with another extension;
* `Path.differsInLast_withSuffix` : a derived path has another last step;
* `Path.DiffersInLast.components_ne` : paths with different last steps are different as steps.
-/
import MipsListing.Path
import MipsListing.Proofs.Text

namespace MipsListing.Path

/-! ## Segments -/

/-- The path with the given segments. -/
def ofSegments (segments : List String) : Path := ⟨"/".intercalate segments⟩

/-- A path has a segment, if only the empty one. -/
theorem segments_ne_nil (path : Path) : path.segments ≠ [] := by
  simpa [segments] using Text.pieces_ne_nil '/' path.text.toList

/-- A path has a last segment. -/
theorem exists_segments (path : Path) : ∃ front last, path.segments = front ++ [last] :=
  ⟨_, _, (List.dropLast_append_getLast path.segments_ne_nil).symm⟩

/-- No segment has a slash. -/
theorem slash_not_mem_segments (path : Path) (segment : String) (h : segment ∈ path.segments) :
    '/' ∉ segment.toList := by
  obtain ⟨piece, hpiece, rfl⟩ := List.mem_map.mp h
  simpa using Text.not_mem_of_mem_pieces _ piece hpiece

/-- The characters of a path with the given segments. -/
theorem toList_text_ofSegments (segments : List String) :
    (ofSegments segments).text.toList = ['/'].intercalate (segments.map String.toList) := by
  rw [ofSegments, String.toList_intercalate]
  rfl

/-- A path is determined by its segments. -/
theorem ofSegments_segments (path : Path) : ofSegments path.segments = path := by
  have htext : (ofSegments path.segments).text.toList = path.text.toList := by
    rw [toList_text_ofSegments, segments, List.map_map]
    simpa [Function.comp_def] using Text.intercalate_pieces '/' path.text.toList
  exact congrArg Path.mk (String.toList_injective htext)

/-- Segments without slashes are those of the path that is made of them. -/
theorem segments_ofSegments (segments : List String) (hne : segments ≠ [])
    (h : ∀ segment ∈ segments, '/' ∉ segment.toList) :
    (ofSegments segments).segments = segments := by
  have hpieces : Text.pieces '/' (['/'].intercalate (segments.map String.toList))
      = segments.map String.toList :=
    Text.pieces_intercalate _ _ (by simpa using hne) (by simpa using h)
  rw [Path.segments, toList_text_ofSegments, hpieces, List.map_map]
  simp [Function.comp_def]

/-- Segments in front of others, each with its slash. -/
theorem toList_text_ofSegments_append (above rest : List String) (h : rest ≠ []) :
    (ofSegments (above ++ rest)).text.toList
      = (String.join (above.map (· ++ "/"))).toList ++ (ofSegments rest).text.toList := by
  simp only [toList_text_ofSegments]
  induction above with
  | nil => simp
  | cons segment above ih =>
    rw [List.cons_append, List.map_cons, List.map_cons,
      List.intercalate_cons_of_ne_nil (by simp [h]), ih]
    simp

/-- Segments in front of the last one, each with its slash. -/
theorem join_append_eq_ofSegments (above : List String) (last : String) :
    (⟨String.join (above.map (· ++ "/")) ++ last⟩ : Path) = ofSegments (above ++ [last]) := by
  refine congrArg Path.mk (String.toList_injective ?_)
  show _ = (ofSegments (above ++ [last])).text.toList
  rw [toList_text_ofSegments_append above [last] (by simp), toList_text_ofSegments]
  simp

/-- The text of a path is its first segment, with a slash in front of what follows. -/
theorem toList_text_ofSegments_cons (segment : String) (rest : List String) :
    (ofSegments (segment :: rest)).text.toList
      = segment.toList ++ if rest = [] then [] else '/' :: (ofSegments rest).text.toList := by
  simp only [toList_text_ofSegments]
  cases rest <;> simp

/-! ## File names -/

/-- The file name is the last segment that leads somewhere, unless it leads up. -/
theorem splitFileName?_of_segments (path : Path) (above : List String) (name : String)
    (idles : List String) (h : path.segments = above ++ name :: idles)
    (hidle : ∀ idle ∈ idles, isIdle idle = true) (hname : isIdle name = false) :
    path.splitFileName? =
      if name = ".." then none else some (String.join (above.map (· ++ "/")), name) := by
  have hreverse : path.segments.reverse.dropWhile isIdle = name :: above.reverse := by
    rw [h, List.reverse_append, List.reverse_cons, List.append_assoc,
      List.dropWhile_append_of_pos (by simpa using hidle)]
    simp [hname]
  unfold splitFileName?
  rw [hreverse]
  simp only [List.reverse_reverse]

/-- The file name is the last segment that is not idle. -/
theorem segments_of_fileName? (path : Path) (name : String) (h : path.fileName? = some name) :
    ∃ above idles, path.segments = above ++ name :: idles ∧
      (∀ idle ∈ idles, isIdle idle = true) ∧ isIdle name = false := by
  have hsplit := List.takeWhile_append_dropWhile (p := isIdle) (l := path.segments.reverse)
  unfold fileName? splitFileName? at h
  split at h
  · simp at h
  · rename_i last front hdrop
    obtain rfl : last = name := by
      split at h <;> simp_all
    refine ⟨front.reverse, (path.segments.reverse.takeWhile isIdle).reverse, ?_, ?_, ?_⟩
    · rw [hdrop] at hsplit
      have := congrArg List.reverse hsplit
      simpa using this.symm
    · intro idle hidle
      exact List.mem_takeWhile_imp (List.mem_reverse.mp hidle)
    · have := List.head?_dropWhile_not isIdle path.segments.reverse
      rw [hdrop] at this
      exact this

/-- A name with a dot that is not its first character ends in the extension behind its last
dot. -/
theorem splitExtension_append (stem extension : String) (hstem : stem ≠ "")
    (hdot : '.' ∉ extension.toList) :
    splitExtension (stem ++ "." ++ extension) = (stem, some extension) := by
  have hreverse : (stem ++ "." ++ extension).toList.reverse
      = extension.toList.reverse ++ '.' :: stem.toList.reverse := by simp
  have hno : ∀ c ∈ extension.toList.reverse, decide (c ≠ '.') = true := by
    intro c hc
    have hmem := List.mem_reverse.mp hc
    simpa using fun heq : c = '.' => hdot (heq ▸ hmem)
  cases hlist : stem.toList.reverse with
  | nil => simp_all
  | cons c rest =>
    have hback : stem = String.ofList (c :: rest).reverse := by
      rw [← hlist, List.reverse_reverse, String.ofList_toList]
    unfold splitExtension
    simp only [hreverse, hlist, List.dropWhile_append_of_pos hno,
      List.takeWhile_append_of_pos hno]
    simp [hback]

/-- An extension is what stands behind a dot that is not the first character of the name. -/
theorem eq_append_of_splitExtension (name extension : String)
    (h : (splitExtension name).2 = some extension) :
    ∃ stem, stem ≠ "" ∧ name = stem ++ "." ++ extension ∧ '.' ∉ extension.toList := by
  have hsplit := List.takeWhile_append_dropWhile (p := (· ≠ '.')) (l := name.toList.reverse)
  unfold splitExtension at h
  simp only at h
  split at h
  · rename_i dot c rest hdrop
    have hdot : dot = '.' := by
      have := List.head?_dropWhile_not (· ≠ '.') name.toList.reverse
      rw [hdrop] at this
      simpa using this
    obtain rfl : _ = extension := Option.some.inj h
    refine ⟨String.ofList (c :: rest).reverse, by simp, ?_, ?_⟩
    · apply String.toList_injective
      rw [hdrop, hdot] at hsplit
      have := congrArg List.reverse hsplit
      simpa using this.symm
    · intro hmem
      have := List.mem_takeWhile_imp (List.mem_reverse.mp (by simpa using hmem))
      simp at this
  · simp at h

/-- A path with an extension has a file name with a stem in front of the last dot, and idle
segments behind it. -/
theorem segments_of_extension? (path : Path) (extension : String)
    (h : path.extension? = some extension) :
    ∃ above stem idles, path.segments = above ++ (stem ++ "." ++ extension) :: idles ∧
      (∀ idle ∈ idles, isIdle idle = true) ∧ isIdle (stem ++ "." ++ extension) = false ∧
      stem ≠ "" ∧ '.' ∉ extension.toList := by
  obtain ⟨name, hname, hsplit⟩ := Option.bind_eq_some_iff.mp h
  obtain ⟨above, idles, hsegments, hidles, hlast⟩ := path.segments_of_fileName? name hname
  obtain ⟨stem, hstem, rfl, hdot⟩ := eq_append_of_splitExtension name extension hsplit
  exact ⟨above, stem, idles, hsegments, hidles, hlast, hstem, hdot⟩

/-! ## New extensions -/

/-- A name with more than a dot leads somewhere. -/
theorem isIdle_append (stem extension : String) (h : stem ≠ "" ∨ extension ≠ "") :
    isIdle (stem ++ "." ++ extension) = false := by
  have hone : stem ++ "." ++ extension ≠ "." := fun heq => by
    have hlength := congrArg String.length heq
    simp only [String.length_append, show ".".length = 1 from rfl] at hlength
    have hstem : stem.length = 0 := by omega
    have hextension : extension.length = 0 := by omega
    exact h.elim (absurd (String.length_eq_zero_iff.mp hstem))
      (absurd (String.length_eq_zero_iff.mp hextension))
  simp [isIdle, hone]

/-- A name that leads up is a dot behind the stem `.` and an empty extension. -/
theorem append_eq_up_iff (stem extension : String) (hstem : stem ≠ "") :
    stem ++ "." ++ extension = ".." ↔ stem = "." ∧ extension = "" := by
  constructor
  · intro heq
    have hlength : 0 < stem.length := Nat.pos_of_ne_zero (by simpa using hstem)
    have htotal := congrArg String.length heq
    simp only [String.length_append, show ".".length = 1 from rfl,
      show "..".length = 2 from rfl] at htotal
    have hempty : extension = "" := by
      rw [← String.length_eq_zero_iff]
      omega
    subst hempty
    refine ⟨?_, rfl⟩
    rw [String.append_empty] at heq
    exact (String.append_left_inj ".").mp (heq.trans (by decide))
  · rintro ⟨rfl, rfl⟩
    decide

/-- Setting an extension cuts the path behind the stem of its file name. -/
theorem setExtension_of_segments (path : Path) (above : List String) (stem old : String)
    (idles : List String) (new : String)
    (h : path.segments = above ++ (stem ++ "." ++ old) :: idles)
    (hidle : ∀ idle ∈ idles, isIdle idle = true) (hstem : stem ≠ "") (hdot : '.' ∉ old.toList) :
    path.setExtension new =
      if stem = "." ∧ old = "" then path else ofSegments (above ++ [stem ++ "." ++ new]) := by
  unfold setExtension
  rw [path.splitFileName?_of_segments above _ idles h hidle (isIdle_append stem old (.inl hstem))]
  by_cases hup : stem = "." ∧ old = ""
  · rw [if_pos ((append_eq_up_iff stem old hstem).mpr hup), if_pos hup]
  · rw [if_neg (fun heq => hup ((append_eq_up_iff stem old hstem).mp heq)), if_neg hup,
      ← join_append_eq_ofSegments]
    simp only [splitExtension_append stem old hstem hdot]
    simp only [String.append_assoc]

/-- An idle segment has no slash. -/
theorem slash_not_mem_of_isIdle (idle : String) (h : isIdle idle = true) :
    '/' ∉ idle.toList := by
  have hcases : idle = "" ∨ idle = "." := by simpa [isIdle] using h
  rcases hcases with rfl | rfl <;> decide

/-- The beginning of an idle segment is idle. -/
theorem isIdle_of_prefix (segment idle : String) (h : segment.toList <+: idle.toList)
    (hidle : isIdle idle = true) : isIdle segment = true := by
  have hcases : idle = "" ∨ idle = "." := by simpa [isIdle] using hidle
  rcases hcases with rfl | rfl
  · have : segment = "" := by simpa using h
    simp [this, isIdle]
  · rcases List.prefix_cons_iff.mp h with hnil | ⟨rest, hcons, hrest⟩
    · have : segment = "" := by simpa using hnil
      simp [this, isIdle]
    · have : segment = "." := by
        apply String.toList_injective
        rw [hcons, List.prefix_nil.mp hrest]
        rfl
      simp [this, isIdle]

/-- The beginnings of idle segments are idle. -/
theorem isIdle_of_forall₂_prefix {segments idles : List String}
    (h : List.Forall₂ (fun a b : String => a.toList <+: b.toList) segments idles)
    (hidle : ∀ idle ∈ idles, isIdle idle = true) :
    ∀ segment ∈ segments, isIdle segment = true := by
  induction h with
  | nil => simp
  | cons hbegin _ ih =>
    intro segment hmem
    rcases List.mem_cons.mp hmem with rfl | hmem
    · exact isIdle_of_prefix _ _ hbegin (hidle _ (by simp))
    · exact ih (fun idle hidleMem => hidle idle (by simp [hidleMem])) segment hmem

/-- The segments of the beginning of a path are beginnings of its segments. -/
theorem segments_of_prefix (path short : Path) (h : short.text.toList <+: path.text.toList) :
    ∃ more rest, path.segments = more ++ rest ∧
      List.Forall₂ (fun a b : String => a.toList <+: b.toList) short.segments more := by
  obtain ⟨back, hback⟩ := h
  obtain ⟨more, rest, hpieces, hforall⟩ :=
    Text.forall₂_prefix_pieces '/' short.text.toList back
  rw [hback] at hpieces
  refine ⟨more.map String.ofList, rest.map String.ofList, ?_, ?_⟩
  · rw [segments, hpieces, List.map_append]
  · rw [segments, List.forall₂_map_left_iff, List.forall₂_map_right_iff]
    simpa using hforall

/-- The text of a path from the extension of its file name on. -/
theorem toList_text_of_segments (above : List String) (stem extension : String)
    (idles : List String) :
    (ofSegments (above ++ (stem ++ "." ++ extension) :: idles)).text.toList
      = (String.join (above.map (· ++ "/")) ++ stem ++ ".").toList
        ++ (ofSegments (extension :: idles)).text.toList := by
  rw [toList_text_ofSegments_append above _ (by simp)]
  simp only [String.toList_append, List.append_assoc]
  congr 1
  simp only [toList_text_ofSegments, List.map_cons]
  cases idles <;> simp

/-- What is left of an extension and the idle segments behind it when as many characters are cut
off as the extension has: a beginning of the extension and idle segments.  Nothing is left of the
extension exactly if nothing stood behind it. -/
theorem segments_take (old : String) (idles : List String) (hold : old ≠ "")
    (hslash : ∀ segment ∈ old :: idles, '/' ∉ segment.toList)
    (hidle : ∀ idle ∈ idles, isIdle idle = true) (short : Path)
    (hshort : short.text.toList = (ofSegments (old :: idles)).text.toList.take
      ((ofSegments (old :: idles)).text.length - old.length)) :
    ∃ kept rest, short.segments = kept :: rest ∧ kept.toList <+: old.toList ∧
      (∀ idle ∈ rest, isIdle idle = true) ∧ (kept = "" ↔ idles = []) ∧
      (kept = "" → rest = []) := by
  have hprefix : short.text.toList <+: (ofSegments (old :: idles)).text.toList :=
    hshort ▸ List.take_prefix _ _
  obtain ⟨more, others, hsplit, hforall⟩ := segments_of_prefix _ short hprefix
  rw [segments_ofSegments _ (by simp) hslash] at hsplit
  obtain ⟨kept, rest, hsegments⟩ := List.exists_cons_of_ne_nil short.segments_ne_nil
  rw [hsegments] at hforall
  obtain ⟨long, longs, hkept, hrest, rfl⟩ := List.forall₂_cons_left_iff.mp hforall
  obtain ⟨hlong, hidles⟩ := List.cons.inj hsplit
  subst hlong
  let behind := if idles = [] then [] else '/' :: (ofSegments idles).text.toList
  have hlength : (ofSegments (old :: idles)).text.length = old.length + behind.length := by
    rw [← String.length_toList, toList_text_ofSegments_cons, List.length_append,
      String.length_toList]
  have htake : kept.toList ++ (if rest = [] then [] else '/' :: (ofSegments rest).text.toList)
      = (old.toList ++ behind).take behind.length := by
    rw [← toList_text_ofSegments_cons, ← hsegments, ofSegments_segments, hshort, hlength,
      toList_text_ofSegments_cons, Nat.add_sub_cancel_left]
  have hnothing : idles = [] → kept = "" ∧ rest = [] := by
    intro hnil
    have hbehind : behind = [] := if_pos hnil
    rw [hbehind, List.length_nil, List.take_zero, List.append_eq_nil_iff] at htake
    exact ⟨String.toList_eq_nil_iff.mp htake.1, by simpa using htake.2⟩
  -- what is left starts as the extension does, not with a slash
  have hsomething : kept = "" → idles = [] := by
    intro hkept
    by_contra hcons
    have hbehind : behind = '/' :: (ofSegments idles).text.toList := if_neg hcons
    obtain ⟨c, chars, hchars⟩ := List.exists_cons_of_ne_nil
      (fun hnil => hold (String.toList_eq_nil_iff.mp hnil))
    rw [hkept, hchars, hbehind, List.length_cons, List.cons_append, List.take_succ_cons] at htake
    have hc : c = '/' := by
      split at htake <;> simp_all
    exact hslash old (by simp) (by simp [hchars, hc])
  refine ⟨kept, rest, hsegments, hkept, ?_, ⟨hsomething, fun hnil => (hnothing hnil).1⟩,
    fun hempty => (hnothing (hsomething hempty)).2⟩
  exact isIdle_of_forall₂_prefix hrest fun idle hmem =>
    hidle idle (by rw [hidles]; exact List.mem_append_left _ hmem)

/-- The path that is left when as many characters are cut off its end as its extension has. -/
theorem segments_cut (path : Path) (above : List String) (stem old : String)
    (idles : List String) (h : path.segments = above ++ (stem ++ "." ++ old) :: idles)
    (hidle : ∀ idle ∈ idles, isIdle idle = true) (hold : old ≠ "") :
    ∃ kept rest,
      (⟨String.ofList (path.text.toList.take (path.text.length - old.length))⟩ : Path).segments
        = above ++ (stem ++ "." ++ kept) :: rest ∧ (∀ idle ∈ rest, isIdle idle = true) ∧
      kept.toList <+: old.toList ∧ (kept = "" ↔ idles = []) ∧ (kept = "" → rest = []) := by
  have hslash : ∀ segment ∈ above ++ (stem ++ "." ++ old) :: idles, '/' ∉ segment.toList :=
    fun segment hmem => path.slash_not_mem_segments segment (h ▸ hmem)
  have hname : '/' ∉ stem.toList ∧ '/' ∉ old.toList := by
    have := hslash (stem ++ "." ++ old) (by simp)
    simpa [not_or] using this
  -- cutting characters off the path is cutting them off its end from the extension on
  let tail := ofSegments (old :: idles)
  let short : Path := ⟨String.ofList (tail.text.toList.take (tail.text.length - old.length))⟩
  have htext : path.text.toList
      = (String.join (above.map (· ++ "/")) ++ stem ++ ".").toList ++ tail.text.toList := by
    rw [← ofSegments_segments path, h, toList_text_of_segments]
  obtain ⟨kept, rest, hsegments, hkept, hrest, hempty, hnone⟩ :=
    segments_take old idles hold (by
      intro segment hmem
      rcases List.mem_cons.mp hmem with rfl | hmem
      · exact hname.2
      · exact hslash segment (by simp [hmem])) hidle short (by simp [short, tail])
  refine ⟨kept, rest, ?_, hrest, hkept, hempty, hnone⟩
  have hkeptSlash : ∀ segment ∈ above ++ (stem ++ "." ++ kept) :: rest, '/' ∉ segment.toList := by
    intro segment hmem
    rcases List.mem_append.mp hmem with hmem | hmem
    · exact hslash segment (by simp [hmem])
    rcases List.mem_cons.mp hmem with rfl | hmem
    · have : '/' ∉ kept.toList := fun hmem => hname.2 (hkept.subset hmem)
      simp [hname.1, this]
    · exact slash_not_mem_of_isIdle segment (hrest segment hmem)
  have htail : old.length ≤ tail.text.toList.length := by
    rw [toList_text_ofSegments_cons, List.length_append, String.length_toList]
    exact Nat.le_add_right _ _
  have hcut : path.text.toList.take (path.text.length - old.length)
      = (ofSegments (above ++ (stem ++ "." ++ kept) :: rest)).text.toList := by
    rw [toList_text_of_segments, ← hsegments, ofSegments_segments, ← String.length_toList, htext,
      List.length_append, Nat.add_sub_assoc htail, List.take_length_add_append,
      String.length_toList, String.toList_ofList]
  rw [hcut, String.ofList_toList]
  exact segments_ofSegments _ (by simp) hkeptSlash

/-- **Replacing an extension** replaces the extension of the file name and leaves out what follows
the name, unless cutting off the old one leaves a name that leads up. -/
theorem replaceExtension_of_segments (path : Path) (above : List String) (stem old : String)
    (idles : List String) (new : String)
    (h : path.segments = above ++ (stem ++ "." ++ old) :: idles)
    (hidle : ∀ idle ∈ idles, isIdle idle = true) (hstem : stem ≠ "") (hdot : '.' ∉ old.toList)
    (hold : old ≠ "") :
    path.replaceExtension old new =
      ofSegments (above ++ [if stem = "." ∧ idles = [] then ".." else stem ++ "." ++ new]) := by
  obtain ⟨kept, rest, hsegments, hrest, hbegin, hkept, hnone⟩ :=
    path.segments_cut above stem old idles h hidle hold
  unfold replaceExtension
  rw [setExtension_of_segments _ above stem kept rest new hsegments hrest hstem
    (fun hmem => hdot (hbegin.subset hmem))]
  by_cases hup : stem = "." ∧ idles = []
  · obtain ⟨rfl, rfl⟩ := hup
    have hempty := hkept.mpr rfl
    rw [if_pos ⟨rfl, hempty⟩, if_pos ⟨rfl, rfl⟩, ← ofSegments_segments ⟨_⟩, hsegments,
      hnone hempty, hempty]
    rfl
  · rw [if_neg (fun hboth => hup ⟨hboth.1, hkept.mp hboth.2⟩), if_neg hup]

/-! ## Paths that differ in their last step -/

/-- A path starts at the root if its first segment is empty and others follow. -/
theorem isAbsolute_iff (path : Path) :
    path.isAbsolute = true ↔ ∃ segment rest, path.segments = "" :: segment :: rest := by
  obtain ⟨first, rest, hsegments⟩ := List.exists_cons_of_ne_nil path.segments_ne_nil
  have htext : path.text.toList
      = first.toList ++ if rest = [] then [] else '/' :: (ofSegments rest).text.toList := by
    rw [← toList_text_ofSegments_cons, ← hsegments, ofSegments_segments]
  have hslash : '/' ∉ first.toList := path.slash_not_mem_segments first (by simp [hsegments])
  rw [isAbsolute, htext, hsegments]
  cases hfirst : first.toList with
  | nil =>
    obtain rfl : first = "" := by simpa using hfirst
    cases rest <;> simp
  | cons c chars =>
    have hne : first ≠ "" := by
      rintro rfl
      simp at hfirst
    have hc : c ≠ '/' := by
      rintro rfl
      simp [hfirst] at hslash
    simp [hc, hne]

/-- Two paths with the same segments above start both at the root, or neither does, if what follows
is a single segment in one of them, and in the other none but one that leads somewhere can have
segments behind it. -/
theorem isAbsolute_eq_of_segments (path other : Path) (above : List String) (last : String)
    (idles : List String) (name : String) (hpath : path.segments = above ++ last :: idles)
    (hother : other.segments = above ++ [name]) (hlast : isIdle last = true → idles = []) :
    path.isAbsolute = other.isAbsolute := by
  rw [Bool.eq_iff_iff, isAbsolute_iff, isAbsolute_iff, hpath, hother]
  cases above with
  | nil =>
    have hstop : ¬ (last = "" ∧ idles ≠ []) :=
      fun hstop => hstop.2 (hlast (by simp [hstop.1, isIdle]))
    cases idles <;> simp_all
  | cons first above => cases above <;> simp

/-- A path differs from another in its last step.  The two share their segments up to one that
takes different steps in them.  Behind it the first path has idle segments only, and none if it is
idle itself; in the other path it is the last one, and leads somewhere. -/
def DiffersInLast (path other : Path) : Prop :=
  ∃ above last idles name, path.segments = above ++ last :: idles ∧
    (∀ idle ∈ idles, isIdle idle = true) ∧ (isIdle last = true → idles = []) ∧
    other.segments = above ++ [name] ∧ isIdle name = false ∧
    Component.ofSegment? last ≠ Component.ofSegment? name

/-- The segments without a step are the idle ones. -/
theorem ofSegment?_eq_none_iff (segment : String) :
    Component.ofSegment? segment = none ↔ isIdle segment = true := by
  unfold Component.ofSegment?
  split_ifs <;> simp_all

/-- A segment that leads somewhere has a step. -/
theorem exists_ofSegment? (segment : String) (h : isIdle segment = false) :
    ∃ step, Component.ofSegment? segment = some step := by
  rw [← Option.ne_none_iff_exists', ne_eq, ofSegment?_eq_none_iff, h]
  exact Bool.false_ne_true

/-- The step of a segment is not the start of a path. -/
theorem ofSegment?_ne_start (segment : String) :
    Component.ofSegment? segment ≠ some .root ∧ Component.ofSegment? segment ≠ some .here := by
  unfold Component.ofSegment?
  split_ifs <;> simp

/-- Idle segments have no steps. -/
theorem filterMap_ofSegment?_of_idle (idles : List String)
    (h : ∀ idle ∈ idles, isIdle idle = true) : idles.filterMap Component.ofSegment? = [] := by
  rw [List.filterMap_eq_nil_iff]
  exact fun idle hmem => (ofSegment?_eq_none_iff idle).mpr (h idle hmem)

namespace DiffersInLast

variable {path other : Path}

/-- Two paths that differ in their last step start both at the root, or neither does. -/
theorem isAbsolute_eq (h : path.DiffersInLast other) : path.isAbsolute = other.isAbsolute := by
  obtain ⟨above, last, idles, name, hpath, -, hlast, hother, -, -⟩ := h
  exact isAbsolute_eq_of_segments path other above last idles name hpath hother hlast

/-- Two paths that differ in their last step differ in the steps that they describe. -/
theorem components_ne (h : path.DiffersInLast other) : path.components ≠ other.components := by
  have habsolute := h.isAbsolute_eq
  obtain ⟨above, last, idles, name, hpath, hidles, hlast, hother, hname, hne⟩ := h
  intro heq
  obtain ⟨step, hstep⟩ := exists_ofSegment? name hname
  simp only [components, start, habsolute, hpath, hother, List.filterMap_append,
    List.filterMap_cons, filterMap_ofSegment?_of_idle idles hidles, hstep,
    List.filterMap_nil] at heq
  cases above with
  | cons first above =>
    -- both paths start in the same way
    simp only [List.cons_append, List.head?_cons] at heq
    cases hstep' : Component.ofSegment? last <;> simp_all
  | nil =>
    have hrelative : other.isAbsolute = false := by
      rw [Bool.eq_false_iff, ne_eq, isAbsolute_iff, hother]
      simp
    have hhere : name ≠ "." := by
      rintro rfl
      simp [isIdle] at hname
    simp only [hrelative, Bool.false_eq_true, if_false, List.nil_append, List.head?_cons,
      Option.some.injEq, hhere, List.filterMap_nil] at heq
    by_cases hdot : last = "."
    · -- the one path ends where it starts
      rw [if_pos hdot, (ofSegment?_eq_none_iff last).mpr (by simp [hdot, isIdle])] at heq
      simp only [List.append_nil, List.cons.injEq, and_true] at heq
      exact (ofSegment?_ne_start name).2 (heq ▸ hstep)
    · rw [if_neg hdot, List.nil_append] at heq
      cases hstep' : Component.ofSegment? last <;> simp_all

/-- Two paths that differ in their last step are different. -/
theorem ne (h : path.DiffersInLast other) : path ≠ other :=
  fun heq => h.components_ne (congrArg components heq)

end DiffersInLast

/-- A segment with an extension is a name. -/
theorem ofSegment?_append (stem extension : String) (hempty : extension ≠ "")
    (hdot : '.' ∉ extension.toList) :
    Component.ofSegment? (stem ++ "." ++ extension) = some (.named (stem ++ "." ++ extension)) := by
  have hidle := isIdle_append stem extension (.inr hempty)
  have hup : stem ++ "." ++ extension ≠ ".." := by
    intro heq
    -- the last character of the extension would be a dot
    have hlast : (stem ++ "." ++ extension).toList.getLast? = some '.' := heq ▸ rfl
    rw [String.toList_append, List.getLast?_append_of_ne_nil _ (by simpa using hempty)] at hlast
    exact hdot (List.mem_of_getLast? hlast)
  simp [Component.ofSegment?, hidle, hup]

/-- Appending an extension gives the last segment the extension. -/
theorem append_extension_eq_ofSegments (path : Path) (front : List String)
    (last extension : String) (h : path.segments = front ++ [last]) :
    (⟨path.text ++ "." ++ extension⟩ : Path)
      = ofSegments (front ++ [last ++ "." ++ extension]) := by
  have htext : path.text = (ofSegments (front ++ [last])).text := by
    rw [← h, ofSegments_segments]
  rw [htext, ← join_append_eq_ofSegments, ← join_append_eq_ofSegments]
  simp only [String.append_assoc]

/-- Another last segment makes a path that differs in its last step. -/
theorem differsInLast_ofSegments (path : Path) (above : List String) (last : String)
    (idles : List String) (name : String) (h : path.segments = above ++ last :: idles)
    (hidles : ∀ idle ∈ idles, isIdle idle = true) (hlast : isIdle last = true → idles = [])
    (hslash : '/' ∉ name.toList) (hname : isIdle name = false)
    (hne : Component.ofSegment? last ≠ Component.ofSegment? name) :
    path.DiffersInLast (ofSegments (above ++ [name])) := by
  refine ⟨above, last, idles, name, h, hidles, hlast, ?_, hname, hne⟩
  refine segments_ofSegments _ (by simp) fun segment hmem => ?_
  rcases List.mem_append.mp hmem with hmem | hmem
  · exact path.slash_not_mem_segments segment (by simp [h, hmem])
  · rwa [List.mem_singleton.mp hmem]

section NewExtension

variable (path : Path) (new : String) (hempty : new ≠ "") (hdot : '.' ∉ new.toList)
  (hslash : '/' ∉ new.toList)

include hempty hdot hslash

/-- A path with an extension differs from the one with another extension in its last step. -/
theorem differsInLast_replaceExtension (old : String) (h : path.extension? = some old)
    (hold : old ≠ "") (hne : new ≠ old) : path.DiffersInLast (path.replaceExtension old new) := by
  obtain ⟨above, stem, idles, hsegments, hidles, hlast, hstem, holdDot⟩ :=
    path.segments_of_extension? old h
  have hstemSlash : '/' ∉ stem.toList := by
    have hnameSlash := path.slash_not_mem_segments (stem ++ "." ++ old) (by simp [hsegments])
    exact fun hmem => hnameSlash (by simp [hmem])
  rw [replaceExtension_of_segments path above stem old idles new hsegments hidles hstem holdDot
    hold]
  have hnamed := ofSegment?_append stem new hempty hdot
  refine path.differsInLast_ofSegments above _ idles _ hsegments hidles (by simp [hlast]) ?_ ?_ ?_
  · split_ifs
    · decide
    · simp [hstemSlash, hslash]
  · split_ifs
    · decide
    · exact isIdle_append stem new (.inl hstem)
  · rw [ofSegment?_append stem old hold holdDot]
    split_ifs
    · simp [Component.ofSegment?, isIdle]
    · simpa [hnamed] using fun heq => hne heq.symm

/-- A path differs from the one with an extension appended in its last step. -/
theorem differsInLast_append : path.DiffersInLast ⟨path.text ++ "." ++ new⟩ := by
  obtain ⟨front, last, hsegments⟩ := path.exists_segments
  have hlastSlash := path.slash_not_mem_segments last (by simp [hsegments])
  have hlonger : last ≠ last ++ "." ++ new := fun heq => by
    have hlength := congrArg String.length heq
    simp only [String.length_append, show ".".length = 1 from rfl] at hlength
    omega
  rw [append_extension_eq_ofSegments path front last new hsegments]
  refine path.differsInLast_ofSegments front last [] _ hsegments (by simp) (by simp) ?_ ?_ ?_
  · simp [hlastSlash, hslash]
  · exact isIdle_append last new (.inr hempty)
  · rw [ofSegment?_append last new hempty hdot]
    unfold Component.ofSegment?
    split_ifs <;> simp [hlonger]

/-- **A derived path** differs from the one that it is derived from in its last step. -/
theorem differsInLast_withSuffix (hobj : new ≠ "obj") :
    path.DiffersInLast (path.withSuffix new) := by
  unfold withSuffix
  split
  · rename_i hextension
    exact path.differsInLast_replaceExtension new hempty hdot hslash "obj" hextension (by decide)
      hobj
  · exact path.differsInLast_append new hempty hdot hslash

end NewExtension

/-- The path of the assembly text has another last step than that of the object file. -/
theorem differsInLast_assembly (path : Path) : path.DiffersInLast path.assembly :=
  path.differsInLast_withSuffix "s" (by decide) (by decide) (by decide) (by decide)

/-- The path of the report has another last step than that of the object file. -/
theorem differsInLast_report (path : Path) : path.DiffersInLast path.report :=
  path.differsInLast_withSuffix "json" (by decide) (by decide) (by decide) (by decide)

end MipsListing.Path
