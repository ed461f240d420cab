/-
# What a file store holds after writing

A file is written at the place to which its path leads, unless there is a directory.  So every
path that led somewhere before leads to the same place afterwards, and only what is found at the
one place has changed.

* `FileStore.write_eq_ok_iff` : when a file can be written, and the store afterwards;
* `FileStore.locate_set_iff` : writing leaves the places of all paths alone;
* `FileStore.find_set_of_ne` : writing changes what one place holds and nothing else.
-/
import Mathlib
import MipsListing.FileStore
import MipsListing.Proofs.Path

namespace MipsListing

/-! ## Entries -/

section Entries

variable {α β : Type} [DecidableEq α]

/-- What is put under a key is found under this key, and nothing else changes. -/
theorem lookup_setEntry (key other : α) (value : β) (entries : List (α × β)) :
    (setEntry key value entries).lookup other =
      if other = key then some value else entries.lookup other := by
  induction entries with
  | nil =>
    by_cases h : other = key
    · simp [setEntry, h]
    · simp [setEntry, List.lookup_cons, h, beq_false_of_ne h]
  | cons entry rest ih =>
    obtain ⟨name, old⟩ := entry
    by_cases hname : name = key
    · by_cases h : other = key
      · simp [setEntry, hname, h]
      · simp [setEntry, List.lookup_cons, hname, h, beq_false_of_ne h]
    · by_cases h : other = name
      · simp [setEntry, hname, h]
      · simp [setEntry, List.lookup_cons, hname, beq_false_of_ne h, ih]

/-- Of two values put under one key the later one stays. -/
theorem setEntry_setEntry (key : α) (value later : β) (entries : List (α × β)) :
    setEntry key later (setEntry key value entries) = setEntry key later entries := by
  induction entries with
  | nil => simp [setEntry]
  | cons entry rest ih => by_cases h : entry.1 = key <;> simp [setEntry, h, ih]

end Entries

namespace FileStore

/-! ## Setting a node -/

/-- Setting a node changes nothing at any other place. -/
theorem node?_set_of_ne (store : FileStore) (place other : Place) (node : Node)
    (h : other ≠ place) : (store.set place node).node? other = store.node? other := by
  simp only [node?, set, lookup_setEntry, if_neg h]

/-- A node is found where it was set, unless a directory is there that cannot be replaced. -/
theorem node?_set_self (store : FileStore) (place : Place) (node : Node)
    (h : store.node? place ≠ some .directory) :
    (store.set place node).node? place = some node := by
  have hfree : ¬ place.leadsTo store.working := by
    intro hleads
    simp [node?, hleads] at h
  simp only [node?, set, lookup_setEntry, if_neg hfree, if_true]

/-- Of two nodes set at one place the later one stays. -/
theorem set_set (store : FileStore) (place : Place) (node later : Node) :
    (store.set place node).set place later = store.set place later := by
  simp only [set, setEntry_setEntry]

/-! ## Following paths -/

/-- One segment leads on from a directory only. -/
theorem walk_cons_eq_ok_iff (store : FileStore) (start target : Place) (segment : String)
    (rest : List String) :
    store.walk start (segment :: rest) = .ok target ↔
      store.node? start = some .directory ∧
        store.walk (start.follow segment) rest = .ok target := by
  rw [walk]
  cases store.node? start with
  | none => simp
  | some node => cases node <;> simp

/-- A last segment leads on from the directory to which the others lead. -/
theorem walk_concat_eq_ok_iff (store : FileStore) (front : List String) (last : String)
    (target : Place) :
    ∀ start, store.walk start (front ++ [last]) = .ok target ↔
      ∃ directory, store.walk start front = .ok directory ∧
        store.node? directory = some .directory ∧ directory.follow last = target := by
  induction front with
  | nil =>
    intro start
    rw [List.nil_append, walk_cons_eq_ok_iff]
    simp [walk]
  | cons segment front ih =>
    intro start
    simp only [List.cons_append, walk_cons_eq_ok_iff, ih]
    tauto

/-- A path has its segments to be followed, or it cannot be followed at all. -/
theorem route_cases (path : Path) :
    route path = .ok path.segments ∨ ∃ fault, route path = .error fault := by
  unfold route
  split_ifs <;> simp

/-- A path leads somewhere if it can be followed at all, and its segments lead there. -/
theorem locate_eq_ok_iff (store : FileStore) (path : Path) (place : Place) :
    store.locate path = .ok place ↔
      route path = .ok path.segments ∧
        store.walk (store.origin path) path.segments = .ok place := by
  unfold locate
  rcases route_cases path with hroute | ⟨fault, hroute⟩ <;> simp [hroute, bind, Except.bind]

/-- A path finds the node at the place to which it leads. -/
theorem find_eq_ok_iff (store : FileStore) (path : Path) (node : Node) :
    store.find path = .ok node ↔
      ∃ place, store.locate path = .ok place ∧ store.node? place = some node := by
  unfold find
  cases store.locate path with
  | error fault => simp [bind, Except.bind]
  | ok place =>
    simp only [bind, Except.bind, Except.ok.injEq, exists_eq_left']
    cases store.node? place <;> simp [throw, throwThe, MonadExceptOf.throw, pure, Except.pure]

/-- The content of a file is read where its path leads. -/
theorem read_eq_ok_iff (store : FileStore) (path : Path) (content : ByteArray) :
    store.read path = .ok content ↔ store.find path = .ok (.file content) := by
  unfold read
  cases store.find path with
  | error fault => simp [bind, Except.bind]
  | ok node =>
    cases node <;>
      simp [bind, Except.bind, throw, throwThe, MonadExceptOf.throw, pure, Except.pure]

/-- A path leads to a file if and only if it finds one. -/
theorem isFile_iff (store : FileStore) (path : Path) :
    store.isFile path = true ↔ ∃ content, store.find path = .ok (.file content) := by
  unfold isFile
  cases store.find path with
  | error fault => simp
  | ok node => cases node <;> simp

/-- A path leads to a directory if and only if it finds one. -/
theorem isDirectory_iff (store : FileStore) (path : Path) :
    store.isDirectory path = true ↔ store.find path = .ok .directory := by
  unfold isDirectory
  cases store.find path with
  | error fault => simp
  | ok node => cases node <;> simp

/-! ## Writing -/

/-- A path that ends in a slash cannot be written. -/
theorem write_ne_ok_of_slash (store : FileStore) (path : Path) (content : ByteArray)
    (front : List String) (h : path.segments = front ++ [""]) (after : FileStore) :
    store.write path content ≠ .ok after := by
  unfold write
  rcases route_cases path with hroute | ⟨fault, hroute⟩
  · simp only [hroute, h, bind, Except.bind, List.getLast?_concat, true_or, if_true]
    split
    · simp [throw, throwThe, MonadExceptOf.throw]
    · split
      · simp
      · split <;> simp [throw, throwThe, MonadExceptOf.throw]
  · simp [hroute, bind, Except.bind]

/-- A path with a last name is written in the directory to which the segments before it lead. -/
theorem write_of_name (store : FileStore) (path : Path) (content : ByteArray)
    (front : List String) (last : String) (h : path.segments = front ++ [last]) (hlast : last ≠ "")
    (after : FileStore) :
    store.write path content = .ok after ↔
      route path = .ok path.segments ∧
        ∃ directory, store.walk (store.origin path) front = .ok directory ∧
        store.node? directory = some .directory ∧
        store.node? (directory.follow last) ≠ some .directory ∧
        after = store.set (directory.follow last) (.file content) := by
  have hends : ¬ (front ++ [last]).getLast? = some "" := by simpa using hlast
  have hreverse : (front ++ [last]).reverse.dropWhile (· == "") = last :: front.reverse := by
    simp [hlast]
  unfold write
  rcases route_cases path with hroute | ⟨fault, hroute⟩
  swap
  · simp [hroute, bind, Except.bind]
  simp only [hroute, h, bind, Except.bind, hreverse, List.reverse_reverse, hends, false_or,
    true_and]
  cases store.walk (store.origin path) front with
  | error fault => simp
  | ok directory =>
    simp only [Except.ok.injEq, exists_eq_left']
    cases store.node? directory with
    | none => simp [throw, throwThe, MonadExceptOf.throw]
    | some node =>
      cases node with
      | file _ => simp [throw, throwThe, MonadExceptOf.throw]
      | directory =>
        by_cases hdir : store.node? (directory.follow last) = some .directory
        · simp [hdir, throw, throwThe, MonadExceptOf.throw]
        · simp [hdir, pure, Except.pure, eq_comm]

/-- A file can be written where its path leads, unless there is a directory. -/
theorem write_eq_ok_iff (store : FileStore) (path : Path) (content : ByteArray)
    (after : FileStore) :
    store.write path content = .ok after ↔
      ∃ place, store.locate path = .ok place ∧ store.node? place ≠ some .directory ∧
        after = store.set place (.file content) := by
  obtain ⟨front, last, hsegments⟩ := path.exists_segments
  by_cases hlast : last = ""
  · -- behind a slash the path leads to a directory or nowhere
    subst hlast
    refine iff_of_false (store.write_ne_ok_of_slash path content front hsegments after) ?_
    rintro ⟨place, hlocate, hfree, -⟩
    rw [locate_eq_ok_iff, hsegments, walk_concat_eq_ok_iff] at hlocate
    obtain ⟨-, directory, -, hdirectory, hfollow⟩ := hlocate
    exact hfree (hfollow ▸ hdirectory)
  · rw [store.write_of_name path content front last hsegments hlast]
    simp only [locate_eq_ok_iff, hsegments, walk_concat_eq_ok_iff]
    constructor
    · rintro ⟨hroute, directory, hwalk, hdirectory, hfree, hafter⟩
      exact ⟨_, ⟨hroute, directory, hwalk, hdirectory, rfl⟩, hfree, hafter⟩
    · rintro ⟨_, ⟨hroute, directory, hwalk, hdirectory, rfl⟩, hfree, hafter⟩
      exact ⟨hroute, directory, hwalk, hdirectory, hfree, hafter⟩

/-! ## The store after writing -/

section Set

variable (store : FileStore) (place : Place) (content : ByteArray)

/-- A file set where no directory was is on no way through directories. -/
theorem walk_set_eq_ok_iff (h : store.node? place ≠ some .directory) (segments : List String)
    (target : Place) :
    ∀ start, (store.set place (.file content)).walk start segments = .ok target ↔
      store.walk start segments = .ok target := by
  induction segments with
  | nil => exact fun _ => Iff.rfl
  | cons segment rest ih =>
    intro start
    rw [walk_cons_eq_ok_iff, walk_cons_eq_ok_iff, ih]
    refine and_congr_left fun _ => ?_
    by_cases hstart : start = place
    · -- neither what was here before nor the file leads on
      subst hstart
      rw [node?_set_self store start _ h]
      exact iff_of_false (by simp) h
    · rw [node?_set_of_ne store place start _ hstart]

/-- Every path leads to the same place as before. -/
theorem locate_set_iff (h : store.node? place ≠ some .directory) (path : Path) (target : Place) :
    (store.set place (.file content)).locate path = .ok target ↔
      store.locate path = .ok target := by
  rw [locate_eq_ok_iff, locate_eq_ok_iff]
  exact and_congr_right fun _ => walk_set_eq_ok_iff store place content h path.segments target _

/-- A path that leads to the place finds the file. -/
theorem find_set_self (h : store.node? place ≠ some .directory) (path : Path)
    (hpath : store.locate path = .ok place) :
    (store.set place (.file content)).find path = .ok (.file content) := by
  rw [find_eq_ok_iff]
  exact ⟨place, (locate_set_iff store place content h path place).mpr hpath,
    node?_set_self store place _ h⟩

/-- A path that leads elsewhere finds what it found before. -/
theorem find_set_of_ne (h : store.node? place ≠ some .directory) (path : Path)
    (hpath : store.locate path ≠ .ok place) (node : Node) :
    (store.set place (.file content)).find path = .ok node ↔ store.find path = .ok node := by
  rw [find_eq_ok_iff, find_eq_ok_iff]
  refine exists_congr fun target => ?_
  rw [locate_set_iff store place content h path target]
  refine and_congr_right fun htarget => ?_
  have hne : target ≠ place := fun heq => hpath (heq ▸ htarget)
  rw [node?_set_of_ne store place target _ hne]

end Set

end FileStore

end MipsListing
