import Mathlib.Data.String.Basic
import TapeScript.Command.FileSystem

/-! What making directories and writing a file leave of a file system: directories stand where nothing was,
and one file has a new text. -/
namespace TapeScript

namespace Path

open String

/-- The walk over the characters that are left, with those of the part that has begun. -/
private theorem splitOnAux_slash (passed begun rest : List Char) (parts : List String) :
    splitOnAux (ofList (passed ++ begun ++ rest)) "/" ⟨utf8Len passed⟩ ⟨utf8Len passed + utf8Len begun⟩ 0 parts =
      parts.reverse ++ (List.splitOnPPrepend (· == '/') rest begun.reverse).map ofList := by
  induction rest generalizing passed begun parts with
  | nil =>
    have ending := (atEnd_of_valid (passed ++ begun) []).mpr rfl
    rw [utf8Len_append] at ending
    rw [splitOnAux, if_pos ending]
    simpa using extract_of_valid passed begun []
  | cons c rest ih =>
    have going := mt (atEnd_of_valid (passed ++ begun) (c :: rest)).mp nofun
    have here := get_of_valid (passed ++ begun) (c :: rest)
    have after := next_of_valid (passed ++ begun) c rest
    have slash : Pos.Raw.get "/" 0 = '/' := by decide
    have one : Pos.Raw.next "/" 0 = ⟨1⟩ := by decide
    have last : Pos.Raw.atEnd "/" ⟨1⟩ = true := by decide
    rw [utf8Len_append] at going here after
    rw [splitOnAux, if_neg going, here, slash, List.headD_cons, List.splitOnPPrepend_cons_eq_if]
    by_cases same : c = '/'
    · subst same
      have part := extract_of_valid passed begun ('/' :: rest)
      have later := ih (passed ++ begun ++ ['/']) [] (ofList begun :: parts)
      have size : Char.utf8Size '/' = 1 := by decide
      have back : Pos.Raw.unoffsetBy ⟨utf8Len passed + utf8Len begun + 1⟩ ⟨1⟩ = ⟨utf8Len passed + utf8Len begun⟩ := rfl
      simp only [one, last, after, size, if_true, beq_self_eq_true, back, part]
      simpa [size, -ofList_append, Nat.add_assoc] using later
    · have other : (c == '/') = false := by simpa using same
      have later := ih passed (begun ++ [c]) parts
      have stay : Pos.Raw.unoffsetBy ⟨utf8Len passed + utf8Len begun⟩ 0 = ⟨utf8Len passed + utf8Len begun⟩ := rfl
      simp only [other, Bool.false_eq_true, if_false, stay, after]
      simpa [-ofList_append, Nat.add_assoc] using later

/-- A path is taken apart at its slashes. -/
theorem splitOn_slash (path : String) : path.splitOn "/" = (path.toList.splitOnP (· == '/')).map ofList := by
  simpa [splitOn] using splitOnAux_slash [] [] path.toList []

end Path

namespace FileSystem

variable {files later last : FileSystem} {location : Location} {path content : String}

theorem lookup_filter_ne {entries : List (Location × Entry)} {other : Location} (apart : other ≠ location) :
    (entries.filter (·.1 != location)).lookup other = entries.lookup other := by
  induction entries with
  | nil => rfl
  | cons first entries ih =>
    obtain ⟨there, entry⟩ := first
    by_cases same : there = location
    · have skipped : (other == there) = false := by simpa [same] using apart
      simp [same, List.lookup_cons, same ▸ skipped, ih]
    · simp [same, List.lookup_cons, ih]

/-- A node is found where it was put, and nothing else has changed. The directories that are always there
are not replaced. -/
theorem entry?_insert (plain : files.entry? location ≠ some .directory) (entry : Entry) (other : Location) :
    entry? (files.insert location entry) other = if other = location then some entry else files.entry? other := by
  have inside : ¬(location = ["/"] ∨ location.all (· == "..")) :=
    fun fixed => plain (by simp only [ entry?, fixed, if_true])
  by_cases same : other = location
  · rw [same, entry?, if_neg inside]
    simp [insert]
  · have apart : (other == location) = false := by simpa using same
    simp [ entry?, insert, List.lookup_cons, same, apart, lookup_filter_ne same]

theorem read_ok_iff : files.read path = .ok content ↔ files.lookup? path = some (.file content) := by
  simp only [read, lookup?]
  cases files.locate path with
  | error => simp
  | ok location =>
    simp only
    cases files.entry? location with
    | none => simp
    | some entry => cases entry <;> simp

/-- A place is as before, or a directory is new where nothing was. -/
def Kept (files later : FileSystem) (location : Location) : Prop :=
  later.entry? location = files.entry? location ∨
    files.entry? location = none ∧ later.entry? location = some .directory

theorem Kept.trans (first : Kept files later location) (second : Kept later last location) :
    Kept files last location := by
  rcases first with same | ⟨vacant, made⟩
  · rw [Kept, ← same]
    exact second
  · rcases second with same | ⟨gone, _⟩
    · exact .inr ⟨vacant, same.trans made⟩
    · rw [made] at gone
      cases gone

/-- Nothing but directories is new. -/
def Extends (files later : FileSystem) : Prop := ∀ location, Kept files later location

theorem Extends.refl (files : FileSystem) : Extends files files := fun _ => .inl rfl

theorem Extends.trans (first : Extends files later) (second : Extends later last) : Extends files last :=
  fun location => (first location).trans (second location)

theorem extends_insert (vacant : files.entry? location = none) : Extends files (files.insert location .directory) := by
  intro other
  rw [Kept, entry?_insert (by simp [vacant])]
  by_cases same : other = location
  · rw [if_pos same, same]
    exact .inr ⟨vacant, rfl⟩
  · rw [if_neg same]
    exact .inl rfl

theorem extends_makeDirectory (made : files.makeDirectory path = .ok later) : Extends files later := by
  rw [makeDirectory] at made
  split at made
  · cases made
  · split at made
    · cases made
    · cases made
      exact extends_insert ‹_›

/-- Also if it fails halfway, no more than directories are made. -/
theorem extends_makeDirectories (files : FileSystem) (limit : Nat) (path : String) :
    Extends files (files.makeDirectories limit path).2 := by
  induction limit generalizing path with
  | zero => exact .refl files
  | succ limit ih =>
    have above := ih (Path.dirname path)
    rw [makeDirectories]
    split
    · exact .refl files
    · split
      · rename_i stopped
        rwa [stopped] at above
      · rename_i existing made
        rw [made] at above
        split
        · exact above
        · exact above.trans (extends_makeDirectory ‹_›)

theorem extends_ensureDirectory (files : FileSystem) (path : String) :
    Extends files (files.ensureDirectory path).2 := extends_makeDirectories files _ path

/-- A path leads to the same place as long as directories stay. -/
theorem follow_mono
    (stay : ∀ location, files.entry? location = some .directory → later.entry? location = some .directory)
    {names : List String} {start target : Location} (leads : files.follow start names = .ok target) :
    later.follow start names = .ok target := by
  induction names generalizing start with
  | nil => exact leads
  | cons name names ih =>
    rw [follow] at leads ⊢
    split at leads
    · cases leads
    · cases leads
    · rename_i directory
      rw [stay start directory]
      simp only
      split at leads
      · rw [if_pos ‹_›]
        exact ih leads
      · rw [if_neg ‹_›]
        split at leads
        · rw [if_pos ‹_›]
          exact ih leads
        · rw [if_neg ‹_›]
          exact ih leads

theorem locate_mono
    (stay : ∀ location, files.entry? location = some .directory → later.entry? location = some .directory)
    (leads : files.locate path = .ok location) : later.locate path = .ok location := by
  rw [locate] at leads ⊢
  split at leads
  · cases leads
  · rw [if_neg ‹_›]
    exact follow_mono stay leads

/-- A text stands in the file of a path, and elsewhere nothing but directories is new. -/
structure Writes (files later : FileSystem) (path content : String) : Prop where
  written : later.lookup? path = some (.file content)
  others : ∀ location, later.locate path ≠ .ok location → Kept files later location

theorem writes_of_write (written : files.write path content = .ok later) : Writes files later path content := by
  rw [write] at written
  split at written
  · cases written
  · rename_i location leads
    have plain : files.entry? location ≠ some .directory := by
      intro directory
      rw [directory] at written
      cases written
    have changed : later = files.insert location (.file content) := by
      split at written
      · cases written
      · cases written
        rfl
    have there (other : Location) := entry?_insert plain (.file content) other
    rw [← changed] at there
    have stay (other : Location) (directory : files.entry? other = some .directory) :
        later.entry? other = some .directory := by
      have apart : other ≠ location := fun same => plain (same ▸ directory)
      rw [there, if_neg apart, directory]
    have target := locate_mono stay leads
    refine ⟨?_, fun other elsewhere => .inl ?_⟩
    · simp [lookup?, target, there]
    · have apart : other ≠ location := fun same => elsewhere (same ▸ target)
      rw [there, if_neg apart]

theorem Extends.writes (made : Extends files later) (writes : Writes later last path content) :
    Writes files last path content where
  written := writes.written
  others location elsewhere := (made location).trans (writes.others location elsewhere)

end FileSystem
end TapeScript
