import WasmBinary.Files
import WasmBinary.Proofs.Results

/-! Replacing a file.

A file takes the place of what was at one place, which was no directory. So every path that could
be followed before is followed to the same place after, the path of the file itself among them:
what is read there is what was written (`write_eq_ok`), and at all other places there is what was
there before. -/
namespace WasmBinary.Files

/-- A path leads to a place where a file can be written. -/
def Writable (files : Files) (path : String) : Prop :=
  ∃ place, files.locate path = .ok place ∧ files.node? place ≠ some .fullDevice

/-! ### One place -/

theorem lookup_filter_ne {place other : Place} (different : other ≠ place) (nodes : List (Place × Node)) :
    (nodes.filter fun entry => entry.1 ≠ place).lookup other = nodes.lookup other := by
  induction nodes with
  | nil => rfl
  | cons entry nodes ih =>
    obtain ⟨here, node⟩ := entry
    by_cases same : here = place
    · have passed : (other == here) = false := beq_eq_false_iff_ne.2 (same ▸ different)
      rw [List.filter_cons, if_neg (by simpa using same), ih, List.lookup_cons, passed]
    · rw [List.filter_cons, if_pos (by simpa using same), List.lookup_cons, List.lookup_cons, ih]

theorem node?_set_of_ne (files : Files) {place other : Place} (node : Node) (different : other ≠ place) :
    (files.set place node).node? other = files.node? other := by
  rw [node?, node?, set, List.lookup_cons]
  simp only [beq_eq_false_iff_ne.2 different, lookup_filter_ne different]

theorem node?_set_self (files : Files) {place : Place} (node : Node) (inside : place ≠ []) :
    (files.set place node).node? place = some node := by
  rw [node?, if_neg inside, set, List.lookup_cons]
  simp

/-! ### Paths -/

theorem step_eq_ok_iff {files : Files} {here next : Place} {name : String} :
    files.step here name = .ok next ↔
      (name = "." ∧ here = next) ∨ (name ≠ "." ∧ name = ".." ∧ here.dropLast = next) ∨
        (name ≠ "." ∧ name ≠ ".." ∧ entry here name = .ok next ∧ files.node? next = some .directory) := by
  unfold step
  split
  · simp [*]
  split
  · simp [*]
  rw [bind_eq_ok_iff]
  constructor
  · rintro ⟨there, found, enters⟩
    split at enters
    · obtain rfl := Except.ok.inj enters
      exact .inr (.inr ⟨‹_›, ‹_›, found, ‹_›⟩)
    · cases enters
    · cases enters
  · rintro (⟨dot, -⟩ | ⟨-, dots, -⟩ | ⟨-, -, found, directory⟩)
    · contradiction
    · contradiction
    · exact ⟨next, found, by rw [directory]⟩

/-- The names between the slashes of a path. -/
def names (pieces : List (List Char)) : List String := (pieces.filter (· ≠ [])).map String.ofList

theorem locateFrom_eq_ok_iff {files : Files} {start place : Place} {pieces : List (List Char)} :
    files.locateFrom start pieces = .ok place ↔
      ∃ last parent, (names pieces).getLast? = some last ∧
        (names pieces).dropLast.foldlM files.step start = .ok parent ∧
        ¬(last = "." ∨ last = ".." ∨ pieces.getLast? = some []) ∧ entry parent last = .ok place ∧
        files.node? place ≠ some .directory := by
  simp only [locateFrom, show (pieces.filter (· ≠ [])).map String.ofList = names pieces from rfl]
  cases final : (names pieces).getLast? with
  | none => exact iff_of_false nofun (by simp)
  | some last =>
    simp only [bind_eq_ok_iff, Option.some.injEq]
    constructor
    · rintro ⟨parent, steps, finds⟩
      split at finds
      · cases finds
      rename_i plain
      rw [bind_eq_ok_iff] at finds
      obtain ⟨there, found, file⟩ := finds
      split at file
      · cases file
      rename_i other
      obtain rfl := Except.ok.inj file
      exact ⟨last, parent, rfl, steps, plain, found, other⟩
    · rintro ⟨last, parent, rfl, steps, plain, found, other⟩
      refine ⟨parent, steps, ?_⟩
      rw [if_neg plain, bind_eq_ok_iff]
      exact ⟨place, found, if_neg other⟩

/-- What is no directory is not the root. -/
theorem ne_nil_of_node? {files : Files} {place : Place} (other : files.node? place ≠ some .directory) :
    place ≠ [] := by
  rintro rfl
  exact other rfl

section
variable {files : Files} {place : Place} (bytes : Bytes)

/-- A place that is a directory before is one after. -/
theorem directory_set (other : files.node? place ≠ some .directory) {here : Place}
    (directory : files.node? here = some .directory) :
    (files.set place (.file bytes)).node? here = some .directory := by
  rw [node?_set_of_ne files _ (by rintro rfl; exact other directory), directory]

theorem step_set (other : files.node? place ≠ some .directory) {here next : Place} {name : String}
    (step : files.step here name = .ok next) : (files.set place (.file bytes)).step here name = .ok next := by
  rw [step_eq_ok_iff] at step ⊢
  exact step.imp_right (Or.imp_right fun ⟨dot, dots, found, directory⟩ =>
    ⟨dot, dots, found, directory_set bytes other directory⟩)

theorem locate_set (other : files.node? place ≠ some .directory) {path : String} {there : Place}
    (found : files.locate path = .ok there) : (files.set place (.file bytes)).locate path = .ok there := by
  rw [locate] at found ⊢
  split at found
  · cases found
  rename_i short
  rw [if_neg short]
  rw [locateFrom_eq_ok_iff] at found ⊢
  obtain ⟨last, parent, final, steps, plain, found, other'⟩ := found
  refine ⟨last, parent, final, ?_, plain, found, ?_⟩
  · exact foldlM_ok_of_imp (fun here name next step => step_set bytes other step) steps
  · by_cases same : there = place
    · subst same
      rw [node?_set_self files _ (ne_nil_of_node? other)]
      exact nofun
    · rwa [node?_set_of_ne files _ same]

end

/-! ### Writing -/

theorem locate_not_directory {files : Files} {path : String} {place : Place}
    (found : files.locate path = .ok place) : files.node? place ≠ some .directory := by
  rw [locate] at found
  split at found
  · cases found
  · obtain ⟨-, -, -, -, -, -, other⟩ := locateFrom_eq_ok_iff.1 found
    exact other

/-- **A writable path takes any bytes**, and only what is at its place changes. -/
theorem write_eq_ok {files : Files} {path : String} (writable : files.Writable path) (bytes : Bytes) :
    ∃ after, files.write path bytes = .ok after ∧ after.content? path = some bytes ∧
      ∀ place, files.locate path ≠ .ok place → after.node? place = files.node? place := by
  obtain ⟨here, found, room⟩ := writable
  have other := locate_not_directory found
  refine ⟨files.set here (.file bytes), ?_, ?_, fun place elsewhere => ?_⟩
  · rw [write, bind_eq_ok_iff]
    refine ⟨here, found, ?_⟩
    split
    · contradiction
    · rfl
  · rw [content?, locate_set bytes other found]
    simp only [node?_set_self files _ (ne_nil_of_node? other)]
  · exact node?_set_of_ne files _ (by rintro rfl; exact elsewhere found)

end WasmBinary.Files
