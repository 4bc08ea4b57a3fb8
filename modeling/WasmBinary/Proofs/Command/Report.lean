import Mathlib.Data.List.Basic
import WasmBinary.Proofs.Command.Script

/-! Lines of the log.

A message of printable characters makes a line that starts with its level and ends where the message
does, so its text can be taken out of a report and everything behind it is read as before (`Silent`).
A message that only has no line feed may lose its end, or hide a part of itself, in a control function.
It still makes one line that starts with its level, but the line ends only where the report does
(`unlogged_text`). -/
namespace WasmBinary

namespace PlainText

/-- Plain text in front is shown whatever stands behind it. -/
theorem shown_append (showing : Bool) {front : List Char} (nonempty : front ≠ [])
    (plain : ∀ c ∈ front, isPlain c = true) (rest : List Char) :
    shown showing .outside (front ++ rest) = front ++ shown true .outside rest := by
  induction front generalizing showing with
  | nil => contradiction
  | cons c front ih =>
    obtain ⟨first, others⟩ := List.forall_mem_cons.1 plain
    have step (text : List Char) : shown showing .outside (c :: text) = c :: shown true .outside text := by
      simp only [shown, Position.shows, first, Bool.and_true, ite_self, if_true]
    rw [List.cons_append, step]
    cases front with
    | nil => rfl
    | cons d front =>
      rw [ih true (List.cons_ne_nil d front) others]
      rfl

theorem shown_sublist (showing : Bool) (position : Position) (text : List Char) :
    (shown showing position text).Sublist text := by
  induction text generalizing showing position with
  | nil => exact .slnil
  | cons c text ih =>
    rw [shown]
    split
    · exact (ih _ _).cons_cons c
    · split
      · exact (ih _ _).cons_cons c
      · exact (ih _ _).cons c

end PlainText

namespace Command

/-! ### Lines -/

theorem lines_cons {c : Char} (lineFeed : c ≠ '\n') (carriageReturn : c ≠ '\x0d') (rest : List Char) :
    lines (c :: rest) = (c :: (lines rest).headD []) :: (lines rest).tail := by
  rw [lines]
  · cases lines rest <;> rfl
  · exact lineFeed
  · exact fun _ same => absurd same carriageReturn

/-- Text without line ends belongs to the line that is behind it. -/
theorem lines_append {front : List Char} (nonempty : front ≠ [])
    (unbroken : ∀ c ∈ front, c ≠ '\n' ∧ c ≠ '\x0d') (rest : List Char) :
    lines (front ++ rest) = (front ++ (lines rest).headD []) :: (lines rest).tail := by
  induction front with
  | nil => contradiction
  | cons c front ih =>
    obtain ⟨⟨lineFeed, carriageReturn⟩, others⟩ := List.forall_mem_cons.1 unbroken
    rw [List.cons_append, lines_cons lineFeed carriageReturn]
    cases front with
    | nil => rfl
    | cons d front =>
      rw [ih (List.cons_ne_nil d front) others]
      rfl

/-- Text with no line feed but at its end is one line at most. -/
theorem tail_lines {front back : List Char} (unbroken : '\n' ∉ front) (ends : back = [] ∨ back = ['\n']) :
    (lines (front ++ back)).tail = [] := by
  induction front with
  | nil => rcases ends with rfl | rfl <;> rfl
  | cons c front ih =>
    obtain ⟨first, others⟩ := not_or.1 (mt List.mem_cons.2 unbroken)
    have single := ih others
    rw [List.cons_append]
    generalize front ++ back = text at single
    unfold lines
    split
    · contradiction
    · rename_i same
      exact absurd (List.cons.inj same).1.symm first
    · rename_i same
      obtain ⟨-, rfl⟩ := List.cons.inj same
      exact single
    · rename_i same
      obtain ⟨-, rfl⟩ := List.cons.inj same
      split
      · rfl
      · rename_i found
        rwa [found] at single

/-! ### Messages -/

/-- A text of printable characters. -/
def Printable (text : String) : Prop := ∀ c ∈ text.toList, ' ' ≤ c ∧ c ≠ '\x7f'

instance (text : String) : Decidable (Printable text) := List.decidableBAll _ _

theorem Printable.append {a b : String} (ha : Printable a) (hb : Printable b) : Printable (a ++ b) := by
  intro c mem
  rw [String.toList_append, List.mem_append] at mem
  exact mem.elim (ha c) (hb c)

theorem Printable.not_mem {text : String} (printable : Printable text) {c : Char} (control : c < ' ') :
    c ∉ text.toList :=
  fun mem => absurd (printable c mem).1 (Char.not_le.2 control)

theorem Printable.plain {text : String} (printable : Printable text) :
    ∀ c ∈ text.toList, PlainText.isPlain c = true := by
  intro c mem
  obtain ⟨low, delete⟩ := printable c mem
  simp [PlainText.isPlain, low, delete]

theorem hanging_of_unbroken {text : List Char} (unbroken : '\n' ∉ text) : hanging text = text := by
  induction text with
  | nil => rfl
  | cons c text ih =>
    obtain ⟨first, others⟩ := not_or.1 (mt List.mem_cons.2 unbroken)
    have rest : text.flatMap (fun c => if c = '\n' then "\n    ".toList else [c]) = text := ih others
    rw [hanging, List.flatMap_cons, rest, if_neg (Ne.symm first), List.singleton_append]

theorem label_ne_nil (level : Level) : level.label ≠ [] := by cases level <;> decide

theorem label_unbroken (level : Level) : ∀ c ∈ level.label, c ≠ '\n' ∧ c ≠ '\x0d' := by
  have each : ∀ c ∈ level.label, decide (c ≠ '\n' ∧ c ≠ '\x0d') = true :=
    List.all_eq_true.1 (by cases level <;> decide)
  exact fun c mem => of_decide_eq_true (each c mem)

/-- A message without line feeds follows its level as far as it is shown. -/
theorem toList_text (level : Level) {message : String} (unbroken : '\n' ∉ message.toList) :
    (level.text message).toList =
      level.label ++ PlainText.shown true .outside (message.toList ++ ['\n']) := by
  have label : ∀ c ∈ level.label, PlainText.isPlain c = true :=
    List.all_eq_true.1 (by cases level <;> decide)
  rw [Level.text, String.toList_ofList, hanging_of_unbroken unbroken, plainText, List.append_assoc,
    PlainText.shown_append false (label_ne_nil level) label]

theorem toList_text_of_printable (level : Level) {message : String} (printable : Printable message) :
    (level.text message).toList = level.label ++ message.toList ++ ['\n'] := by
  have plain : ∀ c ∈ message.toList ++ ['\n'], PlainText.isPlain c = true := by
    simp only [List.mem_append, List.mem_singleton]
    rintro c (mem | rfl)
    · exact printable.plain c mem
    · decide
  rw [toList_text level (printable.not_mem (by decide)), PlainText.shown_of_isPlain true _ plain, List.append_assoc]

/-! ### Lines that are not of the log -/

/-- Whether a line starts as those of the log do. -/
def isRecord (line : List Char) : Bool := [Level.info, .debug].any fun level => level.label.isPrefixOf line

theorem isRecord_append (level : Level) (rest : List Char) : isRecord (level.label ++ rest) = true := by
  cases level <;> rfl

/-- The lines of a text that are not of the log. -/
def unlogged (text : List Char) : List (List Char) := (lines text).filter fun line => !isRecord line

/-- Only lines of the log, and the last of them has ended. -/
def Silent (text : String) : Prop := ∀ rest, unlogged (text.toList ++ rest) = unlogged rest

theorem Silent.empty : Silent "" := fun _ => rfl

theorem Silent.append {a b : String} (ha : Silent a) (hb : Silent b) : Silent (a ++ b) := by
  intro rest
  rw [String.toList_append, List.append_assoc, ha, hb]

/-- **A printable message makes a line of its own.** -/
theorem silent_text (level : Level) {message : String} (printable : Printable message) :
    Silent (level.text message) := by
  intro rest
  have unbroken : ∀ c ∈ level.label ++ message.toList, c ≠ '\n' ∧ c ≠ '\x0d' := by
    intro c mem
    rcases List.mem_append.1 mem with mem | mem
    · exact label_unbroken level c mem
    · exact ⟨fun same => printable.not_mem (by decide) (same ▸ mem),
        fun same => printable.not_mem (by decide) (same ▸ mem)⟩
  have nonempty : level.label ++ message.toList ≠ [] :=
    List.append_ne_nil_of_left_ne_nil (label_ne_nil level) _
  have line := lines_append nonempty unbroken ('\n' :: rest)
  have record := isRecord_append level message.toList
  rw [unlogged, toList_text_of_printable level printable, List.append_assoc _ ['\n'], List.singleton_append, line]
  simp [lines, unlogged, record]

/-- A message without line feeds makes one line, if nothing is behind it. -/
theorem unlogged_text (level : Level) {message : String} (unbroken : '\n' ∉ message.toList) :
    unlogged (level.text message).toList = [] := by
  have record := isRecord_append level
  have single : (lines (PlainText.shown true .outside (message.toList ++ ['\n']))).tail = [] := by
    obtain ⟨front, back, same, shown, ends⟩ :=
      List.sublist_append_iff.1 (PlainText.shown_sublist true .outside (message.toList ++ ['\n']))
    rw [same]
    exact tail_lines (fun mem => unbroken (shown.subset mem)) (List.sublist_singleton.1 ends)
  rw [unlogged, toList_text level unbroken, lines_append (label_ne_nil level) (label_unbroken level), single]
  simp [record]

/-- The lines on standard error that are not of the log. -/
def Outcome.unloggedLines (outcome : Outcome) : List String :=
  outcome.reportedLines.filter fun line => !isRecord line.toList

theorem Outcome.unloggedLines_eq (outcome : Outcome) :
    outcome.unloggedLines = (unlogged outcome.reported.toList).map String.ofList := by
  have same : (fun line : String => !isRecord line.toList) ∘ String.ofList = fun line => !isRecord line := by
    funext line
    rw [Function.comp_apply, String.toList_ofList]
  rw [unloggedLines, reportedLines, List.filter_map, same, unlogged]

end Command
end WasmBinary
