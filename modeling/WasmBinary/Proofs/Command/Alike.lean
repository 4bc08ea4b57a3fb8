import Mathlib.Data.List.Forall2
import WasmBinary.Proofs.Command.Effects

/-! A task with colours and without.

The colours of a task are nowhere but in the texts it prints, and its detail is nowhere at all. So
whatever they are, it does the same things in the same order and has the same end, and the texts it
prints are seen as the same characters (`Task.alike_script`). -/
namespace WasmBinary.Command

/-! ### Texts -/

/-- Both texts are seen as the same characters, whatever stands behind them. -/
def SameLook (a b : String) : Prop :=
  ∃ seen seen', HexLine.Shows a.toList seen ∧ HexLine.Shows b.toList seen' ∧
    seen.map Prod.fst = seen'.map Prod.fst

namespace SameLook
variable {a b c d : String}

theorem of_plain (plain : '\x1b' ∉ a.toList) : SameLook a a := by
  have shows := HexLine.Shows.plain fun c mem same => plain (same ▸ mem)
  exact ⟨_, _, shows, shows, rfl⟩

theorem append (first : SameLook a b) (second : SameLook c d) : SameLook (a ++ c) (b ++ d) := by
  obtain ⟨seen, seen', ha, hb, front⟩ := first
  obtain ⟨more, more', hc, hd, back⟩ := second
  refine ⟨seen ++ more, seen' ++ more', ?_, ?_, ?_⟩
  · rw [String.toList_append]
    exact ha.append hc
  · rw [String.toList_append]
    exact hb.append hd
  · rw [List.map_append, List.map_append, front, back]

theorem visible (same : SameLook a b) : HexLine.visible a.toList = HexLine.visible b.toList := by
  obtain ⟨seen, seen', ha, hb, chars⟩ := same
  rw [HexLine.visible, HexLine.visible, ha.display, hb.display, chars]

/-- A line looks the same in colours and without. -/
theorem of_line (coloured coloured' : Bool) (line : HexLine) :
    SameLook (.ofList (line.text coloured)) (.ofList (line.text coloured')) := by
  have chars (coloured : Bool) : (line.seen coloured).map Prod.fst = line.text false := by
    rw [← HexLine.visible_text coloured, HexLine.visible, (HexLine.shows_text coloured line).display]
  refine ⟨line.seen coloured, line.seen coloured', ?_, ?_, (chars coloured).trans (chars coloured').symm⟩
  · rw [String.toList_ofList]
    exact HexLine.shows_text coloured line
  · rw [String.toList_ofList]
    exact HexLine.shows_text coloured' line

end SameLook

/-! ### Effects -/

/-- Both effects do the same, but for texts that are related. -/
inductive Effect.Alike (R : String → String → Prop) : Effect → Effect → Prop where
  | log (level : Level) (message : String) : Alike R (.log level message) (.log level message)
  | print {a b : String} (related : R a b) : Alike R (.print a) (.print b)
  | save (path : String) (bytes : Bytes) : Alike R (.save path bytes) (.save path bytes)

theorem Effect.Alike.same_or_print {R : String → String → Prop} {effect effect' : Effect}
    (alike : effect.Alike R effect') :
    (effect' = effect ∧ ∀ text, effect ≠ .print text) ∨ ∃ a b, effect = .print a ∧ effect' = .print b ∧ R a b := by
  cases alike with
  | log level message => exact .inl ⟨rfl, nofun⟩
  | print related => exact .inr ⟨_, _, rfl, rfl, related⟩
  | save path bytes => exact .inl ⟨rfl, nofun⟩

theorem alike_self (effects : List Effect) : List.Forall₂ (Effect.Alike Eq) effects effects := by
  rw [List.forall₂_same]
  intro effect _
  cases effect with
  | log level message => exact .log level message
  | print text => exact .print rfl
  | save path bytes => exact .save path bytes

theorem Effect.alike_of_tame {effect : Effect} (tame : effect.Tame False) : effect.Alike SameLook effect := by
  cases effect with
  | log level message => exact .log level message
  | print text => exact .print (.of_plain tame.2)
  | save path bytes => exact .save path bytes

theorem Script.Tame.alike {s : Script Unit} {path? : Option String} (tame : s.Tame False path?) :
    List.Forall₂ (Effect.Alike SameLook) s.effects s.effects := by
  rw [List.forall₂_same]
  intro effect mem
  cases tame with
  | whole each => exact Effect.alike_of_tame (each effect mem)
  | saved size names each =>
    rcases List.mem_append.1 mem with front | last
    · exact Effect.alike_of_tame (each effect front)
    · obtain rfl := List.mem_singleton.1 last
      exact .log .info _

theorem alike_printHex (coloured coloured' : Bool) (lines : List HexLine) :
    List.Forall₂ (Effect.Alike SameLook) (printHex coloured lines).effects (printHex coloured' lines).effects := by
  rw [printHex_eq, printHex_eq, List.map_map, List.map_map, List.forall₂_map_left_iff,
    List.forall₂_map_right_iff, List.forall₂_same]
  exact fun line _ => .print (.of_line coloured coloured' line)

/-! ### Tasks -/

/-- Colours are for encodings that are printed. -/
theorem Task.script_eq_of_not_prints {task : Task} (prints : task.output? ≠ some none)
    (coloured coloured' : Bool) (input : List UInt8) :
    task.script coloured input = task.script coloured' input := by
  cases puts : task.output? with
  | none =>
    cases task with
    | sections lookup | opcodes lookup => rfl
    | signed bits values output | unsigned bits values output => cases puts
    | vector limit source output => cases puts
    | preamble output => cases puts
  | some output =>
    rw [Task.script_eq puts, Task.script_eq puts]
    cases output with
    | none => exact absurd puts prints
    | some path => rfl

/-- **A task does the same in all colours**, but for the emphasis of what it prints. -/
theorem Task.alike_script (task : Task) (coloured coloured' : Bool) (input : List UInt8) :
    List.Forall₂ (Effect.Alike SameLook) (task.script coloured input).effects
      (task.script coloured' input).effects ∧
    (task.script coloured input).result = (task.script coloured' input).result := by
  by_cases prints : task.output? = some none
  · rw [Task.script_eq prints, Task.script_eq prints]
    obtain ⟨notes, noted⟩ := task.noting_encode input
    generalize task.encode input = encode at noted
    obtain ⟨effects, result⟩ := encode
    obtain rfl : effects = notes.map (.log .debug) := noted
    have same : List.Forall₂ (Effect.Alike SameLook) (notes.map (.log .debug)) (notes.map (.log .debug)) := by
      rw [List.forall₂_same, List.forall_mem_map]
      exact fun note _ => .log .debug note
    cases result with
    | error failure => exact ⟨same, rfl⟩
    | ok lines =>
      rw [Script.ok_bind, Script.ok_bind, emit, emit]
      refine ⟨List.rel_append same (alike_printHex coloured coloured' lines), ?_⟩
      rw [printHex_eq, printHex_eq]
  · have none : (coloured = true ∧ task.PrintsTree) = False := by
      refine eq_false fun escapes => prints ?_
      obtain ⟨limit, source, same⟩ := escapes.2
      rw [same]
      rfl
    have tame := task.tame_script coloured input
    rw [none] at tame
    rw [← Task.script_eq_of_not_prints prints coloured coloured' input]
    exact ⟨tame.alike, rfl⟩

end WasmBinary.Command
