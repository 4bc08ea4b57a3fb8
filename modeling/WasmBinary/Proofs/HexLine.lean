import WasmBinary.HexLine.Display

/-! Lines of bytes as they are seen.

A piece of text that starts and ends outside every escape sequence and without emphasis is shown the
same whatever stands behind it (`Shows`), so what is seen of a line is put together from what is seen
of its bytes (`shows_text`). Nothing but its digits, a space between two bytes and the end of the line
is ever seen. The emphasised characters are the digits of the marked bytes, and what else is not blank
are the digits of the others. -/
namespace WasmBinary

/-! ### Digits -/

namespace Hex

theorem value?_upperDigit {n : Nat} (small : n < 16) : value? (upperDigit n) = some n := by
  have all : ∀ i : Fin 16, value? (upperDigit i.val) = some i.val := by decide
  exact all ⟨n, small⟩

theorem byte?_upper (byte : UInt8) :
    byte? (upperDigit (byte.toNat / 16)) (upperDigit (byte.toNat % 16)) = some byte := by
  have small := byte.toNat_lt
  have high : value? (upperDigit (byte.toNat / 16)) = some (byte.toNat / 16) := value?_upperDigit (by omega)
  have low : value? (upperDigit (byte.toNat % 16)) = some (byte.toNat % 16) := value?_upperDigit (by omega)
  rw [byte?, high, low]
  show some (UInt8.ofNat (16 * (byte.toNat / 16) + byte.toNat % 16)) = some byte
  rw [Nat.div_add_mod, UInt8.ofNat_toNat]

theorem pairs?_flatMap_upper (bytes : List UInt8) : pairs? (bytes.flatMap upper) = some bytes := by
  induction bytes with
  | nil => rfl
  | cons byte bytes ih =>
    rw [List.flatMap_cons, upper, List.cons_append, List.cons_append, List.nil_append, pairs?, byte?_upper, ih]
    rfl

/-- A digit is no blank and starts no escape sequence. -/
theorem upper_plain {byte : UInt8} {c : Char} (mem : c ∈ upper byte) :
    c ≠ ' ' ∧ c ≠ '\n' ∧ c ≠ Char.ofNat 0x1b := by
  have all : ∀ i : Fin 16, upperDigit i.val ≠ ' ' ∧ upperDigit i.val ≠ '\n' ∧
      upperDigit i.val ≠ Char.ofNat 0x1b := by decide
  have small := byte.toNat_lt
  rcases List.mem_cons.1 mem with rfl | mem
  · exact all ⟨byte.toNat / 16, by omega⟩
  · rw [List.mem_singleton.1 mem]
    exact all ⟨byte.toNat % 16, by omega⟩

end Hex

namespace HexLine

/-! ### Pieces of a text -/

/-- Characters outside escape sequences are shown as they are. -/
theorem displayFrom_plain (emphasised : Bool) {text : List Char} (plain : ∀ c ∈ text, c ≠ Char.ofNat 0x1b)
    (rest : List Char) :
    displayFrom emphasised .plain (text ++ rest) =
      text.map (·, emphasised) ++ displayFrom emphasised .plain rest := by
  induction text with
  | nil => rfl
  | cons c text ih =>
    obtain ⟨first, others⟩ := List.forall_mem_cons.1 plain
    rw [List.cons_append, displayFrom, if_neg first, ih others]
    rfl

theorem displayFrom_emphasis (emphasised : Bool) (rest : List Char) :
    displayFrom emphasised .plain (emphasis ++ rest) = displayFrom true .plain rest := by
  simp [emphasis, reset, escape, displayFrom]
  rfl

theorem displayFrom_reset (emphasised : Bool) (rest : List Char) :
    displayFrom emphasised .plain (reset ++ rest) = displayFrom false .plain rest := by
  simp [reset, escape, displayFrom]

/-- A scan makes this of the text, and goes on behind it as from the start. -/
def Scans {β : Type} (scan : List Char → List β) (text : List Char) (out : List β) : Prop :=
  ∀ rest, scan (text ++ rest) = out ++ scan rest

section
variable {α β : Type} {scan : List Char → List β}

theorem Scans.eq {text : List Char} {out : List β} (h : Scans scan text out) (ends : scan [] = []) :
    scan text = out := by
  have alone := h []
  rwa [List.append_nil, ends, List.append_nil] at alone

theorem Scans.nil : Scans scan [] [] := fun _ => rfl

theorem Scans.append {a b : List Char} {x y : List β} (ha : Scans scan a x) (hb : Scans scan b y) :
    Scans scan (a ++ b) (x ++ y) := by
  intro rest
  rw [List.append_assoc, ha, hb, List.append_assoc]

theorem Scans.flatMap {text : α → List Char} {out : α → List β} (each : ∀ x, Scans scan (text x) (out x))
    (xs : List α) : Scans scan (xs.flatMap text) (xs.flatMap out) := by
  induction xs with
  | nil => exact .nil
  | cons x xs ih => exact (each x).append ih

/-- Pieces with something between them. -/
theorem Scans.intercalate {text : α → List Char} {out : α → List β} (each : ∀ x, Scans scan (text x) (out x))
    {between : List Char} {gap : List β} (one : Scans scan between gap) (xs : List α) :
    Scans scan (between.intercalate (xs.map text)) (gap.intercalate (xs.map out)) := by
  induction xs with
  | nil => exact .nil
  | cons x xs ih =>
    cases xs with
    | nil => simpa using each x
    | cons y xs =>
      rw [List.map_cons, List.map_cons, List.map_cons, List.map_cons, List.intercalate_cons_cons,
        List.intercalate_cons_cons]
      exact ((each x).append one).append ih

end

/-- The text is seen as these characters, whatever stands behind it. -/
def Shows (text : List Char) (seen : List (Char × Bool)) : Prop :=
  ∀ rest, displayFrom false .plain (text ++ rest) = seen ++ displayFrom false .plain rest

theorem Shows.display {text : List Char} {seen : List (Char × Bool)} (h : Shows text seen) :
    display text = seen :=
  Scans.eq h rfl

theorem Shows.append {a b : List Char} {x y : List (Char × Bool)} (ha : Shows a x) (hb : Shows b y) :
    Shows (a ++ b) (x ++ y) :=
  Scans.append ha hb

theorem Shows.plain {text : List Char} (plain : ∀ c ∈ text, c ≠ Char.ofNat 0x1b) :
    Shows text (text.map (·, false)) :=
  displayFrom_plain false plain

theorem Shows.flatMap {α : Type} {text : α → List Char} {seen : α → List (Char × Bool)}
    (each : ∀ x, Shows (text x) (seen x)) (xs : List α) : Shows (xs.flatMap text) (xs.flatMap seen) :=
  Scans.flatMap each xs

/-- Pieces with one character between them. -/
theorem Shows.intercalate {α : Type} {text : α → List Char} {seen : α → List (Char × Bool)}
    (each : ∀ x, Shows (text x) (seen x)) {between : Char} (plain : between ≠ Char.ofNat 0x1b) (xs : List α) :
    Shows ([between].intercalate (xs.map text)) ([(between, false)].intercalate (xs.map seen)) := by
  have one : Shows [between] [(between, false)] := .plain (List.forall_mem_singleton.2 plain)
  exact Scans.intercalate each one xs

/-! ### Lines -/

/-- How many bytes of a line are emphasised. -/
def emphasisedBytes (coloured : Bool) (line : HexLine) : Nat := if coloured then line.marked else 0

/-- Each byte of a line, and whether it is emphasised. -/
def annotated (coloured : Bool) (line : HexLine) : List (UInt8 × Bool) :=
  (line.bytes.take (line.emphasisedBytes coloured)).map (·, true) ++
    (line.bytes.drop (line.emphasisedBytes coloured)).map (·, false)

theorem showBytes_eq (coloured : Bool) (line : HexLine) :
    showBytes coloured line.marked line.bytes = (line.annotated coloured).map fun b => showByte b.2 b.1 := by
  obtain ⟨bytes, marked⟩ := line
  induction bytes generalizing marked with
  | nil => simp [showBytes, annotated]
  | cons byte bytes ih =>
    have rest := ih (marked - 1)
    cases coloured with
    | false => simpa [showBytes, annotated, emphasisedBytes] using rest
    | true => cases marked <;> simpa [showBytes, annotated, emphasisedBytes] using rest

/-- The digits of a byte as they are seen. -/
def seenByte (b : UInt8 × Bool) : List (Char × Bool) := (Hex.upper b.1).map (·, b.2)

theorem shows_showByte (b : UInt8 × Bool) : Shows (showByte b.2 b.1) (seenByte b) := by
  obtain ⟨byte, emphasised⟩ := b
  have plain : ∀ c ∈ Hex.upper byte, c ≠ Char.ofNat 0x1b := fun c mem => (Hex.upper_plain mem).2.2
  cases emphasised with
  | false => exact .plain plain
  | true =>
    intro rest
    show displayFrom false .plain (emphasis ++ Hex.upper byte ++ reset ++ rest) = _
    rw [List.append_assoc, List.append_assoc, displayFrom_emphasis, displayFrom_plain true plain,
      displayFrom_reset]
    rfl

/-- What is seen of a line: the digits of its bytes with a space between them, and its end. -/
def seen (coloured : Bool) (line : HexLine) : List (Char × Bool) :=
  [(' ', false)].intercalate ((line.annotated coloured).map seenByte) ++ [('\n', false)]

theorem shows_text (coloured : Bool) (line : HexLine) : Shows (line.text coloured) (line.seen coloured) := by
  have digits := Shows.intercalate shows_showByte (show ' ' ≠ Char.ofNat 0x1b by decide)
    (line.annotated coloured)
  rw [text, showBytes_eq]
  exact digits.append (.plain (List.forall_mem_singleton.2 (by decide)))

/-! ### What is picked out of what is seen -/

/-- Some of the characters, without their emphasis. -/
def picked (test : Char × Bool → Bool) (seen : List (Char × Bool)) : List Char :=
  (seen.filter test).map Prod.fst

theorem picked_append (test : Char × Bool → Bool) (a b : List (Char × Bool)) :
    picked test (a ++ b) = picked test a ++ picked test b := by
  simp [picked]

theorem picked_intercalate {test : Char × Bool → Bool} {between : Char × Bool} (dropped : test between = false)
    (pieces : List (List (Char × Bool))) :
    picked test ([between].intercalate pieces) = pieces.flatMap (picked test) := by
  have none : picked test [between] = [] := by simp [picked, dropped]
  induction pieces with
  | nil => rfl
  | cons piece pieces ih =>
    cases pieces with
    | nil => simp
    | cons next pieces =>
      rw [List.intercalate_cons_cons, picked_append, picked_append, none, ih, List.append_nil]
      rfl

/-- A test that lets no blank pass, and digits by their emphasis. -/
structure Tells (test : Char × Bool → Bool) (passes : Bool → Bool) : Prop where
  digit : ∀ c emphasised, c ≠ ' ' → c ≠ '\n' → test (c, emphasised) = passes emphasised
  space : test (' ', false) = false
  lineEnd : test ('\n', false) = false

/-- The bytes of a line that pass by their emphasis. -/
def passing (passes : Bool → Bool) (coloured : Bool) (line : HexLine) : List UInt8 :=
  (if passes true then line.bytes.take (line.emphasisedBytes coloured) else []) ++
    (if passes false then line.bytes.drop (line.emphasisedBytes coloured) else [])

section
variable {test : Char × Bool → Bool} {passes : Bool → Bool} (tells : Tells test passes)
include tells

theorem picked_seenByte (b : UInt8 × Bool) :
    picked test (seenByte b) = if passes b.2 then Hex.upper b.1 else [] := by
  obtain ⟨byte, emphasised⟩ := b
  have same : ∀ c ∈ Hex.upper byte, (test ∘ (·, emphasised)) c = passes emphasised := fun c mem =>
    tells.digit c emphasised (Hex.upper_plain mem).1 (Hex.upper_plain mem).2.1
  rw [picked, seenByte, List.filter_map]
  cases pass : passes emphasised with
  | false =>
    have none : (Hex.upper byte).filter (test ∘ (·, emphasised)) = [] :=
      List.filter_eq_nil_iff.2 fun c mem => by rw [same c mem, pass]; exact Bool.false_ne_true
    rw [none]
    rfl
  | true =>
    rw [List.filter_eq_self.2 fun c mem => (same c mem).trans pass, List.map_map]
    exact List.map_id _

theorem flatMap_picked_seenByte (bytes : List UInt8) (emphasised : Bool) :
    (bytes.map (·, emphasised)).flatMap (fun b => picked test (seenByte b)) =
      (if passes emphasised then bytes else []).flatMap Hex.upper := by
  simp only [List.flatMap_map, picked_seenByte tells]
  cases passes emphasised <;> simp

theorem picked_seen (coloured : Bool) (line : HexLine) :
    picked test (line.seen coloured) = (line.passing passes coloured).flatMap Hex.upper := by
  have none : picked test [('\n', false)] = [] := by simp [picked, tells.lineEnd]
  rw [seen, picked_append, picked_intercalate tells.space, none, List.append_nil, List.flatMap_map, annotated,
    List.flatMap_append, flatMap_picked_seenByte tells, flatMap_picked_seenByte tells, passing,
    List.flatMap_append]

end

/-- The emphasised characters are the digits of the marked bytes. -/
theorem emphasised_text (coloured : Bool) (line : HexLine) :
    emphasised (line.text coloured) = (line.bytes.take (line.emphasisedBytes coloured)).flatMap Hex.upper := by
  have tells : Tells Prod.snd id := ⟨fun _ _ _ _ => rfl, rfl, rfl⟩
  have digits := picked_seen tells coloured line
  rw [emphasised, (shows_text coloured line).display]
  refine digits.trans ?_
  simp [passing]

/-- What is neither emphasised nor blank are the digits of the other bytes. -/
theorem unemphasised_text (coloured : Bool) (line : HexLine) :
    unemphasised (line.text coloured) = (line.bytes.drop (line.emphasisedBytes coloured)).flatMap Hex.upper := by
  have tells : Tells (fun c => !c.2 && c.1 ≠ ' ' && c.1 ≠ '\n') (!·) :=
    ⟨fun c emphasised space lineEnd => by simp [space, lineEnd], rfl, rfl⟩
  have digits := picked_seen tells coloured line
  rw [unemphasised, (shows_text coloured line).display]
  refine digits.trans ?_
  simp [passing]

/-- Lines are read as all their bytes, in colours or not. -/
theorem readPairs?_flatMap_text (coloured : Bool) (lines : List HexLine) :
    readPairs? (lines.flatMap (text coloured)) = some (lines.flatMap bytes) := by
  have tells : Tells ((fun c => decide (c ≠ ' ' ∧ c ≠ '\n')) ∘ Prod.fst) (fun _ => true) :=
    ⟨fun c _ space lineEnd => by simp [space, lineEnd], rfl, rfl⟩
  have digits : picked ((fun c => decide (c ≠ ' ' ∧ c ≠ '\n')) ∘ Prod.fst) (lines.flatMap (seen coloured)) =
      (lines.flatMap bytes).flatMap Hex.upper := by
    induction lines with
    | nil => rfl
    | cons line lines ih =>
      rw [List.flatMap_cons, picked_append, picked_seen tells, ih, List.flatMap_cons, List.flatMap_append]
      simp [passing]
  rw [readPairs?, visible, (Shows.flatMap (shows_text coloured) lines).display, List.filter_map]
  exact (congrArg Hex.pairs? digits).trans (Hex.pairs?_flatMap_upper _)

theorem map_intercalate {α β : Type} (f : α → β) (between : List α) (pieces : List (List α)) :
    (between.intercalate pieces).map f = (between.map f).intercalate (pieces.map (·.map f)) := by
  induction pieces with
  | nil => rfl
  | cons piece pieces ih =>
    cases pieces with
    | nil => simp
    | cons next pieces =>
      rw [List.intercalate_cons_cons, List.map_append, List.map_append, ih]
      exact List.intercalate_cons_cons.symm

/-- A line without emphasis is the digits of its bytes with a space between them. -/
theorem text_of_plain {coloured : Bool} {line : HexLine} (plain : line.emphasisedBytes coloured = 0) :
    line.text coloured = [' '].intercalate (line.bytes.map Hex.upper) ++ ['\n'] := by
  rw [text, showBytes_eq, annotated, plain, List.take_zero, List.drop_zero, List.map_nil, List.nil_append,
    List.map_map]
  rfl

/-- Without its emphasis, a line is what is written without colours. -/
theorem visible_text (coloured : Bool) (line : HexLine) : visible (line.text coloured) = line.text false := by
  have digits : (line.annotated coloured).map (fun b => (seenByte b).map Prod.fst) =
      line.bytes.map Hex.upper := by
    have each (b : UInt8 × Bool) : (seenByte b).map Prod.fst = Hex.upper b.1 := by
      rw [seenByte, List.map_map]
      exact List.map_id _
    simp only [each, annotated, List.map_append, List.map_map, Function.comp_def]
    rw [← List.map_append, List.take_append_drop]
  rw [visible, (shows_text coloured line).display, seen, List.map_append, map_intercalate, List.map_map,
    text_of_plain (show line.emphasisedBytes false = 0 from rfl)]
  exact congrArg (fun pieces => [' '].intercalate pieces ++ ['\n']) digits

/-- No escape is ever seen. -/
theorem displayFrom_not_escape (emphasised : Bool) (cursor : Cursor) (text : List Char) :
    ∀ c ∈ displayFrom emphasised cursor text, c.1 ≠ Char.ofNat 0x1b := by
  induction text generalizing emphasised cursor with
  | nil => cases cursor <;> exact nofun
  | cons c text ih =>
    cases cursor with
    | plain =>
      rw [displayFrom]
      split
      · exact ih emphasised (.sequence [])
      · rename_i other
        exact List.forall_mem_cons.2 ⟨other, ih emphasised .plain⟩
    | sequence read =>
      rw [displayFrom]
      split
      · exact ih _ .plain
      · exact ih emphasised _

/-- A line without emphasis has no escape. -/
theorem escape_not_mem_text {coloured : Bool} {line : HexLine} (plain : line.emphasisedBytes coloured = 0) :
    Char.ofNat 0x1b ∉ line.text coloured := by
  have same : line.text coloured = line.text false := (text_of_plain plain).trans (text_of_plain rfl).symm
  rw [same, ← visible_text false, visible, List.mem_map]
  rintro ⟨c, seen, escape⟩
  exact displayFrom_not_escape false .plain _ c seen escape

end HexLine
end WasmBinary
