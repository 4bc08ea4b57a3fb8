import WasmBinary.Proofs.Command.Output

/-! Reading back what is printed.

Without colours a line is the digits of its bytes, two for each, with a space between them (`row`), and no
other line is read as these bytes (`readLine?_eq_some_iff`). No line end is inside a line, so what is printed
is split into the lines again, whatever is on them. In colours there are escape sequences besides. A sequence
that starts an emphasis stands only in front of the digits of a marked byte and one that ends it right behind
them, so what they enclose are these digits (`enclosed_flatMap_text`). -/
namespace WasmBinary

/-! ### Digits -/

namespace Hex

/-- What counts as a digit is the digit of its value. -/
theorem upperDigit_of_value? {c : Char} {n : Nat} (read : value? c = some n) : n < 16 ∧ upperDigit n = c := by
  unfold value? at read
  split at read
  · rename_i decimal
    obtain rfl := Option.some.inj read
    have low : 48 ≤ c.toNat := decimal.1
    have high : c.toNat ≤ 57 := decimal.2
    refine ⟨by omega, ?_⟩
    rw [upperDigit, if_pos (by omega), Nat.sub_add_cancel low, Char.ofNat_toNat]
  · split at read
    · rename_i letter
      obtain rfl := Option.some.inj read
      have low : 65 ≤ c.toNat := letter.1
      have high : c.toNat ≤ 70 := letter.2
      refine ⟨by omega, ?_⟩
      rw [upperDigit, if_neg (by omega), Nat.sub_add_cancel (by omega), Char.ofNat_toNat]
    · cases read

/-- Two characters are read as a byte exactly when they are its digits. -/
theorem byte?_eq_some_iff {high low : Char} {byte : UInt8} :
    byte? high low = some byte ↔ [high, low] = upper byte := by
  constructor
  · intro read
    obtain ⟨h, readHigh, read⟩ := Option.bind_eq_some_iff.1 read
    obtain ⟨l, readLow, read⟩ := Option.bind_eq_some_iff.1 read
    obtain rfl := Option.some.inj read
    obtain ⟨smallHigh, rfl⟩ := upperDigit_of_value? readHigh
    obtain ⟨smallLow, rfl⟩ := upperDigit_of_value? readLow
    have value : (UInt8.ofNat (16 * h + l)).toNat = 16 * h + l := UInt8.toNat_ofNat_of_lt' (by
      show 16 * h + l < 256
      omega)
    rw [upper, value, show (16 * h + l) / 16 = h by omega, show (16 * h + l) % 16 = l by omega]
  · intro digits
    obtain ⟨rfl, last⟩ := List.cons.inj digits
    obtain ⟨rfl, -⟩ := List.cons.inj last
    exact byte?_upper byte

/-- The digits of a byte are those of its value to the base of sixteen, two in any case. -/
theorem upper_eq (byte : UInt8) :
    upper byte = ((Nat.toDigits 16 byte.toNat).leftpad 2 '0').map Char.toUpper :=
  forall_byte (p := fun b => upper b = ((Nat.toDigits 16 b.toNat).leftpad 2 '0').map Char.toUpper)
    (by decide +kernel) byte

end Hex

namespace HexLine

/-! ### Pieces with something between them -/

theorem not_mem_intercalate {α : Type} {x : α} {between : List α} (outside : x ∉ between)
    {pieces : List (List α)} (each : ∀ piece ∈ pieces, x ∉ piece) : x ∉ between.intercalate pieces := by
  induction pieces with
  | nil => exact List.not_mem_nil
  | cons piece pieces ih =>
    obtain ⟨first, others⟩ := List.forall_mem_cons.1 each
    cases pieces with
    | nil => rwa [List.intercalate_singleton]
    | cons next pieces =>
      rw [List.intercalate_cons_cons, List.mem_append, List.mem_append]
      exact not_or.2 ⟨not_or.2 ⟨first, outside⟩, ih others⟩

theorem intercalate_nil_eq {α : Type} (pieces : List (List α)) : [].intercalate pieces = pieces.flatten := by
  induction pieces with
  | nil => rfl
  | cons piece pieces ih =>
    cases pieces with
    | nil => simp
    | cons next pieces =>
      rw [List.intercalate_cons_cons, ih, List.append_nil]
      rfl

/-- Lines are found again if none of them has a line end inside. -/
theorem splitOn_lines {α : Type} {body : α → List Char} (unbroken : ∀ x, '\n' ∉ body x) (xs : List α) :
    (xs.flatMap fun x => body x ++ ['\n']).splitOn '\n' = xs.map body ++ [[]] := by
  induction xs with
  | nil => exact List.splitOn_nil _
  | cons x xs ih =>
    rw [List.flatMap_cons, List.append_assoc, List.singleton_append,
      List.splitOn_append_cons_self_of_not_mem (unbroken x), ih, List.map_cons, List.cons_append]

/-! ### One line -/

/-- The digits of bytes with a space between them. -/
def row (bytes : List UInt8) : List Char := [' '].intercalate (bytes.map Hex.upper)

theorem row_singleton (byte : UInt8) : row [byte] = Hex.upper byte := List.intercalate_singleton

theorem row_cons_cons (byte next : UInt8) (bytes : List UInt8) :
    row (byte :: next :: bytes) = Hex.upper byte ++ ' ' :: row (next :: bytes) := by
  rw [row, List.map_cons, List.map_cons, List.intercalate_cons_cons, List.append_assoc]
  rfl

/-- A row of bytes starts with a digit. -/
theorem exists_row_cons (byte : UInt8) (bytes : List UInt8) : ∃ c rest, row (byte :: bytes) = c :: rest := by
  cases bytes with
  | nil => exact ⟨_, _, row_singleton byte⟩
  | cons next bytes => exact ⟨_, _, row_cons_cons byte next bytes⟩

theorem readLine?_row (bytes : List UInt8) : readLine? (row bytes) = some bytes := by
  induction bytes with
  | nil => rfl
  | cons byte bytes ih =>
    cases bytes with
    | nil =>
      rw [row_singleton, Hex.upper, readLine?, Hex.byte?_upper]
      rfl
    | cons next bytes =>
      obtain ⟨c, rest, start⟩ := exists_row_cons next bytes
      rw [row_cons_cons, Hex.upper, List.cons_append, List.cons_append, List.nil_append, start, readLine?,
        Hex.byte?_upper, ← start, ih]
      rfl

/-- **A line is read as bytes exactly when it is their row.** -/
theorem readLine?_eq_some_iff {line : List Char} {bytes : List UInt8} :
    readLine? line = some bytes ↔ line = row bytes := by
  refine ⟨fun read => ?_, fun same => same ▸ readLine?_row bytes⟩
  fun_induction readLine? line generalizing bytes with
  | case1 => rw [← Option.some.inj read]; rfl
  | case2 high low =>
    obtain ⟨byte, digits, read⟩ := Option.bind_eq_some_iff.1 read
    obtain rfl := Option.some.inj read
    rw [row_singleton, Hex.byte?_eq_some_iff.1 digits]
  | case3 high low next rest ih =>
    obtain ⟨byte, digits, read⟩ := Option.bind_eq_some_iff.1 read
    obtain ⟨more, behind, read⟩ := Option.bind_eq_some_iff.1 read
    obtain rfl := Option.some.inj read
    have tail := ih behind
    cases more with
    | nil => cases tail
    | cons second more => rw [row_cons_cons, ← Hex.byte?_eq_some_iff.1 digits, ← tail]; rfl
  | case4 => cases read

/-! ### Lines -/

theorem mapM_readLine?_row (lines : List HexLine) :
    (lines.map fun line => row line.bytes).mapM readLine? = some (lines.map bytes) := by
  have each : readLine? ∘ (fun line : HexLine => row line.bytes) = fun line => pure line.bytes :=
    funext fun line => readLine?_row line.bytes
  rw [List.mapM_map, each, List.mapM_pure]
  rfl

/-- The text of a line without its end. -/
def body (coloured : Bool) (line : HexLine) : List Char :=
  [' '].intercalate (showBytes coloured line.marked line.bytes)

theorem body_of_plain (line : HexLine) : line.body false = row line.bytes :=
  List.append_cancel_right (text_of_plain (show line.emphasisedBytes false = 0 from rfl))

/-- No line ends before its end. -/
theorem lineEnd_not_mem_body (coloured : Bool) (line : HexLine) : '\n' ∉ line.body coloured := by
  refine not_mem_intercalate (by decide) fun piece mem => ?_
  rw [showBytes_eq, List.mem_map] at mem
  obtain ⟨⟨byte, emphasised⟩, -, rfl⟩ := mem
  have digits : '\n' ∉ Hex.upper byte := fun mem => (Hex.upper_plain mem).2.1 rfl
  cases emphasised with
  | false => exact digits
  | true =>
    show '\n' ∉ emphasis ++ Hex.upper byte ++ reset
    rw [List.mem_append, List.mem_append]
    exact not_or.2 ⟨not_or.2 ⟨by decide, digits⟩, by decide⟩

theorem splitOn_text (coloured : Bool) (lines : List HexLine) :
    (lines.flatMap (text coloured)).splitOn '\n' = lines.map (body coloured) ++ [[]] :=
  splitOn_lines (lineEnd_not_mem_body coloured) lines

theorem visible_flatMap_text (coloured : Bool) (lines : List HexLine) :
    visible (lines.flatMap (text coloured)) = lines.flatMap (text false) := by
  have each : (fun line => (line.seen coloured).map Prod.fst) = text false := by
    funext line
    rw [← visible_text coloured, visible, (shows_text coloured line).display]
  rw [visible, (Shows.flatMap (shows_text coloured) lines).display, List.map_flatMap, each]

/-! ### What escape sequences enclose -/

theorem enclosedFrom_plain (piece : Option (List Char)) {text : List Char}
    (plain : ∀ c ∈ text, c ≠ Char.ofNat 0x1b) (rest : List Char) :
    enclosedFrom piece .plain (text ++ rest) = enclosedFrom (piece.map (· ++ text)) .plain rest := by
  induction text generalizing piece with
  | nil => cases piece <;> simp
  | cons c text ih =>
    obtain ⟨first, others⟩ := List.forall_mem_cons.1 plain
    rw [List.cons_append, enclosedFrom, if_neg first, ih _ others]
    cases piece <;> simp

theorem enclosedFrom_emphasis (rest : List Char) :
    enclosedFrom none .plain (emphasis ++ rest) = enclosedFrom (some []) .plain rest := by
  simp [emphasis, reset, escape, enclosedFrom]

theorem enclosedFrom_reset (piece rest : List Char) :
    enclosedFrom (some piece) .plain (reset ++ rest) = piece :: enclosedFrom none .plain rest := by
  simp [reset, escape, enclosedFrom]

/-- The text encloses these pieces, whatever stands behind it. -/
def Encloses (text : List Char) (pieces : List (List Char)) : Prop :=
  Scans (enclosedFrom none .plain) text pieces

theorem Encloses.plain {text : List Char} (plain : ∀ c ∈ text, c ≠ Char.ofNat 0x1b) : Encloses text [] :=
  enclosedFrom_plain none plain

theorem Encloses.enclosed {text : List Char} {pieces : List (List Char)} (h : Encloses text pieces) :
    enclosed text = pieces :=
  Scans.eq h rfl

/-- The digits of a byte, if they are enclosed. -/
def enclosedByte (b : UInt8 × Bool) : List (List Char) := if b.2 then [Hex.upper b.1] else []

theorem encloses_showByte (b : UInt8 × Bool) : Encloses (showByte b.2 b.1) (enclosedByte b) := by
  obtain ⟨byte, emphasised⟩ := b
  have plain : ∀ c ∈ Hex.upper byte, c ≠ Char.ofNat 0x1b := fun c mem => (Hex.upper_plain mem).2.2
  cases emphasised with
  | false => exact .plain plain
  | true =>
    intro rest
    show enclosedFrom none .plain (emphasis ++ Hex.upper byte ++ reset ++ rest) = _
    rw [List.append_assoc, List.append_assoc, enclosedFrom_emphasis, enclosedFrom_plain _ plain, Option.map_some,
      enclosedFrom_reset]
    rfl

/-- The digits of the marked bytes, each of them on its own. -/
def markedDigits (coloured : Bool) (line : HexLine) : List (List Char) :=
  (line.bytes.take (line.emphasisedBytes coloured)).map Hex.upper

theorem flatMap_enclosedByte (coloured : Bool) (line : HexLine) :
    (line.annotated coloured).flatMap enclosedByte = line.markedDigits coloured := by
  have others (bytes : List UInt8) : bytes.flatMap (fun b => enclosedByte (b, false)) = [] :=
    List.flatMap_eq_nil_iff.2 fun _ _ => rfl
  rw [annotated, List.flatMap_append, List.flatMap_map, List.flatMap_map, others, List.append_nil, markedDigits,
    List.map_eq_flatMap]
  rfl

theorem encloses_body (coloured : Bool) (line : HexLine) :
    Encloses (line.body coloured) (line.markedDigits coloured) := by
  have one : Encloses [' '] [] := .plain (List.forall_mem_singleton.2 (by decide))
  have digits := Scans.intercalate encloses_showByte one (line.annotated coloured)
  rwa [intercalate_nil_eq, ← List.flatMap_def, flatMap_enclosedByte, ← showBytes_eq] at digits

theorem map_enclosed_body (coloured : Bool) (lines : List HexLine) :
    (lines.map (body coloured)).map enclosed = lines.map (markedDigits coloured) := by
  have each : enclosed ∘ body coloured = markedDigits coloured :=
    funext fun line => (encloses_body coloured line).enclosed
  rw [List.map_map, each]

theorem encloses_text (coloured : Bool) (line : HexLine) :
    Encloses (line.text coloured) (line.markedDigits coloured) := by
  have lineEnd : Encloses ['\n'] [] := .plain (List.forall_mem_singleton.2 (by decide))
  have whole := (encloses_body coloured line).append lineEnd
  rwa [List.append_nil] at whole

/-- **What is enclosed are the digits of the marked bytes**, line by line. -/
theorem enclosed_flatMap_text (coloured : Bool) (lines : List HexLine) :
    enclosed (lines.flatMap (text coloured)) = lines.flatMap (markedDigits coloured) :=
  Encloses.enclosed (Scans.flatMap (encloses_text coloured) lines)

/-- No blank is enclosed. -/
theorem blank_not_mem_enclosed (coloured : Bool) (lines : List HexLine) :
    ' ' ∉ (enclosed (lines.flatMap (text coloured))).flatten ∧
      '\n' ∉ (enclosed (lines.flatMap (text coloured))).flatten := by
  have plain : ∀ c ∈ (enclosed (lines.flatMap (text coloured))).flatten, c ≠ ' ' ∧ c ≠ '\n' := by
    intro c mem
    obtain ⟨piece, inside, mem⟩ := List.mem_flatten.1 mem
    rw [enclosed_flatMap_text] at inside
    obtain ⟨line, -, inside⟩ := List.mem_flatMap.1 inside
    obtain ⟨byte, -, rfl⟩ := List.mem_map.1 inside
    exact ⟨(Hex.upper_plain mem).1, (Hex.upper_plain mem).2.1⟩
  exact ⟨fun mem => (plain _ mem).1 rfl, fun mem => (plain _ mem).2 rfl⟩

end HexLine

namespace Command
open HexLine

/-- **What is printed can be read back.** The lines are printed one after the other. Without colours, what is
printed is split at its line ends into a row of digits for each of them, two capital ones for a byte and one
space between two bytes, and nothing but this row is read as the bytes of the line. In colours, the same is
seen once the escape sequences are taken out, and what they enclose are the digits of each marked byte by
itself, without any blank. -/
theorem lines_read_back :
    (∀ coloured lines, emit coloured none lines =
      ⟨lines.map fun line => .print (.ofList (line.text coloured)), .ok ()⟩) ∧
    (∀ line bytes, readLine? line = some bytes ↔ line = [' '].intercalate (bytes.map Hex.upper)) ∧
    (∀ byte, Hex.upper byte = ((Nat.toDigits 16 byte.toNat).leftpad 2 '0').map Char.toUpper) ∧
    ∀ lines : List HexLine,
      let plain := lines.flatMap (text false)
      let ansi := lines.flatMap (text true)
      let marked (line : HexLine) := (line.bytes.take (min line.marked line.bytes.length)).map Hex.upper
      plain.splitOn '\n' = lines.map (fun line => [' '].intercalate (line.bytes.map Hex.upper)) ++ [[]] ∧
      (plain.splitOn '\n').dropLast.mapM readLine? = some (lines.map bytes) ∧
      visible ansi = plain ∧
      (ansi.splitOn '\n').map enclosed = lines.map marked ++ [[]] ∧
      enclosed ansi = lines.flatMap marked ∧
      ' ' ∉ (enclosed ansi).flatten ∧ '\n' ∉ (enclosed ansi).flatten := by
  refine ⟨fun coloured lines => ?_, fun line bytes => readLine?_eq_some_iff, Hex.upper_eq, ?_⟩
  · rw [emit, printHex_eq, List.map_map]
    rfl
  · intro lines plain ansi marked
    have rows : plain.splitOn '\n' = lines.map (fun line => row line.bytes) ++ [[]] := by
      rw [splitOn_text, funext body_of_plain]
    have digits : markedDigits true = marked := by
      funext line
      exact congrArg (List.map Hex.upper) List.take_eq_take_min
    refine ⟨rows, ?_, visible_flatMap_text true lines, ?_, ?_, blank_not_mem_enclosed true lines⟩
    · rw [rows, List.dropLast_concat, mapM_readLine?_row]
    · rw [splitOn_text, List.map_append, map_enclosed_body, digits]
      rfl
    · rw [enclosed_flatMap_text, digits]

/-- A line with more marks than bytes, and one without bytes. -/
example :
    let lines : List HexLine := [⟨[0x01, 0x2a], 3⟩, ⟨[], 1⟩]
    lines.flatMap (text false) = "01 2A\n\n".toList ∧
      enclosed (lines.flatMap (text true)) = ["01".toList, "2A".toList] := by decide

end Command
end WasmBinary
