import WasmBinary.Proofs.Command.Arguments
import WasmBinary.Proofs.Command.Output
import WasmBinary.Proofs.Varint.Forms
import WasmBinary.Proofs.Varint.Reading

/-! The commands on integers.

All integers are encoded before anything is printed or saved. So either every one of them has an
encoding, and all encodings are put out, or the first that has none ends the command with nothing
put out (`outcome_of_ok`, `outcome_of_error`). Which of both it is, the width decides
(`integers_all_or_nothing`). -/
namespace WasmBinary.Command
open Console

/-! ### What is put out -/

/-- All encodings are put out: on a line each, or back to back as the new content of a file, and
nothing else. -/
structure Emitted (world : World) (output : Option String) (encodings : List (List UInt8)) (outcome : Outcome) :
    Prop where
  success : outcome.success = true
  onLines : output = none → outcome.printed = .join (encodings.map hexText) ∧ outcome.files = world.files
  inFile : ∀ path, output = some path → outcome.printed = "" ∧
    outcome.files.content? path = some encodings.flatten.toArray ∧
    ∀ place, world.files.locate path ≠ .ok place → outcome.files.node? place = world.files.node? place

theorem Printed.emitted {world : World} {verbosity : Nat} {notes : List String} {coloured : Bool}
    {encodings : List (List UInt8)} {outcome : Outcome}
    (h : Printed world verbosity notes coloured (encodings.map .plain) outcome) :
    Emitted world none encodings outcome := by
  have plain (bytes : List UInt8) : String.ofList ((HexLine.plain bytes).text coloured) = hexText bytes :=
    ofList_text_of_plain (show (if coloured then 0 else 0) = 0 from ite_self 0)
  have texts : outcome.printed = .join (encodings.map hexText) := by
    rw [h.printed, List.map_map]
    exact congrArg String.join (List.map_congr_left fun bytes _ => plain bytes)
  exact ⟨h.success, fun _ => ⟨texts, h.files⟩, nofun⟩

theorem Saved.emitted {world : World} {verbosity : Nat} {notes : List String} {path : String}
    {encodings : List (List UInt8)} {outcome : Outcome}
    (h : Saved world verbosity notes path ((encodings.map HexLine.plain).flatMap HexLine.bytes).toArray outcome) :
    Emitted world (some path) encodings outcome := by
  have bytes : (encodings.map HexLine.plain).flatMap HexLine.bytes = encodings.flatten := by
    rw [List.flatMap_map]
    exact List.flatMap_id
  refine ⟨h.success, nofun, fun other same => ?_⟩
  obtain rfl := Option.some.inj same
  exact ⟨h.printed, bytes ▸ h.content, h.others⟩

/-! ### Encoding all of them -/

section
variable {α : Type} {encode : α → Except EncodingError Varint} {written : α → Varint} (spell : α → String)

/-- The note on an encoding. -/
def note (written : α → Varint) (value : α) : String :=
  s!"{spell value} encodes to {(written value).length} bytes"

/-- The failure of a value that has no encoding. -/
def refusal (value : α) (error : EncodingError) : Failure :=
  ⟨s!"failed to encode {spell value}", some error.message⟩

theorem encodeAll_ok {values : List α} (each : ∀ n ∈ values, encode n = .ok (written n)) :
    encodeAll encode spell values =
      ⟨(values.map (note spell written)).map (.log .debug),
        .ok ((values.map fun n => (written n).toList).map .plain)⟩ := by
  induction values with
  | nil => rfl
  | cons n values ih =>
    obtain ⟨first, others⟩ := List.forall_mem_cons.1 each
    rw [encodeAll, first, ih others]
    simp only [Script.ofExcept, bind, Script.bind, Script.pure, pure, log, Script.doing, List.nil_append,
      List.append_nil, List.map_cons, List.singleton_append]
    rfl

theorem encodeAll_error {before after : List α} {n : α} {e : EncodingError}
    (each : ∀ m ∈ before, encode m = .ok (written m)) (refused : encode n = .error e) :
    encodeAll encode spell (before ++ n :: after) =
      ⟨(before.map (note spell written)).map (.log .debug), .error (refusal spell n e)⟩ := by
  induction before with
  | nil =>
    rw [List.nil_append, encodeAll, refused]
    rfl
  | cons m before ih =>
    obtain ⟨first, others⟩ := List.forall_mem_cons.1 each
    rw [List.cons_append, encodeAll, first, ih others]
    rfl

/-! ### Success and failure -/

/-- What a command on integers does. -/
def script (encode : α → Except EncodingError Varint) (coloured : Bool) (output : Option String)
    (values : List α) : Script Unit := do
  emit coloured output (← encodeAll encode spell values)

variable {world : World} {values : List α} (coloured : Bool) (verbosity : Nat)

/-- **If every value has an encoding, all are put out.** -/
theorem outcome_of_ok (reads : world.output ≠ .brokenPipe) {output : Option String}
    (writable : ∀ path, output = some path → world.files.Writable path)
    (each : ∀ n ∈ values, encode n = .ok (written n)) :
    Emitted world output (values.map fun n => (written n).toList)
      ((script spell encode coloured output values).outcome verbosity world) := by
  have encoded := encodeAll_ok spell each
  have noted := congrArg Script.effects encoded
  have done := congrArg Script.result encoded
  cases output with
  | none => exact (printed_of_ok noted done reads coloured).emitted
  | some path => exact (saved_of_ok noted done coloured (writable path rfl)).emitted

/-- **If a value has no encoding, nothing is put out**, and the first one is the failure. -/
theorem outcome_of_error {output : Option String} {before after : List α} {n : α} {e : EncodingError}
    (each : ∀ m ∈ before, encode m = .ok (written m)) (refused : encode n = .error e) :
    Halted world verbosity (before.map (note spell written)) (refusal spell n e)
      ((script spell encode coloured output (before ++ n :: after)).outcome verbosity world) := by
  have encoded := @encodeAll_error _ _ _ spell _ after _ _ each refused
  exact halted_of_error (congrArg Script.effects encoded) (congrArg Script.result encoded) coloured output

end

/-! ### Widths -/

/-- A width, if one is given, is that of an integer type and has room for every value. -/
def Fit {α : Type} (room : Nat → α → Prop) (bits : Option Nat) (values : List α) : Prop :=
  ∀ width, bits = some width → (1 ≤ width ∧ width ≤ 64) ∧ ∀ n ∈ values, room width n

/-- The interval of a width in two's complement. -/
def SignedRoom (width : Nat) (n : Int64) : Prop := -2 ^ (width - 1) ≤ n.toInt ∧ n.toInt < 2 ^ (width - 1)

def UnsignedRoom (width : Nat) (n : UInt64) : Prop := n.toNat < 2 ^ width

instance (width : Nat) (n : Int64) : Decidable (SignedRoom width n) := inferInstanceAs (Decidable (_ ∧ _))

instance (width : Nat) (n : UInt64) : Decidable (UnsignedRoom width n) := inferInstanceAs (Decidable (_ < _))

/-- What is encoded when no width but that of an integer type is accepted, and no value that it has no
room for. -/
theorem encode_eq_ok_iff {α : Type} {room : Nat → α → Prop} {encode : Option Nat → Except EncodingError Varint}
    {n : α} {written v : Varint} (unchecked : encode none = .ok written)
    (outside : ∀ width, ¬(1 ≤ width ∧ width ≤ 64) → encode (some width) = .error (.invalidWidth width))
    (inside : ∀ width, 1 ≤ width → width ≤ 64 → (encode (some width) = .ok v ↔ room width n ∧ written = v))
    (bits : Option Nat) : encode bits = .ok v ↔ Fit room bits [n] ∧ written = v := by
  cases bits with
  | none =>
    rw [unchecked, Except.ok.injEq]
    exact (and_iff_right (nofun : Fit room none [n])).symm
  | some width =>
    simp only [Fit, Option.some.injEq, forall_eq', List.forall_mem_singleton]
    by_cases integer : 1 ≤ width ∧ width ≤ 64
    · rw [inside width integer.1 integer.2, and_iff_right integer]
    · rw [outside width integer]
      exact iff_of_false (fun encoded => by cases encoded) fun h => integer h.1.1

theorem encodeSigned_eq_ok_iff {bits : Option Nat} {n : Int64} {v : Varint} :
    encodeSigned bits n = .ok v ↔ Fit SignedRoom bits [n] ∧ Varint.ofInt64 n = v := by
  refine @encode_eq_ok_iff _ _ (encodeSigned · n) _ _ _ rfl (fun width outside => ?_)
    (fun width low high => ?_) bits
  · rw [encodeSigned, Varint.ofSigned_eq, if_neg outside]
  · exact Varint.ofSigned_eq_ok_iff low high

theorem encodeUnsigned_eq_ok_iff {bits : Option Nat} {n : UInt64} {v : Varint} :
    encodeUnsigned bits n = .ok v ↔ Fit UnsignedRoom bits [n] ∧ Varint.ofUInt64 n = v := by
  refine @encode_eq_ok_iff _ _ (encodeUnsigned · n) _ _ _ rfl (fun width outside => ?_)
    (fun width low high => ?_) bits
  · rw [encodeUnsigned, Varint.ofUnsigned_eq, if_neg outside]
  · exact Varint.ofUnsigned_eq_ok_iff low high

/-! ### All or nothing -/

section
variable {α : Type} {encode : α → Except EncodingError Varint} {written : α → Varint} {room : Nat → α → Prop}
  {bits : Option Nat} (encodes : ∀ n v, encode n = .ok v ↔ Fit room bits [n] ∧ written n = v)
include encodes

theorem fit_iff {values : List α} (nonempty : values ≠ []) :
    Fit room bits values ↔ ∀ n ∈ values, encode n = .ok (written n) := by
  simp only [encodes, and_true]
  constructor
  · intro fit n mem width given
    obtain ⟨inside, each⟩ := fit width given
    exact ⟨inside, List.forall_mem_singleton.2 (each n mem)⟩
  · intro each width given
    obtain ⟨n, mem⟩ := List.exists_mem_of_ne_nil values nonempty
    exact ⟨(each n mem width given).1, fun m mem => List.forall_mem_singleton.1 (each m mem width given).2⟩

/-- Of values that do not all have an encoding, one is the first without. -/
theorem exists_first_refused {values : List α} (misfit : ¬∀ n ∈ values, encode n = .ok (written n)) :
    ∃ before n after e, values = before ++ n :: after ∧ (∀ m ∈ before, encode m = .ok (written m)) ∧
      encode n = .error e := by
  induction values with
  | nil => exact absurd nofun misfit
  | cons n values ih =>
    cases first : encode n with
    | error e => exact ⟨[], n, values, e, rfl, nofun, first⟩
    | ok v =>
      obtain ⟨-, rfl⟩ := (encodes n v).1 first
      have rest : ¬∀ m ∈ values, encode m = .ok (written m) := fun all =>
        misfit (List.forall_mem_cons.2 ⟨first, all⟩)
      obtain ⟨before, m, after, e, rfl, each, refused⟩ := ih rest
      exact ⟨n :: before, m, after, e, rfl, List.forall_mem_cons.2 ⟨first, each⟩, refused⟩

theorem put_out_all_or_nothing (spell : α → String) (coloured : Bool) (verbosity : Nat) {world : World}
    (reads : world.output ≠ .brokenPipe) {output : Option String}
    (writable : ∀ path, output = some path → world.files.Writable path) {values : List α}
    (nonempty : values ≠ []) :
    (Fit room bits values → Emitted world output (values.map fun n => (written n).toList)
      ((script spell encode coloured output values).outcome verbosity world)) ∧
    (¬Fit room bits values → ∃ width before n after e, bits = some width ∧ values = before ++ n :: after ∧
      (∀ m ∈ before, encode m = .ok (written m)) ∧ encode n = .error e ∧
      Halted world verbosity (before.map (note spell written)) (refusal spell n e)
        ((script spell encode coloured output values).outcome verbosity world)) := by
  have fits := fit_iff encodes nonempty
  refine ⟨fun fit => outcome_of_ok spell coloured verbosity reads writable (fits.1 fit), fun misfit => ?_⟩
  cases bits with
  | none => exact absurd nofun misfit
  | some width =>
    obtain ⟨before, n, after, e, rfl, each, refused⟩ := exists_first_refused encodes (mt fits.2 misfit)
    exact ⟨width, before, n, after, e, rfl, rfl, each, refused,
      outcome_of_error spell coloured verbosity each refused⟩

end

theorem toEnd_readSigned (values : List Int64) :
    Varint.readSigned.toEnd (values.map fun n => (Varint.ofInt64 n).toList).flatten =
      some (values.map Int64.toInt) := by
  refine Reader.Takes.toEnd (fun n _ => ?_) fun n => ?_
  · rw [Varint.toList_ofInt64]
    exact Varint.takes_signedGroups n.toInt
  · rw [Varint.toList_ofInt64]
    exact (Varint.whole_signedGroups n.toInt).ne_nil

theorem toEnd_readUnsigned (values : List UInt64) :
    Varint.readUnsigned.toEnd (values.map fun n => (Varint.ofUInt64 n).toList).flatten =
      some (values.map UInt64.toNat) := by
  refine Reader.Takes.toEnd (fun n _ => ?_) fun n => ?_
  · rw [Varint.toList_ofUInt64]
    exact Varint.takes_unsignedGroups n.toNat
  · rw [Varint.toList_ofUInt64]
    exact (Varint.whole_unsignedGroups n.toNat).ne_nil

end WasmBinary.Command
