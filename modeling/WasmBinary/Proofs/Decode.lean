import WasmBinary.Proofs.Frame
import WasmBinary.Proofs.Symbol

/-! Values that are read back.

The reader of a type knows the format and not the writer. For each type it recovers every
value from what is written for it, whatever stands behind.

A list is written by handing the byte string on from element to element. So what is asked of
an element is that behind any byte string something is written for it that its reader takes
(`Legible`), and then the same holds of the list (`legible_list`). -/
namespace WasmBinary
open Reader

/-- Behind whatever is there already, a value is written as bytes that the reader takes for
what is `seen` of it. -/
def Legible {α β : Type} [Encode α] (read : Reader β) (x : α) (seen : β) : Prop :=
  ∀ out : Bytes, ∃ bytes, (encode x out).toList = out.toList ++ bytes ∧ Takes read bytes seen

section
variable {α β : Type} [Encode α] {read : Reader β} {x : α} {seen : β}

theorem Legible.takes (h : Legible read x seen) : Takes read (encoding x) seen := by
  obtain ⟨bytes, written, taken⟩ := h #[]
  have same : encoding x = bytes := written.trans (List.nil_append bytes)
  rwa [same]

/-- When encoding appends the same bytes everywhere, the value has to be read from these. -/
theorem legible_iff [LawfulEncode α] : Legible read x seen ↔ Takes read (encoding x) seen :=
  ⟨Legible.takes, fun taken out => ⟨encoding x, toList_encode x out, taken⟩⟩

end

/-! ### Integers -/

/-- An integer type is recovered when its reader takes any integer and checks that it is one of
the type. -/
theorem recovers_checked {α ι : Type} [Encode α] [Decode α] {read : Reader ι} {p : ι → Prop}
    [DecidablePred p] {ofInteger : ι → α} {groups : ι → List UInt8} {value : α → ι}
    (reads : (decode : Reader α) = do let n ← read; guard (p n); return ofInteger n)
    (taken : ∀ n, Takes read (groups n) n) (written : ∀ x : α, encoding x = groups (value x))
    (inside : ∀ x, p (value x)) (same : ∀ x, ofInteger (value x) = x) :
    Recovers (decode : Reader α) encoding := by
  intro x
  rw [reads, written]
  exact (taken (value x)).checked (inside x) (same x)

theorem recovers_uint32 : Recovers (decode : Reader UInt32) encoding :=
  recovers_checked rfl Varint.takes_unsignedGroups encoding_uint32 UInt32.toNat_lt @UInt32.ofNat_toNat

theorem recovers_uint64 : Recovers (decode : Reader UInt64) encoding :=
  recovers_checked rfl Varint.takes_unsignedGroups encoding_uint64 UInt64.toNat_lt @UInt64.ofNat_toNat

theorem recovers_int32 : Recovers (decode : Reader Int32) encoding :=
  recovers_checked rfl Varint.takes_signedGroups encoding_int32
    (fun n => ⟨n.minValue_le_toInt, n.toInt_le⟩) Int32.ofInt_toInt

theorem recovers_int64 : Recovers (decode : Reader Int64) encoding :=
  recovers_checked rfl Varint.takes_signedGroups encoding_int64
    (fun n => ⟨n.minValue_le_toInt, n.toInt_le⟩) Int64.ofInt_toInt

/-! ### Strings -/

/-- A string is read back from its UTF-8, with the number of bytes in front. -/
theorem takes_string {s : String} (countable : s.utf8ByteSize < 2 ^ 64) :
    Takes decode (encoding s) s := by
  rw [encoding_string]
  refine Takes.thenReturn (takes_frame countable) ?_
  have utf8 : String.fromUTF8? ⟨s.toUTF8.data.toList.toArray⟩ = some s := by
    rw [Array.toArray_toList]
    exact dif_pos s.isValidUTF8
  rw [utf8]
  exact .pure s

/-! ### Members of a table -/

/-- Every member of a lawful table is read back from its code. -/
theorem takes_symbol {α : Type} [Symbol α] [LawfulSymbol α] (x : α) :
    Takes readSymbol [Symbol.code x] x := by
  refine (Takes.byte _).thenReturn ?_
  rw [Symbol.ofCode_code]
  exact .pure x

theorem recovers_valueType : Recovers (decode : Reader ValueType) encoding := by
  intro type
  rw [encoding_valueType]
  exact takes_symbol type

/-! ### Lists -/

section
variable {α β : Type} [Encode α]

theorem legible_each {read : Reader β} {view : α → β} {xs : List α}
    (each : ∀ x ∈ xs, Legible read x (view x)) (out : Bytes) :
    ∃ bytes, (encodeEach xs out).toList = out.toList ++ bytes ∧
      Takes (read.times xs.length) bytes (xs.map view) := by
  induction xs generalizing out with
  | nil => exact ⟨[], (List.append_nil _).symm, .pure []⟩
  | cons x xs ih =>
    obtain ⟨front, first, taken⟩ := each x List.mem_cons_self out
    obtain ⟨back, others, takenAll⟩ := ih (fun y mem => each y (List.mem_cons_of_mem x mem)) (encode x out)
    refine ⟨front ++ back, ?_, taken.bind (takenAll.thenReturn (.pure (view x :: xs.map view)))⟩
    rw [encodeEach, others, first, List.append_assoc]

/-- A list is legible when its elements are and their number has room in a word. -/
theorem legible_list {read : Reader β} {view : α → β} {xs : List α} (countable : xs.length < 2 ^ 64)
    (each : ∀ x ∈ xs, Legible read x (view x)) : Legible (readVector read) xs (xs.map view) := by
  intro out
  obtain ⟨bytes, written, taken⟩ := legible_each each (out.writeCount xs.length)
  refine ⟨Varint.unsignedGroups xs.length ++ bytes, ?_, (Varint.takes_unsignedGroups xs.length).bind taken⟩
  show (encodeEach xs (out.writeCount xs.length)).toList = _
  rw [written, toList_writeCount, Nat.mod_eq_of_lt countable, List.append_assoc]

theorem legible_list_self {read : Reader α} {xs : List α} (countable : xs.length < 2 ^ 64)
    (each : ∀ x ∈ xs, Legible read x x) : Legible (readVector read) xs xs := by
  have list : Legible (readVector read) xs (xs.map id) := legible_list countable each
  rwa [List.map_id] at list

theorem takes_vector [LawfulEncode α] {read : Reader α} {xs : List α} (countable : xs.length < 2 ^ 64)
    (each : ∀ x ∈ xs, Takes read (encoding x) x) : Takes (readVector read) (encoding xs) xs :=
  (legible_list_self countable fun x mem => legible_iff.2 (each x mem)).takes

end

end WasmBinary
