import WasmBinary.Decode.Basic
import WasmBinary.Proofs.Decode

/-! Modules.

A section tells where it ends before its payload starts, so whatever bytes the payload holds, even
those of another module, none of them is ever taken for the code of a kind or for a length
(`takes_section`). Behind the preamble, sections are read up to the end as the ones that were written,
so a module is split in one way only (`modules_split_uniquely`). -/
namespace WasmBinary
open Reader

/-! ### One section -/

/-- The length of a payload has room in a word. -/
def Section.Countable (s : Section) : Prop := s.payload.size < 2 ^ 64

instance (s : Section) : Decidable s.Countable := inferInstanceAs (Decidable (_ < _))

theorem encoding_section (s : Section) : encoding s = Symbol.code s.kind :: s.payload.frame.toList := by
  simp [encoding, encode]

instance : LawfulEncode Section where
  toList_encode s out := by
    rw [encoding_section]
    simp [encode]

/-- A section is read back from its kind, its length and its payload. -/
theorem takes_section {s : Section} (countable : s.Countable) : Takes decode (encoding s) s := by
  rw [encoding_section]
  exact (takes_symbol s.kind).bind ((takes_frame countable).thenReturn (.pure s))

/-! ### All sections -/

theorem toList_encodeModule (sections : List Section) :
    (encodeModule sections).toList = preamble.toList ++ sections.flatMap encoding :=
  toList_encodeEach sections preamble

theorem toEnd_sections {sections : List Section} (countable : ∀ s ∈ sections, s.Countable) :
    (decode : Reader Section).toEnd (sections.flatMap encoding) = some sections := by
  have nonempty (s : Section) : encoding s ≠ [] := by
    rw [encoding_section]
    exact List.cons_ne_nil _ _
  have read : (decode : Reader Section).toEnd (sections.flatMap encoding) = some (sections.map id) :=
    Takes.toEnd (fun s mem => takes_section (countable s mem)) nonempty
  rwa [List.map_id] at read

theorem decodeModule_encodeModule {sections : List Section} (countable : ∀ s ∈ sections, s.Countable) :
    decodeModule (encodeModule sections).toList = some sections := by
  have front : (preamble.toList ++ sections.flatMap encoding).take 8 = preamble.toList :=
    List.take_left' rfl
  have back : (preamble.toList ++ sections.flatMap encoding).drop 8 = sections.flatMap encoding :=
    List.drop_left' rfl
  rw [toList_encodeModule, decodeModule, if_pos front, back, toEnd_sections countable]

/-- **A module is split in one way only.** Its bytes are the preamble and then, for each section in
order, the code of its kind and its payload behind the payload's length. Up to the end, they are read
back as exactly these sections, and no other sections have the same bytes. -/
theorem modules_split_uniquely {sections : List Section} (countable : ∀ s ∈ sections, s.Countable) :
    (encodeModule sections).toList = preamble.toList ++
      sections.flatMap (fun s => Symbol.code s.kind :: s.payload.frame.toList) ∧
    decodeModule (encodeModule sections).toList = some sections ∧
    ∀ others : List Section, (∀ s ∈ others, s.Countable) → encodeModule others = encodeModule sections →
      others = sections := by
  have bytes : encoding = fun s : Section => Symbol.code s.kind :: s.payload.frame.toList :=
    funext encoding_section
  refine ⟨?_, decodeModule_encodeModule countable, fun others countable' same => ?_⟩
  · rw [toList_encodeModule, bytes]
  · have read := decodeModule_encodeModule countable'
    rw [same, decodeModule_encodeModule countable] at read
    exact (Option.some.inj read).symm

/-- A payload that is a module itself, an empty one, and one whose length takes two bytes. -/
theorem modules_split_uniquely_nested :
    let inner : List Section := [⟨.code, #[0x0a, 0x01, 0x00]⟩, ⟨.custom, #[]⟩]
    let sections : List Section :=
      [⟨.custom, encodeModule inner⟩, ⟨.types, #[]⟩, ⟨.data, Array.replicate 128 0x0b⟩, ⟨.code, #[0x0a]⟩]
    (∀ s ∈ sections, s.Countable) ∧ decodeModule (encodeModule sections).toList = some sections := by
  intro inner sections
  have countable : ∀ s ∈ sections, s.Countable := by decide +kernel
  exact ⟨countable, (modules_split_uniquely countable).2.1⟩

end WasmBinary
