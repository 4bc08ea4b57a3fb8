import WasmBinary.Json.Number

/-! Tokens of JSON.

A text is cut into tokens from left to right, leaving out blanks. Cutting never fails: a
byte that starts no token, and a token that is broken off inside, become tokens of their
own, the last of the text. Whether they are the first fault of the text depends on what
may stand at their place, which the reader of the tokens knows. -/
namespace WasmBinary.Json

/-- Space, tab, line feed and carriage return. -/
def isBlank (b : UInt8) : Bool := b == 0x20 || b == 0x09 || b == 0x0a || b == 0x0d

/-! ### Words -/

def readWord : List UInt8 → List UInt8 → Except Stop (List UInt8)
  | [], text => .ok text
  | _ :: _, [] => .error ⟨.endInValue, []⟩
  | letter :: letters, b :: rest =>
    if b = letter then readWord letters rest else .error ⟨.expectedWord, rest⟩

/-! ### Strings

What a string holds is of no use here, so it is only checked. An escape is one letter, or
four hexadecimal digits of a UTF-16 unit; a leading surrogate has to be followed by the
escape of a trailing one. -/

/-- Where in a string a byte stands. -/
inductive StringPlace where
  /-- Outside an escape. -/
  | plain
  /-- Behind a backslash. -/
  | escape
  /-- Among the digits of a unit: how many are still to come, those read so far, and
  whether the unit has to be a trailing surrogate. -/
  | unit (missing : Nat) (digits : List UInt8) (trailing : Bool)
  /-- Behind a leading surrogate. -/
  | backslash
  /-- Behind a leading surrogate and a backslash. -/
  | letterU

def hexValue? (b : UInt8) : Option Nat :=
  if 0x30 ≤ b ∧ b ≤ 0x39 then some (b.toNat - 0x30)
  else if 0x61 ≤ b ∧ b ≤ 0x66 then some (b.toNat - 0x57)
  else if 0x41 ≤ b ∧ b ≤ 0x46 then some (b.toNat - 0x37)
  else none

/-- The value of some hexadecimal digits behind the value read so far. -/
def hexValues? : Nat → List UInt8 → Option Nat
  | value, [] => some value
  | value, b :: rest => (hexValue? b).bind fun d => hexValues? (value * 16 + d) rest

/-- Where a string goes on behind the digits of a unit. -/
def placeBehindUnit (digits : List UInt8) (trailing : Bool) : Except Fault StringPlace :=
  match hexValues? 0 digits with
  | none => .error .invalidEscape
  | some unit =>
    let isTrailing := decide (0xdc00 ≤ unit ∧ unit ≤ 0xdfff)
    if isTrailing != trailing then .error .loneSurrogate
    else if 0xd800 ≤ unit ∧ unit ≤ 0xdbff then .ok .backslash
    else .ok .plain

/-- Where a string goes on behind a byte; `none` behind the closing quote. -/
def StringPlace.next (b : UInt8) : StringPlace → Except Fault (Option StringPlace)
  | plain =>
    if b = 0x22 then .ok none
    else if b = 0x5c then .ok (some escape)
    else if b < 0x20 then .error .controlCharacter
    else .ok (some plain)
  | escape =>
    if b = 0x75 then .ok (some (unit 4 [] false))
    else if b ∈ [0x22, 0x5c, 0x2f, 0x62, 0x66, 0x6e, 0x72, 0x74] then .ok (some plain)
    else .error .invalidEscape
  | unit missing digits trailing =>
    if missing ≤ 1 then some <$> placeBehindUnit (digits ++ [b]) trailing
    else .ok (some (unit (missing - 1) (digits ++ [b]) trailing))
  | backslash => if b = 0x5c then .ok (some letterU) else .error .unpairedSurrogate
  | letterU => if b = 0x75 then .ok (some (unit 4 [] true)) else .error .unpairedSurrogate

/-- Reads a string behind its opening quote. -/
def readString : StringPlace → List UInt8 → Except Stop (List UInt8)
  | _, [] => .error ⟨.endInString, []⟩
  | place, b :: rest =>
    match place.next b with
    | .error fault => .error ⟨fault, rest⟩
    | .ok none => .ok rest
    | .ok (some place) => readString place rest

/-! ### Tokens -/

inductive Token where
  | openArray
  | closeArray
  | openObject
  | closeObject
  | comma
  | colon
  /-- A number, with the byte that it spells if it is one. -/
  | number (byte : Option UInt8)
  | string
  /-- One of `null`, `true` and `false`. -/
  | word
  /-- A string that stops inside. -/
  | brokenString (stop : Stop)
  /-- Another value that stops inside. -/
  | brokenValue (stop : Stop)
  /-- A byte that starts no token. -/
  | unknown

/-- The tokens of a single byte. -/
def punctuation? (b : UInt8) : Option Token :=
  if b = 0x5b then some .openArray
  else if b = 0x5d then some .closeArray
  else if b = 0x7b then some .openObject
  else if b = 0x7d then some .closeObject
  else if b = 0x2c then some .comma
  else if b = 0x3a then some .colon
  else none

/-- The letters that have to follow the first one of a word. -/
def wordLetters? (b : UInt8) : Option (List UInt8) :=
  if b = 0x6e then some [0x75, 0x6c, 0x6c]
  else if b = 0x74 then some [0x72, 0x75, 0x65]
  else if b = 0x66 then some [0x61, 0x6c, 0x73, 0x65]
  else none

/-- The number that starts with a byte, a minus sign or a digit. -/
def readNumberFrom (b : UInt8) (rest : List UInt8) : Token × List UInt8 :=
  match if b = 0x2d then readNumber true rest else readNumber false (b :: rest) with
  | .ok (byte, rest) => (.number byte, rest)
  | .error stop => (.brokenValue stop, [])

/-- The token that starts with a byte, and the bytes behind it. Behind a broken or unknown
token nothing more is read. -/
def readToken (b : UInt8) (rest : List UInt8) : Token × List UInt8 :=
  match punctuation? b, wordLetters? b with
  | some token, _ => (token, rest)
  | none, some letters =>
    match readWord letters rest with
    | .ok rest => (.word, rest)
    | .error stop => (.brokenValue stop, [])
  | none, none =>
    if b = 0x22 then
      match readString .plain rest with
      | .ok rest => (.string, rest)
      | .error stop => (.brokenString stop, [])
    else if b = 0x2d ∨ isDigit b then readNumberFrom b rest
    else (.unknown, [])

/-! ### Reading goes forward -/

theorem readWord_length {letters text rest : List UInt8} (h : readWord letters text = .ok rest) :
    rest.length ≤ text.length := by
  induction letters generalizing text with
  | nil =>
    obtain rfl := Except.ok.inj h
    exact Nat.le_refl _
  | cons letter letters ih =>
    cases text with
    | nil => cases h
    | cons b text =>
      unfold readWord at h
      split at h
      · have := ih h
        simp only [List.length_cons]
        omega
      · cases h

theorem readString_length {place : StringPlace} {text rest : List UInt8}
    (h : readString place text = .ok rest) : rest.length ≤ text.length := by
  induction text generalizing place with
  | nil => cases h
  | cons b text ih =>
    unfold readString at h
    simp only [List.length_cons]
    split at h
    · cases h
    · obtain rfl := Except.ok.inj h
      omega
    · have := ih h
      omega

theorem exponentSign_length (text : List UInt8) : (exponentSign text).2.length ≤ text.length := by
  unfold exponentSign
  split
  · exact Nat.le_refl _
  · split
    · simp
    · split <;> simp

theorem endNumber_length {significand : Nat} {power : Int} {text rest : List UInt8}
    (h : endNumber significand power text = .ok rest) : rest.length ≤ text.length := by
  unfold endNumber at h
  split at h
  · cases h
  · obtain rfl := Except.ok.inj h
    exact Nat.le_refl _

theorem readExponentDigits_length {significand : Nat} {power : Int} {negative : Bool}
    {text rest : List UInt8} (h : readExponentDigits significand power negative text = .ok rest) :
    rest.length ≤ text.length := by
  cases text with
  | nil => cases h
  | cons d text =>
    have shrinks : (text.dropWhile isDigit).length ≤ text.length := (List.dropWhile_sublist isDigit).length_le
    simp only [readExponentDigits] at h
    simp only [List.length_cons]
    split at h
    · split at h
      · have := endNumber_length h
        omega
      · split at h
        · obtain rfl := Except.ok.inj h
          omega
        · cases h
    · cases h

theorem readExponent_length {significand : Nat} {power : Int} {text rest : List UInt8}
    (h : readExponent significand power text = .ok rest) : rest.length ≤ text.length := by
  cases text with
  | nil => exact endNumber_length h
  | cons b text =>
    simp only [readExponent] at h
    split at h
    · have := readExponentDigits_length h
      have := exponentSign_length text
      simp only [List.length_cons]
      omega
    · exact endNumber_length h

theorem readFractionDigits_length {significand dropped : Nat} {text rest : List UInt8}
    (h : readFractionDigits significand dropped text = .ok rest) : rest.length ≤ text.length := by
  cases text with
  | nil => cases h
  | cons d text =>
    simp only [readFractionDigits] at h
    split at h
    · have := readExponent_length h
      have : (text.dropWhile isDigit).length ≤ text.length := (List.dropWhile_sublist isDigit).length_le
      simp only [List.length_cons]
      omega
    · cases h

theorem readFraction_length {significand dropped : Nat} {text rest : List UInt8}
    (h : readFraction significand dropped text = .ok rest) : rest.length ≤ text.length := by
  cases text with
  | nil => exact readExponent_length h
  | cons b text =>
    simp only [readFraction] at h
    split at h
    · have := readFractionDigits_length h
      simp only [List.length_cons]
      omega
    · exact readExponent_length h

theorem readNumber_length {negative : Bool} {text rest : List UInt8} {byte : Option UInt8}
    (h : readNumber negative text = .ok (byte, rest)) : rest.length < text.length := by
  cases text with
  | nil => cases h
  | cons d text =>
    simp only [readNumber] at h
    split at h
    · split at h
      · cases h
      · split at h
        · cases h
        · rename_i after read
          obtain ⟨-, rfl⟩ := Prod.mk.inj (Except.ok.inj h)
          have := readFraction_length read
          have : (text.dropWhile isDigit).length ≤ text.length := (List.dropWhile_sublist isDigit).length_le
          simp only [List.length_cons]
          omega
    · cases h

theorem readNumberFrom_length (b : UInt8) (rest : List UInt8) :
    (readNumberFrom b rest).2.length ≤ rest.length := by
  unfold readNumberFrom
  split
  · rename_i byte after read
    split at read
    · exact Nat.le_of_lt (readNumber_length read)
    · exact Nat.le_of_lt_succ (readNumber_length read)
  · exact Nat.zero_le _

/-- What is behind a token is not longer than what was behind its first byte. -/
theorem readToken_length (b : UInt8) (rest : List UInt8) :
    (readToken b rest).2.length ≤ rest.length := by
  unfold readToken
  split
  · exact Nat.le_refl _
  · split
    · exact readWord_length (by assumption)
    · exact Nat.zero_le _
  · split
    · split
      · exact readString_length (by assumption)
      · exact Nat.zero_le _
    · split
      · exact readNumberFrom_length b rest
      · exact Nat.zero_le _

/-- A token and the bytes behind its first byte. -/
structure Lexeme where
  token : Token
  behind : List UInt8

def lexemes : List UInt8 → List Lexeme
  | [] => []
  | b :: rest =>
    if isBlank b then lexemes rest
    else ⟨(readToken b rest).1, rest⟩ :: lexemes (readToken b rest).2
termination_by text => text.length
decreasing_by
  · simp
  · have := readToken_length b rest
    simp only [List.length_cons]
    omega

end WasmBinary.Json
