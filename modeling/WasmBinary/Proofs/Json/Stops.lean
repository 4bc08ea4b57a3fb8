import WasmBinary.Json.Tree

/-! Where a text stops too early.

A fault that says so lies at the end of the text: whichever part of the reader notices it has no byte left
to read (`Stop.Placed`). This is kept from the parts of a token up to the whole run, so the position of the
error is the one behind the last byte (`position_of_isEnd`). -/
namespace WasmBinary.Json

/-- If the text stops too early, nothing is unread. -/
def Stop.Placed (stop : Stop) : Prop := stop.fault.isEnd → stop.unread = []

theorem placed_of_not_isEnd {fault : Fault} (inside : fault.isEnd = false) (unread : List UInt8) :
    (Stop.mk fault unread).Placed := by
  intro ends
  cases ends.symm.trans inside

theorem placed_nil (fault : Fault) : (Stop.mk fault []).Placed := fun _ => rfl

/-! ### Inside a token -/

variable {stop : Stop}

section
variable {α : Type} {fault : Fault}

theorem placed_of_error_inside {unread : List UInt8} (h : (.error ⟨fault, unread⟩ : Except Stop α) = .error stop)
    (inside : fault.isEnd = false) : stop.Placed :=
  Except.error.inj h ▸ placed_of_not_isEnd inside unread

theorem placed_of_error_nil (h : (.error ⟨fault, []⟩ : Except Stop α) = .error stop) : stop.Placed :=
  Except.error.inj h ▸ placed_nil fault

end

theorem readWord_placed {letters text : List UInt8} (h : readWord letters text = .error stop) : stop.Placed := by
  induction letters generalizing text with
  | nil => cases h
  | cons letter letters ih =>
    cases text with
    | nil => exact placed_of_error_nil h
    | cons b text =>
      rw [readWord] at h
      split at h
      · exact ih h
      · exact placed_of_error_inside h rfl

theorem placeBehindUnit_inside {digits : List UInt8} {trailing : Bool} {fault : Fault}
    (h : placeBehindUnit digits trailing = .error fault) : fault.isEnd = false := by
  unfold placeBehindUnit at h
  split at h
  · obtain rfl := Except.error.inj h
    rfl
  · dsimp only at h
    split at h
    · obtain rfl := Except.error.inj h
      rfl
    · split at h <;> cases h

/-- A byte of a string is wrong by itself. -/
theorem next_inside {place : StringPlace} {b : UInt8} {fault : Fault} (h : place.next b = .error fault) :
    fault.isEnd = false := by
  cases place with
  | unit missing digits trailing =>
    rw [StringPlace.next] at h
    split at h
    · cases read : placeBehindUnit (digits ++ [b]) trailing with
      | error other =>
        rw [read] at h
        obtain rfl := Except.error.inj h
        exact placeBehindUnit_inside read
      | ok place =>
        rw [read] at h
        cases h
    · cases h
  | plain | escape | backslash | letterU =>
    rw [StringPlace.next] at h
    repeat' split at h
    all_goals cases h
    all_goals rfl

theorem readString_placed {place : StringPlace} {text : List UInt8} (h : readString place text = .error stop) :
    stop.Placed := by
  induction text generalizing place with
  | nil => exact placed_of_error_nil h
  | cons b text ih =>
    rw [readString] at h
    split at h
    · exact placed_of_error_inside h (next_inside (by assumption))
    · cases h
    · exact ih h

theorem endNumber_placed {significand : Nat} {power : Int} {text : List UInt8}
    (h : endNumber significand power text = .error stop) : stop.Placed := by
  unfold endNumber at h
  split at h
  · exact placed_of_error_inside h rfl
  · cases h

theorem readExponentDigits_placed {significand : Nat} {power : Int} {negative : Bool} {text : List UInt8}
    (h : readExponentDigits significand power negative text = .error stop) : stop.Placed := by
  cases text with
  | nil => exact placed_of_error_nil h
  | cons d text =>
    simp only [readExponentDigits] at h
    split at h
    · split at h
      · exact endNumber_placed h
      · split at h
        · cases h
        · exact placed_of_error_inside h rfl
    · exact placed_of_error_inside h rfl

theorem readExponent_placed {significand : Nat} {power : Int} {text : List UInt8}
    (h : readExponent significand power text = .error stop) : stop.Placed := by
  cases text with
  | nil => exact endNumber_placed h
  | cons b text =>
    rw [readExponent] at h
    split at h
    · exact readExponentDigits_placed h
    · exact endNumber_placed h

theorem readFractionDigits_placed {significand dropped : Nat} {text : List UInt8}
    (h : readFractionDigits significand dropped text = .error stop) : stop.Placed := by
  cases text with
  | nil => exact placed_of_error_nil h
  | cons d text =>
    simp only [readFractionDigits] at h
    split at h
    · exact readExponent_placed h
    · exact placed_of_error_inside h rfl

theorem readFraction_placed {significand dropped : Nat} {text : List UInt8}
    (h : readFraction significand dropped text = .error stop) : stop.Placed := by
  cases text with
  | nil =>
    rw [readFraction] at h
    exact readExponent_placed h
  | cons b text =>
    rw [readFraction] at h
    split at h
    · exact readFractionDigits_placed h
    · exact readExponent_placed h

theorem readNumber_placed {negative : Bool} {text : List UInt8} (h : readNumber negative text = .error stop) :
    stop.Placed := by
  cases text with
  | nil => exact placed_of_error_nil h
  | cons d text =>
    simp only [readNumber] at h
    split at h
    · split at h
      · exact placed_of_error_inside h rfl
      · split at h
        · rename_i wrong
          obtain rfl := Except.error.inj h
          exact readFraction_placed wrong
        · cases h
    · exact placed_of_error_inside h rfl

/-! ### From token to token -/

/-- A token that is broken off is broken off where it says. -/
def Token.Placed : Token → Prop
  | .brokenString stop | .brokenValue stop => stop.Placed
  | _ => True

theorem readNumberFrom_placed (b : UInt8) (rest : List UInt8) : (readNumberFrom b rest).1.Placed := by
  unfold readNumberFrom
  split
  · trivial
  · rename_i wrong
    split at wrong <;> exact readNumber_placed wrong

theorem punctuation?_placed {b : UInt8} {token : Token} (h : punctuation? b = some token) : token.Placed := by
  unfold punctuation? at h
  repeat' split at h
  all_goals cases h
  all_goals trivial

theorem readToken_placed (b : UInt8) (rest : List UInt8) : (readToken b rest).1.Placed := by
  unfold readToken
  split
  · exact punctuation?_placed (by assumption)
  · split
    · trivial
    · exact readWord_placed (by assumption)
  · split
    · split
      · trivial
      · exact readString_placed (by assumption)
    · split
      · exact readNumberFrom_placed b rest
      · trivial

theorem lexemes_placed (text : List UInt8) : ∀ lexeme ∈ lexemes text, lexeme.token.Placed := by
  fun_induction lexemes text with
  | case1 => exact nofun
  | case2 b rest blank ih => exact ih
  | case3 b rest blank ih => exact List.forall_mem_cons.2 ⟨readToken_placed b rest, ih⟩

section
variable {lexeme : Lexeme} (placed : lexeme.token.Placed)
include placed

theorem readValue_placed {outer : List Frame} (h : State.readValue outer lexeme = .error (.stop stop)) :
    stop.Placed := by
  obtain ⟨token, behind⟩ := lexeme
  cases token with
  | brokenString broken | brokenValue broken =>
    cases h
    exact placed
  | openArray | openObject =>
    simp only [State.readValue] at h
    split at h <;> cases h
    exact placed_of_not_isEnd rfl _
  | closeArray | closeObject | comma | colon | unknown =>
    cases h
    exact placed_of_not_isEnd rfl _
  | number byte | string | word => cases h

theorem readKey_placed {outer : List Frame} (h : State.readKey outer lexeme = .error (.stop stop)) :
    stop.Placed := by
  obtain ⟨token, behind⟩ := lexeme
  cases token with
  | brokenString broken =>
    cases h
    exact placed
  | string => cases h
  | _ =>
    cases h
    exact placed_of_not_isEnd rfl _

/-- Another token than the ones that may come next is noticed right behind its first byte. -/
theorem read_placed {state : State} (h : state.read lexeme = .error (.stop stop)) : stop.Placed := by
  cases state with
  | start => exact readValue_placed placed h
  | inArray items place outer =>
    rw [State.read] at h
    cases place <;> simp only [State.readInArray] at h <;> split at h
    all_goals first
      | exact readValue_placed placed h
      | cases h
    all_goals exact placed_of_not_isEnd rfl _
  | inObject place outer =>
    rw [State.read] at h
    cases place <;> simp only [State.readInObject] at h
    case value => exact readValue_placed placed h
    all_goals split at h
    all_goals first
      | exact readKey_placed placed h
      | cases h
    all_goals exact placed_of_not_isEnd rfl _
  | done tree =>
    cases tree with
    | none => cases h
    | some tree =>
      cases h
      exact placed_of_not_isEnd rfl _

end

/-- What is missing at the end of a text is noticed there. -/
theorem finish_placed {state : State} (h : state.finish = .error (.stop stop)) : stop.Placed := by
  unfold State.finish at h
  split at h <;> cases h <;> exact placed_nil _

theorem run_placed {state : State} {tokens : List Lexeme} (placed : ∀ lexeme ∈ tokens, lexeme.token.Placed)
    (h : state.run tokens = .error (.stop stop)) : stop.Placed := by
  induction tokens generalizing state with
  | nil => exact finish_placed h
  | cons lexeme tokens ih =>
    obtain ⟨first, others⟩ := List.forall_mem_cons.1 placed
    rw [State.run] at h
    split at h
    · exact ih others h
    · rename_i halt wrong
      obtain rfl := Except.error.inj h
      exact read_placed first wrong

/-- **A text that stops too early is wrong at its end**, whatever is open there. -/
theorem position_of_isEnd {text : List UInt8} {fault : Fault} {position : Position}
    (refused : ByteTree.ofJson text = .error (.malformed fault position)) (ends : fault.isEnd) :
    position = .after text := by
  unfold ByteTree.ofJson at refused
  split at refused
  · cases refused
  · cases refused
  · rename_i stop stopped
    cases refused
    have unread := run_placed (lexemes_placed text) stopped ends
    rw [unread, List.length_nil, Nat.sub_zero, List.take_length]

end WasmBinary.Json
