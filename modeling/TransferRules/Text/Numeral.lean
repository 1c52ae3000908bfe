/-!
# Bounded numerals

Rankings and character references are written as unsigned numerals that have to fit a word.
A numeral is read from the left, and the first digit that fails decides the error: a
character that is no digit, or a value that leaves the bound.

## Main Definitions

* `digitValue?`, `digitsValue` — the value of a digit, and of several, in a radix
* `readNumeral` — a numeral below a bound
* `readUnsigned` — a decimal numeral of 32 bits, with an optional plus sign
* `IsUnsigned` — what such a numeral is

## Main Statements

* `readUnsigned_eq_ok_iff` — just these numerals are read
-/

namespace TransferRules.Text

/-- Why a text is no numeral. -/
inductive NumeralError where
  | empty
  | invalidDigit
  | overflow
  deriving Repr, DecidableEq

/-- The wording of a numeral error. -/
def NumeralError.message : NumeralError → String
  | .empty => "cannot parse integer from empty string"
  | .invalidDigit => "invalid digit found in string"
  | .overflow => "number too large to fit in target type"

/-- The value of `c` as a digit; letters of either case follow the ten figures. -/
def digitValue? (radix : Nat) (c : Char) : Option Nat :=
  let n := c.toNat
  let value? : Option Nat :=
    if 48 ≤ n ∧ n ≤ 57 then some (n - 48)
    else if 97 ≤ n ∧ n ≤ 122 then some (n - 87)
    else if 65 ≤ n ∧ n ≤ 90 then some (n - 55)
    else none
  value?.filter (· < radix)

/-- The value of digits; what is no digit counts as a zero. -/
def digitsValue (radix : Nat) (digits : List Char) : Nat :=
  digits.foldl (fun value c => value * radix + (digitValue? radix c).getD 0) 0

/-- Read the digits that follow a numeral of value `value`. -/
def continueNumeral (radix bound : Nat) : Nat → List Char → Except NumeralError Nat
  | value, [] => .ok value
  | value, c :: cs =>
    match digitValue? radix c with
    | none => .error .invalidDigit
    | some d =>
      if value * radix + d < bound then continueNumeral radix bound (value * radix + d) cs
      else .error .overflow

/-- The value of a numeral, which has to lie below `bound`. -/
def readNumeral (radix bound : Nat) : List Char → Except NumeralError Nat
  | [] => .error .empty
  | cs => continueNumeral radix bound 0 cs

/-- The values of a 32 bit word lie below this bound. -/
def wordBound : Nat := 4294967296

/-- A decimal numeral of 32 bits; one plus sign may precede the digits. -/
def readUnsigned : List Char → Except NumeralError Nat
  | '+' :: [] => .error .invalidDigit
  | '+' :: cs => readNumeral 10 wordBound cs
  | cs => readNumeral 10 wordBound cs

/-- A numeral of 32 bits and its value: at least one figure, perhaps behind a plus sign. -/
def IsUnsigned (text : List Char) (n : Nat) : Prop :=
  ∃ figures, (text = figures ∨ text = '+' :: figures) ∧ figures ≠ [] ∧
    (∀ c ∈ figures, c.isDigit = true) ∧ digitsValue 10 figures = n ∧ n < wordBound

/-- More digits do not make a value smaller. -/
theorem le_foldl_digits {radix value : Nat} {cs : List Char}
    (hcs : ∀ c ∈ cs, (digitValue? radix c).isSome) :
    value ≤ cs.foldl (fun value c => value * radix + (digitValue? radix c).getD 0) value := by
  induction cs generalizing value with
  | nil => exact Nat.le_refl value
  | cons c cs ih =>
    have hradix : 0 < radix := by
      have hc := hcs c List.mem_cons_self
      simp only [digitValue?, Option.isSome_filter, Option.any_eq_true_iff_get,
        decide_eq_true_eq] at hc
      omega
    calc value ≤ value * radix := Nat.le_mul_of_pos_right value hradix
      _ ≤ value * radix + (digitValue? radix c).getD 0 := Nat.le_add_right _ _
      _ ≤ _ := ih fun d hd => hcs d (List.mem_cons_of_mem c hd)

/-- Digits are read if their value lies below the bound, and nothing else is. -/
theorem continueNumeral_eq_ok_iff {radix bound value n : Nat} {cs : List Char}
    (hvalue : value < bound) :
    continueNumeral radix bound value cs = .ok n ↔
      (∀ c ∈ cs, (digitValue? radix c).isSome) ∧
        cs.foldl (fun value c => value * radix + (digitValue? radix c).getD 0) value = n ∧
        n < bound := by
  induction cs generalizing value with
  | nil =>
    simp only [continueNumeral, Except.ok.injEq, List.foldl_nil, List.not_mem_nil]
    constructor
    · rintro rfl
      exact ⟨nofun, rfl, hvalue⟩
    · exact fun h => h.2.1
  | cons c cs ih =>
    rw [continueNumeral, List.forall_mem_cons, List.foldl_cons]
    cases hdigit : digitValue? radix c with
    | none => simp
    | some d =>
      dsimp only [Option.getD_some]
      split
      · next hlt => simp [ih hlt]
      · next hge =>
        constructor
        · nofun
        · rintro ⟨⟨-, hcs⟩, rfl, hlt⟩
          exact absurd (Nat.lt_of_le_of_lt (le_foldl_digits hcs) hlt) hge

/-- A character is a decimal digit if it is one of the ten figures. -/
theorem isSome_digitValue?_ten_iff {c : Char} : (digitValue? 10 c).isSome ↔ c.isDigit = true := by
  have hchar : c.toNat = c.val.toNat := rfl
  rw [digitValue?, hchar, Char.isDigit, Bool.and_eq_true, decide_eq_true_eq, decide_eq_true_eq,
    ge_iff_le, UInt32.le_iff_toNat_le, UInt32.le_iff_toNat_le]
  split
  · simp; omega
  · split
    · simp; omega
    · split
      · simp; omega
      · simp; omega

theorem readNumeral_eq_ok_iff {cs : List Char} {n : Nat} :
    readNumeral 10 wordBound cs = .ok n ↔
      cs ≠ [] ∧ (∀ c ∈ cs, c.isDigit = true) ∧ digitsValue 10 cs = n ∧ n < wordBound := by
  cases cs with
  | nil => simp [readNumeral]
  | cons c cs =>
    rw [readNumeral, continueNumeral_eq_ok_iff (by decide), digitsValue]
    · simp only [isSome_digitValue?_ten_iff, ne_eq, reduceCtorEq, not_false_eq_true, true_and]
    · exact nofun

/-- Just the numerals of 32 bits are read. -/
theorem readUnsigned_eq_ok_iff {text : List Char} {n : Nat} :
    readUnsigned text = .ok n ↔ IsUnsigned text n := by
  unfold readUnsigned
  split
  · constructor
    · nofun
    · rintro ⟨figures, rfl | heq, hne, hdigits, -⟩
      · exact absurd (hdigits '+' List.mem_cons_self) (by decide)
      · exact absurd (List.cons.inj heq).2.symm hne
  · next cs _ =>
    rw [readNumeral_eq_ok_iff]
    constructor
    · exact fun h => ⟨cs, .inr rfl, h⟩
    · rintro ⟨figures, rfl | heq, hne, hdigits, hvalue⟩
      · exact absurd (hdigits '+' List.mem_cons_self) (by decide)
      · cases heq
        exact ⟨hne, hdigits, hvalue⟩
  · next cs _ hsign =>
    rw [readNumeral_eq_ok_iff]
    constructor
    · exact fun h => ⟨text, .inl rfl, h⟩
    · rintro ⟨figures, rfl | rfl, h⟩
      · exact h
      · exact absurd rfl (hsign figures)

end TransferRules.Text
