import Mathlib.Data.List.TakeWhile
import Mathlib.Data.Nat.Init

/-! # Decimal texts

Texts of decimal digits with their value, and the conversion `stoul` of the C++
library: blanks and a sign may come first, what follows the digits is not looked at,
and a negative number wraps. On decimal texts it is the value.
-/
namespace FastNet.Decimal

/-- Digits and nothing else. -/
def IsDecimal (text : List Char) : Prop := text ≠ [] ∧ ∀ ch ∈ text, ch.isDigit = true

instance (text : List Char) : Decidable (IsDecimal text) :=
  decidable_of_iff (text ≠ [] ∧ text.all Char.isDigit = true) (by simp [IsDecimal])

/-- The number that a text of digits denotes. -/
def value (text : List Char) : ℕ := Nat.ofDigitChars 10 text 0

/-- `isspace` in the C locale. -/
def isSpace (ch : Char) : Bool := ch ∈ [' ','\t','\n','\x0b','\x0c','\r']

/-- What `stoul` throws. -/
inductive ParseError
  | invalidArgument
  | outOfRange
  deriving DecidableEq, Repr

/-- The text behind an optional sign. -/
def unsigned : List Char → List Char
  | '-' :: rest => rest
  | '+' :: rest => rest
  | text => text

/-- `std::stoul` to base ten: the unsigned long is 64 bits wide, and a minus sign
negates in that type. -/
def stoul (text : List Char) : Except ParseError UInt64 :=
  let body := text.dropWhile isSpace
  let digits := (unsigned body).takeWhile Char.isDigit
  if digits = [] then .error .invalidArgument
  else if UInt64.size ≤ value digits then .error .outOfRange
  else if body.head? = some '-' then .ok (-UInt64.ofNat (value digits))
  else .ok (UInt64.ofNat (value digits))

/-- `std::to_string` of an unsigned number. -/
def toText (n : ℕ) : List Char := Nat.toDigits 10 n

theorem isDecimal_toText (n : ℕ) : IsDecimal (toText n) :=
  ⟨Nat.toDigits_ne_nil,fun _ h => Nat.isDigit_of_mem_toDigits (by decide) (by decide) h⟩

theorem value_toText (n : ℕ) : value (toText n) = n := Nat.ofDigitChars_ten_toDigits

theorem isDigit_plain {ch : Char} (h : ch.isDigit = true) :
    isSpace ch = false ∧ ch ≠ '-' ∧ ch ≠ '+' := by
  refine ⟨?_,?_,?_⟩
  · by_contra hs
    simp only [Bool.not_eq_false,isSpace,decide_eq_true_eq,List.mem_cons,List.not_mem_nil,or_false]
      at hs
    rcases hs with rfl | rfl | rfl | rfl | rfl | rfl <;> cases h
  · rintro rfl
    cases h
  · rintro rfl
    cases h

/-- A decimal text is converted to its value when that fits. -/
theorem stoul_decimal {text : List Char} (h : IsDecimal text) :
    stoul text = if UInt64.size ≤ value text then .error .outOfRange
      else .ok (UInt64.ofNat (value text)) := by
  obtain ⟨hne,hdigits⟩ := h
  cases text with
  | nil => exact (hne rfl).elim
  | cons ch rest =>
    obtain ⟨hspace,hminus,hplus⟩ := isDigit_plain (hdigits ch List.mem_cons_self)
    have hbody : (ch :: rest).dropWhile isSpace = ch :: rest := by
      rw [List.dropWhile_cons,hspace]
      rfl
    have hunsigned : unsigned (ch :: rest) = ch :: rest := by
      unfold unsigned
      split
      · rename_i heq
        exact (hminus (List.cons.inj heq).1).elim
      · rename_i heq
        exact (hplus (List.cons.inj heq).1).elim
      · rfl
    have htake : (ch :: rest).takeWhile Char.isDigit = ch :: rest :=
      List.takeWhile_eq_self_iff.mpr hdigits
    have hsign : ¬ (ch :: rest).head? = some '-' := fun heq => hminus (Option.some.inj heq)
    unfold stoul
    simp only [hbody,hunsigned,htake]
    rw [if_neg (List.cons_ne_nil _ _),if_neg hsign]

theorem toNat_stoul {text : List Char} {v : UInt64} (h : IsDecimal text) (hv : stoul text = .ok v) :
    v.toNat = value text := by
  rw [stoul_decimal h] at hv
  split at hv
  · cases hv
  · rename_i hlt
    cases hv
    exact UInt64.toNat_ofNat_of_lt' (Nat.lt_of_not_le hlt)

/-- A number survives being written and read again. -/
theorem stoul_toText (v : UInt64) : stoul (toText v.toNat) = .ok v := by
  rw [stoul_decimal (isDecimal_toText _),value_toText,if_neg (Nat.not_le.mpr v.toNat_lt),
    UInt64.ofNat_toNat]

end FastNet.Decimal
