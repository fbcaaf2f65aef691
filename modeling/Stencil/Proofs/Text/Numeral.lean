import Mathlib.Data.List.TakeWhile
import Stencil.Text.Basic

/-!
# Numerals

The digits of a natural number are read as that number, so an integer is the one that its digits denote as long
as it fits into 64 bits.
-/

namespace Stencil

namespace Byte

/-- What holds of all codes holds of all bytes. -/
theorem of_codes {p : Byte → Prop} (h : ∀ n < 256, p (UInt8.ofNat n)) (c : Byte) : p c := by
  have same : UInt8.ofNat c.toNat = c := UInt8.ofNat_toNat
  exact same ▸ h c.toNat c.toNat_lt

/-- A digit is no sign, no white space and no NUL. -/
theorem plain_of_isDigit {c : Byte} (h : c.isDigit = true) :
    c.isWhite = false ∧ (c == '-') = false ∧ (c == '+') = false ∧ (c != 0) = true := by
  revert h
  exact of_codes (p := fun c => c.isDigit = true → c.isWhite = false ∧ (c == '-') = false ∧ (c == '+') = false ∧
    (c != 0) = true) (by decide +kernel) c

end Byte

namespace Text

theorem isDigit_of_char {c : Char} (h : c.isDigit = true) : Byte.isDigit c.toUInt8 = true ∧
    Byte.digitValue c.toUInt8 = c.toNat - '0'.toNat := by
  have bounds : 48 ≤ c.toNat ∧ c.toNat ≤ 57 := by
    simp only [Char.isDigit, Bool.and_eq_true, decide_eq_true_eq, ge_iff_le, UInt32.le_iff_toNat_le] at h
    exact h
  have code : c.toUInt8.toNat = c.toNat := by
    change c.toNat % 256 = c.toNat
    omega
  constructor
  · simp only [Byte.isDigit, Bool.and_eq_true, decide_eq_true_eq, UInt8.le_iff_toNat_le, code]
    exact bounds
  · rw [Byte.digitValue, code]
    rfl

/-- A number is written in digits. -/
theorem isDigit_of_mem_ofNat {n : Nat} {c : Byte} (h : c ∈ ofNat n) : c.isDigit = true := by
  obtain ⟨d, digit, rfl⟩ := List.mem_map.1 h
  exact (isDigit_of_char (Nat.isDigit_of_mem_toDigits (by decide) (by decide) digit)).1

theorem ofNat_ne_nil (n : Nat) : ofNat n ≠ [] := by
  rw [ofNat, ne_eq, List.map_eq_nil_iff]
  exact Nat.toDigits_ne_nil

theorem digitsValue_ofNat (n : Nat) : digitsValue (ofNat n) = n := by
  have all : ∀ c ∈ Nat.toDigits 10 n, c.isDigit = true := fun c hc => Nat.isDigit_of_mem_toDigits (by decide) (by decide) hc
  have same (init : Nat) (cs : List Char) (all : ∀ c ∈ cs, c.isDigit = true) :
      (cs.map Char.toUInt8).foldl (fun n c => 10 * n + Byte.digitValue c) init = Nat.ofDigitChars 10 cs init := by
    induction cs generalizing init with
    | nil => rfl
    | cons c cs ih =>
      rw [List.map_cons, List.foldl_cons, (isDigit_of_char (all c List.mem_cons_self)).2,
        ih _ fun d hd => all d (List.mem_cons_of_mem c hd)]
      rfl
  exact (same 0 _ all).trans (Nat.ofDigitChars_toDigits (by decide) (by decide))

/-! ## Integers -/

theorem toInt_fitInt64 {n : Int} {k : Int64} (h : fitInt64? n = some k) : k.toInt = n := by
  unfold fitInt64? at h
  split at h
  next range =>
    cases h
    exact Int64.toInt_ofInt_of_le range.1 (Int.lt_of_le_of_lt range.2 (by decide : Int64.maxValue.toInt < 2 ^ 63))
  next => cases h

theorem fitInt64_toInt (k : Int64) : fitInt64? k.toInt = some k := by
  have range : Int64.minValue.toInt ≤ k.toInt ∧ k.toInt ≤ Int64.maxValue.toInt := ⟨k.minValue_le_toInt, k.toInt_le⟩
  rw [fitInt64?, if_pos range, Int64.ofInt_toInt]

/-- The integer is one of the 64-bit integers. -/
def Fits (n : Int) : Prop := Int64.minValue.toInt ≤ n ∧ n ≤ Int64.maxValue.toInt

instance (n : Int) : Decidable (Fits n) := inferInstanceAs (Decidable (_ ∧ _))

theorem fits_toInt (k : Int64) : Fits k.toInt := ⟨k.minValue_le_toInt, k.toInt_le⟩

theorem toInt_ofInt {n : Int} (h : Fits n) : (Int64.ofInt n).toInt = n :=
  Int64.toInt_ofInt_of_le h.1 (Int.lt_of_le_of_lt h.2 (by decide : Int64.maxValue.toInt < 2 ^ 63))

theorem fitInt64_eq_some {n : Int} (h : Fits n) : fitInt64? n = some (Int64.ofInt n) := if_pos h

theorem fitInt64_eq_none {n : Int} (h : ¬ Fits n) : fitInt64? n = none := if_neg h

/-- Digits are read as the number they denote. -/
theorem toInt64_digits {digits : Text} (some : digits ≠ []) (all : ∀ c ∈ digits, c.isDigit = true) :
    toInt64? digits = fitInt64? (digitsValue digits) := by
  cases digits with
  | nil => exact absurd rfl some
  | cons c r =>
    obtain ⟨black, minus, plus, -⟩ := Byte.plain_of_isDigit (all c List.mem_cons_self)
    have whole : untilNul (c :: r) = c :: r :=
      List.takeWhile_eq_self_iff.2 fun d hd => (Byte.plain_of_isDigit (all d hd)).2.2.2
    have digits : (c :: r).all Byte.isDigit = true := List.all_eq_true.2 all
    simp only [toInt64?, whole, trimLeft, List.dropWhile_cons, black, takeSign, minus, plus, digits, List.isEmpty_cons,
      Bool.false_eq_true, if_false, Bool.not_true, Bool.or_false]

/-- An integer that is not negative is read from its digits. -/
theorem toInt64_ofNat {n : Nat} {k : Int64} (h : k.toInt = n) : toInt64? (ofNat n) = some k := by
  rw [toInt64_digits (ofNat_ne_nil n) fun c => isDigit_of_mem_ofNat, digitsValue_ofNat, ← h, fitInt64_toInt]

end Text

end Stencil
