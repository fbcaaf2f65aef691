import Mathlib.Algebra.Group.Nat.Defs
import Stencil.Proofs.Text.Numeral
import Stencil.Value.Operations

/-!
# Integers as doubles

An integer is compared with another one as the nearest double. `Binary64.rank` is the place of that double in the row of
all doubles, which is the pattern of its exponent and mantissa with the sign of the integer: patterns are ordered as the
doubles that they stand for (`Binary64.compare_ofRank`), since the first bit of a mantissa is the same for all. So the
order of two integers is that of their places (`Binary64.orderFloats_ofInt`). A larger integer has no lower place
(`Binary64.rank_mono`), and up to `2 ^ 53` it has a higher one (`Binary64.rank_strict`).

`4503599627370496` is `2 ^ 52` in what follows, and `9007199254740992` is `2 ^ 53`.
-/

namespace Stencil

namespace Binary64

open Float.Model (UnpackedFloat Format)
open Float.Model.UnpackedFloat

/-! ## Doubles and their bits -/

/-- The sign of a double. -/
def sign (negative : Bool) : Sign := if negative then .negative else .positive

theorem toNat_implicit (m : BitVec 52) : (1#1 ++ m).toNat = 4503599627370496 + m.toNat := by
  rw [BitVec.toNat_append, ← Nat.shiftLeft_add_eq_or_of_lt m.isLt]
  rfl

theorem toNat_packComponents (s : Sign) (e : BitVec 11) (m : BitVec 52) :
    (packComponents Format.binary64 s e m).toNat = (s.toBitVec.toNat * 2048 + e.toNat) * 4503599627370496 + m.toNat := by
  unfold packComponents
  rw [BitVec.toNat_append, ← Nat.shiftLeft_add_eq_or_of_lt m.isLt, BitVec.toNat_append,
    ← Nat.shiftLeft_add_eq_or_of_lt e.isLt, Nat.shiftLeft_eq, Nat.shiftLeft_eq]

variable {e : BitVec 11}

theorem sign_packComponents (s : Sign) (m : BitVec 52) :
    Sign.ofBitVec (unpackSign (packComponents Format.binary64 s e m)) = s := by
  have bit : unpackSign (packComponents Format.binary64 s e m) = s.toBitVec := by
    unfold unpackSign
    apply BitVec.eq_of_toNat_eq
    rw [BitVec.toNat_cast, BitVec.extractLsb_toNat, toNat_packComponents, Nat.shiftRight_eq_div_pow]
    have := e.isLt
    have := m.isLt
    have := s.toBitVec.isLt
    change ((s.toBitVec.toNat * 2048 + e.toNat) * 4503599627370496 + m.toNat) / 9223372036854775808 % 2 = _
    omega
  rw [bit]
  cases s <;> rfl

/-- The exponent is neither that of infinities nor that of what is no number. -/
theorem ne_ones (high : e.toNat ≤ 2046) : e ≠ -1#11 := by
  rintro rfl
  exact absurd high (by decide)

theorem unpack_normal (s : Sign) (m : BitVec 52) (low : 1 ≤ e.toNat) (high : e.toNat ≤ 2046) :
    UnpackedFloat.unpack Format.binary64 (packComponents Format.binary64 s e m) =
      .finite s (4503599627370496 + m.toNat) ((e.toNat : Int) - 1075) (Nat.add_pos_left (by decide) _) := by
  have noZero : e ≠ 0#11 := by
    rintro rfl
    exact absurd low (by decide)
  have exponent : unpackExponent (packComponents Format.binary64 s e m) = e := unpackExponent_packComponents
  have mantissa : unpackMantissa (packComponents Format.binary64 s e m) = m := unpackMantissa_packComponents
  unfold UnpackedFloat.unpack
  dsimp only
  rw [if_neg (by rw [exponent]; exact ne_ones high), if_neg (by rw [exponent]; exact noZero), UnpackedFloat.finite.injEq,
    exponent, mantissa]
  exact ⟨sign_packComponents s m, toNat_implicit m, rfl⟩

theorem pack_normal (s : Sign) (m : BitVec 52) (low : 1 ≤ e.toNat) (high : e.toNat ≤ 2046)
    (pos : 0 < 4503599627370496 + m.toNat) :
    UnpackedFloat.pack Format.binary64 (.finite s (4503599627370496 + m.toNat) ((e.toNat : Int) - 1075) pos) =
      packComponents Format.binary64 s e m := by
  have exponent : ((e.toNat : Int) - 1075 + Format.binary64.exponentBias + Format.binary64.mantissaBitsWithoutImplicit).toNat =
      e.toNat := by
    change ((e.toNat : Int) - 1075 + 1023 + 52).toNat = e.toNat
    omega
  have bits : (4503599627370496 + m.toNat).log2 = 52 := by
    rw [Nat.log2_eq_iff (by omega)]
    omega
  unfold UnpackedFloat.pack
  simp only [exponent, bits]
  rw [if_neg (by change ¬ 2048 ≤ e.toNat + 1; omega), if_pos (by decide)]
  congr 1
  · exact (BitVec.ofNat_toNat 11 e).trans (BitVec.setWidth_eq e)
  · apply BitVec.eq_of_toNat_eq
    rw [BitVec.toNat_ofNat]
    omega

/-- The double with a sign, of a pattern that has neither the least exponent nor the largest one. -/
theorem unpack_ofPattern (negative : Bool) {p : Nat} (low : 4503599627370496 ≤ p) (high : p < infinityPattern) :
    (ofPattern negative p).toModel.unpack =
      .finite (sign negative) (4503599627370496 + p % 4503599627370496) (((p / 4503599627370496 : Nat) : Int) - 1075)
        (Nat.add_pos_left (by decide) _) := by
  have infinity : infinityPattern = 2047 * 4503599627370496 := rfl
  have exponent : (BitVec.ofNat 11 (p / 4503599627370496)).toNat = p / 4503599627370496 := by
    rw [BitVec.toNat_ofNat]
    omega
  have mantissa : (BitVec.ofNat 52 (p % 4503599627370496)).toNat = p % 4503599627370496 := by
    rw [BitVec.toNat_ofNat]
    omega
  have bits : (UInt64.ofNat (if negative then Nat.pow 2 63 + p else p)).toBitVec = packComponents Format.binary64
      (sign negative) (BitVec.ofNat 11 (p / 4503599627370496)) (BitVec.ofNat 52 (p % 4503599627370496)) := by
    apply BitVec.eq_of_toNat_eq
    rw [toNat_packComponents, exponent, mantissa]
    change (if negative then 9223372036854775808 + p else p) % 18446744073709551616 = _
    cases negative
    · change p % 18446744073709551616 = (0 * 2048 + p / 4503599627370496) * 4503599627370496 + p % 4503599627370496
      omega
    · change (9223372036854775808 + p) % 18446744073709551616 =
        (1 * 2048 + p / 4503599627370496) * 4503599627370496 + p % 4503599627370496
      omega
  change UnpackedFloat.unpack Format.binary64 (UnpackedFloat.pack Format.binary64 (UnpackedFloat.unpack Format.binary64
    (UInt64.ofNat (if negative then Nat.pow 2 63 + p else p)).toBitVec)) = _
  have low' : 1 ≤ (BitVec.ofNat 11 (p / 4503599627370496)).toNat := by omega
  have high' : (BitVec.ofNat 11 (p / 4503599627370496)).toNat ≤ 2046 := by omega
  rw [bits, unpack_normal _ _ low' high', pack_normal _ _ low' high', unpack_normal _ _ low' high',
    UnpackedFloat.finite.injEq, exponent, mantissa]
  exact ⟨rfl, rfl, rfl⟩

/-! ## Rounding natural numbers -/

theorem roundQuotient_le (num den : Nat) : num / den ≤ roundQuotient num den ∧ roundQuotient num den ≤ num / den + 1 := by
  unfold roundQuotient
  dsimp only
  split
  · omega
  · split
    · omega
    · split <;> omega

theorem roundQuotient_one (n : Nat) : roundQuotient n 1 = n := by
  simp [roundQuotient, Nat.mod_one]

theorem binaryExponent_one {n : Nat} (pos : n ≠ 0) : binaryExponent n 1 = n.log2 := by
  have le := Nat.log2_self_le pos
  have exponent : ((n.log2 : Int) - Nat.log2 1) = n.log2 := by
    rw [show Nat.log2 1 = 0 from rfl]
    omega
  unfold binaryExponent
  dsimp only
  rw [exponent, scaled, if_pos (Int.natCast_nonneg _), Int.toNat_natCast]
  refine if_neg ?_
  change ¬ n * 1 < 1 * 2 ^ n.log2 * 1
  omega

/-- The mantissa of a natural number. -/
def mantissaOf (n : Nat) : Nat := mantissaAt n 1 ((n.log2 : Int) - 52)

theorem mantissaOf_small {n : Nat} (small : n.log2 ≤ 52) : mantissaOf n = n * 2 ^ (52 - n.log2) := by
  unfold mantissaOf mantissaAt scaled
  by_cases le : 0 ≤ (n.log2 : Int) - 52
  · obtain whole : n.log2 = 52 := by omega
    rw [if_pos le, whole]
    exact roundQuotient_one (n * 1)
  · have shift : (-((n.log2 : Int) - 52)).toNat = 52 - n.log2 := by omega
    rw [if_neg le, shift]
    exact roundQuotient_one _

theorem mantissaOf_large {n : Nat} (large : 52 ≤ n.log2) : mantissaOf n = roundQuotient n (2 ^ (n.log2 - 52)) := by
  unfold mantissaOf mantissaAt scaled
  have shift : ((n.log2 : Int) - 52).toNat = n.log2 - 52 := by omega
  rw [if_pos (by omega), shift]
  simp only [Nat.mul_one, Nat.one_mul]
  rfl

theorem le_mantissaOf {n : Nat} (pos : n ≠ 0) : 4503599627370496 ≤ mantissaOf n := by
  have le := Nat.log2_self_le pos
  obtain small | large := Nat.le_total n.log2 52
  · rw [mantissaOf_small small]
    calc 4503599627370496 = 2 ^ n.log2 * 2 ^ (52 - n.log2) := by rw [← Nat.pow_add, Nat.add_sub_cancel' small]
      _ ≤ n * 2 ^ (52 - n.log2) := Nat.mul_le_mul_right _ le
  · rw [mantissaOf_large large]
    refine Nat.le_trans ?_ (roundQuotient_le n (2 ^ (n.log2 - 52))).1
    rw [Nat.le_div_iff_mul_le (Nat.two_pow_pos _)]
    calc 2 ^ 52 * 2 ^ (n.log2 - 52) = 2 ^ n.log2 := by rw [← Nat.pow_add, Nat.add_sub_cancel' large]
      _ ≤ n := le

theorem mantissaOf_lt {n : Nat} (small : n.log2 ≤ 52) : mantissaOf n < 9007199254740992 := by
  rw [mantissaOf_small small]
  calc n * 2 ^ (52 - n.log2) < 2 ^ (n.log2 + 1) * 2 ^ (52 - n.log2) :=
        Nat.mul_lt_mul_of_pos_right Nat.lt_log2_self (Nat.two_pow_pos _)
    _ = 2 ^ 53 := by
      rw [← Nat.pow_add]
      congr 1
      omega

theorem mantissaOf_le (n : Nat) : mantissaOf n ≤ 9007199254740992 := by
  obtain small | large := Nat.le_total n.log2 52
  · exact Nat.le_of_lt (mantissaOf_lt small)
  · rw [mantissaOf_large large]
    refine Nat.le_trans (roundQuotient_le n (2 ^ (n.log2 - 52))).2 ?_
    refine Nat.succ_le_of_lt ((Nat.div_lt_iff_lt_mul (Nat.two_pow_pos _)).2 ?_)
    calc n < 2 ^ (n.log2 + 1) := Nat.lt_log2_self
      _ = 2 ^ 53 * 2 ^ (n.log2 - 52) := by
        rw [← Nat.pow_add]
        congr 1
        omega

/-- The pattern of the double nearest to a natural number. -/
def pattern (n : Nat) : Nat := if n = 0 then 0 else (n.log2 + 1022) * 4503599627370496 + mantissaOf n

theorem pattern_pos {n : Nat} (pos : n ≠ 0) : 4503599627370496 ≤ pattern n := by
  have := le_mantissaOf pos
  rw [pattern, if_neg pos]
  omega

theorem pattern_lt {n : Nat} (fits : n.log2 < 64) : pattern n < infinityPattern := by
  have := mantissaOf_le n
  have infinity : infinityPattern = 2047 * 4503599627370496 := rfl
  unfold pattern
  split <;> omega

theorem roundRatio_one {n : Nat} (fits : n.log2 < 64) : roundRatio n 1 = .ok (pattern n) := by
  by_cases pos : n = 0
  · subst pos
    rfl
  · have low := le_mantissaOf pos
    have finite := pattern_lt fits
    have exponent : max ((n.log2 : Int) - 52) (-1074) = (n.log2 : Int) - 52 := Int.max_eq_left (by omega)
    have biased : ((n.log2 : Int) - 52 + 1075).toNat = n.log2 + 1023 := by omega
    have normal : ((n.log2 : Int) < -1022) = False := by
      rw [eq_iff_iff, iff_false]
      omega
    have unit : Nat.pow 2 52 = 4503599627370496 := rfl
    have shape : (n.log2 + 1023) * 4503599627370496 + (mantissaOf n - 4503599627370496) = pattern n := by
      rw [pattern, if_neg pos]
      omega
    unfold roundRatio
    simp only [beq_iff_eq, pos, if_false, binaryExponent_one pos, exponent, biased, normal, unit, decide_false, Bool.false_and,
      Bool.false_eq_true]
    change (if mantissaOf n < 4503599627370496 then _ else if infinityPattern ≤ (n.log2 + 1023) * 4503599627370496 +
      (mantissaOf n - 4503599627370496) then _ else _) = _
    rw [if_neg (by omega), shape, if_neg (by omega)]
    exact congrArg Except.ok shape

theorem roundQuotient_mono {a b den : Nat} (le : a ≤ b) : roundQuotient a den ≤ roundQuotient b den := by
  obtain less | same := Nat.lt_or_eq_of_le (Nat.div_le_div_right (c := den) le)
  · calc roundQuotient a den ≤ a / den + 1 := (roundQuotient_le a den).2
      _ ≤ b / den := less
      _ ≤ roundQuotient b den := (roundQuotient_le b den).1
  · have rest : a % den ≤ b % den := by
      have left := Nat.div_add_mod a den
      have right := Nat.div_add_mod b den
      rw [same] at left
      omega
    unfold roundQuotient
    dsimp only
    rw [same]
    repeat' split
    all_goals omega

theorem log2_mono {a b : Nat} (pos : a ≠ 0) (le : a ≤ b) : a.log2 ≤ b.log2 :=
  (Nat.le_log2 (by omega)).2 (Nat.le_trans (Nat.log2_self_le pos) le)

theorem mantissaOf_mono {a b : Nat} (same : a.log2 = b.log2) (le : a ≤ b) : mantissaOf a ≤ mantissaOf b := by
  obtain small | large := Nat.le_total b.log2 52
  · rw [mantissaOf_small small, mantissaOf_small (same ▸ small), same]
    exact Nat.mul_le_mul_right _ le
  · rw [mantissaOf_large large, mantissaOf_large (same ▸ large), same]
    exact roundQuotient_mono le

theorem pattern_mono {a b : Nat} (le : a ≤ b) : pattern a ≤ pattern b := by
  by_cases zero : a = 0
  · rw [pattern, if_pos zero]
    exact Nat.zero_le _
  · have pos : b ≠ 0 := by omega
    have low := le_mantissaOf pos
    have high := mantissaOf_le a
    rw [pattern, pattern, if_neg zero, if_neg pos]
    obtain same | less := Nat.eq_or_lt_of_le (log2_mono zero le)
    · rw [same]
      exact Nat.add_le_add_left (mantissaOf_mono same le) _
    · -- a rounded mantissa reaches the least pattern of the next exponent at most
      omega

/-- Below `2 ^ 53` nothing is rounded. -/
theorem pattern_strict {a b : Nat} (lt : a < b) (small : a < 9007199254740992) : pattern a < pattern b := by
  have pos : b ≠ 0 := by omega
  by_cases zero : a = 0
  · have := pattern_pos pos
    rw [pattern, if_pos zero]
    omega
  · have exact : a.log2 ≤ 52 := Nat.le_of_lt_succ ((Nat.log2_lt zero).2 small)
    have low := le_mantissaOf pos
    have high := mantissaOf_lt exact
    rw [pattern, pattern, if_neg zero, if_neg pos]
    obtain same | less := Nat.eq_or_lt_of_le (log2_mono zero (Nat.le_of_lt lt))
    · rw [mantissaOf_small exact, mantissaOf_small (same ▸ exact), same]
      exact Nat.add_lt_add_left (Nat.mul_lt_mul_of_pos_right lt (Nat.two_pow_pos _)) _
    · omega

/-! ## The order of integers as doubles -/

/-- The place of the double nearest to an integer among all doubles. -/
def rank (n : Int) : Int := if n < 0 then -(pattern n.natAbs : Int) else pattern n.natAbs

theorem rank_mono {m n : Int} (le : m ≤ n) : rank m ≤ rank n := by
  unfold rank
  split <;> split
  next =>
    have := pattern_mono (a := n.natAbs) (b := m.natAbs) (by omega)
    omega
  next => omega
  next => omega
  next =>
    have := pattern_mono (a := m.natAbs) (b := n.natAbs) (by omega)
    omega

theorem rank_strict {m n : Int} (lt : m < n) (small : m.natAbs ≤ 9007199254740992) (small' : n.natAbs ≤ 9007199254740992) :
    rank m < rank n := by
  unfold rank
  split <;> split
  next =>
    have := pattern_strict (a := n.natAbs) (b := m.natAbs) (by omega) (by omega)
    omega
  next negative _ =>
    have := pattern_pos (n := m.natAbs) (by omega)
    omega
  next => omega
  next =>
    have := pattern_strict (a := m.natAbs) (b := n.natAbs) (by omega) (by omega)
    omega

/-- The double at a place. -/
def ofRank (r : Int) : UnpackedFloat :=
  if r = 0 then .zero .positive
  else .finite (sign (r < 0)) (4503599627370496 + r.natAbs % 4503599627370496)
    (((r.natAbs / 4503599627370496 : Nat) : Int) - 1075) (Nat.add_pos_left (by decide) _)

theorem natAbs_rank (n : Int) : (rank n).natAbs = pattern n.natAbs := by
  unfold rank
  split <;> omega

theorem rank_neg_iff (n : Int) : rank n < 0 ↔ n < 0 := by
  unfold rank
  split
  next negative =>
    have := pattern_pos (n := n.natAbs) (by omega)
    omega
  next => omega

theorem rank_ne_zero {n : Int} (h : n ≠ 0) : rank n ≠ 0 := by
  have := pattern_pos (n := n.natAbs) (by omega)
  have := natAbs_rank n
  omega

theorem log2_natAbs {n : Int} (fits : Text.Fits n) : n.natAbs.log2 < 64 := by
  obtain ⟨low, high⟩ : -9223372036854775808 ≤ n ∧ n ≤ 9223372036854775807 := fits
  by_cases zero : n.natAbs = 0
  · rw [zero]
    decide
  · rw [Nat.log2_lt zero]
    change _ < 18446744073709551616
    omega

theorem unpack_ofInt {n : Int} (fits : Text.Fits n) : (ofInt n).toModel.unpack = ofRank (rank n) := by
  by_cases zero : n = 0
  · subst zero
    rfl
  · have rounded : ofInt n = ofPattern (n < 0) (pattern n.natAbs) := by rw [ofInt, roundRatio_one (log2_natAbs fits)]
    rw [rounded, unpack_ofPattern _ (pattern_pos (by omega)) (pattern_lt (log2_natAbs fits)), ofRank, if_neg (rank_ne_zero zero),
      UnpackedFloat.finite.injEq, natAbs_rank]
    exact ⟨congrArg sign (decide_eq_decide.2 (rank_neg_iff n).symm), rfl, rfl⟩

theorem compare_of_lt_iff {a b : Nat} {r r' : Int} (less : a < b ↔ r < r') (greater : b < a ↔ r' < r) :
    compare a b = compare r r' := by
  obtain h | rfl | h := Nat.lt_trichotomy a b
  · rw [Nat.compare_eq_lt.2 h, Int.compare_eq_lt.2 (less.1 h)]
  · rw [Nat.compare_eq_eq.2 rfl, Int.compare_eq_eq.2 (by omega)]
  · rw [Nat.compare_eq_gt.2 h, Int.compare_eq_gt.2 (greater.1 h)]

theorem compare_patterns (p q : Nat) :
    (compare (((p / 4503599627370496 : Nat) : Int) - 1075) (((q / 4503599627370496 : Nat) : Int) - 1075)).then
      (compare (4503599627370496 + p % 4503599627370496) (4503599627370496 + q % 4503599627370496)) = compare p q := by
  obtain less | same | greater := Nat.lt_trichotomy (p / 4503599627370496) (q / 4503599627370496)
  · rw [Int.compare_eq_lt.2 (by omega), Nat.compare_eq_lt.2 (by omega : p < q)]
    rfl
  · rw [Int.compare_eq_eq.2 (by omega), Ordering.then]
    obtain less | same | greater := Nat.lt_trichotomy p q
    · rw [Nat.compare_eq_lt.2 less, Nat.compare_eq_lt.2 (by omega)]
    · rw [same]
      simp
    · rw [Nat.compare_eq_gt.2 greater, Nat.compare_eq_gt.2 (by omega)]
  · rw [Int.compare_eq_gt.2 (by omega), Nat.compare_eq_gt.2 (by omega : q < p)]
    rfl

theorem compare_positive {m m' : Nat} {e e' : Int} (pos : 0 < m) (pos' : 0 < m') :
    UnpackedFloat.compare (.finite .positive m e pos) (.finite .positive m' e' pos') =
      some ((compare e e').then (compare m m')) := rfl

theorem compare_negative {m m' : Nat} {e e' : Int} (pos : 0 < m) (pos' : 0 < m') :
    UnpackedFloat.compare (.finite .negative m e pos) (.finite .negative m' e' pos') =
      some ((compare e e').then (compare m m')).swap := rfl

theorem compare_ofRank (r r' : Int) : (ofRank r).compare (ofRank r') = some (compare r r') := by
  -- for negative integers the order of the patterns is turned round
  have signed {r : Int} (h : r < 0) : ofRank r = .finite .negative (4503599627370496 + r.natAbs % 4503599627370496)
      (((r.natAbs / 4503599627370496 : Nat) : Int) - 1075) (Nat.add_pos_left (by decide) _) := by
    rw [ofRank, if_neg (by omega), UnpackedFloat.finite.injEq]
    exact ⟨congrArg sign (decide_eq_true h), rfl, rfl⟩
  have unsigned {r : Int} (h : 0 < r) : ofRank r = .finite .positive (4503599627370496 + r.natAbs % 4503599627370496)
      (((r.natAbs / 4503599627370496 : Nat) : Int) - 1075) (Nat.add_pos_left (by decide) _) := by
    rw [ofRank, if_neg (by omega), UnpackedFloat.finite.injEq]
    exact ⟨congrArg sign (decide_eq_false (by omega)), rfl, rfl⟩
  have zero : ofRank 0 = .zero .positive := rfl
  obtain negative | rfl | positive := Int.lt_trichotomy r 0 <;> obtain negative' | rfl | positive' := Int.lt_trichotomy r' 0
  · rw [signed negative, signed negative', compare_negative, compare_patterns, Nat.compare_swap]
    exact congrArg some (compare_of_lt_iff (by omega) (by omega))
  · rw [signed negative, zero, Int.compare_eq_lt.2 negative]
    rfl
  · rw [signed negative, unsigned positive', Int.compare_eq_lt.2 (by omega)]
    rfl
  · rw [zero, signed negative', Int.compare_eq_gt.2 negative']
    rfl
  · rfl
  · rw [zero, unsigned positive', Int.compare_eq_lt.2 positive']
    rfl
  · rw [unsigned positive, signed negative', Int.compare_eq_gt.2 (by omega)]
    rfl
  · rw [unsigned positive, zero, Int.compare_eq_gt.2 positive]
    rfl
  · rw [unsigned positive, unsigned positive', compare_positive, compare_patterns]
    exact congrArg some (compare_of_lt_iff (by omega) (by omega))

theorem lt_iff {m n : Int} (fits : Text.Fits m) (fits' : Text.Fits n) : ofInt m < ofInt n ↔ rank m < rank n := by
  change decide ((ofInt m).toModel < (ofInt n).toModel) = true ↔ _
  rw [decide_eq_true_iff]
  change ((ofInt m).toModel.unpack.compare (ofInt n).toModel.unpack == some .lt) = true ↔ _
  rw [unpack_ofInt fits, unpack_ofInt fits', compare_ofRank, beq_iff_eq, Option.some_inj, Int.compare_eq_lt]

/-- **Integers are ordered by the places of their doubles.** -/
theorem orderFloats_ofInt (m n : Int64) :
    Value.orderFloats (ofInt m.toInt) (ofInt n.toInt) = compare (rank m.toInt) (rank n.toInt) := by
  have fits := Text.fits_toInt m
  have fits' := Text.fits_toInt n
  rw [Value.orderFloats]
  obtain less | same | greater := Int.lt_trichotomy (rank m.toInt) (rank n.toInt)
  · rw [if_pos ((lt_iff fits fits').2 less), Int.compare_eq_lt.2 less]
  · rw [if_neg (fun less => Int.lt_irrefl _ (same ▸ (lt_iff fits fits').1 less)),
      if_neg (fun less => Int.lt_irrefl _ (same ▸ (lt_iff fits' fits).1 less)), Int.compare_eq_eq.2 same]
  · rw [if_neg (fun less => Int.lt_asymm greater ((lt_iff fits fits').1 less)), if_pos ((lt_iff fits' fits).2 greater),
      Int.compare_eq_gt.2 greater]

/-- Integers have one place if they are rounded to one double. -/
theorem rank_eq_iff {m n : Int} (fits : Text.Fits m) (fits' : Text.Fits n) :
    rank m = rank n ↔ ofInt m = ofInt n := by
  constructor
  · intro same
    have pattern : pattern m.natAbs = pattern n.natAbs := by rw [← natAbs_rank, ← natAbs_rank, same]
    have sign : m < 0 ↔ n < 0 := by rw [← rank_neg_iff m, same, rank_neg_iff]
    simp only [ofInt, roundRatio_one (log2_natAbs fits), roundRatio_one (log2_natAbs fits'), pattern, sign]
  · intro same
    have irreflexive := Int.lt_irrefl (rank m)
    obtain less | same | greater := Int.lt_trichotomy (rank m) (rank n)
    · have := (lt_iff fits fits').2 less
      rw [← same, lt_iff fits fits] at this
      exact absurd this irreflexive
    · exact same
    · have := (lt_iff fits' fits).2 greater
      rw [← same, lt_iff fits fits] at this
      exact absurd this irreflexive

end Binary64

end Stencil
