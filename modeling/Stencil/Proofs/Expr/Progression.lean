import Stencil.Proofs.Expr.Range
import Stencil.Proofs.Text.Numeral

/-!
# The integers of a range

`range(start, stop, step)` is meant to be the progression `start`, `start + step`, … as long as its integers come
before `stop`. The loop adds first and compares afterwards, and the sum is taken in 64 bits. So the range is this
progression exactly if the first integer that does not come before `stop` still fits into 64 bits
(`Function.rangeOf_exact_iff`). Where it does not fit, the loop goes on at the other end of the 64-bit integers.
-/

namespace Stencil

namespace Progression

/-- An integer comes before `stop` in the direction of `step`. -/
def Before (stop step i : Int) : Prop := 0 < step ∧ i < stop ∨ step < 0 ∧ stop < i

/-- How many integers of the progression come before `stop`. -/
def length (start stop step : Int) : Nat :=
  if 0 < step then ((stop - start + (step - 1)) / step).toNat else ((start - stop + (-step - 1)) / -step).toNat

/-- The integers `start`, `start + step`, … that come before `stop`, in order. -/
def integers (start stop step : Int) : List Int :=
  (List.range (length start stop step)).map fun k : Nat => start + (k : Int) * step

/-- The first integer of the progression that does not come before `stop`. -/
def past (start stop step : Int) : Int := start + length start stop step * step

variable {start stop step : Int}

theorem lt_length_iff (nonzero : step ≠ 0) (k : Nat) :
    k < length start stop step ↔ Before stop step (start + k * step) := by
  have least (a b : Int) (pos : 0 < b) : k < ((a + (b - 1)) / b).toNat ↔ k * b < a := calc
    k < ((a + (b - 1)) / b).toNat ↔ (k : Int) + 1 ≤ (a + (b - 1)) / b := by omega
    _ ↔ (k + 1) * b ≤ a + (b - 1) := Int.le_ediv_iff_mul_le pos
    _ ↔ k * b < a := by rw [Int.add_mul]; omega
  unfold length Before
  split
  next up =>
    rw [least _ _ up]
    omega
  next down =>
    rw [least _ _ (by omega : 0 < -step), Int.mul_neg]
    omega

/-- The progression has the integers that come before `stop` and are reached by steps. -/
theorem mem_integers (nonzero : step ≠ 0) {n : Int} :
    n ∈ integers start stop step ↔ Before stop step n ∧ ∃ k : Nat, n = start + k * step := by
  simp only [integers, List.mem_map, List.mem_range, lt_length_iff nonzero]
  constructor
  · rintro ⟨k, before, rfl⟩
    exact ⟨before, k, rfl⟩
  · rintro ⟨before, k, rfl⟩
    exact ⟨k, before, rfl⟩

theorem length_integers : (integers start stop step).length = length start stop step := by
  rw [integers, List.length_map, List.length_range]

theorem not_before_past (nonzero : step ≠ 0) : ¬ Before stop step (past start stop step) :=
  fun before => Nat.lt_irrefl _ ((lt_length_iff nonzero _).2 before)

/-- The progression ends one step after an integer that comes before `stop`, or where it starts. -/
theorem past_eq (start stop : Int) (nonzero : step ≠ 0) :
    past start stop step = start ∨
      ∃ k : Nat, Before stop step (start + k * step) ∧ past start stop step = start + k * step + step := by
  unfold past
  cases same : length start stop step with
  | zero => exact .inl (by simp)
  | succ k =>
    refine .inr ⟨k, (lt_length_iff nonzero k).1 (by omega), ?_⟩
    rw [Int.natCast_add, Int.add_mul, Int.add_assoc, Int.natCast_one, Int.one_mul]

end Progression

open Progression Text

namespace Value

/-! ## The loop -/

variable {start stop step i : Int64} {acc vs : List Value} {fuel : Nat}

theorem comesBefore_iff (nonzero : step ≠ 0) : comesBefore stop step i = true ↔ Before stop.toInt step.toInt i.toInt := by
  have other : step.toInt ≠ 0 := fun same => nonzero (Int64.toInt_inj.1 same)
  have up : 0 < step ↔ 0 < step.toInt := Int64.lt_iff_toInt_lt
  unfold comesBefore Before
  split
  next less =>
    rw [decide_eq_true_eq, Int64.lt_iff_toInt_lt]
    have := up.1 less
    omega
  next down =>
    rw [decide_eq_true_eq, Int64.lt_iff_toInt_lt]
    have := mt up.2 down
    omega

/-- The loop takes every integer that comes before its bound. -/
theorem rangeFrom_passes (acc : List Value) {a : Int} {m : Nat}
    (before : ∀ k < m, comesBefore stop step (.ofInt (a + (k : Nat) * step.toInt)) = true) (fuel : Nat) :
    rangeFrom stop step acc (m + fuel) (.ofInt a) =
      rangeFrom stop step (((List.range m).map fun k : Nat => int (.ofInt (a + k * step.toInt))).reverse ++ acc) fuel
        (.ofInt (a + m * step.toInt)) := by
  induction m generalizing a acc with
  | zero => simp
  | succ m ih =>
    have later (k : Nat) : a + step.toInt + k * step.toInt = a + (k + 1 : Nat) * step.toInt := by
      rw [Int.natCast_add, Int.add_mul, Int.natCast_one, Int.one_mul]
      omega
    have first : comesBefore stop step (.ofInt a) = true := by simpa using before 0 (by omega)
    have next : Int64.ofInt a + step = .ofInt (a + step.toInt) := by rw [Int64.ofInt_add, Int64.ofInt_toInt]
    rw [Nat.add_right_comm, rangeFrom, if_pos first, next, ih _ fun k less => later k ▸ before (k + 1) (by omega), later]
    have start : (.ofInt (a + (0 : Nat) * step.toInt) : Int64) = .ofInt a := by simp
    rw [List.range_succ_eq_map, List.map_cons, List.map_map, List.reverse_cons, List.append_assoc, start]
    simp only [later]
    rfl

/-- A loop that has come this far keeps what it has. -/
theorem length_of_rangeFrom (h : rangeFrom stop step acc fuel i = some vs) :
    acc.length ≤ vs.length ∧ (comesBefore stop step i = true → acc.length < vs.length) := by
  induction fuel generalizing acc i with
  | zero => cases h
  | succ fuel ih =>
    rw [rangeFrom] at h
    split at h
    next before =>
      have more := (ih h).1
      rw [List.length_cons] at more
      exact ⟨by omega, fun _ => by omega⟩
    next after =>
      cases h
      exact ⟨by simp, fun before => absurd before after⟩

/-- All integers of the progression lie between its bounds. -/
theorem fits_of_before {k : Nat} (before : Before stop.toInt step.toInt (start.toInt + k * step.toInt)) :
    Fits (start.toInt + k * step.toInt) := by
  obtain ⟨low, high⟩ := fits_toInt start
  obtain ⟨low', high'⟩ := fits_toInt stop
  unfold Fits
  obtain ⟨up, less⟩ | ⟨down, less⟩ := before
  · have := Int.mul_nonneg (Int.natCast_nonneg k) (Int.le_of_lt up)
    omega
  · have := Int.mul_nonpos_of_nonneg_of_nonpos (Int.natCast_nonneg k) (Int.le_of_lt down)
    omega

theorem comesBefore_of_lt_length (start stop : Int64) (nonzero : step ≠ 0) {k : Nat}
    (less : k < length start.toInt stop.toInt step.toInt) :
    comesBefore stop step (.ofInt (start.toInt + k * step.toInt)) = true := by
  have other : step.toInt ≠ 0 := fun same => nonzero (Int64.toInt_inj.1 same)
  have before := (lt_length_iff other k).1 less
  rwa [comesBefore_iff nonzero, toInt_ofInt (fits_of_before before)]

/-- Beyond the 64-bit integers, the sum is taken for one at their other end, which comes before the bound again. -/
theorem comesBefore_past (nonzero : step ≠ 0) (beyond : ¬ Fits (past start.toInt stop.toInt step.toInt)) :
    comesBefore stop step (.ofInt (past start.toInt stop.toInt step.toInt)) = true := by
  have other : step.toInt ≠ 0 := fun same => nonzero (Int64.toInt_inj.1 same)
  obtain first | ⟨k, before, next⟩ := past_eq start.toInt stop.toInt other
  · rw [first] at beyond
    exact absurd (fits_toInt start) beyond
  · obtain ⟨lowest, highest⟩ := fits_of_before before
    rw [next] at beyond
    rw [next, comesBefore_iff nonzero]
    generalize start.toInt + k * step.toInt = last at before lowest highest beyond
    have wrapped : (Int64.ofInt (last + step.toInt)).toInt =
        if (last + step.toInt) % 18446744073709551616 < 9223372036854775808 then (last + step.toInt) % 18446744073709551616
        else (last + step.toInt) % 18446744073709551616 - 18446744073709551616 := Int64.toInt_ofInt.trans (Int.bmod_def _ _)
    have least : Int64.minValue.toInt = -9223372036854775808 := rfl
    have most : Int64.maxValue.toInt = 9223372036854775807 := rfl
    obtain ⟨low, high⟩ := fits_toInt stop
    obtain ⟨low', high'⟩ := fits_toInt step
    rw [wrapped]
    unfold Fits at beyond
    unfold Before at before ⊢
    split <;> omega

/-- Where the progression ends at a 64-bit integer, its integers are what the loop takes. -/
theorem range_of_fits (nonzero : step ≠ 0) (fits : Fits (past start.toInt stop.toInt step.toInt))
    (enough : length start.toInt stop.toInt step.toInt < fuel) :
    range fuel start stop step = some ((integers start.toInt stop.toInt step.toInt).map fun n => int (.ofInt n)) := by
  have other : step.toInt ≠ 0 := fun same => nonzero (Int64.toInt_inj.1 same)
  obtain ⟨more, rfl⟩ := Nat.exists_eq_add_of_le (Nat.succ_le_of_lt enough)
  have ended : ¬ comesBefore stop step (.ofInt (past start.toInt stop.toInt step.toInt)) = true := by
    rw [comesBefore_iff nonzero, toInt_ofInt fits]
    exact not_before_past other
  have passes := rangeFrom_passes [] (fun k => comesBefore_of_lt_length start stop nonzero) (more + 1)
  rw [Int64.ofInt_toInt] at passes
  rw [range, Nat.succ_add_eq_add_succ, passes, rangeFrom]
  unfold past at ended
  rw [if_neg ended, List.append_nil, List.reverse_reverse, integers, List.map_map]
  rfl

/-- Where it ends beyond them, the loop goes on. -/
theorem length_of_range (nonzero : step ≠ 0) (beyond : ¬ Fits (past start.toInt stop.toInt step.toInt))
    (h : range fuel start stop step = some vs) : length start.toInt stop.toInt step.toInt < vs.length := by
  have goesOn := comesBefore_past nonzero beyond
  rw [range, ← Int64.ofInt_toInt start] at h
  obtain short | long := Nat.lt_or_ge fuel (length start.toInt stop.toInt step.toInt)
  · have stuck := rangeFrom_passes [] (m := fuel)
      (fun k less => comesBefore_of_lt_length start stop nonzero (Nat.lt_trans less short)) 0
    rw [Nat.add_zero, h] at stuck
    cases stuck
  · obtain ⟨more, rfl⟩ := Nat.exists_eq_add_of_le long
    rw [rangeFrom_passes [] fun k => comesBefore_of_lt_length start stop nonzero] at h
    simpa using (length_of_rangeFrom h).2 goesOn

end Value

namespace Function

open Value

variable {start stop step : Int64} {fuel : Nat}

/-- The computation comes to the list of the integers, and leaves the store as it is. -/
def Lists (m : Eval Value) (s : Store) (ns : List Int) : Prop :=
  ∃ is : List Int64, m s = .ok (.list (is.map .int), s) ∧ is.map Int64.toInt = ns

theorem rangeBetween_exact_iff (nonzero : step ≠ 0) (enough : length start.toInt stop.toInt step.toInt < fuel) (s : Store) :
    Lists (rangeBetween fuel start stop step) s (integers start.toInt stop.toInt step.toInt) ↔
      Fits (past start.toInt stop.toInt step.toInt) := by
  rw [rangeBetween, if_neg nonzero]
  constructor
  · rintro ⟨is, result, same⟩
    by_contra beyond
    cases found : range fuel start stop step with
    | none =>
      rw [found] at result
      cases result
    | some vs =>
      rw [found] at result
      cases result
      have longer := length_of_range nonzero beyond found
      rw [List.length_map, ← length_integers, ← same, List.length_map] at longer
      exact Nat.lt_irrefl _ longer
  · intro fits
    refine ⟨(integers start.toInt stop.toInt step.toInt).map .ofInt, ?_, ?_⟩
    · rw [range_of_fits nonzero fits enough, List.map_map]
      rfl
    · have other : step.toInt ≠ 0 := fun same => nonzero (Int64.toInt_inj.1 same)
      rw [List.map_map]
      refine (List.map_congr_left fun n mem => ?_).trans (List.map_id _)
      obtain ⟨before, k, rfl⟩ := (mem_integers other).1 mem
      exact toInt_ofInt (fits_of_before before)

/-- **A range is exact if and only if its progression ends within the 64-bit integers**: then the loop ends, and its
integers are those of the progression, in order. -/
theorem rangeOf_exact_iff (nonzero : step ≠ 0) (enough : length start.toInt stop.toInt step.toInt < fuel) (s : Store) :
    Lists (rangeOf fuel [.int start, .int stop, .int step]) s (integers start.toInt stop.toInt step.toInt) ↔
      Fits (past start.toInt stop.toInt step.toInt) :=
  rangeBetween_exact_iff nonzero enough s

/-- A step that ends at the largest integer. -/
theorem rangeOf_exact_largest :
    let arguments : List Value := [.int 9223372036854775800, .int 9223372036854775807, .int 7]
    (7 : Int64) ≠ 0 ∧ length 9223372036854775800 9223372036854775807 7 < 2 ∧
      Lists (rangeOf 2 arguments) (.ofContext (.ofBase []) (.empty [])) [9223372036854775800] :=
  ⟨by decide, by decide,
    (@rangeOf_exact_iff 9223372036854775800 9223372036854775807 7 2 (by decide) (by decide) _).2 (by decide)⟩

/-- The step after `2 ^ 62` leads beyond the largest integer, so the loop starts again from below. -/
theorem rangeOf_wraps :
    let arguments : List Value := [.int 4611686018427387904, .int 5764607523034234880, .int 6917529027641081856]
    let s : Store := .ofContext (.ofBase []) (.empty [])
    integers 4611686018427387904 5764607523034234880 6917529027641081856 = [4611686018427387904] ∧
      rangeOf 4 arguments s = .ok (.list [.int 4611686018427387904, .int (-6917529027641081856), .int 0], s) :=
  ⟨by decide, rfl⟩

/-- Without a step, a range goes up to its bound and no further. -/
theorem past_one (start stop : Int) : past start stop 1 = max start stop := by
  unfold past length
  rw [if_pos (by decide), Int.mul_one, Int.ediv_one]
  omega

theorem rangeOf_ones (enough : length start.toInt stop.toInt 1 < fuel) (s : Store) :
    Lists (rangeOf fuel [.int start, .int stop]) s (integers start.toInt stop.toInt 1) := by
  refine (rangeBetween_exact_iff (show (1 : Int64) ≠ 0 by decide) enough s).2 ?_
  change Fits (past start.toInt stop.toInt 1)
  rw [past_one]
  obtain ⟨low, high⟩ := fits_toInt start
  obtain ⟨low', high'⟩ := fits_toInt stop
  unfold Fits
  omega

end Function

end Stencil
