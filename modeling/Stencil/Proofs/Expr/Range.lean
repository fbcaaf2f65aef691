import Mathlib.Algebra.Group.Nat.Defs
import Stencil.Proofs.Expr.Effect

/-!
# Ranges and the fuel of calls

A range goes through the 64-bit integers step by step and comes back to where it started after `2 ^ 64` steps, if not
before. So a range of more integers has no end, and where no template has defined a function, a fixed amount of fuel
is enough for all expressions that come to a value (`Expression.eval_enough`).
-/

namespace Stencil

namespace Value

variable {stop step i : Int64} {acc vs : List Value} {fuel : Nat}

/-- A range ends at the first integer that does not come before its bound. -/
theorem rangeFrom_isSome : (rangeFrom stop step acc fuel i).isSome = true ↔
    ∃ m < fuel, comesBefore stop step (i + Int64.ofNat m * step) = false := by
  induction fuel generalizing acc i with
  | zero => simp [rangeFrom]
  | succ fuel ih =>
    have first : i + Int64.ofNat 0 * step = i := by grind
    have later (m : Nat) : i + step + Int64.ofNat m * step = i + Int64.ofNat (m + 1) * step := by
      rw [Int64.ofNat_add]
      grind
    rw [rangeFrom]
    split
    · rename_i before
      rw [ih]
      constructor
      · rintro ⟨m, less, reached⟩
        exact ⟨m + 1, by omega, later m ▸ reached⟩
      · rintro ⟨m, less, reached⟩
        cases m with
        | zero =>
          rw [first, before] at reached
          cases reached
        | succ m => exact ⟨m, by omega, (later m).symm ▸ reached⟩
    · rename_i after
      refine iff_of_true rfl ⟨0, by omega, ?_⟩
      rw [first]
      simpa using after

/-- A range that has not ended after `2 ^ 64` integers has no end. -/
theorem range_of_size {start : Int64} (h : range fuel start stop step = some vs) :
    range (2 ^ 64) start stop step = some vs := by
  have ends : (range fuel start stop step).isSome = true := by rw [h]; rfl
  obtain ⟨m, -, reached⟩ := rangeFrom_isSome.1 ends
  have same : Int64.ofNat (m % 2 ^ 64) = Int64.ofNat m := by
    apply Int64.toBitVec_inj.1
    apply BitVec.eq_of_toNat_eq
    simp
  have soon : (range (2 ^ 64) start stop step).isSome = true :=
    rangeFrom_isSome.2 ⟨m % 2 ^ 64, Nat.mod_lt _ (by decide), same ▸ reached⟩
  obtain ⟨ws, found⟩ := Option.isSome_iff_exists.1 soon
  -- with the fuel of both, the range is what each of them gives
  have more := (Function.rangeFrom_of_le (k := .all) (Nat.le_max_left fuel (2 ^ 64)) (by simp) h).1
  have more' := (Function.rangeFrom_of_le (k := .all) (Nat.le_max_right fuel (2 ^ 64)) (by simp) found).1
  rw [found, ← more, more']

end Value

/-! ## Enough fuel -/

/-- The stock has no function that a template has defined. -/
def Stock.Built (k : Stock) : Prop := ∀ f, k.function f → ∀ signature body, f.kind ≠ .template signature body

namespace Function

open Eval

variable {k : Stock} {R : Store → Store → Prop}

/-- Fuel for all calls that come to a value, unless of a function that a template has defined. -/
def enough : Nat := 2 ^ 64 + 1

theorem rangeBetween_enough (fuel : Nat) (start stop step : Int64) :
    Simulates R (rangeBetween fuel start stop step) (rangeBetween (2 ^ 64) start stop step) (Value.From k) := by
  unfold rangeBetween
  split
  · exact simulates_fail _
  · cases found : Value.range fuel start stop step with
    | none => exact simulates_outOfFuel _
    | some vs =>
      rw [Value.range_of_size found]
      exact simulates_pure (Value.from_list.2 (rangeFrom_of_le (Nat.le_refl _) (by simp) found).2)

theorem rangeOf_enough (fuel : Nat) (vs : List Value) :
    Simulates R (rangeOf fuel vs) (rangeOf (2 ^ 64) vs) (Value.From k) := by
  unfold rangeOf
  split
  · exact (simulates_asInt _).bind fun b _ => rangeBetween_enough fuel _ _ _
  · exact (simulates_asInt _).bind fun a _ => (simulates_asInt _).bind fun b _ => rangeBetween_enough fuel _ _ _
  · exact (simulates_asInt _).bind fun a _ => (simulates_asInt _).bind fun b _ => (simulates_asInt _).bind fun c _ =>
      rangeBetween_enough fuel _ _ _
  · exact simulates_fail _

/-- No amount of fuel is better than enough. -/
theorem call_enough (allows : Allows k R) (built : k.Built) (fuel : Nat) :
    Expr.Covers k R (Function.call fuel) (Function.call enough) := by
  intro f a hf ha
  cases fuel with
  | zero => exact simulates_outOfFuel _
  | succ fuel =>
    cases kind : f.kind with
    | template signature body => exact absurd kind (built f hf signature body)
    | range =>
      have calls (n : Nat) : Function.call (n + 1) f a = rangeOf n a.positional := by simp only [Function.call, kind]
      unfold enough
      rw [calls fuel, calls (2 ^ 64)]
      exact rangeOf_enough fuel _
    | _ =>
      have calls (n : Nat) : Function.call (n + 1) f a = Function.call 1 f a := by simp only [Function.call, kind]
      unfold enough
      rw [calls fuel, calls (2 ^ 64)]
      exact call_simulates allows (Nat.le_refl 1) f a hf ha

end Function

/-! ## Expressions and attributes -/

open Eval

variable {k : Stock} {I : Store → Prop} {s : Store} {fuel : Nat}

theorem Eval.same_of_simulates {α : Type} {Q : α → Prop} {m m' : Eval α} (h : Simulates (Same I) m' m Q) (hs : I s)
    (more : m s ≠ .error .outOfFuel → m' s = m s) : m' s = m s := by
  by_cases lacks : m s = .error .outOfFuel
  · have agree := h s s ⟨rfl, hs⟩
    rw [lacks] at agree ⊢
    generalize m' s = x at agree
    cases agree <;> rfl
  · exact more lacks

section

variable (allows : Allows k (Same I)) (built : k.Built) (hs : I s) (le : Function.enough ≤ fuel)
include allows built

theorem Expression.eval_back (fuel : Nat) (e : Expression) :
    Simulates (Same I) (e.eval fuel) (e.eval Function.enough) (Value.From k) := by
  unfold Expression.eval Expression.evalWith
  split
  · exact Expr.evalWith_simulates allows (Function.call_enough allows built fuel) _
  · exact simulates_stop trivial

include hs le

/-- **Enough fuel is enough**: where no function is at hand that a template has defined, an expression that has no
value with that fuel has none with more. -/
theorem Expression.eval_enough (e : Expression) : e.eval fuel s = e.eval Function.enough s :=
  same_of_simulates (e.eval_back allows built fuel) hs (Expression.eval_of_le le)

theorem Attributes.eval_enough (as : Attributes) : Attributes.eval fuel as s = Attributes.eval Function.enough as s :=
  same_of_simulates (as.simulates_of_expressions (Expression.eval_back allows built fuel)) hs (Attributes.eval_of_le le)

end

end Stencil
