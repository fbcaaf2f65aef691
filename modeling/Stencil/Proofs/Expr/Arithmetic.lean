import Stencil.Proofs.Expr.Effect
import Stencil.Proofs.Expr.Written

/-!
# Integer arithmetic is exact or fails

`Arithmetic` is what can be built from decimal literals, `+`, `-`, `*`, `%`, signs and parentheses, with the integer
that it stands for. Where every literal and every result fits into 64 bits and no divisor is zero
(`Arithmetic.Exact`), evaluation gives that integer (`Arithmetic.evalWith_exact`). Otherwise it fails: at the first
literal that does not fit, which the parser refuses wherever it stands (`Arithmetic.Composed.stuck`), or else at an
operation (`Arithmetic.evalWith_fails`). So no result has ever been wrapped (`Expression.eval_arithmetic`).
-/

namespace Stencil

open Stencil.Expr Stencil.Expr.Parse

/-! ## Remainders -/

namespace Value

/-- The remainder of a floored division, from that of a truncated one. -/
theorem fmod_eq_tmod_add (m n : Int) :
    m.fmod n = if m.tmod n ≠ 0 ∧ ¬ (m.tmod n < 0 ↔ n < 0) then m.tmod n + n else m.tmod n := by
  have upper : 0 ≤ m → 0 ≤ m.tmod n := Int.tmod_nonneg n
  have lower : m < 0 → m.tmod n ≤ 0 := fun h => by
    have := Int.tmod_nonneg n (a := -m) (by omega)
    rw [Int.neg_tmod] at this
    omega
  have divides : n ∣ m ↔ m.tmod n = 0 := Int.dvd_iff_tmod_eq_zero
  rw [Int.fmod_eq_tmod]
  simp only [divides]
  split_ifs <;> omega

theorem toInt_intRemainder (a : Int64) {b : Int64} (nonzero : b.toInt ≠ 0) :
    (intRemainder a b).toInt = a.toInt.fmod b.toInt := by
  unfold intRemainder
  split
  · rename_i minus
    rw [eq_of_beq minus, Int64.toInt_zero, eq_comm]
    exact Int.fmod_eq_zero_of_dvd (Int.neg_dvd.2 (Int.one_dvd _))
  · rw [fmod_eq_tmod_add]
    have low := b.le_toInt
    have high := b.toInt_lt
    have small : (a.toInt.tmod b.toInt).natAbs < b.toInt.natAbs := by
      rw [Int.natAbs_tmod]
      exact Nat.mod_lt _ (by omega)
    have corrects : (a % b != 0 && decide (a % b < 0) != decide (b < 0)) = true ↔
        a.toInt.tmod b.toInt ≠ 0 ∧ ¬ (a.toInt.tmod b.toInt < 0 ↔ b.toInt < 0) := by
      rw [← Int64.toInt_mod, ← Int64.toInt_zero, ← Int64.lt_iff_toInt_lt, ← Int64.lt_iff_toInt_lt, ne_eq, Int64.toInt_inj]
      simp
    simp only [corrects]
    split_ifs
    · rw [Int64.toInt_add, Int64.toInt_mod]
      -- the signs differ, so the sum lies between the two
      exact Int.bmod_eq_of_le (by omega) (by omega)
    · exact Int64.toInt_mod a b

end Value

namespace Arithmetic

/-- The operations on two integers that have an integer as their result. -/
inductive Operation where
  | add | subtract | multiply | modulo
deriving DecidableEq

namespace Operation

def operator : Operation → Operator
  | add => .add
  | subtract => .subtract
  | multiply => .multiply
  | modulo => .modulo

/-- The result among all integers; a remainder has the sign of the divisor. -/
def apply : Operation → Int → Int → Int
  | add, m, n => m + n
  | subtract, m, n => m - n
  | multiply, m, n => m * n
  | modulo, m, n => m.fmod n

/-- The operation has a result, and that fits into 64 bits. -/
def Defined (op : Operation) (m n : Int) : Prop := (op = modulo → n ≠ 0) ∧ Text.Fits (op.apply m n)

instance (op : Operation) (m n : Int) : Decidable (op.Defined m n) := inferInstanceAs (Decidable (_ ∧ _))

end Operation

end Arithmetic

/-- An expression that is made of decimal literals by signs and operations. -/
inductive Arithmetic where
  | numeral (digits : Text)
  | negate (a : Arithmetic)
  | identity (a : Arithmetic)
  | operation (op : Arithmetic.Operation) (left right : Arithmetic)

namespace Arithmetic

/-- The integer that the expression stands for. -/
def value : Arithmetic → Int
  | numeral digits => Text.digitsValue digits
  | negate a => -a.value
  | identity a => a.value
  | operation op a b => op.apply a.value b.value

/-- Every literal and every result fits into 64 bits, and no divisor is zero. -/
def Exact : Arithmetic → Prop
  | numeral digits => Text.Fits (Text.digitsValue digits)
  | negate a => a.Exact ∧ Text.Fits (-a.value)
  | identity a => a.Exact
  | operation op a b => a.Exact ∧ b.Exact ∧ op.Defined a.value b.value

/-- The first literal that does not fit into 64 bits. -/
def misfit? : Arithmetic → Option Text
  | numeral digits => if Text.Fits (Text.digitsValue digits) then none else some digits
  | negate a | identity a => a.misfit?
  | operation _ a b => a.misfit?.or b.misfit?

/-- The tree of the expression. -/
def tree : Arithmetic → Expr
  | numeral digits => .literal (.int (Int64.ofInt (Text.digitsValue digits)))
  | negate a => .unary .negate a.tree
  | identity a => .unary .identity a.tree
  | operation op a b => .binary op.operator a.tree b.tree

/-! ## How expressions are written -/

/-- The lexemes make up an expression of the level. -/
inductive Composed : Level → List Lexeme → Arithmetic → Prop
  | tighter {level : Level} {xs : List Lexeme} {a : Arithmetic} (loose : level ≠ .atom) (h : Composed level.operand xs a) :
      Composed level xs a
  | operation {op : Operation} {xs ys : List Lexeme} {a b : Arithmetic} (first : Composed op.operator.level xs a)
      (second : Composed op.operator.level.operand ys b) :
      Composed op.operator.level (xs ++ (op.operator.lexemes ++ ys)) (.operation op a b)
  | negate {xs : List Lexeme} {a : Arithmetic} (h : Composed .sign xs a) : Composed .sign (.symbol .minus :: xs) (.negate a)
  | identity {xs : List Lexeme} {a : Arithmetic} (h : Composed .sign xs a) : Composed .sign (.symbol .plus :: xs) (.identity a)
  | numeral {digits : Text} (some : digits ≠ []) (all : ∀ c ∈ digits, c.isDigit = true) :
      Composed .atom [.integer digits] (.numeral digits)
  | parenthesised {xs : List Lexeme} {a : Arithmetic} (h : Composed .conditional xs a) :
      Composed .atom (.symbol .openParen :: (xs ++ [.symbol .closeParen])) a

/-- The source is made of the lexemes of the expression, with any white space between them. -/
def WrittenAs (a : Arithmetic) (source : Text) : Prop := ∃ xs, Cuts source xs ∧ Composed .conditional xs a

theorem Composed.starts {level : Level} {xs : List Lexeme} {a : Arithmetic} (h : Composed level xs a) :
    ∃ x ys, xs = x :: ys ∧ x.Opens level := by
  induction h with
  | tighter _ _ ih =>
    obtain ⟨x, ys, same, l, opens, le⟩ := ih
    exact ⟨x, ys, same, l, opens, Nat.le_trans (Level.rank_le_operand _) le⟩
  | operation _ _ ih _ =>
    obtain ⟨x, ys, rfl, opens⟩ := ih
    exact ⟨x, _, rfl, opens⟩
  | negate | identity | numeral | parenthesised => exact ⟨_, _, rfl, _, rfl, Nat.le_refl _⟩

theorem Composed.loosen {level level' : Level} {xs : List Lexeme} {a : Arithmetic} (h : Composed level xs a)
    (le : level'.rank ≤ level.rank) : Composed level' xs a :=
  Level.loosen (P := fun level => Composed level xs a) (fun _ loose => .tighter loose) h le

/-- A literal alone. -/
theorem writtenAs_numeral {c : Byte} {r : Text} (all : ∀ d ∈ c :: r, d.isDigit = true) :
    (numeral (c :: r)).WrittenAs (c :: r) :=
  ⟨_, (writing_lexeme (.integer all)).cuts, (Composed.numeral (List.cons_ne_nil c r) all).loosen (by decide)⟩

/-- Where all literals fit, the grammar of expressions derives the tree. -/
theorem Composed.derives {level : Level} {xs : List Lexeme} {a : Arithmetic} (h : Composed level xs a)
    (fits : a.misfit? = none) : Derives level xs a.tree := by
  induction h with
  | tighter loose _ ih => exact .tighter loose (ih fits)
  | operation _ _ ih ih' =>
    obtain ⟨left, right⟩ := Option.or_eq_none_iff.1 fits
    exact .binary (ih left) (ih' right)
  | negate _ ih => exact .negate (ih fits)
  | identity _ ih => exact .identity (ih fits)
  | parenthesised _ ih => exact .parenthesised (ih fits)
  | @numeral digits some all =>
    have fit : Text.Fits (Text.digitsValue digits) := by
      by_contra out
      simp [misfit?, out] at fits
    exact .integer ((Text.toInt64_digits some all).trans (Text.fitInt64_eq_some fit))

/-! ## Literals that do not fit -/

/-- Reading has stopped at digits that denote no 64-bit integer. -/
def Overruns {α : Type} (source digits : Text) (r : Except SyntaxError (α × List Token)) : Prop :=
  ∃ offset, r = .error ⟨.integerOutOfRange digits, offset, source⟩

variable {source digits : Text}

theorem leads_bind {α β : Type} {p : Parse α} {f : α → Parse β} {xs : List Lexeme}
    (h : Leads p xs (Overruns source digits)) : Leads (p >>= f) xs (Overruns source digits) := by
  intro ts same
  obtain ⟨offset, stopped⟩ := h ts same
  refine ⟨offset, ?_⟩
  change (p ts).bind _ = _
  rw [stopped]
  rfl

/-- The parser, given sixteen steps for each of the lexemes, stops at the digits. -/
def Stuck (source digits : Text) (level : Level) (xs : List Lexeme) : Prop :=
  ∀ n rest, 16 * xs.length ≤ n + level.rank → Leads (readAt source n level) (xs ++ rest) (Overruns source digits)

variable {level : Level} {xs ys : List Lexeme} {a : Arithmetic}

theorem Composed.length_pos (h : Composed level xs a) : 0 < xs.length := by
  obtain ⟨x, ys, rfl, -⟩ := h.starts
  exact Nat.succ_pos _

theorem stuck_numeral (some : digits ≠ []) (all : ∀ c ∈ digits, c.isDigit = true)
    (out : ¬ Text.Fits (Text.digitsValue digits)) : Stuck source digits .atom [.integer digits] := by
  intro n rest enough
  simp only [Level.rank, List.length_singleton] at enough
  obtain ⟨n, rfl⟩ : ∃ k, n = k + 2 := ⟨n - 2, by omega⟩
  rw [readAt]
  refine (reads_advance (by simp) rest).bind fun t known => ?_
  have text := Token.text_of_lexeme known (by simp [Lexeme.kind])
  have none : Text.toInt64? digits = none := (Text.toInt64_digits some all).trans (Text.fitInt64_eq_none out)
  rw [readAtom, kind_of_lexeme known, text]
  simp only [Lexeme.kind, Lexeme.text, none]
  exact fun ts _ => ⟨t.offset, rfl⟩

theorem stuck_parenthesised (starts : Composed .conditional xs a) (h : Stuck source digits .conditional xs) :
    Stuck source digits .atom (.symbol .openParen :: (xs ++ [.symbol .closeParen])) := by
  intro n rest enough
  simp only [Level.rank, List.length_append, List.length_cons, List.length_nil] at enough
  obtain ⟨n, rfl⟩ : ∃ k, n = k + 2 := ⟨n - 2, by omega⟩
  rw [readAt, List.cons_append, List.append_assoc]
  refine (reads_advance (x := .symbol .openParen) (by simp) _).bind fun t known => ?_
  rw [readAtom, kind_of_lexeme known]
  refine .refuses (Lexeme.Opens.kind_ne starts.starts (x := .symbol .closeParen) (by rintro _ ⟨⟩) _) (by decide) ?_
  exact leads_bind (h n _ (by simp only [Level.rank]; omega))

theorem stuck_negate (h : Stuck source digits .sign xs) : Stuck source digits .sign (.symbol .minus :: xs) := by
  intro n rest enough
  simp only [Level.rank, List.length_cons] at enough
  obtain ⟨n, rfl⟩ : ∃ k, n = k + 1 := ⟨n - 1, by omega⟩
  rw [readAt]
  exact .accepts (x := .symbol .minus) rfl (by decide) (leads_bind (h n rest (by simp only [Level.rank]; omega)))

theorem stuck_identity (h : Stuck source digits .sign xs) : Stuck source digits .sign (.symbol .plus :: xs) := by
  intro n rest enough
  simp only [Level.rank, List.length_cons] at enough
  obtain ⟨n, rfl⟩ : ∃ k, n = k + 1 := ⟨n - 1, by omega⟩
  rw [readAt]
  refine .refuses (k := .symbol .minus) (by rintro _ ⟨⟩; decide) (by decide) ?_
  exact .accepts (x := .symbol .plus) rfl (by decide) (leads_bind (h n rest (by simp only [Level.rank]; omega)))

theorem stuck_left {op : Operation} (h : Stuck source digits op.operator.level xs) :
    Stuck source digits op.operator.level (xs ++ ys) := by
  intro n rest enough
  rw [List.length_append] at enough
  rw [List.append_assoc]
  exact h n (ys ++ rest) (by omega)

/-- The left operand is read, and its operator. -/
theorem stuck_right {op : Operation} {left : Expr} (first : Derives op.operator.level xs left)
    (h : Stuck source digits op.operator.level.operand ys) :
    Stuck source digits op.operator.level (xs ++ (op.operator.lexemes ++ ys)) := by
  intro n rest enough
  have written : 0 < op.operator.lexemes.length := by cases op <;> decide
  have rank : op.operator.level.operand.rank = op.operator.level.rank + 1 := Level.rank_operand (by cases op <;> decide)
  have low := (Level.inner_le op.operator.level).2
  have length := first.length_pos
  simp only [List.length_append] at enough
  obtain ⟨m, left, read⟩ := first.resumes source n (op.operator.lexemes ++ (ys ++ rest)) (by omega)
    (Level.inner_operator op.operator ▸ stops_operator op.operator _)
  obtain ⟨m, rfl⟩ : ∃ k, m = k + 1 := ⟨m - 1, by omega⟩
  rw [List.append_assoc, List.append_assoc]
  refine read _ ?_
  rw [resume_operator, readOperators]
  have other : op.operator = .is → ∀ x ∈ (ys ++ rest).head?, x.kind ≠ .keyword .not := by
    cases op <;> simp [Operation.operator]
  refine (reads_operator op.operator other).bind fun _ same => same ▸ ?_
  exact leads_bind (h m rest (by omega))

theorem stuck_tighter (loose : level ≠ .atom) (starts : Composed level.operand xs a)
    (h : Stuck source digits level.operand xs) : Stuck source digits level xs := by
  intro n rest enough
  have rank := Level.rank_operand loose
  have low := (Level.inner_le level).2
  have length := starts.length_pos
  obtain ⟨n, rfl⟩ : ∃ k, n = k + 1 := ⟨n - 1, by omega⟩
  have operand := h n rest (by omega)
  obtain ⟨op, rfl⟩ | case := Level.cases_operator level
  · rw [readAt_operator]
    exact leads_bind operand
  · simp only [List.mem_cons, List.not_mem_nil, or_false] at case
    -- the levels without operators, from the loosest one to atoms
    obtain rfl | rfl | rfl | rfl | rfl := case
    · rw [readAt]
      exact leads_bind operand
    · rw [readAt]
      exact .refuses (Lexeme.Opens.kind_ne starts.starts (x := .keyword .not) (by rintro _ ⟨⟩; decide) rest) (by decide) operand
    · rw [readAt]
      exact .refuses (Lexeme.Opens.kind_ne starts.starts (x := .symbol .minus) (by rintro _ ⟨⟩; decide) rest) (by decide) <|
        .refuses (Lexeme.Opens.kind_ne starts.starts (x := .symbol .plus) (by rintro _ ⟨⟩; decide) rest) (by decide) operand
    · rw [readAt]
      exact leads_bind operand
    · exact absurd rfl loose

/-- **The parser stops at the first literal of an expression that does not fit.** -/
theorem Composed.stuck (h : Composed level xs a) (misfit : a.misfit? = some digits) : Stuck source digits level xs := by
  induction h with
  | tighter loose h ih => exact stuck_tighter loose h (ih misfit)
  | @operation op xs ys a b first second ih ih' =>
    rw [misfit?, Option.or_eq_some_iff] at misfit
    obtain left | ⟨fits, right⟩ := misfit
    · exact stuck_left (ih left)
    · exact stuck_right (first.derives fits) (ih' right)
  | negate _ ih => exact stuck_negate (ih misfit)
  | identity _ ih => exact stuck_identity (ih misfit)
  | parenthesised h ih => exact stuck_parenthesised h (ih misfit)
  | numeral some all =>
    unfold misfit? at misfit
    split at misfit
    next => cases misfit
    next out =>
      cases misfit
      exact stuck_numeral some all out

/-! ## Trees of whole sources -/

theorem WrittenAs.parse_of_fits (h : a.WrittenAs source) (fits : a.misfit? = none) : Expr.parse source = .ok a.tree := by
  obtain ⟨xs, cuts, composed⟩ := h
  obtain ⟨ts, scanned, lexemes⟩ := Token.scan_of_cuts cuts
  exact parse_of_derives scanned lexemes (composed.derives fits)

theorem WrittenAs.parse_of_misfit (h : a.WrittenAs source) (misfit : a.misfit? = some digits) :
    ∃ offset, Expr.parse source = .error ⟨.integerOutOfRange digits, offset, source⟩ := by
  obtain ⟨xs, cuts, composed⟩ := h
  obtain ⟨ts, scanned, lexemes⟩ := Token.scan_of_cuts cuts
  have count : ts.length = xs.length + 1 := by simpa using congrArg List.length lexemes
  have stuck : Stuck source digits .conditional xs := composed.stuck misfit
  obtain ⟨offset, stopped⟩ := stuck (stepsFor ts.length) [.endOfInput] (by unfold stepsFor; omega) ts lexemes
  have some : (ahead ts).kind ≠ .endOfInput := by
    rw [kind_ahead lexemes]
    obtain ⟨x, ys, rfl, -⟩ := composed.starts
    exact Lexeme.Opens.kind_ne composed.starts (x := .endOfInput) (by rintro _ ⟨⟩) [.endOfInput] x rfl
  refine ⟨offset, ?_⟩
  simp only [parse, scanned, ofTokens, some, if_false, stopped]

/-! ## Evaluation -/

/-- The errors of operations on integers that have no result in 64 bits. -/
inductive Fails : EvalError → Prop
  | negation : Fails .negationOverflow
  | overflow (op : Operation) (m n : Int64) (out : ¬ Text.Fits (op.apply m.toInt n.toInt)) : Fails (.overflow op.operator m n)
  | moduloByZero : Fails .moduloByZero

/-- One operation on two integers. -/
theorem applyBinary_int (op : Operation) (m n : Int64) : Value.applyBinary op.operator (.int m) (.int n) =
    if op = .modulo ∧ n.toInt = 0 then .error .moduloByZero
    else Value.checked op.operator m n (op.apply m.toInt n.toInt) := by
  cases op with
  | modulo =>
    have zero : n = 0 ↔ n.toInt = 0 := by rw [← Int64.toInt_inj, Int64.toInt_zero]
    simp only [Operation.operator, Value.applyBinary, Value.arithmetic, Value.intArithmetic, Operation.apply, beq_iff_eq, zero,
      true_and]
    split_ifs with none
    · rfl
    · rw [← Value.toInt_intRemainder m none, Value.checked, Text.fitInt64_toInt]
  | _ => rfl

theorem applyBinary_defined {op : Operation} {m n : Int64} (h : op.Defined m.toInt n.toInt) :
    Value.applyBinary op.operator (.int m) (.int n) = .ok (.int (Int64.ofInt (op.apply m.toInt n.toInt))) := by
  rw [applyBinary_int, if_neg fun zero => h.1 zero.1 zero.2, Value.checked, Text.fitInt64_eq_some h.2]

theorem applyBinary_fails {op : Operation} {m n : Int64} (h : ¬ op.Defined m.toInt n.toInt) :
    ∃ e, Fails e ∧ Value.applyBinary op.operator (.int m) (.int n) = .error e := by
  rw [applyBinary_int]
  by_cases zero : op = .modulo ∧ n.toInt = 0
  · exact ⟨_, .moduloByZero, if_pos zero⟩
  · have out : ¬ Text.Fits (op.apply m.toInt n.toInt) := fun fits => h ⟨fun modulo none => zero ⟨modulo, none⟩, fits⟩
    rw [if_neg zero, Value.checked, Text.fitInt64_eq_none out]
    exact ⟨_, .overflow op m n out, rfl⟩

theorem applyUnary_negate (n : Int64) : Value.applyUnary .negate (.int n) =
    if Text.Fits (-n.toInt) then .ok (.int (Int64.ofInt (-n.toInt))) else .error .negationOverflow := by
  rw [Value.applyUnary]
  split_ifs with fits
  · rw [Text.fitInt64_eq_some fits]
  · rw [Text.fitInt64_eq_none fits]

section

variable {call : Caller} {s : Store} {e e' : Expr} {v w : Value} {why : Stop}

theorem evalWith_unary (op : UnaryOperator) (h : e.evalWith call s = .ok (v, s)) :
    (Expr.unary op e).evalWith call s = Eval.ofResult (v.applyUnary op) s := by
  rw [evalWith]
  exact Eval.bind_of_ok h

theorem evalWith_binary (op : Operation) (h : e.evalWith call s = .ok (v, s)) (h' : e'.evalWith call s = .ok (w, s)) :
    (Expr.binary op.operator e e').evalWith call s = Eval.ofResult (Value.applyBinary op.operator v w) s := by
  rw [evalWith, Eval.bind_of_ok h]
  cases op <;> exact Eval.bind_of_ok h'

/-- The right operand is evaluated after the left one. -/
theorem evalWith_right_error (op : Operation) (h : e.evalWith call s = .ok (v, s)) (h' : e'.evalWith call s = .error why) :
    (Expr.binary op.operator e e').evalWith call s = .error why := by
  rw [evalWith, Eval.bind_of_ok h]
  cases op <;> exact Eval.bind_of_error h'

theorem Exact.fits (h : a.Exact) : Text.Fits a.value := by
  induction a with
  | numeral digits => exact h
  | negate a => exact h.2
  | identity a ih => exact ih h
  | operation op a b => exact h.2.2.2

theorem Exact.toInt_value (h : a.Exact) : (Int64.ofInt a.value).toInt = a.value := Text.toInt_ofInt h.fits

/-- Where everything fits, the tree evaluates to the integer that the expression stands for. -/
theorem evalWith_exact (h : a.Exact) : a.tree.evalWith call s = .ok (.int (Int64.ofInt a.value), s) := by
  induction a with
  | numeral digits =>
    rw [tree, evalWith]
    rfl
  | negate a ih =>
    rw [tree, evalWith_unary .negate (ih h.1), applyUnary_negate, h.1.toInt_value, if_pos h.2]
    rfl
  | identity a ih =>
    rw [tree, evalWith_unary .identity (ih h)]
    rfl
  | operation op a b ih ih' =>
    obtain ⟨left, right, defined⟩ := h
    rw [← left.toInt_value, ← right.toInt_value] at defined
    rw [tree, evalWith_binary op (ih left) (ih' right), applyBinary_defined defined, left.toInt_value, right.toInt_value]
    rfl

/-- Where all literals fit but something else does not, an operation fails. -/
theorem evalWith_fails (fits : a.misfit? = none) (h : ¬ a.Exact) :
    ∃ e, Fails e ∧ a.tree.evalWith call s = .error (.fault (.badEvaluation e none)) := by
  induction a with
  | numeral digits =>
    simp only [misfit?, ite_eq_left_iff, reduceCtorEq, imp_false, not_not] at fits
    exact absurd fits h
  | negate a ih =>
    by_cases exact : a.Exact
    · have out : ¬ Text.Fits (-a.value) := fun range => h ⟨exact, range⟩
      refine ⟨_, .negation, ?_⟩
      rw [tree, evalWith_unary .negate (evalWith_exact exact), applyUnary_negate, exact.toInt_value, if_neg out]
      rfl
    · obtain ⟨e, fails, stopped⟩ := ih fits exact
      exact ⟨e, fails, by rw [tree, evalWith]; exact Eval.bind_of_error stopped⟩
  | identity a ih =>
    obtain ⟨e, fails, stopped⟩ := ih fits h
    exact ⟨e, fails, by rw [tree, evalWith]; exact Eval.bind_of_error stopped⟩
  | operation op a b ih ih' =>
    obtain ⟨left, right⟩ := Option.or_eq_none_iff.1 fits
    by_cases exact : a.Exact
    · by_cases exact' : b.Exact
      · have undefined : ¬ op.Defined a.value b.value := fun defined => h ⟨exact, exact', defined⟩
        rw [← exact.toInt_value, ← exact'.toInt_value] at undefined
        obtain ⟨e, fails, failed⟩ := applyBinary_fails undefined
        refine ⟨e, fails, ?_⟩
        rw [tree, evalWith_binary op (evalWith_exact exact) (evalWith_exact exact'), failed]
        rfl
      · obtain ⟨e, fails, stopped⟩ := ih' right exact'
        exact ⟨e, fails, evalWith_right_error op (evalWith_exact exact) stopped⟩
    · obtain ⟨e, fails, stopped⟩ := ih left exact
      exact ⟨e, fails, by rw [tree, evalWith]; exact Eval.bind_of_error stopped⟩

end

theorem Exact.misfit (h : a.Exact) : a.misfit? = none := by
  induction a with
  | numeral digits => exact if_pos h
  | negate a ih => exact ih h.1
  | identity a ih => exact ih h
  | operation op a b ih ih' => exact Option.or_eq_none_iff.2 ⟨ih h.1, ih' h.2.1⟩

end Arithmetic

/-- **Integer arithmetic is exact or fails.** The value of an arithmetic expression is the integer it stands for, if
every literal and every result fits into 64 bits and no divisor is zero. Else there is none: a literal that does not
fit is a syntax error, and anything else an error of an operation. -/
theorem Expression.eval_arithmetic {a : Arithmetic} {source : Text} (written : a.WrittenAs source) (fuel : Nat) (s : Store) :
    (a.Exact → ∃ n : Int64, Expression.eval fuel ⟨source⟩ s = .ok (.int n, s) ∧ n.toInt = a.value) ∧
    (∀ digits, a.misfit? = some digits → ∃ offset,
      Expression.eval fuel ⟨source⟩ s = .error (.fault (.badSyntax ⟨.integerOutOfRange digits, offset, source⟩ none))) ∧
    (a.misfit? = none → ¬ a.Exact → ∃ e, Arithmetic.Fails e ∧
      Expression.eval fuel ⟨source⟩ s = .error (.fault (.badEvaluation e none))) := by
  have evaluated (fits : a.misfit? = none) : Expression.eval fuel ⟨source⟩ = a.tree.evalWith (Function.call fuel) := by
    rw [Expression.eval, Expression.evalWith, Expression.tree, written.parse_of_fits fits]
  refine ⟨fun exact => ?_, fun digits misfit => ?_, fun fits inexact => ?_⟩
  · rw [evaluated exact.misfit]
    exact ⟨_, Arithmetic.evalWith_exact exact, exact.toInt_value⟩
  · obtain ⟨offset, failed⟩ := written.parse_of_misfit misfit
    refine ⟨offset, ?_⟩
    rw [Expression.eval, Expression.evalWith, Expression.tree, failed]
    rfl
  · rw [evaluated fits]
    exact Arithmetic.evalWith_fails fits inexact

namespace Arithmetic

/-- A sum in parentheses, and a divisor with a sign. -/
def remainder : Arithmetic := .operation .modulo (.operation .add (.numeral "1") (.numeral "8")) (.negate (.numeral "4"))

theorem writtenAs_remainder : remainder.WrittenAs "(1 + 8)% -4" := by
  have digit (d : Text) (some : d ≠ []) (all : d.all Byte.isDigit = true) : Composed .atom [.integer d] (.numeral d) :=
    .numeral some (List.all_eq_true.1 all)
  have written : Writing "(1 + 8)% -4" [.symbol .openParen, .integer "1", .symbol .plus, .integer "8", .symbol .closeParen,
      .symbol .percent, .symbol .minus, .integer "4"] := by
    have four : Lexeme.IsWritten (.integer "4") "4" := .integer (List.all_eq_true.1 (by decide))
    have divisor := ((writing_lexeme four).symbol (s := .minus) (by decide)).blank.symbol (s := .percent) (by decide)
    have closed := divisor.symbol (s := .closeParen) (by decide)
    have eight := closed.cons (.integer (c := 56) (r := []) (List.all_eq_true.1 (by decide)))
      fun _ _ => (settled_cons (by decide) _).ends _
    have plus := (eight.blank.symbol (s := .plus) (by decide)).blank
    have one := plus.cons (.integer (c := 49) (r := []) (List.all_eq_true.1 (by decide)))
      fun _ _ => (settled_cons (by decide) _).ends _
    exact one.symbol (s := .openParen) (by decide)
  have sum : Composed .sum [.integer "1", .symbol .plus, .integer "8"] _ := @Composed.operation .add _ _ _ _
    ((digit "1" (by decide) (by decide)).loosen (by decide)) ((digit "8" (by decide) (by decide)).loosen (by decide))
  have divisor := Composed.negate ((digit "4" (by decide) (by decide)).loosen (by decide))
  have product : Composed .product _ remainder := @Composed.operation .modulo _ _ _ _
    ((Composed.parenthesised (sum.loosen (by decide))).loosen (by decide)) (divisor.loosen (by decide))
  exact ⟨_, written.cuts, product.loosen (by decide)⟩

end Arithmetic

/-- A remainder, a literal that does not fit, and a result. -/
theorem Expression.eval_arithmetic_remainder :
    let s : Store := .ofContext (.ofBase []) (.empty [])
    (Arithmetic.remainder.WrittenAs "(1 + 8)% -4" ∧ Arithmetic.remainder.Exact ∧
      ∃ n : Int64, Expression.eval 0 ⟨"(1 + 8)% -4"⟩ s = .ok (.int n, s) ∧ n.toInt = -3) ∧
    ∃ offset, Expression.eval 0 ⟨"9223372036854775808"⟩ s =
      .error (.fault (.badSyntax ⟨.integerOutOfRange "9223372036854775808", offset, "9223372036854775808"⟩ none)) := by
  have exact : Arithmetic.remainder.Exact := by
    simp only [Arithmetic.remainder, Arithmetic.Exact]
    decide
  refine ⟨⟨Arithmetic.writtenAs_remainder, exact, ?_⟩, ?_⟩
  · exact (eval_arithmetic Arithmetic.writtenAs_remainder 0 _).1 exact
  · have written := Arithmetic.writtenAs_numeral (c := 57) (r := "223372036854775808") (List.all_eq_true.1 (by decide))
    exact (eval_arithmetic written 0 _).2.1 _ (by decide)

end Stencil
