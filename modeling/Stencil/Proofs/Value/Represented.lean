import Stencil.Proofs.Expr.Written
import Stencil.Proofs.Text.Order
import Stencil.Expr.Evaluation

/-!
# Representations

The representation of a value is an expression for it: `Value.tree` is the tree that its text is read as
(`Value.writes_represent`), and evaluating the tree makes the value again, whatever the context
(`Value.evalWith_tree`). A negative integer is written as a sign before a number, so the smallest integer, which has no
counterpart, is left out; so are doubles, functions and streams.
-/

namespace Stencil

/-! ## Sorted entries -/

namespace Entries

/-- Every key comes before the next ones. -/
def Sorted (es : List (Text × Value)) : Prop := es.Pairwise fun p q => Text.order p.1 q.1 = .lt

/-- A key that comes after the others is bound at the end. -/
theorem insert_last {key : Text} {v : Value} {es : List (Text × Value)} (h : ∀ p ∈ es, Text.order p.1 key = .lt) :
    insert key v es = es ++ [(key, v)] := by
  induction es with
  | nil => rfl
  | cons p es ih =>
    obtain ⟨first, others⟩ := List.forall_mem_cons.1 h
    rw [insert, Text.order_swap p.1 key, first]
    exact congrArg (p :: ·) (ih others)

end Entries

namespace Value

mutual

/-- The value is made of None, booleans, integers but the smallest one, strings, lists and dicts. -/
def Plain : Value → Prop
  | none | bool _ | text _ => True
  | int n => n ≠ Int64.minValue
  | list vs => AllPlain vs
  | dict es => Entries.Sorted es ∧ AllPlainEntries es
  | _ => False

def AllPlain : List Value → Prop
  | [] => True
  | v :: vs => v.Plain ∧ AllPlain vs

def AllPlainEntries : List (Text × Value) → Prop
  | [] => True
  | (_, v) :: es => v.Plain ∧ AllPlainEntries es

end

mutual

/-- The tree of the representation, where the value has one. -/
def tree : Value → Expr
  | none | undefined | float _ | function _ | stream _ => .literal .none
  | bool b => .literal (.bool b)
  | int n => if n.toInt < 0 then .unary .negate (.literal (.int (-n))) else .literal (.int n)
  | text t => .literal (.text t)
  | list vs => .list (trees vs)
  | dict es => .dict (treeEntries es)

def trees : List Value → List Expr
  | [] => []
  | v :: vs => v.tree :: trees vs

def treeEntries : List (Text × Value) → List (Expr × Expr)
  | [] => []
  | (k, v) :: es => (.literal (.text k), v.tree) :: treeEntries es

end

/-! ## Reading -/

theorem toInt_neg {n : Int64} (h : n ≠ Int64.minValue) : (-n).toInt = -n.toInt := by
  have low : -2 ^ 63 ≤ n.toInt := n.minValue_le_toInt
  have high : n.toInt ≤ 2 ^ 63 - 1 := n.toInt_le
  have other : n.toInt ≠ -2 ^ 63 := fun same => h (Int64.toInt_inj.1 same)
  rw [Int64.toInt_neg]
  exact Int.bmod_eq_of_le (by omega) (by omega)

theorem writes_represent_int {n : Int64} (h : n ≠ Int64.minValue) : Writes .sign (Text.ofInt n.toInt) (tree (.int n)) := by
  unfold tree
  split
  next negative =>
    obtain ⟨k, same⟩ : ∃ k : Nat, n.toInt = .negSucc k := Int.eq_negSucc_of_lt_zero negative
    have digits : (-n).toInt = (k + 1 : Nat) := by rw [toInt_neg h, same]; rfl
    rw [same]
    exact writes_negate ((writes_int digits).loosen (by decide))
  next natural =>
    obtain ⟨k, same⟩ := Int.eq_ofNat_of_zero_le (Int.not_lt.1 natural)
    rw [same]
    exact (writes_int same).loosen (by decide)

mutual

/-- **The representation is a way to write the tree.** -/
theorem writes_represent : (v : Value) → v.Plain → Writes .sign v.represent v.tree
  | .none, _ => writes_none.loosen (by decide)
  | .bool b, _ => (writes_bool b).loosen (by decide)
  | .int _, plain => writes_represent_int plain
  | .text t, _ => (writes_text t).loosen (by decide)
  | .list vs, plain => (writes_list (writesElements_represent vs plain)).loosen (by decide)
  | .dict es, plain => (writes_dict (writesEntries_represent es plain.2)).loosen (by decide)

theorem writesElements_represent : (vs : List Value) → AllPlain vs → WritesElements (representAll vs) (trees vs)
  | [], _ => writesElements_nil
  | [v], plain => writesElements_last ((writes_represent v plain.1).loosen (by decide))
  | v :: w :: vs, plain =>
    writesElements_cons ((writes_represent v plain.1).loosen (by decide)) (writesElements_represent (w :: vs) plain.2)

theorem writesEntries_represent : (es : List (Text × Value)) → AllPlainEntries es →
    WritesEntries (representEntries es) (treeEntries es)
  | [], _ => writesEntries_nil
  | [(k, v)], plain =>
    writesEntries_last ((writes_text k).loosen (by decide)) ((writes_represent v plain.1).loosen (by decide))
  | (k, v) :: p :: es, plain =>
    writesEntries_cons ((writes_text k).loosen (by decide)) ((writes_represent v plain.1).loosen (by decide))
      (writesEntries_represent (p :: es) plain.2)

end

/-! ## Evaluating -/

section

variable (call : Expr.Caller)

theorem evalWith_tree_int {n : Int64} (h : n ≠ Int64.minValue) : (tree (.int n)).evalWith call = pure (.int n) := by
  unfold tree
  split
  next =>
    have negated : Text.fitInt64? (-(-n).toInt) = some n := by
      rw [toInt_neg h, Int.neg_neg, Text.fitInt64_toInt]
    have negate : applyUnary .negate (.int (-n)) = .ok (.int n) := by simp only [applyUnary, negated]
    rw [Expr.evalWith, Expr.evalWith, pure_bind, Literal.value, negate]
    rfl
  next => rw [Expr.evalWith]; rfl

mutual

/-- **Evaluating the tree makes the value**, and leaves everything else as it is. -/
theorem evalWith_tree : (v : Value) → v.Plain → v.tree.evalWith call = pure v
  | .none, _ => by rw [tree, Expr.evalWith]; rfl
  | .bool b, _ => by rw [tree, Expr.evalWith]; rfl
  | .int _, plain => evalWith_tree_int call plain
  | .text t, _ => by rw [tree, Expr.evalWith]; rfl
  | .list vs, plain => by rw [tree, Expr.evalWith, evalAll_trees vs plain, pure_bind]
  | .dict es, plain => by
    rw [tree, Expr.evalWith, evalEntries_tree es [] plain.2 plain.1 (by simp), pure_bind]
    rfl

theorem evalAll_trees : (vs : List Value) → AllPlain vs → Expr.evalAll call (trees vs) = pure vs
  | [], _ => by rw [trees, Expr.evalAll]
  | v :: vs, plain => by
    rw [trees, Expr.evalAll, evalWith_tree v plain.1, pure_bind, evalAll_trees vs plain.2, pure_bind]

theorem evalEntries_tree : (es acc : List (Text × Value)) → AllPlainEntries es → Entries.Sorted es →
    (∀ p ∈ acc, ∀ q ∈ es, Text.order p.1 q.1 = .lt) →
    Expr.evalEntries call (treeEntries es) acc = pure (acc ++ es)
  | [], acc, _, _, _ => by rw [treeEntries, Expr.evalEntries, List.append_nil]
  | (k, v) :: es, acc, plain, sorted, before => by
    have last : Entries.insert k v acc = acc ++ [(k, v)] :=
      Entries.insert_last fun p hp => before p hp _ List.mem_cons_self
    obtain ⟨first, others⟩ := List.pairwise_cons.1 sorted
    have between : ∀ p ∈ acc ++ [(k, v)], ∀ q ∈ es, Text.order p.1 q.1 = .lt := by
      intro p hp q hq
      obtain old | new := List.mem_append.1 hp
      · exact before p old q (List.mem_cons_of_mem _ hq)
      · rw [List.mem_singleton.1 new]
        exact first q hq
    rw [treeEntries, Expr.evalEntries, Expr.evalWith, pure_bind, Literal.value, Expr.dictKey, pure_bind,
      evalWith_tree v plain.1, pure_bind, last, evalEntries_tree es _ plain.2 others between, List.append_assoc]
    rfl

end

end

/-! ## Equality -/

mutual

theorem equal_self : (v : Value) → v.Plain → v.equal v = true
  | .none, _ => by rw [equal]
  | .bool b, _ => by simp [equal]
  | .int n, _ => by simp [equal]
  | .text t, _ => by simp [equal]
  | .list vs, plain => by rw [equal, equalAll_self vs plain]
  | .dict es, plain => by rw [equal, equalEntries_self es plain.2]

theorem equalAll_self : (vs : List Value) → AllPlain vs → equalAll vs vs = true
  | [], _ => by rw [equalAll]
  | v :: vs, plain => by rw [equalAll, equal_self v plain.1, equalAll_self vs plain.2]; rfl

theorem equalEntries_self : (es : List (Text × Value)) → AllPlainEntries es → equalEntries es es = true
  | [], _ => by rw [equalEntries]
  | (k, v) :: es, plain => by rw [equalEntries, equal_self v plain.1, equalEntries_self es plain.2]; simp

end

/-- **Representations read back**: in any context, the representation evaluates to the value it stands for. -/
theorem eval_represent {v : Value} (plain : v.Plain) (fuel : Nat) (s : Store) :
    ∃ v', Expression.eval fuel ⟨v.represent⟩ s = .ok (v', s) ∧ v'.equal v = true := by
  have read : Expression.tree ⟨v.represent⟩ = .ok v.tree := ((writes_represent v plain).loosen (by decide)).parse
  refine ⟨v, ?_, equal_self v plain⟩
  rw [Expression.eval, Expression.evalWith, read]
  exact congrFun (evalWith_tree _ v plain) s

theorem eval_represent_nested :
    let v := dict [("a", list [int (-7), text "it's \"\n\\", none]), ("b\t", dict [])]
    v.Plain ∧ ∃ v', Expression.eval 0 ⟨v.represent⟩ (.ofContext (.ofBase []) (.empty [])) =
      .ok (v', .ofContext (.ofBase []) (.empty [])) ∧ v'.equal v = true := by
  intro v
  have sorted : Entries.Sorted [("a", list [int (-7), text "it's \"\n\\", none]), ("b\t", dict [])] := by
    exact .cons (List.forall_mem_singleton.2 (by decide)) (List.pairwise_singleton _ _)
  have negative : (-7 : Int64) ≠ Int64.minValue := by decide
  have plain : v.Plain := ⟨sorted, ⟨negative, trivial, trivial, trivial⟩, ⟨.nil, trivial⟩, trivial⟩
  exact ⟨plain, eval_represent plain 0 _⟩

end Value

end Stencil
