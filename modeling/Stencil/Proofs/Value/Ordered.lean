import Stencil.Proofs.Text.Order
import Stencil.Proofs.Value.Rounded

/-!
# Order and equality of values

Values made of integers, texts and lists (`Value.Ordinary`) are ordered as their integers are, and these by the places
of their doubles. `Value.Compares` is that order as a relation: the swapped order holds the other way round
(`Value.Compares.swap`), and orders in one direction compose (`Value.Compares.compose`). Neither of two values comes
before the other exactly if they are alike but for integers that are rounded to the same double
(`Value.compares_eq_iff`). But only the same integers are equal, so that there are values that are neither ordered nor
equal (`Value.order_consistent`, `Value.order_gap`). Rounding goes no further than that: it never turns an order round
(`Value.compare_int_ne_gt`), and integers up to `2 ^ 53` are not rounded (`Value.Alike.eq_of_whole`).
-/

namespace Stencil

namespace Value

/-- The value is made of texts, lists, and integers with the property. -/
inductive MadeOf (P : Int64 → Prop) : Value → Prop
  | int {n : Int64} (h : P n) : MadeOf P (int n)
  | text (t : Text) : MadeOf P (text t)
  | nil : MadeOf P (list [])
  | cons {v : Value} {vs : List Value} (first : MadeOf P v) (others : MadeOf P (list vs)) : MadeOf P (list (v :: vs))

/-- The value is made of integers, texts and lists. -/
def Ordinary : Value → Prop := MadeOf fun _ => True

/-- The values are the same but for integers that are rounded to the same double. -/
inductive Alike : Value → Value → Prop
  | int {m n : Int64} (same : Binary64.ofInt m.toInt = Binary64.ofInt n.toInt) : Alike (int m) (int n)
  | text (t : Text) : Alike (text t) (text t)
  | nil : Alike (list []) (list [])
  | cons {a b : Value} {as bs : List Value} (first : Alike a b) (others : Alike (list as) (list bs)) :
      Alike (list (a :: as)) (list (b :: bs))

/-! ## The order as a relation -/

/-- The order of two values. -/
inductive Compares : Value → Value → Ordering → Prop
  | int (m n : Int64) : Compares (int m) (int n) (Ord.compare (Binary64.rank m.toInt) (Binary64.rank n.toInt))
  | text (s t : Text) : Compares (text s) (text t) (Text.order s t)
  | nil : Compares (list []) (list []) .eq
  | shorter (b : Value) (bs : List Value) : Compares (list []) (list (b :: bs)) .lt
  | longer (a : Value) (as : List Value) : Compares (list (a :: as)) (list []) .gt
  | first {a b : Value} {o : Ordering} (h : Compares a b o) (differ : o ≠ .eq) (as bs : List Value) :
      Compares (list (a :: as)) (list (b :: bs)) o
  | next {a b : Value} {as bs : List Value} {o : Ordering} (h : Compares a b .eq) (others : Compares (list as) (list bs) o) :
      Compares (list (a :: as)) (list (b :: bs)) o

theorem compare_int (m n : Int64) :
    compare (int m) (int n) = .ok (Ord.compare (Binary64.rank m.toInt) (Binary64.rank n.toInt)) := by
  rw [compare, ← Binary64.orderFloats_ofInt]
  · rfl
  all_goals simp

variable {a b c : Value} {o o' : Ordering}

theorem compare_next {as bs : List Value} (h : compare a b = .ok .eq) :
    compare (list (a :: as)) (list (b :: bs)) = compare (list as) (list bs) := by
  rw [compare, compareAll, h, compare]

theorem compare_first (as bs : List Value) (differ : compare a b ≠ .ok .eq) :
    compare (list (a :: as)) (list (b :: bs)) = compare a b := by
  rw [compare, compareAll]
  split
  next same => exact absurd same differ
  next => rfl

theorem Compares.compare_eq (h : Compares a b o) : compare a b = .ok o := by
  induction h with
  | int m n => exact compare_int m n
  | text s t => rfl
  | nil | shorter | longer => rfl
  | first h differ as bs ih =>
    have differ' : compare _ _ ≠ .ok .eq := fun same => differ (Except.ok.inj (ih.symm.trans same))
    rw [compare_first as bs differ', ih]
  | next h others ih ih' => rw [compare_next ih, ih']

/-- Where ordinary values can be compared, they are in the order. -/
theorem compares_of_eq (ha : a.Ordinary) (hb : b.Ordinary) (h : compare a b = .ok o) : Compares a b o := by
  induction ha generalizing b o with
  | @int m =>
    cases hb with
    | @int n =>
      rw [compare_int] at h
      cases h
      exact .int m n
    | text | nil | cons => cases h
  | text s =>
    cases hb with
    | text t =>
      cases h
      exact .text s t
    | int | nil | cons => cases h
  | nil =>
    cases hb with
    | nil =>
      cases h
      exact .nil
    | cons =>
      cases h
      exact .shorter _ _
    | int | text => cases h
  | @cons a as first others ih ih' =>
    cases hb with
    | nil =>
      cases h
      exact .longer _ _
    | @cons b bs first' others' =>
      by_cases same : compare a b = .ok .eq
      · rw [compare_next same] at h
        exact .next (ih first' same) (ih' others' h)
      · rw [compare_first as bs same] at h
        exact .first (ih first' h) (fun eq => same (eq ▸ h)) as bs
    | int | text => cases h

/-! ## The laws of the order -/

theorem Compares.swap (h : Compares a b o) : Compares b a o.swap := by
  induction h with
  | int m n =>
    rw [Int.compare_swap]
    exact .int n m
  | text s t =>
    rw [← Text.order_swap]
    exact .text t s
  | nil => exact .nil
  | shorter b bs => exact .longer b bs
  | longer a as => exact .shorter a as
  | first h differ as bs ih => exact .first ih (by rwa [ne_eq, Ordering.swap_eq_eq]) bs as
  | next h others ih ih' => exact .next ih ih'

/-- What does not come after a value compares with what that does not come after as the first difference says. -/
theorem Compares.compose (h : Compares a b o) (h' : Compares b c o') (up : o ≠ .gt) (up' : o' ≠ .gt) :
    Compares a c (o.then o') := by
  induction h generalizing c o' with
  | int m n =>
    cases h' with
    | int n k =>
      rw [← compare_compose up up']
      exact .int m k
  | text s t =>
    cases h' with
    | text t u =>
      rw [← Text.order_compose up up']
      exact .text s u
  | nil => exact h'
  | shorter b bs =>
    cases h' with
    | longer => exact absurd rfl up'
    | first | next => exact .shorter _ _
  | longer a as => exact absurd rfl up
  | @first a b o h differ as bs ih =>
    obtain rfl : o = .lt := by cases o <;> first | rfl | contradiction
    cases h' with
    | longer => exact absurd rfl up'
    | first h' => exact .first (ih h' up up') Ordering.noConfusion _ _
    | next h' => exact .first (ih h' up Ordering.noConfusion) Ordering.noConfusion _ _
  | @next a b as bs o h others ih ih' =>
    cases h' with
    | longer => exact absurd rfl up'
    | @first _ _ o' h' differ' =>
      obtain rfl : o' = .lt := by cases o' <;> first | rfl | contradiction
      have less : o.then .lt = .lt := by cases o <;> first | rfl | contradiction
      rw [less]
      exact .first (ih h' (by decide) up') (by decide) _ _
    | next h' others' => exact .next (ih h' (by decide) (by decide)) (ih' others' up up')

theorem rank_eq_iff (m n : Int64) : Binary64.rank m.toInt = Binary64.rank n.toInt ↔
    Binary64.ofInt m.toInt = Binary64.ofInt n.toInt :=
  Binary64.rank_eq_iff (Text.fits_toInt m) (Text.fits_toInt n)

/-- Neither of two values comes first if they are the same but for rounding. -/
theorem compares_eq_iff : Compares a b .eq ↔ Alike a b := by
  constructor
  · intro h
    generalize same : Ordering.eq = o at h
    induction h with
    | int m n => exact .int ((rank_eq_iff m n).1 (Int.compare_eq_eq.1 same.symm))
    | text s t =>
      obtain rfl := Text.order_eq_iff.1 same.symm
      exact .text s
    | nil => exact .nil
    | shorter | longer => cases same
    | first h differ => exact absurd same.symm differ
    | next h others ih ih' => exact .cons (ih rfl) (ih' same)
  · intro h
    induction h with
    | @int m n same =>
      rw [← Int.compare_eq_eq.2 ((rank_eq_iff m n).2 same)]
      exact .int m n
    | text t =>
      have self := Compares.text t t
      rwa [Text.order_eq_iff.2 rfl] at self
    | nil => exact .nil
    | cons _ _ ih ih' => exact .next ih ih'

/-! ## Rounded integers and others -/

/-- Rounding lets no integer come after a larger one. -/
theorem compare_int_ne_gt {m n : Int64} (le : m ≤ n) : compare (int m) (int n) ≠ .ok .gt := by
  rw [compare_int]
  intro greater
  have less := Int.compare_eq_gt.1 (Except.ok.inj greater)
  exact absurd less (Int.not_lt.2 (Binary64.rank_mono (Int64.le_iff_toInt_le.1 le)))

/-- The integer is small enough to be a double, as are all that are smaller. -/
def Whole (n : Int64) : Prop := n.toInt.natAbs ≤ 9007199254740992

instance (n : Int64) : Decidable (Whole n) := inferInstanceAs (Decidable (_ ≤ _))

theorem compares_of_lt {m n : Int64} (less : m < n) (whole : Whole m) (whole' : Whole n) : Compares (int m) (int n) .lt := by
  have order := Compares.int m n
  rwa [Int.compare_eq_lt.2 (Binary64.rank_strict (Int64.lt_iff_toInt_lt.1 less) whole whole')] at order

/-- Without rounding, values are the same if they are alike. -/
theorem Alike.eq_of_whole (h : Alike a b) (ha : a.MadeOf Whole) (hb : b.MadeOf Whole) : a = b := by
  induction h with
  | @int m n same =>
    cases ha with
    | int small =>
      cases hb with
      | int small' =>
        have rank := (rank_eq_iff m n).2 same
        have : m.toInt = n.toInt := by
          obtain less | same | greater := Int.lt_trichotomy m.toInt n.toInt
          · exact absurd rank (Int.ne_of_lt (Binary64.rank_strict less small small'))
          · exact same
          · exact absurd rank.symm (Int.ne_of_lt (Binary64.rank_strict greater small' small))
        rw [Int64.toInt_inj.1 this]
  | text t => rfl
  | nil => rfl
  | cons _ _ ih ih' =>
    cases ha with
    | cons first others =>
      cases hb with
      | cons first' others' =>
        rw [ih first first', list.inj (ih' others others')]

/-! ## Equality -/

theorem Alike.refl (ha : a.Ordinary) : Alike a a := by
  induction ha with
  | int => exact .int rfl
  | text t => exact .text t
  | nil => exact .nil
  | cons _ _ ih ih' => exact .cons ih ih'

theorem alike_iff (ha : a.Ordinary) (hb : b.Ordinary) : Alike a b ↔ compare a b = .ok .eq :=
  ⟨fun alike => (compares_eq_iff.2 alike).compare_eq, fun same => compares_eq_iff.1 (compares_of_eq ha hb same)⟩

/-- Ordinary values are equal if they are the same. -/
theorem equal_iff (ha : a.Ordinary) (hb : b.Ordinary) : equal a b = true ↔ a = b := by
  induction ha generalizing b with
  | int =>
    cases hb with
    | int => simp [equal]
    | text | nil | cons => simp [equal]
  | text s =>
    cases hb with
    | text t => simp [equal]
    | int | nil | cons => simp [equal]
  | nil =>
    cases hb with
    | nil => simp [equal, equalAll]
    | int | text | cons => simp [equal, equalAll]
  | @cons a as first others ih ih' =>
    cases hb with
    | @cons b bs first' others' =>
      have rest : equalAll as bs = true ↔ list as = list bs := ih' others'
      rw [equal, equalAll, Bool.and_eq_true, ih first', rest]
      simp
    | int | text | nil => simp [equal, equalAll]

/-! ## What operators say -/

def Less (a b : Value) : Prop := applyBinary .less a b = .ok (bool true)

def Greater (a b : Value) : Prop := applyBinary .greater a b = .ok (bool true)

def Equals (a b : Value) : Prop := applyBinary .equal a b = .ok (bool true)

theorem less_iff : Less a b ↔ compare a b = .ok .lt := by
  unfold Less applyBinary
  cases compare a b with
  | error => simp [Except.map]
  | ok o => cases o <;> simp [Except.map, holds]

theorem greater_iff : Greater a b ↔ compare a b = .ok .gt := by
  unfold Greater applyBinary
  cases compare a b with
  | error => simp [Except.map]
  | ok o => cases o <;> simp [Except.map, holds]

theorem equals_iff (ha : a.Ordinary) (hb : b.Ordinary) : Equals a b ↔ a = b := by
  rw [← equal_iff ha hb, Equals, applyBinary]
  simp

/-- One of three statements is true, and no other. -/
def ExactlyOne (p q r : Prop) : Prop := (p ∧ ¬ q ∧ ¬ r) ∨ (¬ p ∧ q ∧ ¬ r) ∨ (¬ p ∧ ¬ q ∧ r)

/-- **Order and equality are consistent but for rounding.** -/
theorem order_consistent (ha : a.Ordinary) (hb : b.Ordinary) (hc : c.Ordinary) :
    (∀ o, compare a b = .ok o → (ExactlyOne (Less a b) (Equals a b) (Greater a b) ↔ (Alike a b → a = b))) ∧
      (Less a b ↔ Greater b a) ∧ (Less a b → Less b c → Less a c) := by
  refine ⟨fun o h => ?_, ?_, fun h h' => ?_⟩
  · have alike := alike_iff ha hb
    have same : a = b → Alike a b := fun same => same ▸ Alike.refl ha
    rw [ExactlyOne, less_iff, greater_iff, equals_iff ha hb]
    rw [h] at alike ⊢
    cases o with
    | lt | gt =>
      have differ : ¬ Alike a b := fun a => by cases alike.1 a
      simp [differ, mt same differ]
    | eq =>
      simp [alike.2 rfl]
  · rw [less_iff, greater_iff]
    constructor
    · exact fun h => (compares_of_eq ha hb h).swap.compare_eq
    · exact fun h => (compares_of_eq hb ha h).swap.compare_eq
  · rw [less_iff] at h h' ⊢
    exact ((compares_of_eq ha hb h).compose (compares_of_eq hb hc h') (by decide) (by decide)).compare_eq

/-- Lists are ordered by their first elements that differ. -/
theorem order_consistent_lists :
    ExactlyOne (Less (list [int 1, text "x"]) (list [int 2])) (Equals (list [int 1, text "x"]) (list [int 2]))
        (Greater (list [int 1, text "x"]) (list [int 2])) ∧
      Greater (list [int 2]) (list [int 1, text "x"]) ∧
      Less (list [int 1, text "x"]) (list [int 2, list []]) := by
  have first : Compares (int 1) (int 2) .lt := compares_of_lt (by decide) (by decide) (by decide)
  have less : compare (list [int 1, text "x"]) (list [int 2]) = .ok .lt :=
    (Compares.first first (by decide) _ _).compare_eq
  have less' : compare (list [int 2]) (list [int 2, list []]) = .ok .lt :=
    (Compares.next (compares_eq_iff.2 (.int rfl)) (.shorter _ _)).compare_eq
  obtain ⟨one, turned, through⟩ := order_consistent (a := list [int 1, text "x"]) (b := list [int 2])
    (c := list [int 2, list []]) (.cons (.int trivial) (.cons (.text _) .nil)) (.cons (.int trivial) .nil)
    (.cons (.int trivial) (.cons .nil .nil))
  refine ⟨(one .lt less).2 fun alike => ?_, turned.1 (less_iff.2 less), through (less_iff.2 less) (less_iff.2 less')⟩
  cases alike with
  | cons _ others => cases others

/-- Two integers that are rounded to one double are neither ordered nor equal. -/
theorem order_gap : Ordinary (int 9007199254740992) ∧ Ordinary (int 9007199254740993) ∧
    compare (int 9007199254740992) (int 9007199254740993) = .ok .eq ∧
    ¬ ExactlyOne (Less (int 9007199254740992) (int 9007199254740993)) (Equals (int 9007199254740992) (int 9007199254740993))
      (Greater (int 9007199254740992) (int 9007199254740993)) := by
  have same : compare (int 9007199254740992) (int 9007199254740993) = .ok .eq := by
    rw [compare_int]
    exact congrArg Except.ok (by decide +kernel)
  refine ⟨.int trivial, .int trivial, same, ?_⟩
  rw [ExactlyOne, less_iff, greater_iff, equals_iff (.int trivial) (.int trivial), same]
  simp

end Value

end Stencil
