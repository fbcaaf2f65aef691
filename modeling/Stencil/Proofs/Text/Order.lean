import Stencil.Text.Basic

/-!
# The order of texts

Texts are ordered like the words of a dictionary, by `Text.order`: the other way round it is the swapped order, texts of
which neither comes first are the same, and orders in one direction compose.
-/

namespace Stencil

theorem compare_compose {α : Type} [Ord α] [Std.TransOrd α] {a b c : α} (h : compare a b ≠ .gt) (h' : compare b c ≠ .gt) :
    compare a c = (compare a b).then (compare b c) := by
  cases first : compare a b with
  | lt => exact Std.TransCmp.lt_of_lt_of_isLE first (Ordering.isLE_iff_ne_gt.2 h')
  | eq => exact Std.TransCmp.congr_left first
  | gt => exact absurd first h

/-- Orders by a first part and then by a second one compose if those of the parts do. -/
theorem then_compose {o o' o'' p p' p'' : Ordering} (first : o ≠ .gt → o' ≠ .gt → o'' = o.then o')
    (second : p ≠ .gt → p' ≠ .gt → p'' = p.then p') (h : o.then p ≠ .gt) (h' : o'.then p' ≠ .gt) :
    o''.then p'' = (o.then p).then (o'.then p') := by
  revert first second h h'
  cases o <;> cases o' <;> cases p <;> cases p' <;> simp +contextual

namespace Text

theorem order_cons (a b : Byte) (s t : Text) : order (a :: s) (b :: t) = (compare a.toNat b.toNat).then (order s t) := by
  rw [order]
  obtain less | same | greater := Nat.lt_trichotomy a.toNat b.toNat
  · rw [if_pos (UInt8.lt_iff_toNat_lt.2 less), Nat.compare_eq_lt.2 less]
    rfl
  · obtain rfl := UInt8.toNat_inj.1 same
    rw [if_neg (UInt8.lt_irrefl a), if_neg (UInt8.lt_irrefl a), Nat.compare_eq_eq.2 rfl]
    rfl
  · rw [if_neg (fun less => Nat.lt_asymm greater (UInt8.lt_iff_toNat_lt.1 less)),
      if_pos (UInt8.lt_iff_toNat_lt.2 greater), Nat.compare_eq_gt.2 greater]
    rfl

theorem order_swap : (s t : Text) → order t s = (order s t).swap
  | [], [] | [], _ :: _ | _ :: _, [] => rfl
  | a :: s, b :: t => by
    rw [order_cons, order_cons, order_swap s t, ← Nat.compare_swap a.toNat b.toNat, Ordering.swap_then]

theorem order_eq_iff : {s t : Text} → order s t = .eq ↔ s = t
  | [], [] => by simp [order]
  | [], _ :: _ | _ :: _, [] => by simp [order]
  | a :: s, b :: t => by
    rw [order_cons, Ordering.then_eq_eq, Nat.compare_eq_eq, UInt8.toNat_inj, order_eq_iff, List.cons.injEq]

theorem order_compose : {s t u : Text} → order s t ≠ .gt → order t u ≠ .gt → order s u = (order s t).then (order t u)
  | [], [], _, _, _ => by simp [order]
  | [], _ :: _, [], _, h' => absurd rfl h'
  | [], _ :: _, _ :: _, _, _ => rfl
  | _ :: _, [], _, h, _ => absurd rfl h
  | _ :: _, _ :: _, [], _, h' => absurd rfl h'
  | a :: s, b :: t, c :: u, h, h' => by
    rw [order_cons] at h h'
    rw [order_cons, order_cons, order_cons]
    exact then_compose compare_compose order_compose h h'

end Text

end Stencil
