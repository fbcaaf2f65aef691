import Mathlib.Data.List.Basic
import Stencil.Value.Operations
import Stencil.Value.Parts
import Stencil.Stream.Tag

/-!
# What values are made of

The operations on values make no functions and no streams: those in their results are those in their
operands. `Value.From k` says that all functions and streams in a value are among the ones that the
stock `k` admits, and each operation has a lemma that keeps this.
-/

namespace Stencil

/-- The second stock admits whatever the first one does. -/
structure Stock.Within (k k' : Stock) : Prop where
  function : ∀ f, k.function f → k'.function f
  stream : ∀ id, k.stream id → k'.stream id

instance : LE Stock := ⟨Stock.Within⟩

namespace Value

mutual

/-- What is made from a stock is made from every larger one. -/
theorem From.mono {k k' : Stock} (le : k ≤ k') : ∀ {v : Value}, From k v → From k' v
  | function f, h => le.function f h
  | stream id, h => le.stream id h
  | list _, h => AllFrom.mono le h
  | dict _, h => EntriesFrom.mono le h
  | undefined, _ | none, _ | bool _, _ | int _, _ | float _, _ | text _, _ => trivial

theorem AllFrom.mono {k k' : Stock} (le : k ≤ k') : ∀ {vs : List Value}, AllFrom k vs → AllFrom k' vs
  | [], _ => trivial
  | _ :: _, h => ⟨From.mono le h.1, AllFrom.mono le h.2⟩

theorem EntriesFrom.mono {k k' : Stock} (le : k ≤ k') : ∀ {es : List (Text × Value)}, EntriesFrom k es → EntriesFrom k' es
  | [], _ => trivial
  | _ :: _, h => ⟨From.mono le h.1, EntriesFrom.mono le h.2⟩

end

end Value

/-! ## Entries -/

namespace Entries

variable {k : Stock} {es : List (Text × Value)}

theorem From.mono {k' : Stock} (le : k ≤ k') (h : From k es) : From k' es := fun e he => Value.From.mono le (h e he)

theorem From.nil : From k [] := by simp [From]

theorem From.cons {e : Text × Value} (h : e.2.From k) (hs : From k es) : From k (e :: es) :=
  List.forall_mem_cons.2 ⟨h, hs⟩

theorem From.insert {key : Text} {v : Value} (hs : From k es) (h : v.From k) : From k (Entries.insert key v es) := by
  induction es with
  | nil => exact .cons h .nil
  | cons e es ih =>
    obtain ⟨first, rest⟩ := List.forall_mem_cons.1 hs
    simp only [Entries.insert]
    split
    · exact .cons h hs
    · exact .cons h rest
    · exact .cons first (ih rest)

theorem From.find {key : Text} {v : Value} (hs : From k es) (h : Entries.find? key es = some v) : v.From k := by
  simp only [Entries.find?, Option.map_eq_some_iff] at h
  obtain ⟨e, he, rfl⟩ := h
  exact hs e (List.mem_of_find?_eq_some he)

theorem From.getD {key : Text} (hs : From k es) : ((Entries.find? key es).getD .undefined).From k := by
  cases h : Entries.find? key es with
  | none => exact Value.from_undefined
  | some v => exact hs.find h

end Entries

/-! ## Frames and contexts -/

namespace Frame

theorem from_bind {k : Stock} {frame : Frame} {name : Text} {v : Value} (hf : Entries.From k frame) (h : v.From k) :
    Entries.From k (frame.bind name v) := by
  induction frame with
  | nil => exact .cons h .nil
  | cons e es ih =>
    obtain ⟨first, rest⟩ := List.forall_mem_cons.1 hf
    simp only [bind]
    split
    · exact .cons h rest
    · exact .cons first (ih rest)

theorem from_bindAll {k : Stock} {frame : Frame} {ps : List (Text × Value)} (hf : Entries.From k frame)
    (h : ∀ p ∈ ps, p.2.From k) : Entries.From k (ps.foldl (fun f p => Frame.bind f p.1 p.2) frame) := by
  induction ps generalizing frame with
  | nil => exact hf
  | cons p ps ih =>
    obtain ⟨first, rest⟩ := List.forall_mem_cons.1 h
    exact ih (from_bind hf first) rest

end Frame

/-- The frame of an iteration binds parts of the item. -/
theorem loopFrame_from {k : Stock} {targets : List Text} {item : Value} {frame : Frame} (h : item.From k)
    (r : loopFrame targets item = .ok frame) : Entries.From k frame := by
  unfold loopFrame at r
  split at r
  · cases r
    exact Frame.from_bind .nil h
  · split at r
    · cases r
    · cases r
      exact Frame.from_bindAll .nil fun p hp => Value.from_list.1 h _ (List.of_mem_zip hp).2
  · cases r

namespace Context

variable {k : Stock} {c : Context}

/-- Every binding is made from the stock. -/
def From (k : Stock) (c : Context) : Prop := ∀ f ∈ c.frames, Entries.From k f

theorem From.mono {k' : Stock} (le : k ≤ k') (h : From k c) : From k' c := fun f hf => Entries.From.mono le (h f hf)

theorem From.get {name : Text} (h : From k c) : (c.get name).From k := by
  unfold Context.get find?
  cases hv : c.frames.findSome? (Entries.find? name) with
  | none => exact Value.from_undefined
  | some v =>
    obtain ⟨f, hf, hfind⟩ := List.exists_of_findSome?_eq_some hv
    exact (h f hf).find hfind

theorem From.push {frame : Frame} (h : From k c) (hf : Entries.From k frame) : From k (c.push frame) := by
  simpa [From, frames, Context.push] using ⟨hf, by simpa [From, frames] using h⟩

theorem From.releaseFrom {depth : Nat} (h : From k c) : From k (c.releaseFrom depth) := by
  intro f hf
  simp only [Context.releaseFrom, frames, List.mem_append, List.mem_singleton] at hf
  refine h f ?_
  rcases hf with hf | rfl
  · exact List.mem_append_left _ (List.mem_of_mem_drop hf)
  · simp [frames]

theorem From.set {name : Text} {v : Value} (h : From k c) (hv : v.From k) : From k (c.set name v) := by
  unfold Context.set
  split
  · rename_i none
    have base := h c.base (by simp [frames])
    intro f hf
    simp only [frames, none, List.nil_append, List.mem_singleton] at hf
    exact hf ▸ Frame.from_bind base hv
  · rename_i top rest upper
    have all : ∀ f ∈ top :: (rest ++ [c.base]), Entries.From k f := by simpa [From, frames, upper] using h
    intro f hf
    simp only [frames, List.cons_append, List.mem_cons] at hf
    rcases hf with rfl | hf
    · exact Frame.from_bind (all top (by simp)) hv
    · exact all f (List.mem_cons_of_mem _ hf)

end Context

/-! ## Operations -/

namespace Value

variable {k : Stock}

theorem From.member {v w : Value} {name : Text} (h : v.From k) (r : v.member name = .ok w) : w.From k := by
  cases v with
  | undefined => cases r; exact from_undefined
  | dict es =>
    cases r
    exact Entries.From.getD (from_dict.1 h)
  | _ => cases r

theorem mem_of_elementAt {α : Type} {es : List α} {i : Int64} {e : α} (r : elementAt es i = .ok e) : e ∈ es := by
  unfold elementAt at r
  simp only at r
  generalize (if i < 0 then i.toInt + es.length else i.toInt) = n at r
  split at r
  · cases r
  · split at r
    · rename_i he
      cases r
      exact List.mem_of_getElem? he
    · cases r

/-- What `r.map g` succeeds with is a value of `g`. -/
theorem exists_of_map_ok {α β : Type} {r : Result α} {g : α → β} {w : β} (h : r.map g = .ok w) : ∃ a, w = g a := by
  cases r with
  | ok a => cases h; exact ⟨a, rfl⟩
  | error e => cases h

theorem From.item {v key w : Value} (h : v.From k) (r : v.item key = .ok w) : w.From k := by
  unfold Value.item at r
  split at r
  · cases r; exact from_undefined
  · split at r
    · cases r; exact Entries.From.getD (from_dict.1 h)
    · cases r
  · split at r
    · exact from_list.1 h _ (mem_of_elementAt r)
    · cases r
  · split at r
    · obtain ⟨c, rfl⟩ := exists_of_map_ok r
      exact from_text _
    · cases r
  · cases r

theorem From.items {v : Value} {vs : List Value} (h : v.From k) (r : v.items = .ok vs) : ∀ w ∈ vs, w.From k := by
  cases v with
  | list es => cases r; exact from_list.1 h
  | dict es | text t =>
    cases r
    intro w hw
    obtain ⟨x, -, rfl⟩ := List.mem_map.1 hw
    exact from_text _
  | _ => cases r

theorem From.applyUnary {op : UnaryOperator} {v w : Value} (r : v.applyUnary op = .ok w) : w.From k := by
  unfold Value.applyUnary at r
  split at r
  · cases r; trivial
  · cases r; trivial
  · cases r; trivial
  · split at r <;> cases r
    trivial
  · cases r; trivial
  · cases r

theorem from_floatArithmetic {op : Operator} {x y : Float} {w : Value} (r : floatArithmetic op x y = .ok w) :
    w.From k := by
  unfold floatArithmetic at r
  split at r
  case h_4 | h_5 => split at r <;> cases r; trivial
  all_goals cases r; try trivial

theorem from_checked {op : Operator} {a b : Int64} {n : Int} {w : Value} (r : checked op a b n = .ok w) : w.From k := by
  unfold checked at r
  split at r <;> cases r
  trivial

theorem from_intArithmetic {op : Operator} {a b : Int64} {w : Value} (r : intArithmetic op a b = .ok w) : w.From k := by
  unfold intArithmetic at r
  split at r
  · exact from_checked r
  · exact from_checked r
  · exact from_checked r
  · split at r <;> cases r
    trivial
  · exact from_floatArithmetic r

theorem From.arithmetic {op : Operator} {a b w : Value} (ha : a.From k) (hb : b.From k)
    (r : Value.arithmetic op a b = .ok w) : w.From k := by
  unfold Value.arithmetic at r
  split at r
  · exact from_intArithmetic r
  · split at r <;> cases r
    trivial
  · split at r <;> cases r
    refine from_list.2 fun v hv => ?_
    rcases List.mem_append.1 hv with hv | hv
    · exact from_list.1 ha v hv
    · exact from_list.1 hb v hv
  · split at r <;> cases r
    trivial
  · split at r
    · exact from_floatArithmetic r
    · cases r

theorem From.applyBinary {op : Operator} {a b w : Value} (ha : a.From k) (hb : b.From k)
    (r : Value.applyBinary op a b = .ok w) : w.From k := by
  have scalar : ∀ {α : Type} {q : Result α} {g : α → Bool}, (q.map fun x => bool (g x)) = .ok w → w.From k := by
    intro α q g h
    obtain ⟨x, rfl⟩ := exists_of_map_ok h
    trivial
  cases op with
  | equal | notEqual | is | isNot => cases r; trivial
  | less | lessEqual | greater | greaterEqual => exact scalar r
  | «in» => exact scalar (g := id) r
  | notIn => exact scalar r
  | and | or =>
    simp only [Value.applyBinary, Except.ok.injEq] at r
    subst r
    split <;> assumption
  | add | subtract | multiply | divide | modulo => exact From.arithmetic ha hb r

end Value

end Stencil
