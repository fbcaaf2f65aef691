import Stencil.Context

/-!
# What values are made of

A value holds functions and streams, by itself or in the elements of lists and the entries of dicts.
`Value.From` says that they are all in stock, `Value.streams` lists the streams, and `Value.rename` gives them
other numbers.
-/

namespace Stencil

/-- The functions and streams that values may hold. -/
structure Stock where
  function : Function → Prop
  stream : Nat → Prop

namespace Value

mutual

/-- Every function and stream in a value is in the stock. -/
def From (k : Stock) : Value → Prop
  | function f => k.function f
  | stream id => k.stream id
  | list vs => AllFrom k vs
  | dict es => EntriesFrom k es
  | undefined | none | bool _ | int _ | float _ | text _ => True

def AllFrom (k : Stock) : List Value → Prop
  | [] => True
  | v :: vs => v.From k ∧ AllFrom k vs

def EntriesFrom (k : Stock) : List (Text × Value) → Prop
  | [] => True
  | (_, v) :: es => v.From k ∧ EntriesFrom k es

end

mutual

/-- The streams in a value. -/
def streams : Value → List Nat
  | stream id => [id]
  | list vs => streamsAll vs
  | dict es => streamsEntries es
  | undefined | none | bool _ | int _ | float _ | text _ | function _ => []

def streamsAll : List Value → List Nat
  | [] => []
  | v :: vs => v.streams ++ streamsAll vs

def streamsEntries : List (Text × Value) → List Nat
  | [] => []
  | (_, v) :: es => v.streams ++ streamsEntries es

end

mutual

/-- The value with other numbers for its streams. -/
def rename (ρ : Nat → Nat) : Value → Value
  | stream id => stream (ρ id)
  | list vs => list (renameAll ρ vs)
  | dict es => dict (renameEntries ρ es)
  | undefined => undefined
  | none => none
  | bool b => bool b
  | int n => int n
  | float x => float x
  | text t => text t
  | function f => function f

def renameAll (ρ : Nat → Nat) : List Value → List Value
  | [] => []
  | v :: vs => v.rename ρ :: renameAll ρ vs

def renameEntries (ρ : Nat → Nat) : List (Text × Value) → List (Text × Value)
  | [] => []
  | (k, v) :: es => (k, v.rename ρ) :: renameEntries ρ es

end

end Value

namespace Entries

/-- Every value of the entries is made from the stock. -/
def From (k : Stock) (es : List (Text × Value)) : Prop := ∀ e ∈ es, e.2.From k

/-- Entries with other numbers for their streams. -/
def rename (ρ : Nat → Nat) (es : List (Text × Value)) : List (Text × Value) := es.map fun e => (e.1, e.2.rename ρ)

end Entries

namespace Value

theorem allFrom_iff {k : Stock} {vs : List Value} : AllFrom k vs ↔ ∀ v ∈ vs, v.From k := by
  induction vs with
  | nil => simp [AllFrom]
  | cons v vs ih => simp [AllFrom, ih]

theorem entriesFrom_iff {k : Stock} {es : List (Text × Value)} : EntriesFrom k es ↔ ∀ e ∈ es, e.2.From k := by
  induction es with
  | nil => simp [EntriesFrom]
  | cons e es ih => simp [EntriesFrom, ih]

section

variable {k : Stock}

@[simp] theorem from_undefined : From k undefined := trivial
@[simp] theorem from_none : From k none := trivial
@[simp] theorem from_bool (b : Bool) : From k (bool b) := trivial
@[simp] theorem from_int (n : Int64) : From k (int n) := trivial
@[simp] theorem from_float (x : Float) : From k (float x) := trivial
@[simp] theorem from_text (t : Text) : From k (text t) := trivial

theorem from_list {vs : List Value} : From k (list vs) ↔ ∀ v ∈ vs, v.From k := allFrom_iff

theorem from_dict {es : List (Text × Value)} : From k (dict es) ↔ ∀ e ∈ es, e.2.From k := entriesFrom_iff

end

theorem renameAll_eq (ρ : Nat → Nat) (vs : List Value) : renameAll ρ vs = vs.map (rename ρ) := by
  induction vs with
  | nil => rfl
  | cons v vs ih => rw [renameAll, ih]; rfl

theorem renameEntries_eq (ρ : Nat → Nat) (es : List (Text × Value)) : renameEntries ρ es = Entries.rename ρ es := by
  induction es with
  | nil => rfl
  | cons e es ih => rw [renameEntries, ih]; rfl

section

variable {ρ : Nat → Nat}

@[simp] theorem rename_undefined : rename ρ undefined = undefined := rfl
@[simp] theorem rename_none : rename ρ none = none := rfl
@[simp] theorem rename_bool (b : Bool) : rename ρ (bool b) = bool b := rfl
@[simp] theorem rename_int (n : Int64) : rename ρ (int n) = int n := rfl
@[simp] theorem rename_float (x : Float) : rename ρ (float x) = float x := rfl
@[simp] theorem rename_text (t : Text) : rename ρ (text t) = text t := rfl
@[simp] theorem rename_function (f : Function) : rename ρ (function f) = function f := rfl
@[simp] theorem rename_stream (id : Nat) : rename ρ (stream id) = stream (ρ id) := rfl

@[simp] theorem rename_list (vs : List Value) : rename ρ (list vs) = list (vs.map (rename ρ)) := by
  rw [rename, renameAll_eq]

@[simp] theorem rename_dict (es : List (Text × Value)) : rename ρ (dict es) = dict (Entries.rename ρ es) := by
  rw [rename, renameEntries_eq]

end

end Value

/-- The streams that a frame binds. -/
def Frame.streams (f : Frame) : List Nat := f.flatMap (·.2.streams)

def Context.streams (c : Context) : List Nat := c.frames.flatMap Frame.streams

end Stencil
