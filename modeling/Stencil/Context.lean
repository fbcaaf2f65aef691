import Stencil.Value.Basic

/-!
# Contexts

A context is a stack of frames over a base frame that is never removed. A name is looked up from the
top frame down and bound in the top frame. `Scope` is the handle of a frame that was pushed:
releasing it removes that frame and everything above it, by the depth the frame was pushed to.
-/

namespace Stencil

/-- The names bound in one frame, each once. -/
abbrev Frame := List (Text × Value)

namespace Frame

/-- Binds a name, in place if it is bound already. -/
def bind (frame : Frame) (name : Text) (value : Value) : Frame :=
  match frame with
  | [] => [(name, value)]
  | (k, v) :: es => if k == name then (k, value) :: es else (k, v) :: bind es name value

end Frame

structure Context where
  /-- the frames over the base frame, the top one first -/
  upper : List Frame
  base : Frame

namespace Context

def ofBase (base : Frame) : Context := ⟨[], base⟩

/-- All frames, the top one first. -/
def frames (c : Context) : List Frame := c.upper ++ [c.base]

/-- The number of frames. -/
def depth (c : Context) : Nat := c.upper.length + 1

/-- The binding of a name in the top-most frame that has one. -/
def find? (c : Context) (name : Text) : Option Value := c.frames.findSome? (Entries.find? name)

def get (c : Context) (name : Text) : Value := (c.find? name).getD .undefined

def isDefined (c : Context) (name : Text) : Bool := !(c.get name).isUndefined

/-- Binds a name in the top frame. -/
def set (c : Context) (name : Text) (value : Value) : Context :=
  match c.upper with
  | [] => { c with base := Frame.bind c.base name value }
  | f :: fs => { c with upper := Frame.bind f name value :: fs }

def push (c : Context) (frame : Frame) : Context := { c with upper := frame :: c.upper }

/-- Removes the top frame, unless it is the base frame. -/
def pop? (c : Context) : Option Context :=
  match c.upper with
  | [] => none
  | _ :: fs => some { c with upper := fs }

/-- Removes frames until fewer than `depth` are left or only the base frame is. -/
def releaseFrom (c : Context) (depth : Nat) : Context :=
  { c with upper := c.upper.drop (c.depth + 1 - depth) }

end Context

/-- The handle of a pushed frame: the depth right after the push, or `none` once released. -/
structure Scope where
  depth? : Option Nat
deriving DecidableEq, Repr

namespace Scope

/-- Pushes a frame. -/
def enter (c : Context) (frame : Frame) : Context × Scope :=
  (c.push frame, ⟨some (c.depth + 1)⟩)

/-- Removes the frame, and all frames above it, by depth; a released scope stays as it is. -/
def release (s : Scope) (c : Context) : Context × Scope :=
  match s.depth? with
  | some d => (c.releaseFrom d, ⟨none⟩)
  | none => (c, s)

end Scope

end Stencil
