import Stencil.Event
import Stencil.Log

/-!
# Names of directives

The built-in directives are always known. A host can add others under names of their own, which come
after the built-in ones in the order in which they were added. So all names of a registry are spelled
differently and have different ranks.
-/

namespace Stencil

/-- The names of directives. -/
inductive DirectiveName where
  | define | capture | loop | condition | replace | content | attributes | strip
  | extension (kind : Extension)
deriving DecidableEq, Repr

namespace DirectiveName

def spelling : DirectiveName → Text
  | define => "def"
  | capture => "match"
  | loop => "for"
  | condition => "if"
  | replace => "replace"
  | content => "content"
  | attributes => "attrs"
  | strip => "strip"
  | extension kind => kind.name

def builtins : List DirectiveName :=
  [define, capture, loop, condition, replace, content, attributes, strip]

/-- The first rank that is not one of a built-in directive. -/
def firstFreeRank : Nat := 8

/-- The rank of a name; lower ranks take precedence. -/
def rank : DirectiveName → Nat
  | define => 0
  | capture => 1
  | loop => 2
  | condition => 3
  | replace => 4
  | content => 5
  | attributes => 6
  | strip => 7
  | extension kind => firstFreeRank + kind.number

end DirectiveName

/-- The directives that hosts have added, in the order in which they were added. -/
structure Registry where
  added : List Extension
  numbered : added.map (·.number) = List.range added.length
  distinct : (added.map (·.name)).Nodup
  foreign : ∀ kind ∈ added, ∀ n ∈ DirectiveName.builtins, n.spelling ≠ kind.name

namespace Registry

/-- Nothing was added. -/
def empty : Registry := ⟨[], rfl, .nil, nofun⟩

/-- The names that are known. -/
def names (r : Registry) : List DirectiveName := DirectiveName.builtins ++ r.added.map .extension

def named? (r : Registry) (spelling : Text) : Option DirectiveName := r.names.find? (·.spelling == spelling)

/-- Why a host can't add a directive of a name, if it can't. -/
def refusal? (r : Registry) (name : Text) : Option Text :=
  if DirectiveName.builtins.any (·.spelling == name) then
    some ("in Markup::DirectiveRegistry::Register: \"" ++ name ++ "\" is a built-in directive!")
  else if r.added.any (·.name == name) then
    some ("in Markup::DirectiveRegistry::Register: \"" ++ name ++ "\" has already been registered!")
  else none

theorem refusal?_eq_none_iff {r : Registry} {name : Text} : r.refusal? name = none ↔
    (∀ n ∈ DirectiveName.builtins, n.spelling ≠ name) ∧ name ∉ r.added.map (·.name) := by
  unfold refusal?
  split
  · rename_i builtin
    obtain ⟨n, hn, same⟩ := List.any_eq_true.1 builtin
    exact ⟨nofun, fun ⟨foreign, _⟩ => absurd (beq_iff_eq.1 same) (foreign n hn)⟩
  · rename_i other
    have foreign : ∀ n ∈ DirectiveName.builtins, n.spelling ≠ name := fun n hn same =>
      other (List.any_eq_true.2 ⟨n, hn, beq_iff_eq.2 same⟩)
    split
    · rename_i known
      obtain ⟨kind, hk, same⟩ := List.any_eq_true.1 known
      exact ⟨nofun, fun ⟨_, unknown⟩ => absurd (List.mem_map.2 ⟨kind, hk, beq_iff_eq.1 same⟩) unknown⟩
    · rename_i unknown
      refine ⟨fun _ => ⟨foreign, fun known => unknown ?_⟩, fun _ => rfl⟩
      obtain ⟨kind, hk, same⟩ := List.mem_map.1 known
      exact List.any_eq_true.2 ⟨kind, hk, beq_iff_eq.2 same⟩

/-- Adds a directive behind all others; also what is logged. -/
def add (r : Registry) (name : Text) (effect : Effect) : Except Text (Registry × LogEntry) :=
  match h : r.refusal? name with
  | some message => .error message
  | none => .ok (⟨r.added ++ [⟨name, r.added.length, effect⟩],
      by rw [List.map_append, r.numbered, List.length_append, List.length_singleton, List.range_succ]; rfl,
      by
        rw [List.map_append, List.nodup_append]
        refine ⟨r.distinct, List.pairwise_singleton _ _, fun a known b new same => ?_⟩
        rw [same, List.mem_singleton.1 new] at known
        exact (refusal?_eq_none_iff.1 h).2 known,
      by
        intro kind hk
        rcases List.mem_append.1 hk with known | new
        · exact r.foreign kind known
        · rw [List.mem_singleton.1 new]
          exact (refusal?_eq_none_iff.1 h).1⟩,
    ⟨.debug, "registered the custom directive \"" ++ name ++ "\""⟩)

end Registry

end Stencil
