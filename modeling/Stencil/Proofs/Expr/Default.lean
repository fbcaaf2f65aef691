import Stencil.Proofs.Expr.Derivation
import Stencil.Proofs.Expr.Tiled
import Stencil.Expr.Signature

/-!
# Default arguments keep their meaning

The reader of signatures recognises the expression of a default and keeps the part of the source that it stands in.
`Signature.recognise` is that reader with the recognised trees kept as well: without them it is `Signature.parse`
(`Signature.parse_eq_recognise`). What is kept of the source is scanned again to the tokens that the tree was read
from, as they stand in a part of the source from the start of one token to the end of another, so that the default
has the recognised tree (`Signature.default_of_parse`).
-/

namespace Stencil

open Stencil.Expr Stencil.Expr.Parse

namespace Signature

/-! ## The reader with trees -/

/-- A parameter as it is recognised: a default with the tree that was read where it stands. -/
structure Recognised where
  name : Text
  default? : Option (Expression × Expr)

/-- The parameter of a signature. -/
def Recognised.parameter (p : Recognised) : Parameter := ⟨p.name, p.default?.map (·.1)⟩

/-- Reads a default value, with its tree. -/
def readTree (source : Text) : Parse (Expression × Expr) := do
  let ts ← get
  let tree ← readAt source (stepsFor ts.length) .conditional
  return (⟨slice source ts (← get)⟩, tree)

/-- Reads parameters up to the closing parenthesis, with the trees of their defaults. -/
def readRecognised (source : Text) : Nat → Bool → Parse (List Recognised)
  | 0, _ => fun ts => .error ⟨.outOfSteps, (ahead ts).offset, source⟩
  | n + 1, defaults => do
    if ← accept (.symbol .closeParen) then return []
    else
      let name ← expect source .name
      let default? ←
        if ← accept (.symbol .assign) then pure (some (← readTree source))
        else if defaults then fail source (.defaultBefore name.text) (ahead (← get)).offset
        else pure none
      if ← accept (.symbol .comma) then
        return ⟨name.text, default?⟩ :: (← readRecognised source n default?.isSome)
      else
        let _ ← expect source (.symbol .closeParen)
        return [⟨name.text, default?⟩]

/-- Reads the name of a signature and its parameters, with the trees of their defaults. -/
def readAll (source : Text) : Parse (Text × List Recognised) := do
  let name ← expect source .name
  if ← accept .endOfInput then return (name.text, [])
  else
    let _ ← expect source (.symbol .openParen)
    let parameters ← readRecognised source ((← get).length + 1) false
    let _ ← expect source .endOfInput
    return (name.text, parameters)

/-- What is recognised in the text of a signature: its name, and its parameters with the trees of their defaults. -/
def recognise (text : Text) : Except SyntaxError (Text × List Recognised) :=
  let source := Text.trimWhite text
  match Token.scan source with
  | .error e => .error e
  | .ok ts =>
    match readAll source ts with
    | .error e => .error e
    | .ok (recognised, _) => .ok recognised

/-- The signature without the trees. -/
def erase (recognised : Text × List Recognised) : Signature := ⟨recognised.1, recognised.2.map Recognised.parameter⟩

theorem readDefault_eq (source : Text) : readDefault source = (·.1) <$> readTree source := by
  simp [readDefault, readTree]

theorem fail_bind {α β : Type} (source : Text) (cause : SyntaxCause) (offset : Nat) (f : α → Parse β) :
    fail source cause offset >>= f = fail source cause offset := rfl

theorem map_fail {α β : Type} (source : Text) (cause : SyntaxCause) (offset : Nat) (f : α → β) :
    f <$> (fail source cause offset : Parse α) = fail source cause offset := rfl

theorem readParameters_eq (source : Text) (n : Nat) (defaults : Bool) :
    readParameters source n defaults = List.map Recognised.parameter <$> readRecognised source n defaults := by
  induction n generalizing defaults with
  | zero => rfl
  | succ n ih =>
    simp only [readParameters, readRecognised, readDefault_eq, ih, map_bind, apply_ite (List.map Recognised.parameter <$> ·),
      bind_map_left, pure_bind, map_pure, fail_bind, map_fail,
      Option.isSome_some, Option.isSome_none, List.map_cons, List.map_nil, Recognised.parameter, Option.map_some, Option.map_none]

theorem read_eq (source : Text) : read source = erase <$> readAll source := by
  simp only [read, readAll, readParameters_eq, map_bind, apply_ite (erase <$> ·), bind_map_left, map_pure, erase, List.map_nil]

/-- The trees are all that is kept besides the signature. -/
theorem parse_eq_recognise (text : Text) : parse text = (recognise text).map erase := by
  unfold parse recognise
  dsimp only
  cases Token.scan (Text.trimWhite text) with
  | error e => rfl
  | ok ts =>
    have read : read (Text.trimWhite text) ts = (readAll (Text.trimWhite text) ts).map fun r => (erase r.1, r.2) := by
      rw [read_eq]
      rfl
    simp only [read]
    cases readAll (Text.trimWhite text) ts <;> rfl

/-! ## The kept part of the source -/

variable {source : Text} {offset : Nat} {ts us taken rest : List Token} {t : Token}

theorem slice_eq_cut : slice source (t :: taken ++ rest) rest =
    Token.cut source t.offset (Token.reach t.stop taken) := by
  have front : (t :: taken ++ rest).take ((t :: taken ++ rest).length - rest.length) = t :: taken := by
    rw [List.length_append, Nat.add_sub_cancel, List.take_left]
  have last : Token.reach t.stop taken = ((t :: taken).getLast (List.cons_ne_nil t taken)).stop :=
    Token.reach_eq_getLast t.offset (List.cons_ne_nil t taken)
  unfold slice
  rw [front, List.getLast?_eq_some_getLast (List.cons_ne_nil t taken), last]
  rfl

/-- Reading takes the tokens of an expression off those that stand in a source, and its tree is that of the part of
the source where the tokens stand. -/
theorem tree_of_readAt {n : Nat} {e : Expr} (h : Token.Tiles source offset ts)
    (read : readAt source n .conditional ts = .ok (e, us)) :
    Expr.parse (slice source ts us) = .ok e ∧ ∃ offset', Token.Tiles source offset' us := by
  obtain ⟨taken, rfl, derives⟩ := derives_of_readAt read
  have some : us ≠ [] := by
    rintro rfl
    rw [List.append_nil] at h
    exact derives.balanced.endOfInput_notMem h.endOfInput_mem
  refine ⟨?_, _, (h.behind some).1⟩
  cases taken with
  | nil => exact absurd derives.length_pos (Nat.lt_irrefl 0)
  | cons t taken =>
    obtain ⟨ts, scanned, lexemes⟩ := Token.scan_cut h some
    rw [slice_eq_cut]
    exact parse_of_derives scanned lexemes derives

/-! ## Reading along the tokens -/

variable {α β : Type} {p : Parse α} {f : α → Parse β} {Q : α → Prop} {Q' : β → Prop}

/-- What is read from tokens that stand in the source has the property, and tokens that stand there are left. -/
def Keeps (source : Text) (p : Parse α) (Q : α → Prop) : Prop :=
  ∀ offset ts a us, Token.Tiles source offset ts → p ts = .ok (a, us) → Q a ∧ ∃ offset', Token.Tiles source offset' us

theorem keeps_pure {a : α} (h : Q a) : Keeps source (pure a) Q := by
  rintro offset ts _ _ tiles ⟨⟩
  exact ⟨h, offset, tiles⟩

theorem keeps_fail {cause : SyntaxCause} : Keeps source (fail source cause offset) Q := by
  rintro _ _ _ _ _ ⟨⟩

theorem Keeps.bind (h : Keeps source p Q) (next : ∀ a, Q a → Keeps source (f a) Q') : Keeps source (p >>= f) Q' := by
  intro offset ts b vs tiles read
  change (p ts).bind (fun r => f r.1 r.2) = _ at read
  cases first : p ts with
  | error => rw [first] at read; cases read
  | ok r =>
    rw [first] at read
    obtain ⟨value, _, rest⟩ := h offset ts r.1 r.2 tiles first
    exact next r.1 value _ _ b vs rest read

theorem keeps_get : Keeps source (get : Parse (List Token)) fun _ => True := by
  rintro offset ts _ _ tiles ⟨⟩
  exact ⟨trivial, offset, tiles⟩

/-- The token ahead is taken, unless it is the end of the input. -/
theorem tiles_advance (h : Token.Tiles source offset ts) :
    ∃ offset', Token.Tiles source offset' (if (ahead ts).kind = .endOfInput then ts else ts.tail) := by
  cases h with
  | ended within white => exact ⟨offset, .ended within white⟩
  | @token _ t ts after white black read proper more => exact ⟨t.stop, by simpa [ahead, proper] using more⟩

theorem keeps_accept (k : TokenKind) : Keeps source (accept k) fun _ => True := by
  intro offset ts found us tiles read
  simp only [accept] at read
  split at read
  next =>
    cases read
    exact ⟨trivial, tiles_advance tiles⟩
  next =>
    cases read
    exact ⟨trivial, offset, tiles⟩

theorem keeps_expect (k : TokenKind) : Keeps source (expect source k) fun _ => True := by
  intro offset ts t us tiles read
  change (if (ahead ts).kind = k then advance else _) ts = _ at read
  split at read
  next =>
    cases read
    exact ⟨trivial, tiles_advance tiles⟩
  next => cases read

/-! ## Defaults -/

/-- The default, where there is one, has the tree that was recognised. -/
def Recognised.Kept (p : Recognised) : Prop := ∀ d ∈ p.default?, d.1.tree = .ok d.2

theorem keeps_readTree : Keeps source (readTree source) fun d => d.1.tree = .ok d.2 := by
  intro offset ts d us tiles read
  change (readAt source (stepsFor ts.length) .conditional ts).bind
    (fun r => .ok ((Expression.mk (slice source ts r.2), r.1), r.2)) = _ at read
  cases first : readAt source (stepsFor ts.length) .conditional ts with
  | error => rw [first] at read; cases read
  | ok r =>
    rw [first] at read
    cases read
    exact tree_of_readAt tiles first

theorem keeps_readRecognised (n : Nat) (defaults : Bool) :
    Keeps source (readRecognised source n defaults) fun ps => ∀ p ∈ ps, p.Kept := by
  induction n generalizing defaults with
  | zero => rintro _ _ _ _ _ ⟨⟩
  | succ n ih =>
    -- what is read after the default of a parameter, or after its name
    have parameter (name : Text) (default? : Option (Expression × Expr)) (kept : Recognised.Kept ⟨name, default?⟩) :
        Keeps source (accept (.symbol .comma) >>= fun more => if more = true then
            readRecognised source n default?.isSome >>= fun ps => pure (⟨name, default?⟩ :: ps)
          else expect source (.symbol .closeParen) >>= fun _ => pure [⟨name, default?⟩]) fun ps => ∀ p ∈ ps, p.Kept := by
      refine (keeps_accept _).bind fun more _ => ?_
      split
      next => exact (ih _).bind fun ps others => keeps_pure (List.forall_mem_cons.2 ⟨kept, others⟩)
      next => exact (keeps_expect _).bind fun _ _ => keeps_pure (List.forall_mem_singleton.2 kept)
    rw [readRecognised]
    refine (keeps_accept _).bind fun closed _ => ?_
    split
    next => exact keeps_pure (by simp)
    next =>
      refine (keeps_expect _).bind fun name _ => (keeps_accept _).bind fun assigned _ => ?_
      split
      next => exact keeps_readTree.bind fun d tree => parameter name.text (some d) (by rintro _ ⟨⟩; exact tree)
      next =>
        split
        next => exact keeps_get.bind fun ts _ => keeps_fail
        next => exact parameter name.text none (by rintro _ ⟨⟩)

theorem keeps_readAll : Keeps source (readAll source) fun r => ∀ p ∈ r.2, p.Kept := by
  rw [readAll]
  refine (keeps_expect _).bind fun name _ => (keeps_accept _).bind fun ended _ => ?_
  split
  next => exact keeps_pure (by simp)
  next =>
    refine (keeps_expect _).bind fun _ _ => keeps_get.bind fun ts _ => (keeps_readRecognised _ _).bind fun ps kept => ?_
    exact (keeps_expect _).bind fun _ _ => keeps_pure kept

end Signature

open Signature

theorem Signature.kept_of_recognise {text name : Text} {ps : List Recognised} (h : recognise text = .ok (name, ps)) :
    ∀ p ∈ ps, p.Kept := by
  unfold recognise at h
  dsimp only at h
  split at h
  next => cases h
  next ts scanned =>
    split at h
    next => cases h
    next r us read =>
      cases h
      exact (keeps_readAll 0 ts _ us (Token.scan_eq_ok_iff.1 scanned) read).1

/-- **Default arguments keep their meaning.** What a signature keeps of the source for a default is an expression of
its own, and its tree is the one that the reader of the signature recognised at that place. -/
theorem Signature.default_of_parse {text : Text} {signature : Signature} (h : parse text = .ok signature) :
    ∃ ps : List Recognised, recognise text = .ok (signature.name, ps) ∧ signature.parameters = ps.map Recognised.parameter ∧
      ∀ p ∈ ps, ∀ d ∈ p.default?, d.1.tree = .ok d.2 := by
  rw [parse_eq_recognise] at h
  cases recognised : recognise text with
  | error => rw [recognised] at h; cases h
  | ok r =>
    rw [recognised] at h
    cases h
    exact ⟨r.2, rfl, rfl, kept_of_recognise recognised⟩

/-- A call, a list and a text with quotes, commas and parentheses as defaults. -/
def Signature.nested : Signature :=
  ⟨"f", [⟨"a", none⟩, ⟨"b", some ⟨"g(1, [2,\n3])"⟩⟩, ⟨"c", some ⟨"'x, (\\'y\\')'  \"z\""⟩⟩]⟩

theorem Signature.default_of_nested :
    parse "f(a, b = g(1, [2,\n3]) , c='x, (\\'y\\')'  \"z\" )" = .ok nested ∧ ∃ ps : List Recognised,
      recognise "f(a, b = g(1, [2,\n3]) , c='x, (\\'y\\')'  \"z\" )" = .ok ("f", ps) ∧
      nested.parameters = ps.map Recognised.parameter ∧ ∀ p ∈ ps, ∀ d ∈ p.default?, d.1.tree = .ok d.2 := by
  have accepted : parse "f(a, b = g(1, [2,\n3]) , c='x, (\\'y\\')'  \"z\" )" = .ok nested := by decide +kernel
  exact ⟨accepted, default_of_parse accepted⟩

end Stencil
