import Mathlib.Tactic.Conv
import Stencil.Proofs.Text.Numeral
import Stencil.Xml.Token
import Stencil.Xml.Writer

/-!
# Tokens in a source

The written form of each token (`Token.written`), and how a source is cut: character data is escaped, so it
goes on up to the next markup, and markup is one piece if it is complete at its end and not before
(`kinds_markup`). What `Token.Readable` asks for is that names are made of the bytes of names, and that
comments, instructions and document types don't hold what ends them.
-/

namespace Stencil.Xml

/-! ## Written forms -/

/-- An attribute in a tag. -/
def writtenAttribute (a : Text × Text) : Text := (" " : Text) ++ a.1 ++ quotedValue a.2

/-- What stands between the angle brackets of a start tag. -/
def Tag.written (tag : Tag) : Text := tag.name ++ tag.attributes.flatMap writtenAttribute

/-- What follows the target of an instruction. -/
def writtenData (data : Text) : Text := if data.isEmpty then [] else " " ++ data

/-- An identifier of a document type. -/
def quotedId (t : Text) : Text := " \"" ++ t ++ "\""

/-- The word before the identifiers of a document type, and the identifiers. -/
def idsOf : Text → Text → Text × List Text
  | [], [] => ([], [])
  | [], systemId => (" SYSTEM", [systemId])
  | publicId, [] => (" PUBLIC", [publicId])
  | publicId, systemId => (" PUBLIC", [publicId, systemId])

/-- What follows the name in a document type. -/
def writtenIds (publicId systemId : Text) : Text :=
  (idsOf publicId systemId).1 ++ (idsOf publicId systemId).2.flatMap quotedId

/-- The text of a token that is markup, without its angle brackets. -/
def Token.body : Token → Text
  | characters _ => []
  | verbatim t => verbatimOpening ++ (t ++ "]]")
  | startTag tag => tag.written
  | emptyTag tag => tag.written ++ "/"
  | endTag name => "/" ++ name
  | comment t => commentOpening ++ (t ++ "--")
  | instruction target data => "?" ++ (target ++ writtenData data ++ "?")
  | doctype name publicId systemId => doctypeOpening ++ (" " ++ name ++ writtenIds publicId systemId)

/-- The text of a token. -/
def Token.written : Token → Text
  | characters t => escape t
  | token => "<" ++ token.body ++ ">"

/-! ## What can be read back -/

/-- The bytes of names. -/
def isNameByte (c : Byte) : Bool :=
  Byte.isAlphanumeric c || c == '_' || c == ':' || c == '-' || c == '.' || 128 ≤ c

/-- A name of an element or an attribute, as it is written. -/
def IsName (t : Text) : Prop := t ≠ [] ∧ ∀ c ∈ t, isNameByte c = true

instance : DecidablePred IsName := fun t => inferInstanceAs (Decidable (t ≠ [] ∧ ∀ c ∈ t, isNameByte c = true))

/-- Nothing in the text that ends so is followed by a closing angle bracket. -/
def Unended (ending t : Text) : Prop := ∀ a b : Text, t = a ++ ('>' : Byte) :: b → ending.isSuffixOf a = false

theorem unended_of_not_mem {ending t : Text} (h : ('>' : Byte) ∉ t) : Unended ending t := by
  rintro a b rfl
  exact absurd (by simp) h

/-- An identifier that can stand in the quotes of a document type. -/
def IsId (t : Text) : Prop := ('\"' : Byte) ∉ t ∧ ('[' : Byte) ∉ t

/-- Names are names, and markup that is not a tag does not end before its end. -/
def Token.Readable : Token → Prop
  | characters _ => True
  | verbatim t => Unended "]]" t
  | startTag tag | emptyTag tag => IsName tag.name ∧ ∀ a ∈ tag.attributes, IsName a.1
  | endTag name => IsName name
  | comment t => Unended "--" t
  | instruction target data =>
    (∀ c ∈ target, Byte.isWhite c = false) ∧ (∀ c ∈ data.head?, Byte.isWhite c = false) ∧
      Unended "?" (target ++ writtenData data)
  | doctype name publicId systemId => IsName name ∧ IsId publicId ∧ IsId systemId

/-- Tokens as they are read: character data in one piece before each markup and at the end, `held` being what
was read of it so far. -/
def spaced (held : Text) : List Token → List Token
  | [] => [.characters held]
  | .characters t :: tokens => spaced (held ++ t) tokens
  | token :: tokens => .characters held :: token :: spaced [] tokens

/-! ## Escaping -/

/-- What a byte is written as stands for that byte. -/
theorem decode_escapeAttributeByte (c : Byte) (done : Text) :
    (escapeAttributeByte c).foldlM Decoding.step ⟨done, none⟩ = some ⟨c :: done, none⟩ := by
  unfold escapeAttributeByte escapeByte
  split
  case isTrue h => rw [beq_iff_eq.1 h]; rfl
  case isFalse =>
    repeat' split
    case isTrue h => rw [beq_iff_eq.1 h]; rfl
    case isTrue h => rw [beq_iff_eq.1 h]; rfl
    case isTrue h => rw [beq_iff_eq.1 h]; rfl
    case isFalse ampersand => simp [Decoding.step, ampersand]

theorem decode_escapeByte (c : Byte) (done : Text) :
    (escapeByte c).foldlM Decoding.step ⟨done, none⟩ = some ⟨c :: done, none⟩ := by
  unfold escapeByte
  repeat' split
  case isTrue h => rw [beq_iff_eq.1 h]; rfl
  case isTrue h => rw [beq_iff_eq.1 h]; rfl
  case isTrue h => rw [beq_iff_eq.1 h]; rfl
  case isFalse ampersand => simp [Decoding.step, ampersand]

theorem unescape_flatMap {f : Byte → Text}
    (decode : ∀ c done, (f c).foldlM Decoding.step ⟨done, none⟩ = some ⟨c :: done, none⟩) (t : Text) :
    unescape? (t.flatMap f) = some t := by
  have all : ∀ done : Text, (t.flatMap f).foldlM Decoding.step ⟨done, none⟩ = some ⟨t.reverse ++ done, none⟩ := by
    induction t with
    | nil => exact fun done => rfl
    | cons c t ih =>
      intro done
      rw [List.flatMap_cons, List.foldlM_append, decode]
      simp [ih]
  simp [unescape?, all, Decoding.finish?]

/-- Escaped character data stands for the text. -/
theorem unescape_escape (t : Text) : unescape? (escape t) = some t := unescape_flatMap decode_escapeByte t

theorem unescape_escapeAttribute (t : Text) : unescape? (escapeAttribute t) = some t :=
  unescape_flatMap decode_escapeAttributeByte t

theorem escape_append (t r : Text) : escape (t ++ r) = escape t ++ escape r := List.flatMap_append

/-- A byte of a text that is written for a byte is no angle bracket. -/
theorem mem_escapeByte {c d : Byte} (h : d ∈ escapeByte c) : d ≠ '<' ∧ d ≠ '>' := by
  have references : ∀ t ∈ ["&lt;", "&gt;", "&amp;"], ∀ d ∈ Text.ascii t, d ≠ ('<' : Byte) ∧ d ≠ ('>' : Byte) := by decide +kernel
  unfold escapeByte at h
  split at h
  · exact references "&lt;" (by simp) d h
  · split at h
    · exact references "&gt;" (by simp) d h
    · split at h
      · exact references "&amp;" (by simp) d h
      · rename_i less greater _
        rw [List.mem_singleton.1 h]
        exact ⟨fun same => less (beq_iff_eq.2 same), fun same => greater (beq_iff_eq.2 same)⟩

/-- Escaped character data has no angle bracket. -/
theorem mem_escape {t : Text} {d : Byte} (h : d ∈ escape t) : d ≠ '<' ∧ d ≠ '>' := by
  obtain ⟨c, -, hd⟩ := List.mem_flatMap.1 h
  exact mem_escapeByte hd

/-- An escaped attribute value has no angle bracket and no double quote. -/
theorem mem_escapeAttribute {t : Text} {d : Byte} (h : d ∈ escapeAttribute t) : d ≠ '<' ∧ d ≠ '>' ∧ d ≠ '\"' := by
  have references : ∀ t ∈ ["&lt;", "&gt;", "&amp;", "&quot;"], ∀ d ∈ Text.ascii t,
      d ≠ ('<' : Byte) ∧ d ≠ ('>' : Byte) ∧ d ≠ ('\"' : Byte) := by decide +kernel
  obtain ⟨c, -, hd⟩ := List.mem_flatMap.1 h
  unfold escapeAttributeByte escapeByte at hd
  split at hd
  · exact references "&quot;" (by simp) d hd
  · split at hd
    · exact references "&lt;" (by simp) d hd
    · split at hd
      · exact references "&gt;" (by simp) d hd
      · split at hd
        · exact references "&amp;" (by simp) d hd
        · rename_i quote less greater _
          rw [List.mem_singleton.1 hd]
          exact ⟨fun same => less (beq_iff_eq.2 same), fun same => greater (beq_iff_eq.2 same),
            fun same => quote (beq_iff_eq.2 same)⟩

/-! ## Cutting -/

/-- The pieces that a source is cut into, their places aside. -/
def kinds (inMarkup : Bool) (held s : Text) : List Piece := (cut ⟨1, 1⟩ inMarkup held s).map (·.1)

/-- The pieces do not depend on where the source starts. -/
theorem kinds_eq (place : Place) (inMarkup : Bool) (held s : Text) :
    (cut place inMarkup held s).map (·.1) = kinds inMarkup held s := by
  have same : ∀ (place place' : Place), (cut place inMarkup held s).map (·.1) = (cut place' inMarkup held s).map (·.1) := by
    induction s generalizing inMarkup held with
    | nil => exact fun _ _ => rfl
    | cons c s ih =>
      intro place place'
      simp only [cut]
      repeat' split
      all_goals simp only [List.map_cons, ih _ _ (placeAfter place c) (placeAfter place' c)]
  exact same _ _

theorem tokens_eq (source : Text) : tokens source = (kinds false [] source).mapM readPiece := by
  rw [tokens, pieces, kinds, List.mapM_map]
  rfl

theorem kinds_cons (inMarkup : Bool) (held : Text) (c : Byte) (s : Text) :
    kinds inMarkup held (c :: s) =
      if inMarkup then
        if c == '>' && isComplete held.reverse then .markup held.reverse :: kinds false [] s else kinds true (c :: held) s
      else if c == '<' then .characters held.reverse :: kinds true [] s
      else kinds false (c :: held) s := by
  conv_lhs => rw [kinds, cut]
  repeat' split
  all_goals simp only [List.map_cons, kinds_eq]

/-- Character data goes on up to the next opening bracket. -/
theorem kinds_characters {t : Text} (h : ∀ c ∈ t, c ≠ ('<' : Byte)) (held rest : Text) :
    kinds false held (t ++ rest) = kinds false (t.reverse ++ held) rest := by
  induction t generalizing held with
  | nil => rfl
  | cons c t ih =>
    obtain ⟨first, others⟩ := List.forall_mem_cons.1 h
    rw [List.cons_append, kinds_cons, if_neg (by simp), if_neg (by simpa using first), ih others]
    simp

theorem kinds_open (held rest : Text) :
    kinds false held (('<' : Byte) :: rest) = .characters held.reverse :: kinds true [] rest := by
  rw [kinds_cons]
  rfl

/-- Markup that starts with the first text does not end within the second one. -/
def Passes (before t : Text) : Prop := ∀ a b : Text, t = a ++ ('>' : Byte) :: b → isComplete (before ++ a) = false

theorem passes_of_not_mem {before t : Text} (h : ('>' : Byte) ∉ t) : Passes before t := by
  rintro a b rfl
  exact absurd (by simp) h

theorem Passes.append {before t r : Text} (h : Passes before t) (h' : Passes (before ++ t) r) : Passes before (t ++ r) := by
  intro a b same
  rcases List.append_eq_append_iff.1 same with ⟨a', rfl, rest⟩ | ⟨b', rfl, rest⟩
  · rw [← List.append_assoc]
    exact h' a' b rest
  · cases b' with
    | nil =>
      have early := h' [] b (by simpa using rest.symm)
      simpa using early
    | cons c b' =>
      obtain ⟨rfl, rfl⟩ := List.cons.inj rest
      exact h a b' rfl

theorem kinds_pass (held : Text) {t : Text} (h : Passes held.reverse t) (rest : Text) :
    kinds true held (t ++ rest) = kinds true (t.reverse ++ held) rest := by
  induction t generalizing held with
  | nil => rfl
  | cons c t ih =>
    have goesOn : (c == ('>' : Byte) && isComplete held.reverse) = false := by
      by_cases closing : c = '>'
      · subst closing
        have early := h [] t rfl
        rw [List.append_nil] at early
        rw [early, Bool.and_false]
      · simp [closing]
    have later : Passes (c :: held).reverse t := by
      rintro a b rfl
      have early := h (c :: a) b rfl
      simpa using early
    rw [List.cons_append, kinds_cons, if_pos rfl, goesOn, if_neg (by simp), ih (c :: held) later]
    simp

/-- Markup that is complete in the end and not before is one piece. -/
theorem kinds_markup {t : Text} (passes : Passes [] t) (complete : isComplete t = true) (rest : Text) :
    kinds true [] (t ++ ('>' : Byte) :: rest) = .markup t :: kinds false [] rest := by
  rw [kinds_pass [] passes, kinds_cons]
  simp [complete]

/-! ## Names and quotes -/

/-- The bytes that have a meaning in markup. -/
def markupBytes : Text := "!?/<>\"'=[]&;"

/-- No byte of a name has a meaning in markup or is white space. -/
theorem of_isNameByte {c : Byte} (h : isNameByte c = true) : Byte.isWhite c = false ∧ ∀ d ∈ markupBytes, c ≠ d := by
  revert h
  exact Byte.of_codes (p := fun c => isNameByte c = true → Byte.isWhite c = false ∧ ∀ d ∈ markupBytes, c ≠ d)
    (by decide +kernel) c

theorem IsName.ne {t : Text} (h : IsName t) {d : Byte} (special : d ∈ markupBytes) : ∀ c ∈ t, c ≠ d :=
  fun c hc => (of_isNameByte (h.2 c hc)).2 d special

theorem IsName.white {t : Text} (h : IsName t) : ∀ c ∈ t, Byte.isWhite c = false := fun c hc => (of_isNameByte (h.2 c hc)).1

theorem IsName.unquoted {t : Text} (h : IsName t) : ∀ c ∈ t, TagReading.isQuote c = false := by
  intro c hc
  have double := h.ne (d := '\"') (by decide) c hc
  have single := h.ne (d := 39) (by decide) c hc
  simp [TagReading.isQuote, double, single]

/-- The quote that is open after a text if one is before. -/
def quoteAfter (quote? : Option Byte) (t : Text) : Option Byte :=
  t.foldl (fun quote? c => match quote? with
    | some q => if c == q then none else some q
    | none => if TagReading.isQuote c then some c else none) quote?

theorem openQuote_eq (t : Text) : openQuote? t = quoteAfter none t := rfl

theorem quoteAfter_append (quote? : Option Byte) (t r : Text) :
    quoteAfter quote? (t ++ r) = quoteAfter (quoteAfter quote? t) r := List.foldl_append

theorem quoteAfter_none {t : Text} (h : ∀ c ∈ t, TagReading.isQuote c = false) : quoteAfter none t = none := by
  induction t with
  | nil => rfl
  | cons c t ih =>
    obtain ⟨first, others⟩ := List.forall_mem_cons.1 h
    change quoteAfter (if TagReading.isQuote c then some c else none) t = none
    rw [first]
    exact ih others

theorem quoteAfter_some {t : Text} {q : Byte} (h : ∀ c ∈ t, c ≠ q) : quoteAfter (some q) t = some q := by
  induction t with
  | nil => rfl
  | cons c t ih =>
    obtain ⟨first, others⟩ := List.forall_mem_cons.1 h
    change quoteAfter (if c == q then none else some q) t = some q
    rw [if_neg (by simpa using first)]
    exact ih others

/-- A text in double quotes leaves no quote open. -/
theorem quoteAfter_quoted {t : Text} (h : ∀ c ∈ t, c ≠ ('\"' : Byte)) :
    quoteAfter none (("\"" : Text) ++ t ++ "\"") = none := by
  rw [quoteAfter_append, quoteAfter_append]
  change quoteAfter (quoteAfter (some '\"') t) "\"" = none
  rw [quoteAfter_some h]
  rfl

end Stencil.Xml
