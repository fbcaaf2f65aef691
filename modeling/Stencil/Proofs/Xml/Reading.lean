import Mathlib.Data.List.TakeWhile
import Stencil.Proofs.Text.Trimmed
import Stencil.Proofs.Xml.Pieces

/-!
# Written tokens are read back

A source put together from written tokens is read to these tokens again (`tokens_written`), whatever texts
and attribute values there are in them: these are escaped, so no byte of theirs starts or ends markup.
-/

namespace Stencil.Xml

/-! ## Tags -/

/-- What is read of a tag after some of its bytes. -/
def readFrom (r : TagReading) (t : Text) : Option TagReading := t.foldlM TagReading.step r

theorem readFrom_append (r : TagReading) (t t' : Text) :
    readFrom r (t ++ t') = (readFrom r t).bind fun r => readFrom r t' := List.foldlM_append

theorem readFrom_name {t : Text} (h : ∀ c ∈ t, Byte.isWhite c = false) (n : Text) :
    readFrom ⟨[], [], .name n⟩ t = some ⟨[], [], .name (t.reverse ++ n)⟩ := by
  induction t generalizing n with
  | nil => rfl
  | cons c t ih =>
    obtain ⟨first, others⟩ := List.forall_mem_cons.1 h
    have next : TagReading.step ⟨[], [], .name n⟩ c = some ⟨[], [], .name (c :: n)⟩ := by simp [TagReading.step, first]
    have rest := ih others (c :: n)
    simp only [readFrom, List.foldlM_cons, next] at rest ⊢
    simpa using rest

theorem readFrom_attributeName {t : Text} (h : ∀ c ∈ t, Byte.isWhite c = false ∧ c ≠ ('=' : Byte)) (tagName n : Text)
    (as : List (Text × Text)) :
    readFrom ⟨tagName, as, .attributeName n⟩ t = some ⟨tagName, as, .attributeName (t.reverse ++ n)⟩ := by
  induction t generalizing n with
  | nil => rfl
  | cons c t ih =>
    obtain ⟨⟨noWhite, noEquals⟩, others⟩ := List.forall_mem_cons.1 h
    have next : TagReading.step ⟨tagName, as, .attributeName n⟩ c = some ⟨tagName, as, .attributeName (c :: n)⟩ := by
      simp [TagReading.step, noWhite, noEquals]
    have rest := ih others (c :: n)
    simp only [readFrom, List.foldlM_cons, next] at rest ⊢
    simpa using rest

theorem readFrom_value {t : Text} (h : ∀ c ∈ t, c ≠ ('<' : Byte) ∧ c ≠ ('\"' : Byte)) (tagName n v : Text)
    (as : List (Text × Text)) :
    readFrom ⟨tagName, as, .value n '\"' v⟩ t = some ⟨tagName, as, .value n '\"' (t.reverse ++ v)⟩ := by
  induction t generalizing v with
  | nil => rfl
  | cons c t ih =>
    obtain ⟨⟨noBracket, noQuote⟩, others⟩ := List.forall_mem_cons.1 h
    have next : TagReading.step ⟨tagName, as, .value n '\"' v⟩ c = some ⟨tagName, as, .value n '\"' (c :: v)⟩ := by
      simp [TagReading.step, noBracket, noQuote]
    have rest := ih others (c :: v)
    simp only [readFrom, List.foldlM_cons, next] at rest ⊢
    simpa using rest

/-- An attribute is read where white space is due. -/
theorem readFrom_attribute {a : Text × Text} (h : IsName a.1) {r : TagReading} {tagName : Text}
    {as : List (Text × Text)} (gap : TagReading.step r ' ' = some ⟨tagName, as, .gap⟩) :
    readFrom r (writtenAttribute a) = some ⟨tagName, a :: as, .afterValue⟩ := by
  obtain ⟨n, v⟩ := a
  obtain ⟨some, bytes⟩ := h
  cases n with
  | nil => exact absurd rfl some
  | cons c n =>
    have special : ∀ d ∈ c :: n, Byte.isWhite d = false ∧ d ≠ ('=' : Byte) := fun d hd =>
      ⟨IsName.white ⟨some, bytes⟩ d hd, IsName.ne ⟨some, bytes⟩ (by decide) d hd⟩
    have unquoted := IsName.unquoted ⟨some, bytes⟩ c List.mem_cons_self
    obtain ⟨⟨noWhite, noEquals⟩, others⟩ := List.forall_mem_cons.1 special
    have opened : TagReading.step ⟨tagName, as, .gap⟩ c = .some ⟨tagName, as, .attributeName [c]⟩ := by
      simp [TagReading.step, noWhite, noEquals, unquoted]
    have value : readFrom ⟨tagName, as, .value (n.reverse ++ [c]) '\"' []⟩ (escapeAttribute v) =
        .some ⟨tagName, as, .value (n.reverse ++ [c]) '\"' (escapeAttribute v).reverse⟩ := by
      rw [readFrom_value fun d hd => ⟨(mem_escapeAttribute hd).1, (mem_escapeAttribute hd).2.2⟩, List.append_nil]
    have closed : TagReading.step ⟨tagName, as, .value (n.reverse ++ [c]) '\"' (escapeAttribute v).reverse⟩ '\"' =
        .some ⟨tagName, (c :: n, v) :: as, .afterValue⟩ := by
      simp [TagReading.step, unescape_escapeAttribute]
    have parts : writtenAttribute (c :: n, v) =
        (' ' : Byte) :: c :: (n ++ (("=\"" : Text) ++ (escapeAttribute v ++ [('\"' : Byte)]))) := by
      simp [writtenAttribute, quotedValue, Text.ascii]
    rw [parts]
    change (TagReading.step r ' ').bind (fun r => (TagReading.step r c).bind fun r => readFrom r _) = _
    rw [gap, Option.bind_some, opened, Option.bind_some, readFrom_append, readFrom_attributeName others,
      Option.bind_some, readFrom_append]
    change (readFrom ⟨tagName, as, .value (n.reverse ++ [c]) '\"' []⟩ _) = _
    rw [readFrom_append, value, Option.bind_some]
    change (TagReading.step _ _).bind _ = _
    rw [closed]
    rfl

theorem readFrom_attributes {more : List (Text × Text)} (h : ∀ a ∈ more, IsName a.1) (tagName : Text)
    (as : List (Text × Text)) :
    readFrom ⟨tagName, as, .afterValue⟩ (more.flatMap writtenAttribute) =
      some ⟨tagName, more.reverse ++ as, .afterValue⟩ := by
  induction more generalizing as with
  | nil => rfl
  | cons a more ih =>
    obtain ⟨first, others⟩ := List.forall_mem_cons.1 h
    have gap : TagReading.step ⟨tagName, as, .afterValue⟩ ' ' = some ⟨tagName, as, .gap⟩ := rfl
    rw [List.flatMap_cons, readFrom_append, readFrom_attribute first gap]
    simpa using ih others (a :: as)

/-- A tag is read back. -/
theorem ofText_written {tag : Tag} (name : IsName tag.name) (attributes : ∀ a ∈ tag.attributes, IsName a.1) :
    Tag.ofText? tag.written = some tag := by
  obtain ⟨n, as⟩ := tag
  have start : readFrom TagReading.start n = some ⟨[], [], .name n.reverse⟩ := by
    have read := readFrom_name name.white []
    rwa [List.append_nil] at read
  change (readFrom TagReading.start (n ++ as.flatMap writtenAttribute)).bind TagReading.finish? = _
  rw [readFrom_append, start, Option.bind_some]
  have filled : n.reverse.isEmpty = false := by simpa using name.1
  cases as with
  | nil =>
    change TagReading.finish? ⟨[], [], .name n.reverse⟩ = _
    simp [TagReading.finish?, filled]
  | cons a as =>
    obtain ⟨first, others⟩ := List.forall_mem_cons.1 attributes
    have gap : TagReading.step ⟨[], [], .name n.reverse⟩ ' ' = some ⟨n, [], .gap⟩ := by
      simp only [TagReading.step, filled, List.reverse_reverse]
      rfl
    rw [List.flatMap_cons, readFrom_append, readFrom_attribute first gap, Option.bind_some, readFrom_attributes others]
    simp [TagReading.finish?]

/-! ## Markup -/

/-- Markup that starts so is a tag. -/
def StartsTag (t : Text) : Prop := ∃ c r, t = c :: r ∧ c ≠ ('!' : Byte) ∧ c ≠ ('?' : Byte)

theorem StartsTag.openings {t : Text} (h : StartsTag t) :
    ¬ commentOpening.isPrefixOf t ∧ ¬ verbatimOpening.isPrefixOf t ∧ ¬ doctypeOpening.isPrefixOf t ∧
      ¬ ("?" : Text).isPrefixOf t := by
  obtain ⟨c, r, rfl, bang, question⟩ := h
  simp [commentOpening, verbatimOpening, doctypeOpening, Text.ascii, Ne.symm bang, Ne.symm question]

theorem isComplete_tag {t : Text} (h : StartsTag t) : isComplete t = (openQuote? t).isNone := by
  obtain ⟨comment, verbatim, doctype, instruction⟩ := h.openings
  rw [isComplete, if_neg comment, if_neg verbatim, if_neg instruction, if_neg doctype]

theorem readMarkup_tag {t : Text} (h : StartsTag t) :
    readMarkup t =
      if ("/" : Text).isPrefixOf t then .ok (.endTag (Text.trimRight Byte.isWhite (t.drop 1)))
      else
        let isEmpty := t.getLast? == some ('/' : Byte)
        match Tag.ofText? (if isEmpty then t.dropLast else t) with
        | some tag => .ok (if isEmpty then .emptyTag tag else .startTag tag)
        | none => .error .tag := by
  obtain ⟨comment, verbatim, doctype, instruction⟩ := h.openings
  exact (if_neg comment).trans ((if_neg verbatim).trans ((if_neg doctype).trans (if_neg instruction)))

theorem IsName.startsTag {t : Text} (h : IsName t) (r : Text) : StartsTag (t ++ r) := by
  obtain ⟨some, bytes⟩ := h
  cases t with
  | nil => exact absurd rfl some
  | cons c t =>
    exact ⟨c, t ++ r, rfl, IsName.ne ⟨some, bytes⟩ (by decide) c List.mem_cons_self,
      IsName.ne ⟨some, bytes⟩ (by decide) c List.mem_cons_self⟩

/-! ### Tags -/

theorem quoteAfter_writtenAttribute {a : Text × Text} (h : IsName a.1) : quoteAfter none (writtenAttribute a) = none := by
  have parts : writtenAttribute a = (" " : Text) ++ (a.1 ++ (("=" : Text) ++ (("\"" : Text) ++ escapeAttribute a.2 ++ "\""))) := by
    simp [writtenAttribute, quotedValue, Text.ascii]
  rw [parts, quoteAfter_append, quoteAfter_append, quoteAfter_append, show quoteAfter none (" " : Text) = none from rfl,
    quoteAfter_none h.unquoted, show quoteAfter none ("=" : Text) = none from rfl]
  exact quoteAfter_quoted fun c hc => (mem_escapeAttribute hc).2.2

theorem quoteAfter_written {tag : Tag} (name : IsName tag.name) (attributes : ∀ a ∈ tag.attributes, IsName a.1) :
    quoteAfter none tag.written = none := by
  obtain ⟨n, as⟩ := tag
  rw [Tag.written, quoteAfter_append, quoteAfter_none name.unquoted]
  clear name
  induction as with
  | nil => rfl
  | cons a as ih =>
    obtain ⟨first, others⟩ := List.forall_mem_cons.1 attributes
    rw [List.flatMap_cons, quoteAfter_append, quoteAfter_writtenAttribute first]
    exact ih others

theorem not_mem_written {tag : Tag} (name : IsName tag.name) (attributes : ∀ a ∈ tag.attributes, IsName a.1) :
    ('>' : Byte) ∉ tag.written := by
  intro member
  rcases List.mem_append.1 member with inName | inAttributes
  · exact name.ne (by decide) _ inName rfl
  · obtain ⟨a, ha, member⟩ := List.mem_flatMap.1 inAttributes
    simp only [writtenAttribute, quotedValue, List.mem_append] at member
    rcases member with (space | inName) | (equals | inValue) | quote
    · exact absurd space (by decide)
    · exact (attributes a ha).ne (by decide) _ inName rfl
    · exact absurd equals (by decide)
    · exact (mem_escapeAttribute inValue).2.1 rfl
    · exact absurd quote (by decide)

/-- A tag ends with a byte of a name or a quote. -/
theorem getLast_written {tag : Tag} (name : IsName tag.name) : tag.written.getLast? ≠ some ('/' : Byte) := by
  obtain ⟨n, as⟩ := tag
  rcases as.eq_nil_or_concat with rfl | ⟨as, a, rfl⟩
  · intro last
    rw [Tag.written, List.flatMap_nil, List.append_nil] at last
    exact name.ne (by decide) _ (List.mem_of_getLast? last) rfl
  · have ends : Tag.written ⟨n, as.concat a⟩ =
        (n ++ as.flatMap writtenAttribute ++ (" " : Text) ++ a.1 ++ "=\"" ++ escapeAttribute a.2) ++ [('\"' : Byte)] := by
      simp [Tag.written, writtenAttribute, quotedValue, Text.ascii]
    rw [ends, List.getLast?_concat]
    decide

/-! ### Markup between an opening and an ending -/

/-- Markup that goes on up to its ending. -/
theorem passes_ended {opening ending t : Text} (ends : ∀ a, isComplete (opening ++ a) = ending.isSuffixOf a)
    (outside : ('>' : Byte) ∉ opening ++ ending) (unended : Unended ending t) : Passes [] (opening ++ (t ++ ending)) := by
  refine (passes_of_not_mem fun member => outside (List.mem_append_left _ member)).append ?_
  rw [List.nil_append]
  intro a b same
  rw [ends]
  rcases List.append_eq_append_iff.1 same with ⟨r, rfl, rest⟩ | ⟨r, rfl, rest⟩
  · exact absurd (rest ▸ List.mem_append_right opening (by simp)) outside
  · cases r with
    | nil =>
      obtain rfl : ('>' : Byte) :: b = ending := rest
      exact absurd (List.mem_append_right opening List.mem_cons_self) outside
    | cons c r =>
      obtain ⟨rfl, -⟩ := List.cons.inj rest
      exact unended a r rfl

theorem complete_ended {opening ending t : Text} (ends : ∀ a, isComplete (opening ++ a) = ending.isSuffixOf a) :
    isComplete (opening ++ (t ++ ending)) = true := by
  rw [ends]
  exact List.isSuffixOf_iff_suffix.2 (List.suffix_append _ _)

theorem isComplete_comment (a : Text) : isComplete (commentOpening ++ a) = ("--" : Text).isSuffixOf a := by
  rw [isComplete, if_pos (List.isPrefixOf_iff_prefix.2 (List.prefix_append _ _)), List.drop_left]

theorem isComplete_verbatim (a : Text) : isComplete (verbatimOpening ++ a) = ("]]" : Text).isSuffixOf a := by
  rw [isComplete, if_neg (by rw [show commentOpening.isPrefixOf (verbatimOpening ++ a) = false from rfl]; simp),
    if_pos (List.isPrefixOf_iff_prefix.2 (List.prefix_append _ _)), List.drop_left]

theorem isComplete_instruction (a : Text) : isComplete ("?" ++ a) = ("?" : Text).isSuffixOf a := rfl

theorem IsName.noSlash {t : Text} (h : IsName t) (r : Text) : ¬ ("/" : Text).isPrefixOf (t ++ r) := by
  obtain ⟨some, bytes⟩ := h
  cases t with
  | nil => exact absurd rfl some
  | cons c t =>
    have other := IsName.ne (d := '/') ⟨some, bytes⟩ (by decide) c List.mem_cons_self
    simp [Text.ascii, Ne.symm other]

theorem readMarkup_startTag {tag : Tag} (name : IsName tag.name) (attributes : ∀ a ∈ tag.attributes, IsName a.1) :
    readMarkup tag.written = .ok (.startTag tag) := by
  have slash : ¬ ("/" : Text).isPrefixOf tag.written := name.noSlash _
  have last : (tag.written.getLast? == some ('/' : Byte)) = false := by simpa using getLast_written name
  have starts : StartsTag tag.written := name.startsTag _
  rw [readMarkup_tag starts, if_neg slash]
  simp only [last, Bool.false_eq_true, if_false, ofText_written name attributes]

theorem readMarkup_emptyTag {tag : Tag} (name : IsName tag.name) (attributes : ∀ a ∈ tag.attributes, IsName a.1) :
    readMarkup (tag.written ++ "/") = .ok (.emptyTag tag) := by
  have last : ((tag.written ++ ("/" : Text)).getLast? == some ('/' : Byte)) = true := by simp [Text.ascii]
  have tagOnly : (tag.written ++ ("/" : Text)).dropLast = tag.written := by simp [Text.ascii]
  have starts : StartsTag (tag.written ++ ("/" : Text)) := by
    rw [Tag.written, List.append_assoc]
    exact name.startsTag _
  have slash : ¬ ("/" : Text).isPrefixOf (tag.written ++ ("/" : Text)) := by
    rw [Tag.written, List.append_assoc]
    exact name.noSlash _
  rw [readMarkup_tag starts, if_neg slash]
  simp only [last, tagOnly, if_true, ofText_written name attributes]

theorem IsName.last {t : Text} (h : IsName t) : ∀ c ∈ t.getLast?, Byte.isWhite c = false := fun c last =>
  h.white c (List.mem_of_getLast? last)

theorem readMarkup_endTag {n : Text} (name : IsName n) : readMarkup ("/" ++ n) = .ok (.endTag n) := by
  have starts : StartsTag (("/" : Text) ++ n) := ⟨'/', n, rfl, by decide, by decide⟩
  have slash : ("/" : Text).isPrefixOf (("/" : Text) ++ n) := rfl
  rw [readMarkup_tag starts, if_pos slash]
  change Except.ok (Token.endTag (Text.trimRight Byte.isWhite n)) = _
  rw [Text.trimRight_of_last name.last]

theorem readMarkup_comment (t : Text) : readMarkup (commentOpening ++ (t ++ ("--" : Text))) = .ok (.comment t) := by
  rw [readMarkup, if_pos (List.isPrefixOf_iff_prefix.2 (List.prefix_append _ _)), List.drop_left]
  simp [Text.ascii]

theorem readMarkup_verbatim (t : Text) : readMarkup (verbatimOpening ++ (t ++ ("]]" : Text))) = .ok (.verbatim t) := by
  rw [readMarkup, if_neg (by rw [show commentOpening.isPrefixOf (verbatimOpening ++ _) = false from rfl]; simp),
    if_pos (List.isPrefixOf_iff_prefix.2 (List.prefix_append _ _)), List.drop_left]
  simp [Text.ascii]

/-- The first word of a text. -/
theorem takeWhile_word {word rest : Text} (h : ∀ c ∈ word, Byte.isWhite c = false)
    (ends : ∀ c ∈ rest.head?, Byte.isWhite c = true) : (word ++ rest).takeWhile (!Byte.isWhite ·) = word := by
  rw [List.takeWhile_append_of_pos fun c hc => by simp [h c hc]]
  cases rest with
  | nil => simp
  | cons c rest => simp [ends c rfl]

theorem readInstruction_written {target data : Text} (white : ∀ c ∈ target, Byte.isWhite c = false)
    (first : ∀ c ∈ data.head?, Byte.isWhite c = false) :
    readInstruction (target ++ writtenData data) = .instruction target data := by
  have blank : Byte.isWhite ' ' = true := by decide
  have word : (target ++ writtenData data).takeWhile (!Byte.isWhite ·) = target := by
    refine takeWhile_word white fun c hc => ?_
    cases data with
    | nil => exact absurd hc (by simp [writtenData])
    | cons _ _ =>
      obtain rfl : (' ' : Byte) = c := Option.some.inj hc
      exact blank
  have rest : Text.trimLeft Byte.isWhite (writtenData data) = data := by
    cases data with
    | nil => rfl
    | cons c data =>
      change List.dropWhile _ ((' ' : Byte) :: c :: data) = _
      rw [List.dropWhile_cons_of_pos blank, List.dropWhile_cons_of_neg (by simp [first c rfl])]
  simp only [readInstruction, word, List.drop_left, rest]

theorem readMarkup_instruction {target data : Text} (white : ∀ c ∈ target, Byte.isWhite c = false)
    (first : ∀ c ∈ data.head?, Byte.isWhite c = false) :
    readMarkup ("?" ++ (target ++ writtenData data ++ ("?" : Text))) = .ok (.instruction target data) := by
  have content : ∀ t : Text, readMarkup ("?" ++ (t ++ ("?" : Text))) = .ok (readInstruction t) := by
    intro t
    change Except.ok (readInstruction ((t ++ [('?' : Byte)]).dropLast)) = _
    rw [List.dropLast_concat]
  rw [content, readInstruction_written white first]

/-! ### Document types -/

theorem isComplete_doctype (a : Text) :
    isComplete (doctypeOpening ++ a) =
      ((quoteAfter none a).isNone && decide (a.count ('[' : Byte) ≤ a.count (']' : Byte))) := by
  have opening : quoteAfter none doctypeOpening = none := rfl
  have counts : (doctypeOpening ++ a).count ('[' : Byte) = a.count ('[' : Byte) ∧
      (doctypeOpening ++ a).count (']' : Byte) = a.count (']' : Byte) := by
    constructor <;> · rw [List.count_append, List.count_eq_zero_of_not_mem (by decide), Nat.zero_add]
  rw [isComplete, if_neg (show ¬ commentOpening.isPrefixOf (doctypeOpening ++ a) from Bool.false_ne_true),
    if_neg (show ¬ verbatimOpening.isPrefixOf (doctypeOpening ++ a) from Bool.false_ne_true),
    if_neg (show ¬ ("?" : Text).isPrefixOf (doctypeOpening ++ a) from Bool.false_ne_true),
    if_pos (List.isPrefixOf_iff_prefix.2 (List.prefix_append _ _)), openQuote_eq, quoteAfter_append, opening,
    counts.1, counts.2]

theorem quoteAfter_quotedId {t : Text} (h : IsId t) : quoteAfter none (quotedId t) = none := by
  change quoteAfter none (("\"" : Text) ++ t ++ "\"") = none
  exact quoteAfter_quoted fun c hc same => h.1 (same ▸ hc)

/-- An identifier does not end a document type, as it is in quotes. -/
theorem passes_quotedId {before t : Text} (outside : quoteAfter none before = none) (h : IsId t) :
    Passes (doctypeOpening ++ before) (quotedId t) := by
  have inQuotes : Passes (doctypeOpening ++ before ++ " \"") t := by
    rintro a b rfl
    have inside : quoteAfter none (before ++ (" \"" ++ a)) = some '\"' := by
      rw [quoteAfter_append, outside, quoteAfter_append]
      exact quoteAfter_some fun c hc same => h.1 (same ▸ List.mem_append_left _ hc)
    rw [List.append_assoc, List.append_assoc, isComplete_doctype, inside]
    rfl
  exact ((passes_of_not_mem (by decide)).append inQuotes).append (passes_of_not_mem (by decide))

theorem quoteAfter_ids {ids : List Text} (h : ∀ t ∈ ids, IsId t) : quoteAfter none (ids.flatMap quotedId) = none := by
  induction ids with
  | nil => rfl
  | cons t ids ih =>
    obtain ⟨first, others⟩ := List.forall_mem_cons.1 h
    rw [List.flatMap_cons, quoteAfter_append, quoteAfter_quotedId first]
    exact ih others

theorem passes_ids {before : Text} {ids : List Text} (outside : quoteAfter none before = none) (h : ∀ t ∈ ids, IsId t) :
    Passes (doctypeOpening ++ before) (ids.flatMap quotedId) := by
  induction ids generalizing before with
  | nil => exact passes_of_not_mem (by simp)
  | cons t ids ih =>
    obtain ⟨first, others⟩ := List.forall_mem_cons.1 h
    refine (passes_quotedId outside first).append ?_
    rw [List.append_assoc]
    exact ih (by rw [quoteAfter_append, outside, quoteAfter_quotedId first]) others

theorem idsOf_word (p s : Text) :
    quoteAfter none (idsOf p s).1 = none ∧ ('>' : Byte) ∉ (idsOf p s).1 ∧ ('[' : Byte) ∉ (idsOf p s).1 := by
  have words : ∀ word ∈ [([] : Text), " SYSTEM", " PUBLIC"],
      quoteAfter none word = none ∧ ('>' : Byte) ∉ word ∧ ('[' : Byte) ∉ word := by decide
  refine words _ ?_
  cases p <;> cases s <;> simp [idsOf]

theorem idsOf_ids {p s : Text} (hp : IsId p) (hs : IsId s) : ∀ t ∈ (idsOf p s).2, IsId t := by
  cases p <;> cases s <;> simp [idsOf, hp, hs]

/-- What stands in a document type after the opening. -/
def doctypeRest (name p s : Text) : Text := " " ++ name ++ writtenIds p s

section

variable {name p s : Text} (hn : IsName name) (hp : IsId p) (hs : IsId s)

include hn hp hs

theorem passes_doctype : Passes [] (doctypeOpening ++ doctypeRest name p s) := by
  obtain ⟨noQuote, short, -⟩ := idsOf_word p s
  have nameShort : ('>' : Byte) ∉ name := fun member => hn.ne (by decide) _ member rfl
  have start : ('>' : Byte) ∉ doctypeOpening ++ (" " ++ name ++ (idsOf p s).1) := by
    simp only [List.mem_append, not_or]
    exact ⟨by decide, ⟨by decide, nameShort⟩, short⟩
  have outside : quoteAfter none ((" " : Text) ++ name ++ (idsOf p s).1) = none := by
    rw [quoteAfter_append, quoteAfter_append, show quoteAfter none (" " : Text) = none from rfl,
      quoteAfter_none hn.unquoted, noQuote]
  have parts : doctypeOpening ++ doctypeRest name p s =
      (doctypeOpening ++ (" " ++ name ++ (idsOf p s).1)) ++ (idsOf p s).2.flatMap quotedId := by
    simp [doctypeRest, writtenIds]
  rw [parts]
  exact (passes_of_not_mem start).append (passes_ids outside (idsOf_ids hp hs))

theorem noBracket_doctypeRest : ('[' : Byte) ∉ doctypeRest name p s := by
  obtain ⟨-, -, noBracket⟩ := idsOf_word p s
  simp only [doctypeRest, writtenIds, List.mem_append, not_or, List.mem_flatMap, not_exists, not_and, quotedId]
  refine ⟨⟨by decide, fun member => hn.ne (by decide) _ member rfl⟩, noBracket, fun t member => ?_⟩
  exact ⟨⟨by decide, (idsOf_ids hp hs t member).2⟩, by decide⟩

theorem complete_doctype : isComplete (doctypeOpening ++ doctypeRest name p s) = true := by
  obtain ⟨noQuote, -, -⟩ := idsOf_word p s
  have outside : quoteAfter none (doctypeRest name p s) = none := by
    rw [doctypeRest, writtenIds, quoteAfter_append, quoteAfter_append, quoteAfter_append,
      show quoteAfter none (" " : Text) = none from rfl, quoteAfter_none hn.unquoted, noQuote,
      quoteAfter_ids (idsOf_ids hp hs)]
  rw [isComplete_doctype, outside, List.count_eq_zero_of_not_mem (noBracket_doctypeRest hn hp hs)]
  simp

end

/-- What the search for texts in quotes comes to: those found, the last one first, and what is open. -/
def quotedStep : List Text × Option (Byte × Text) → Byte → List Text × Option (Byte × Text)
  | (done, some (q, held)), c => if c == q then (held.reverse :: done, none) else (done, some (q, c :: held))
  | (done, none), c => (done, if TagReading.isQuote c then some (c, []) else none)

theorem quotedTexts_eq (t : Text) : quotedTexts t = (t.foldl quotedStep ([], none)).1.reverse := rfl

theorem foldl_quoted_outside {t : Text} (h : ∀ c ∈ t, TagReading.isQuote c = false) (done : List Text) :
    t.foldl quotedStep (done, none) = (done, none) := by
  induction t with
  | nil => rfl
  | cons c t ih =>
    obtain ⟨first, others⟩ := List.forall_mem_cons.1 h
    rw [List.foldl_cons, quotedStep, first]
    exact ih others

theorem foldl_quoted_inside {t : Text} (h : ('\"' : Byte) ∉ t) (done : List Text) (held : Text) :
    t.foldl quotedStep (done, some (('\"' : Byte), held)) = (done, some (('\"' : Byte), t.reverse ++ held)) := by
  induction t generalizing held with
  | nil => rfl
  | cons c t ih =>
    obtain ⟨first, others⟩ := not_or.1 (mt List.mem_cons.2 h)
    rw [List.foldl_cons, quotedStep, if_neg (by simpa using Ne.symm first), ih others]
    simp

theorem foldl_ids {ids : List Text} (h : ∀ t ∈ ids, IsId t) (done : List Text) :
    (ids.flatMap quotedId).foldl quotedStep (done, none) = (ids.reverse ++ done, none) := by
  induction ids generalizing done with
  | nil => rfl
  | cons t ids ih =>
    obtain ⟨first, others⟩ := List.forall_mem_cons.1 h
    have quoted : (quotedId t).foldl quotedStep (done, none) = (t :: done, none) := by
      rw [quotedId, List.foldl_append, List.foldl_append]
      change List.foldl quotedStep (List.foldl quotedStep (done, some (('\"' : Byte), [])) t) [('\"' : Byte)] = _
      rw [foldl_quoted_inside first.1]
      simp [quotedStep]
    rw [List.flatMap_cons, List.foldl_append, quoted, ih others]
    simp

/-- Blanks before a text are left out. -/
theorem trimWhite_blank {t : Text} (some : t ≠ []) (first : ∀ c ∈ t.head?, Byte.isWhite c = false)
    (last : ∀ c ∈ t.getLast?, Byte.isWhite c = false) : Text.trimWhite ((' ' : Byte) :: t) = t := by
  have right : Text.trimRight Byte.isWhite ((' ' : Byte) :: t) = (' ' : Byte) :: t :=
    Text.trimRight_of_last (by rwa [List.getLast?_cons_of_ne_nil some])
  cases t with
  | nil => exact absurd rfl some
  | cons c t =>
    rw [Text.trimWhite, Text.trim, right, Text.trimLeft, List.dropWhile_cons_of_pos (by decide),
      List.dropWhile_cons_of_neg (by simp [first c rfl])]

theorem last_ids {ids : List Text} (some : ids ≠ []) (r : Text) :
    ∀ c ∈ (r ++ ids.flatMap quotedId).getLast?, Byte.isWhite c = false := by
  rcases ids.eq_nil_or_concat with rfl | ⟨ids, t, rfl⟩
  · exact absurd rfl some
  · have ends : r ++ (ids.concat t).flatMap quotedId = (r ++ ids.flatMap quotedId ++ " \"" ++ t) ++ [('\"' : Byte)] := by
      simp [quotedId, Text.ascii]
    rw [ends, List.getLast?_concat]
    decide +kernel

theorem quotedTexts_ids {word : Text} (ids : List Text) (noQuote : ∀ c ∈ word, TagReading.isQuote c = false)
    (h : ∀ t ∈ ids, IsId t) : quotedTexts (word ++ ids.flatMap quotedId) = ids := by
  rw [quotedTexts_eq, List.foldl_append, foldl_quoted_outside noQuote, foldl_ids h, List.append_nil, List.reverse_reverse]

theorem trimWhite_word {word : Text} (ids : List Text) (some : ids ≠ []) (filled : word ≠ [])
    (first : ∀ c ∈ word.head?, Byte.isWhite c = false) :
    Text.trimWhite (" " ++ word ++ ids.flatMap quotedId) = word ++ ids.flatMap quotedId := by
  refine trimWhite_blank (by simp [filled]) ?_ (last_ids some word)
  cases word with
  | nil => exact absurd rfl filled
  | cons c word => exact first

theorem trimWhite_doctypeRest {name : Text} (hn : IsName name) (p s : Text) :
    Text.trimWhite (doctypeRest name p s) = name ++ writtenIds p s := by
  have blank : doctypeRest name p s = (' ' : Byte) :: (name ++ writtenIds p s) := rfl
  rw [blank]
  refine trimWhite_blank (by simp [hn.1]) ?_ ?_
  · cases name with
    | nil => exact absurd rfl hn.1
    | cons c name => exact fun d hd => hn.white d (Option.some.inj hd ▸ List.mem_cons_self)
  · by_cases some : (idsOf p s).2 = []
    · have nothing : writtenIds p s = [] := by
        revert some
        cases p <;> cases s <;> simp [writtenIds, idsOf]
      rw [nothing, List.append_nil]
      exact hn.last
    · rw [writtenIds, ← List.append_assoc]
      exact last_ids some _

/-- The parts of a document type after its opening are told from each other. -/
theorem readDoctype_rest {name p s : Text} (hn : IsName name) (hp : IsId p) (hs : IsId s) :
    readDoctype (doctypeRest name p s) = .doctype name p s := by
  have outside : (doctypeRest name p s).takeWhile (· != ('[' : Byte)) = doctypeRest name p s := by
    refine List.takeWhile_eq_self_iff.2 fun c hc => ?_
    simp only [bne_iff_ne, ne_eq]
    rintro rfl
    exact noBracket_doctypeRest hn hp hs hc
  have nameFirst : (name ++ writtenIds p s).takeWhile (!Byte.isWhite ·) = name := by
    refine takeWhile_word hn.white ?_
    cases p <;> cases s <;> simp [writtenIds, idsOf, Text.ascii] <;> decide
  have ids := idsOf_ids hp hs
  rw [readDoctype]
  simp only [outside, trimWhite_doctypeRest hn, nameFirst, List.drop_left]
  rcases p with _ | ⟨c, p⟩ <;> rcases s with _ | ⟨d, s⟩
  · rfl
  · have trimmed : Text.trimWhite (writtenIds [] (d :: s)) = ("SYSTEM" : Text) ++ [d :: s].flatMap quotedId :=
      trimWhite_word [d :: s] (by simp) (by decide +kernel) (by decide +kernel)
    rw [trimmed, quotedTexts_ids [d :: s] (by decide +kernel) ids]
    rfl
  · have trimmed : Text.trimWhite (writtenIds (c :: p) []) = ("PUBLIC" : Text) ++ [c :: p].flatMap quotedId :=
      trimWhite_word [c :: p] (by simp) (by decide +kernel) (by decide +kernel)
    rw [trimmed, quotedTexts_ids [c :: p] (by decide +kernel) ids]
    rfl
  · have trimmed : Text.trimWhite (writtenIds (c :: p) (d :: s)) =
        ("PUBLIC" : Text) ++ [c :: p, d :: s].flatMap quotedId :=
      trimWhite_word [c :: p, d :: s] (by simp) (by decide +kernel) (by decide +kernel)
    rw [trimmed, quotedTexts_ids [c :: p, d :: s] (by decide +kernel) ids]
    rfl

theorem readMarkup_doctype {name p s : Text} (hn : IsName name) (hp : IsId p) (hs : IsId s) :
    readMarkup (doctypeOpening ++ doctypeRest name p s) = .ok (.doctype name p s) := by
  rw [readMarkup, if_neg (show ¬ commentOpening.isPrefixOf (doctypeOpening ++ _) from Bool.false_ne_true),
    if_neg (show ¬ verbatimOpening.isPrefixOf (doctypeOpening ++ _) from Bool.false_ne_true),
    if_pos (List.isPrefixOf_iff_prefix.2 (List.prefix_append _ _)), List.drop_left, readDoctype_rest hn hp hs]

/-! ## Sources made of written tokens -/

/-- Whether a token is written between angle brackets. -/
def Token.isMarkup : Token → Bool
  | characters _ => false
  | _ => true

/-- The text of markup is one piece. -/
theorem Token.Readable.cut {token : Token} (h : token.Readable) (markup : token.isMarkup) :
    Passes [] token.body ∧ isComplete token.body = true := by
  cases token with
  | characters t => exact absurd markup Bool.false_ne_true
  | verbatim t =>
    exact ⟨passes_ended isComplete_verbatim (by decide) h, complete_ended isComplete_verbatim⟩
  | startTag tag =>
    refine ⟨passes_of_not_mem (not_mem_written h.1 h.2), ?_⟩
    change isComplete tag.written = true
    have starts : StartsTag tag.written := h.1.startsTag _
    rw [isComplete_tag starts, openQuote_eq, quoteAfter_written h.1 h.2]
    rfl
  | emptyTag tag =>
    have starts : StartsTag (tag.written ++ ("/" : Text)) := by
      rw [Tag.written, List.append_assoc]
      exact h.1.startsTag _
    constructor
    · refine passes_of_not_mem fun member => ?_
      rcases List.mem_append.1 member with inTag | slash
      · exact not_mem_written h.1 h.2 inTag
      · exact absurd slash (by decide)
    · change isComplete (tag.written ++ ("/" : Text)) = true
      rw [isComplete_tag starts, openQuote_eq, quoteAfter_append, quoteAfter_written h.1 h.2]
      rfl
  | endTag name =>
    have starts : StartsTag (("/" : Text) ++ name) := ⟨'/', name, rfl, by decide, by decide⟩
    have noQuote : quoteAfter none (("/" : Text) ++ name) = none :=
      (quoteAfter_append none "/" name).trans (quoteAfter_none (IsName.unquoted h))
    constructor
    · refine passes_of_not_mem fun member => ?_
      rcases List.mem_append.1 member with slash | inName
      · exact absurd slash (by decide)
      · exact IsName.ne h (by decide) _ inName rfl
    · change isComplete (("/" : Text) ++ name) = true
      rw [isComplete_tag starts, openQuote_eq, noQuote]
      rfl
  | comment t => exact ⟨passes_ended isComplete_comment (by decide) h, complete_ended isComplete_comment⟩
  | instruction target data =>
    exact ⟨passes_ended isComplete_instruction (by decide) h.2.2, complete_ended isComplete_instruction⟩
  | doctype name publicId systemId => exact ⟨passes_doctype h.1 h.2.1 h.2.2, complete_doctype h.1 h.2.1 h.2.2⟩

/-- The text of markup is read as the token. -/
theorem Token.Readable.read {token : Token} (h : token.Readable) (markup : token.isMarkup) :
    readMarkup token.body = .ok token := by
  cases token with
  | characters t => exact absurd markup Bool.false_ne_true
  | verbatim t => exact readMarkup_verbatim t
  | startTag tag => exact readMarkup_startTag h.1 h.2
  | emptyTag tag => exact readMarkup_emptyTag h.1 h.2
  | endTag name => exact readMarkup_endTag h
  | comment t => exact readMarkup_comment t
  | instruction target data => exact readMarkup_instruction h.1 h.2.1
  | doctype name publicId systemId => exact readMarkup_doctype h.1 h.2.1 h.2.2

theorem Token.written_markup {token : Token} (markup : token.isMarkup) (rest : Text) :
    token.written ++ rest = ('<' : Byte) :: (token.body ++ ('>' : Byte) :: rest) := by
  cases token with
  | characters t => exact absurd markup Bool.false_ne_true
  | _ => simp [Token.written, Text.ascii]

/-- Character data and markup after what was read so far. -/
theorem read_written {toks : List Token} (h : ∀ token ∈ toks, token.Readable) (held : Text) :
    (kinds false (escape held).reverse (toks.flatMap Token.written)).mapM readPiece = .ok (spaced held toks) := by
  have characters : ∀ t, readPiece (.characters (escape t)) = .ok (.characters t) := fun t => by
    simp only [readPiece, unescape_escape]
  induction toks generalizing held with
  | nil =>
    change [Piece.characters (escape held).reverse.reverse].mapM readPiece = _
    rw [List.reverse_reverse]
    simp only [List.mapM_cons, List.mapM_nil, characters]
    rfl
  | cons token toks ih =>
    obtain ⟨first, others⟩ := List.forall_mem_cons.1 h
    have next := ih others
    rw [List.flatMap_cons]
    cases markup : token.isMarkup with
    | false =>
      cases token with
      | characters t =>
        change (kinds false _ (escape t ++ _)).mapM readPiece = .ok (spaced (held ++ t) toks)
        rw [kinds_characters fun c hc => (mem_escape hc).1, ← List.reverse_append, ← escape_append, next]
      | _ => exact absurd markup.symm Bool.false_ne_true
    | true =>
      have told : spaced held (token :: toks) = .characters held :: token :: spaced [] toks := by
        cases token with
        | characters t => exact absurd markup Bool.false_ne_true
        | _ => rfl
      rw [Token.written_markup markup, kinds_open, kinds_markup (first.cut markup).1 (first.cut markup).2,
        List.reverse_reverse, told]
      have after : (kinds false [] (toks.flatMap Token.written)).mapM readPiece = .ok (spaced [] toks) := next []
      have piece : readPiece (.markup token.body) = .ok token := first.read markup
      simp only [List.mapM_cons, characters, piece, after]
      rfl

/-- **Tokens that were written are read again**, character data in one piece between each two pieces of
markup. -/
theorem tokens_written {toks : List Token} (h : ∀ token ∈ toks, token.Readable) :
    tokens (toks.flatMap Token.written) = .ok (spaced [] toks) := by
  rw [tokens_eq]
  exact read_written h []

end Stencil.Xml
