import Mathlib.Algebra.Ring.Parity
import Stencil.Config.Parser
import Stencil.Proofs.Text.Numeral
import Stencil.Proofs.Text.Occurrence
import Stencil.Proofs.Text.Trimmed

/-!
# Values in double quotes

A value is written between double quotes, with escapes for backslashes, double quotes, line feeds and tabs. The reader
knows all these escapes (`Config.unescape_escape`), but the search for a comment, which comes first, does not know them:
an escaped double quote counts like one that ends the value (`Config.hashIndex?_escape`). A hash mark with an odd number
of double quotes before it in the value starts a comment, if it does not come right after a backslash, and the entry is
refused (`Config.readEntry_misread`). All other values are read back (`Config.readEntry_written`).
-/

namespace Stencil

namespace Config

/-- What stands for a byte between double quotes. -/
def escapeByte (c : Byte) : Text :=
  if c == '\\' then "\\\\"
  else if c == '\"' then "\\\""
  else if c == '\n' then "\\n"
  else if c == '\t' then "\\t"
  else [c]

def escape (v : Text) : Text := v.flatMap escapeByte

/-- What an entry is written as. -/
def Entry.line (e : Entry) : Text := e.name ++ (" = \"" ++ (escape e.value ++ "\""))

/-- A hash mark of the value is taken for the start of a comment. -/
def Misread (v : Text) : Prop :=
  ∃ before after, v = before ++ ('#' : Byte) :: after ∧ Odd (before.count ('\"' : Byte)) ∧
    before.getLast? ≠ some ('\\' : Byte)

variable {c : Byte} {s t u v : Text} {p q : Option Byte} {quoted : Bool} {n : Nat}

/-! ## Escapes -/

theorem escape_append (s t : Text) : escape (s ++ t) = escape s ++ escape t := List.flatMap_append

theorem unescape_escapeByte (c : Byte) (t : Text) : unescape (escapeByte c ++ t) = (unescape t).map (c :: ·) := by
  unfold escapeByte
  split_ifs with backslash quote feed tab
  · rw [beq_iff_eq.1 backslash]
    rfl
  · rw [beq_iff_eq.1 quote]
    rfl
  · rw [beq_iff_eq.1 feed]
    rfl
  · rw [beq_iff_eq.1 tab]
    rfl
  · show unescape (c :: t) = _
    rw [unescape.eq_def]
    dsimp only
    rw [if_neg backslash]
    cases unescape t <;> rfl

theorem unescape_escape_append (v t : Text) : unescape (escape v ++ t) = (unescape t).map (v ++ ·) := by
  induction v with
  | nil => cases h : unescape t <;> simp [escape, h, Except.map]
  | cons c v ih =>
    show unescape (escapeByte c ++ escape v ++ t) = _
    rw [List.append_assoc, unescape_escapeByte, ih]
    cases unescape t <;> rfl

theorem unescape_escape (v : Text) : unescape (escape v) = .ok v := by
  rw [← List.append_nil (escape v), unescape_escape_append]
  show Except.ok (v ++ []) = _
  rw [List.append_nil]

/-- A last backslash of its own is no escape. -/
theorem unescape_escape_backslash (v : Text) : unescape (escape v ++ "\\") = .error .trailingBackslash := by
  rw [unescape_escape_append]
  rfl

/-- The last byte of what stands for a byte. -/
theorem getLast?_escapeByte (c : Byte) : ∃ d, (escapeByte c).getLast? = some d ∧ (d = '\\' ↔ c = '\\') ∧
    (d = '\"' ↔ c = '\"') ∧ (Text.isBlank d = true ↔ c = ' ') := by
  exact Byte.of_codes (p := fun c => ∃ d, (escapeByte c).getLast? = some d ∧ (d = '\\' ↔ c = '\\') ∧
    (d = '\"' ↔ c = '\"') ∧ (Text.isBlank d = true ↔ c = ' ')) (by decide +kernel) c

/-! ## The search for a comment -/

/-- Quotes are open after a text. -/
def quotedAfter (quoted : Bool) (s : Text) : Bool := s.foldl (fun q (c : Byte) => if c == '\"' then !q else q) quoted

theorem quotedAfter_append (quoted : Bool) (s t : Text) :
    quotedAfter quoted (s ++ t) = quotedAfter (quotedAfter quoted s) t := List.foldl_append

theorem quotedAfter_eq_iff (quoted : Bool) (s : Text) :
    quotedAfter quoted s = quoted ↔ Even (s.count ('\"' : Byte)) := by
  induction s generalizing quoted with
  | nil => simp [quotedAfter]
  | cons c s ih =>
    show quotedAfter (if c == '\"' then !quoted else quoted) s = _ ↔ _
    rw [List.count_cons]
    split
    · -- quotes are opened or closed, which turns both sides round
      rw [Nat.even_add_one, ← ih (!quoted)]
      cases quotedAfter (!quoted) s <;> cases quoted <;> decide
    · exact ih quoted

theorem hashIndex?_append (p : Option Byte) (quoted : Bool) (s t : Text) : hashIndex? p quoted (s ++ t) =
    (hashIndex? p quoted s).or ((hashIndex? (s.getLast?.or p) (quotedAfter quoted s) t).map (· + s.length)) := by
  induction s generalizing p quoted with
  | nil => simp [hashIndex?, quotedAfter]
  | cons c s ih =>
    rw [List.cons_append, hashIndex?, hashIndex?]
    split
    · rfl
    · rw [ih, Option.map_or, Option.map_map]
      have last : s.getLast?.or (some c) = (c :: s).getLast?.or p := by
        cases h : s.getLast? <;> simp [List.getLast?_cons, h]
      rw [last]
      rfl

/-- The byte before counts only if it is a backslash. -/
theorem hashIndex?_congr (same : p = some ('\\' : Byte) ↔ q = some ('\\' : Byte)) :
    hashIndex? p quoted s = hashIndex? q quoted s := by
  cases s with
  | nil => rfl
  | cons c s =>
    have both : (p != some ('\\' : Byte)) = (q != some ('\\' : Byte)) := by
      rw [Bool.eq_iff_iff, bne_iff_ne, bne_iff_ne, not_iff_not]
      exact same
    rw [hashIndex?, hashIndex?, both]

theorem hashIndex?_eq_none (h : ('#' : Byte) ∉ s) : hashIndex? p quoted s = none := by
  induction s generalizing p quoted with
  | nil => rfl
  | cons c s ih =>
    obtain ⟨other, rest⟩ := not_or.1 (mt List.mem_cons.2 h)
    have differs : (c == '#') = false := by simpa using Ne.symm other
    rw [hashIndex?, differs, ih rest]
    rfl

theorem hashIndex?_hash (bare : p ≠ some ('\\' : Byte)) : hashIndex? p false (('#' : Byte) :: s) = some 0 := by
  rw [hashIndex?, if_pos (by simpa using bare)]

theorem exists_of_hashIndex? (h : hashIndex? p quoted s = some n) : ∃ before after, s = before ++ ('#' : Byte) :: after ∧
    before.length = n ∧ quotedAfter quoted before = false ∧ before.getLast?.or p ≠ some ('\\' : Byte) := by
  induction s generalizing p quoted n with
  | nil => cases h
  | cons c s ih =>
    rw [hashIndex?] at h
    split at h
    · rename_i starts
      cases h
      simp only [Bool.and_eq_true, beq_iff_eq, Bool.not_eq_true', bne_iff_ne] at starts
      obtain ⟨⟨rfl, closed⟩, bare⟩ := starts
      exact ⟨[], s, rfl, rfl, closed, bare⟩
    · obtain ⟨m, there, rfl⟩ := Option.map_eq_some_iff.1 h
      obtain ⟨before, after, rfl, length, closed, bare⟩ := ih there
      refine ⟨c :: before, after, rfl, by rw [List.length_cons, length], closed, ?_⟩
      cases last : before.getLast? <;> simpa [List.getLast?_cons, last] using bare

theorem hashIndex?_escapeByte (c : Byte) : hashIndex? p quoted (escapeByte c) = hashIndex? p quoted [c] := by
  by_cases hash : c = '#'
  · rw [hash]
    rfl
  · have none : ('#' : Byte) ∉ escapeByte c := by
      revert hash
      exact Byte.of_codes (p := fun c => ¬ c = '#' → ('#' : Byte) ∉ escapeByte c) (by decide +kernel) c
    rw [hashIndex?_eq_none none, hashIndex?_eq_none (by simpa using Ne.symm hash)]

theorem quotedAfter_escapeByte (quoted : Bool) (c : Byte) : quotedAfter quoted (escapeByte c) = quotedAfter quoted [c] := by
  cases quoted
  · exact Byte.of_codes (p := fun c => quotedAfter false (escapeByte c) = quotedAfter false [c]) (by decide +kernel) c
  · exact Byte.of_codes (p := fun c => quotedAfter true (escapeByte c) = quotedAfter true [c]) (by decide +kernel) c

/-- **A comment is found in an escaped value as in the value itself.** -/
theorem hashIndex?_escape (p : Option Byte) (quoted : Bool) (v : Text) :
    hashIndex? p quoted (escape v) = (hashIndex? p quoted v).map fun n => (escape (v.take n)).length := by
  induction v generalizing p quoted with
  | nil => rfl
  | cons c v ih =>
    obtain ⟨d, last, backslash, -⟩ := getLast?_escapeByte c
    have before : (escapeByte c).getLast?.or p = some ('\\' : Byte) ↔ some c = some ('\\' : Byte) := by
      simpa [last] using backslash
    show hashIndex? p quoted (escapeByte c ++ escape v) = (hashIndex? p quoted ([c] ++ v)).map _
    rw [hashIndex?_append, hashIndex?_append, hashIndex?_escapeByte, quotedAfter_escapeByte, hashIndex?_congr before, ih]
    cases found : hashIndex? p quoted [c] with
    | some n =>
      obtain ⟨b, a, split, rfl, -⟩ := exists_of_hashIndex? found
      have first : b = [] := by
        have lengths := congrArg List.length split
        simp only [List.length_append, List.length_cons, List.length_nil] at lengths
        exact List.length_eq_zero_iff.1 (by omega)
      rw [first]
      rfl
    | none =>
      rw [Option.none_or, Option.none_or, Option.map_map, Option.map_map]
      apply congrArg (Option.map · _)
      funext n
      show (escape (v.take n)).length + (escapeByte c).length = (escape ((c :: v).take (n + 1))).length
      rw [List.take_succ_cons]
      show _ = (escapeByte c ++ escape (v.take n)).length
      rw [List.length_append, Nat.add_comm]

theorem misread_iff : Misread v ↔ ∃ n, hashIndex? none true v = some n := by
  constructor
  · rintro ⟨before, after, rfl, odd, bare⟩
    have closed : quotedAfter true before = false := by
      rw [← Bool.not_eq_true, quotedAfter_eq_iff, Nat.not_even_iff_odd]
      exact odd
    rw [hashIndex?_append, closed, Option.or_none, hashIndex?_hash bare]
    cases hashIndex? none true before with
    | some n | none => exact ⟨_, rfl⟩
  · rintro ⟨n, found⟩
    obtain ⟨before, after, rfl, -, closed, bare⟩ := exists_of_hashIndex? found
    rw [Option.or_none] at bare
    refine ⟨before, after, rfl, ?_, bare⟩
    rw [← Nat.not_even_iff_odd, ← quotedAfter_eq_iff true, closed]
    exact Bool.false_ne_true

/-! ## Lines of entries -/

/-- A name that an entry can have. -/
structure Entry.Writable (e : Entry) : Prop where
  name : isValidName e.name = true
  noInclude : e.name ≠ includeKeyword
  noComment : e.comment = []

instance : DecidablePred Entry.Writable := fun e =>
  decidable_of_iff (isValidName e.name = true ∧ e.name ≠ includeKeyword ∧ e.comment = [])
    ⟨fun ⟨name, noInclude, noComment⟩ => ⟨name, noInclude, noComment⟩, fun h => ⟨h.name, h.noInclude, h.noComment⟩⟩

theorem of_isValidName (h : isValidName s = true) : s ≠ [] ∧ (∀ c ∈ s.head?, c.isLetter = true) ∧
    ∀ c ∈ s, Text.isBlank c = false ∧ ∀ d ∈ (("=#\"\\\n[" : String) : Text), c ≠ d := by
  cases s with
  | nil => cases h
  | cons c s =>
    obtain ⟨letter, others⟩ := Bool.and_eq_true_iff.1 h
    refine ⟨nofun, ?_, List.forall_mem_cons.2 ⟨?_, fun d hd => ?_⟩⟩
    · rintro _ ⟨⟩
      exact letter
    · revert letter
      exact Byte.of_codes (p := fun c => c.isLetter = true → Text.isBlank c = false ∧
        ∀ d ∈ (("=#\"\\\n[" : String) : Text), c ≠ d) (by decide +kernel) c
    · have part := List.all_eq_true.1 others d hd
      revert part
      exact Byte.of_codes (p := fun d => (d.isAlphanumeric || d == '-' || d == '_' || d == '.') = true →
        Text.isBlank d = false ∧ ∀ x ∈ (("=#\"\\\n[" : String) : Text), d ≠ x) (by decide +kernel) d

/-- An equals sign between blanks ends a name. -/
theorem readEntry_of_text {l : Line} {name : Text} (valid : isValidName name = true) (text : l.text = name ++ (" = " ++ t))
    (first : ∀ c ∈ t.head?, Text.isBlank c = false) (last : ∀ c ∈ t.getLast?, Text.isBlank c = false) :
    readEntry l = (readValue t).map fun v => ⟨name, v, l.comment⟩ := by
  obtain ⟨-, -, parts⟩ := of_isValidName valid
  have noEquals : ('=' : Byte) ∉ name ++ [(' ' : Byte)] := by
    simp only [List.mem_append, List.mem_singleton, not_or]
    exact ⟨fun there => (parts _ there).2 '=' (by decide) rfl, by decide⟩
  have split : l.text = name ++ [(' ' : Byte)] ++ ('=' : Byte) :: ((' ' : Byte) :: t) := by
    rw [text, List.append_assoc]
    rfl
  have index : Text.indexOf? "=" l.text = some (name ++ [(' ' : Byte)]).length := by
    rw [split]
    exact Text.indexOf?_byte noEquals _
  have blank : ∀ c ∈ [(' ' : Byte)], Text.isBlank c = true := List.all_eq_true.1 rfl
  have before : Text.trim Text.isBlank (l.text.take (name ++ [(' ' : Byte)]).length) = name := by
    rw [split, List.take_left]
    apply Text.trim_around (s := []) (List.forall_mem_nil _) ?_ ?_ blank
    · exact fun c hc => (parts c (List.mem_of_mem_head? hc)).1
    · exact fun c hc => (parts c (List.mem_of_getLast? hc)).1
  have after : Text.trim Text.isBlank (l.text.drop ((name ++ [(' ' : Byte)]).length + 1)) = t := by
    rw [split, ← List.drop_drop, List.drop_left]
    have around := Text.trim_around (u := []) blank first last (List.forall_mem_nil _)
    rwa [List.append_nil] at around
  unfold readEntry
  rw [index]
  dsimp only
  rw [before, after, if_pos valid]
  cases readValue t <;> rfl

theorem getLast?_escape_concat (u : Text) (c : Byte) : (escape (u ++ [c])).getLast? = (escapeByte c).getLast? := by
  obtain ⟨d, last, -⟩ := getLast?_escapeByte c
  have single : escape [c] = escapeByte c := List.flatMap_singleton ..
  rw [escape_append, single, List.getLast?_append, last]
  rfl

/-- Blanks at the end stay what they are. -/
theorem trimRight_escape (v : Text) : Text.trimRight (· == (' ' : Byte)) (escape v) = escape (Text.trimRight (· == (' ' : Byte)) v) := by
  induction v using List.reverseRecOn with
  | nil => rfl
  | append_singleton v c ih =>
    rw [Text.trimRight_concat]
    split
    · rename_i blank
      rw [beq_iff_eq.1 blank, escape_append, ← ih]
      exact Text.trimRight_append _ (List.all_eq_true.1 rfl)
    · rename_i visible
      apply Text.trimRight_of_last
      rw [getLast?_escape_concat]
      obtain ⟨d, last, -, -, blank⟩ := getLast?_escapeByte c
      rw [last]
      rintro _ ⟨⟩
      -- a blank would have been one in the value
      have other : d ≠ ' ' := fun same => visible (beq_iff_eq.2 (blank.1 (same ▸ rfl)))
      simpa using other

/-- What is quoted does not end in a blank if the value does not. -/
theorem getLast?_quoted (last : v.getLast? ≠ some (' ' : Byte)) :
    ∀ c ∈ (('\"' : Byte) :: escape v).getLast?, Text.isBlank c = false := by
  rcases v.eq_nil_or_concat with rfl | ⟨u, c, rfl⟩
  · rintro _ ⟨⟩
    decide
  · rw [List.concat_eq_append] at last ⊢
    obtain ⟨d, ends, -, -, blank⟩ := getLast?_escapeByte c
    have same : (('\"' : Byte) :: escape (u ++ [c])).getLast? = some d := by
      rw [List.getLast?_cons, getLast?_escape_concat, ends]
      rfl
    rw [same]
    rintro _ ⟨⟩
    rw [← Bool.not_eq_true, blank]
    exact fun space => last (by rw [space, List.getLast?_concat])

theorem readValue_quote (s : Text) : readValue (('\"' : Byte) :: s) =
    if s.getLast? = some ('\"' : Byte) then (unescape s.dropLast).mapError .badEscape else .error .badQuotes := by
  unfold readValue
  dsimp only [inner, List.tail_cons]
  rw [if_pos (beq_self_eq_true _)]
  simp only [beq_iff_eq]
  congr 1
  cases unescape s.dropLast <;> rfl

theorem readValue_escape (v : Text) : readValue (('\"' : Byte) :: (escape v ++ [('\"' : Byte)])) = .ok v := by
  rw [readValue_quote, List.getLast?_concat, if_pos rfl, List.dropLast_concat, unescape_escape]
  rfl

/-- Why a value without its closing quote is refused. -/
def cutCause (v : Text) : LineCause :=
  if v.getLast? = some ('\"' : Byte) then .badEscape .trailingBackslash else .badQuotes

theorem readValue_cut (v : Text) : readValue (('\"' : Byte) :: escape v) = .error (cutCause v) := by
  rw [readValue_quote, cutCause]
  rcases v.eq_nil_or_concat with rfl | ⟨u, c, rfl⟩
  · rfl
  · rw [List.concat_eq_append, getLast?_escape_concat, List.getLast?_concat]
    obtain ⟨d, last, -, quote, -⟩ := getLast?_escapeByte c
    by_cases closed : c = '\"'
    · -- what closes the value was an escaped quote, of which the backslash is left
      have left : (escape (u ++ [c])).dropLast = escape u ++ "\\" := by
        rw [closed, escape_append]
        show (escape u ++ [('\\' : Byte), ('\"' : Byte)]).dropLast = _
        rw [← List.singleton_append, ← List.append_assoc, List.dropLast_concat]
        rfl
      rw [last, quote.2 closed, if_pos rfl, left, unescape_escape_backslash, closed, if_pos rfl]
      rfl
    · have open_ : some d ≠ some ('\"' : Byte) := fun same => closed (quote.1 (Option.some.inj same))
      rw [last, if_neg open_, if_neg (by simpa using closed)]

variable {e : Entry}

instance : DecidablePred Misread := fun v =>
  decidable_of_iff ((hashIndex? none true v).isSome = true) (by rw [misread_iff, Option.isSome_iff_exists])

theorem hashIndex?_line (valid : isValidName e.name = true) : hashIndex? none false e.line =
    (hashIndex? none true e.value).map fun n => (e.name ++ " = \"" ++ escape (e.value.take n)).length := by
  obtain ⟨-, -, parts⟩ := of_isValidName valid
  have noHash : ('#' : Byte) ∉ e.name ++ " = \"" := by
    rw [List.mem_append, not_or]
    exact ⟨fun there => (parts _ there).2 '#' (by decide) rfl, by decide⟩
  have noQuote : quotedAfter false e.name = false := by
    rw [quotedAfter_eq_iff, List.count_eq_zero_of_not_mem]
    · exact Even.zero
    · exact fun there => (parts _ there).2 '\"' (by decide) rfl
  have opened : quotedAfter false (e.name ++ " = \"") = true := by
    rw [quotedAfter_append, noQuote]
    decide
  have last : (e.name ++ " = \"").getLast? = some ('\"' : Byte) := by
    rw [List.getLast?_append]
    rfl
  have split : e.line = (e.name ++ " = \"") ++ (escape e.value ++ "\"") := (List.append_assoc ..).symm
  have noComment : ∀ p quoted, hashIndex? p quoted "\"" = none := fun _ _ => hashIndex?_eq_none (by decide)
  have first : hashIndex? (some ('\"' : Byte)) true e.value = hashIndex? none true e.value := hashIndex?_congr (by decide)
  rw [split, hashIndex?_append, hashIndex?_eq_none noHash, Option.none_or, opened, last, Option.some_or, hashIndex?_append,
    noComment, Option.map_none, Option.or_none, hashIndex?_escape, first, Option.map_map]
  apply congrArg (Option.map · _)
  funext n
  show (escape (e.value.take n)).length + (e.name ++ (" = \"" : Text)).length = _
  rw [Nat.add_comm, ← List.length_append]

theorem splitComment_line (valid : isValidName e.name = true) (h : hashIndex? none true e.value = none) :
    splitComment e.line = (e.line, []) := by
  rw [splitComment, hashIndex?_line valid, h]
  rfl

/-- What is left of a line when the value holds the start of a comment. -/
theorem splitComment_cut (valid : isValidName e.name = true) (h : hashIndex? none true e.value = some n) :
    (splitComment e.line).1 =
      e.name ++ (" = " ++ ('\"' : Byte) :: escape (Text.trimRight (· == (' ' : Byte)) (e.value.take n))) := by
  have taken : e.line.take (e.name ++ " = \"" ++ escape (e.value.take n)).length =
      e.name ++ " = \"" ++ escape (e.value.take n) := by
    have split : e.line = (e.name ++ " = \"" ++ escape (e.value.take n)) ++ (escape (e.value.drop n) ++ "\"") := by
      rw [Entry.line, ← List.append_assoc e.name, List.append_assoc _ (escape _), ← List.append_assoc (escape _) (escape _),
        ← escape_append, List.take_append_drop]
    rw [split, List.take_left]
  have last : ∀ c ∈ (e.name ++ (" = \"" : Text)).getLast?, (c == (' ' : Byte)) = false := by
    rw [List.getLast?_append]
    rintro _ ⟨⟩
    decide
  rw [splitComment, hashIndex?_line valid, h]
  show Text.trimRight _ (e.line.take _) = _
  rw [taken, Text.trimRight_append_of_last last, trimRight_escape, List.append_assoc]
  rfl

/-- A name, an equals sign and what is to be a value, with no blanks around them. -/
theorem trim_assignment {name : Text} (valid : isValidName name = true) (some : t ≠ [])
    (last : ∀ c ∈ t.getLast?, Text.isBlank c = false) :
    Text.trim Text.isBlank (name ++ (" = " ++ t)) = name ++ (" = " ++ t) := by
  obtain ⟨named, -, parts⟩ := of_isValidName valid
  apply Text.trim_of_ends
  · obtain ⟨d, rest, same⟩ := List.exists_cons_of_ne_nil named
    rw [same]
    rintro _ ⟨⟩
    exact (parts d (same ▸ List.mem_cons_self)).1
  · have ends : (name ++ ((" = " : Text) ++ t)).getLast? = t.getLast? := by
      rw [List.getLast?_append, List.getLast?_append, List.getLast?_eq_some_getLast some]
      rfl
    rw [ends]
    exact last

/-- The line of an entry without its comment, which is a cut line if the value is misread. -/
theorem ofJoined_line (valid : isValidName e.name = true) (k : Nat) : ∃ t comment,
    Line.ofJoined (k, e.line) = ⟨k, e.name ++ (" = " ++ t), comment⟩ ∧ (∀ c ∈ t.head?, Text.isBlank c = false) ∧
      (∀ c ∈ t.getLast?, Text.isBlank c = false) ∧
      (¬ Misread e.value ∧ comment = [] ∧ readValue t = .ok e.value ∨
        Misread e.value ∧ ∃ u, readValue t = .error (cutCause u)) := by
  have quote : ∀ s : Text, ∀ c ∈ (('\"' : Byte) :: s).head?, Text.isBlank c = false := by
    rintro s _ ⟨⟩
    decide
  cases found : hashIndex? none true e.value with
  | none =>
    have closed : ∀ c ∈ (('\"' : Byte) :: (escape e.value ++ [('\"' : Byte)])).getLast?, Text.isBlank c = false := by
      rw [← List.cons_append, List.getLast?_concat]
      rintro _ ⟨⟩
      decide
    refine ⟨('\"' : Byte) :: (escape e.value ++ [('\"' : Byte)]), [], ?_, quote _, closed, .inl ⟨?_, rfl, readValue_escape _⟩⟩
    · rw [Line.ofJoined, splitComment_line valid found]
      exact congrArg (Line.mk k · []) (trim_assignment valid (List.cons_ne_nil _ _) closed)
    · rw [misread_iff, found]
      exact nofun
  | some n =>
    have last : ∀ c ∈ (('\"' : Byte) :: escape (Text.trimRight (· == (' ' : Byte)) (e.value.take n))).getLast?,
        Text.isBlank c = false := by
      apply getLast?_quoted
      exact fun blank => absurd (Text.getLast?_trimRight _ _ blank) (by decide)
    refine ⟨_, (splitComment e.line).2, ?_, quote _, last, .inr ⟨misread_iff.2 ⟨n, found⟩, _, readValue_cut _⟩⟩
    show Line.mk k (Text.trim Text.isBlank (splitComment e.line).1) (splitComment e.line).2 = _
    rw [splitComment_cut valid found, trim_assignment valid (List.cons_ne_nil _ _) last]

/-- **An entry is read back, or refused as its value is misread.** -/
theorem readEntry_line (writable : e.Writable) (k : Nat) :
    (¬ Misread e.value ∧ readEntry (Line.ofJoined (k, e.line)) = .ok e) ∨
      (Misread e.value ∧ ∃ u, readEntry (Line.ofJoined (k, e.line)) = .error (cutCause u)) := by
  obtain ⟨t, comment, line, first, last, ⟨fine, rfl, value⟩ | ⟨misread, u, value⟩⟩ := ofJoined_line writable.name k
  · refine .inl ⟨fine, ?_⟩
    rw [line, readEntry_of_text writable.name rfl first last, value, ← writable.noComment]
    rfl
  · refine .inr ⟨misread, u, ?_⟩
    rw [line, readEntry_of_text writable.name rfl first last, value]
    rfl

end Config

end Stencil
