import Stencil.Proofs.Template.Braced
import Stencil.Proofs.Text.Trimmed

/-!
# The normal form of interpolation

What interpolation makes of a text is in a normal form: no literal piece is empty or stands behind another one, and the
source of an expression is not blank, has no white space around it and ends at the brace that is put behind it. Written
back with its dollars doubled and its expressions in braces, it is found again (`interpolate_canonical`).
-/

namespace Stencil

namespace Interpolation

/-! ## What a brace closes -/

/-- The text, read at some depth of braces and maybe in quotes, is all that stands before the brace that closes it. -/
inductive Encloses : Nat → Option Byte → Text → Prop where
  | done {depth : Nat} : depth ≤ 1 → Encloses depth none []
  | escape {depth : Nat} {quote c : Byte} {s : Text} :
    Encloses depth (some quote) s → Encloses depth (some quote) ('\\' :: c :: s)
  | unquote {depth : Nat} {quote : Byte} {s : Text} : quote ≠ '\\' →
    Encloses depth none s → Encloses depth (some quote) (quote :: s)
  | quoted {depth : Nat} {quote c : Byte} {s : Text} : c ≠ '\\' → c ≠ quote →
    Encloses depth (some quote) s → Encloses depth (some quote) (c :: s)
  | quote {depth : Nat} {c : Byte} {s : Text} : (c == '\'' || c == '\"') = true →
    Encloses depth (some c) s → Encloses depth none (c :: s)
  | openBrace {depth : Nat} {s : Text} : Encloses (depth + 1) none s → Encloses depth none ('\x7b' :: s)
  | closeBrace {depth : Nat} {s : Text} : 1 < depth → Encloses (depth - 1) none s → Encloses depth none ('\x7d' :: s)
  | ordinary {depth : Nat} {c : Byte} {s : Text} : isOrdinary c = true → Encloses depth none s → Encloses depth none (c :: s)

variable {depth n : Nat} {quote : Option Byte} {c : Byte} {s t : Text}

/-- Whatever stands before a closing brace is enclosed. -/
theorem encloses_take (found : closingBrace? depth quote s = some n) (notEscape : quote ≠ some '\\') :
    Encloses depth quote (s.take n) := by
  fun_induction closingBrace? depth quote s generalizing n with
  | case1 => cases found
  | case2 => cases found
  | case3 depth quote c escapes d r ih =>
    obtain ⟨m, inner, rfl⟩ := Option.map_eq_some_iff.1 found
    exact beq_iff_eq.1 escapes ▸ .escape (ih inner notEscape)
  | case4 depth quote c s plain closes ih =>
    obtain ⟨m, inner, rfl⟩ := Option.map_eq_some_iff.1 found
    obtain rfl := beq_iff_eq.1 closes
    exact .unquote (by simpa using plain) (ih inner (by simp))
  | case5 depth quote c s plain inside ih =>
    obtain ⟨m, inner, rfl⟩ := Option.map_eq_some_iff.1 found
    exact .quoted (by simpa using plain) (by simpa using inside) (ih inner notEscape)
  | case6 depth c s opens ih =>
    obtain ⟨m, inner, rfl⟩ := Option.map_eq_some_iff.1 found
    refine .quote opens (ih inner ?_)
    rintro ⟨⟩
    exact absurd opens (by decide)
  | case7 depth c s noQuote opens ih =>
    obtain ⟨m, inner, rfl⟩ := Option.map_eq_some_iff.1 found
    exact beq_iff_eq.1 opens ▸ .openBrace (ih inner (by simp))
  | case8 depth c s noQuote noOpen closes last =>
    cases found
    exact .done last
  | case9 depth c s noQuote noOpen closes deep ih =>
    obtain ⟨m, inner, rfl⟩ := Option.map_eq_some_iff.1 found
    exact beq_iff_eq.1 closes ▸ .closeBrace (Nat.not_le.1 deep) (ih inner (by simp))
  | case10 depth c s noQuote noOpen noClose ih =>
    obtain ⟨m, inner, rfl⟩ := Option.map_eq_some_iff.1 found
    refine .ordinary ?_ (ih inner (by simp))
    simp_all [isOrdinary]

/-- The brace behind an enclosed text is the one that closes it. -/
theorem Encloses.closing (h : Encloses depth quote s) (rest : Text) :
    closingBrace? depth quote (s ++ ('\x7d' : Byte) :: rest) = some s.length := by
  induction h with
  | done low =>
    change (if _ ≤ 1 then some 0 else _) = _
    rw [if_pos low]
    rfl
  | escape _ ih => exact congrArg (Option.map (· + 2)) ih
  | unquote plain _ ih =>
    rw [List.cons_append, closingBrace?.eq_def]
    simp [plain, ih]
  | quoted plain inside _ ih =>
    rw [List.cons_append, closingBrace?.eq_def]
    simp [plain, inside, ih]
  | quote opens _ ih =>
    rw [List.cons_append, closingBrace?, if_pos opens, ih]
    rfl
  | openBrace _ ih => exact congrArg (Option.map (· + 1)) ih
  | closeBrace deep _ ih =>
    exact (if_neg (Nat.not_le.2 deep)).trans (congrArg (Option.map (· + 1)) ih)
  | ordinary plain _ ih =>
    rw [← List.singleton_append, List.append_assoc, leaves_ordinary (List.forall_mem_singleton.2 plain), ih]
    rfl

theorem encloses_ordinary (plain : ∀ c ∈ s, isOrdinary c = true) (low : depth ≤ 1) : Encloses depth none s := by
  induction s with
  | nil => exact .done low
  | cons c s ih =>
    obtain ⟨first, rest⟩ := List.forall_mem_cons.1 plain
    exact .ordinary first (ih rest)

/-! ## Without the white space around it -/

/-- White space in front of the text is outside of quotes. -/
theorem Encloses.tail (h : Encloses depth none (c :: s)) (white : c.isWhite = true) : Encloses depth none s := by
  cases h with
  | quote opens _ =>
    have := ordinary_of_isWhite white
    simp_all [isOrdinary]
  | openBrace _ => exact absurd white (by decide)
  | closeBrace _ _ => exact absurd white (by decide)
  | ordinary _ rest => exact rest

/-- And so is white space at the end, where no quotes are open. -/
theorem Encloses.init (h : Encloses depth quote (s ++ [c])) (white : c.isWhite = true)
    (quotes : ∀ q ∈ quote, isOrdinary q = false) : Encloses depth quote s := by
  have notQuote : isOrdinary c = true := ordinary_of_isWhite white
  generalize whole : s ++ [c] = t at h
  induction h generalizing s with
  | done low => cases s <;> cases whole
  | escape rest ih =>
    obtain ⟨rfl, same⟩ | ⟨r, rfl, more⟩ := List.append_eq_cons_iff.1 whole
    · cases same
    obtain ⟨rfl, same⟩ | ⟨r, rfl, again⟩ := List.append_eq_cons_iff.1 more.symm
    · cases same
      cases rest
    · exact .escape (ih quotes again.symm)
  | unquote plain rest ih =>
    obtain ⟨rfl, same⟩ | ⟨r, rfl, more⟩ := List.append_eq_cons_iff.1 whole
    · cases same
      exact absurd notQuote (by simp [quotes])
    · exact .unquote plain (ih (by simp) more.symm)
  | quoted plain inside rest ih =>
    obtain ⟨rfl, same⟩ | ⟨r, rfl, more⟩ := List.append_eq_cons_iff.1 whole
    · cases same
      cases rest
    · exact .quoted plain inside (ih quotes more.symm)
  | quote opens rest ih =>
    obtain ⟨rfl, same⟩ | ⟨r, rfl, more⟩ := List.append_eq_cons_iff.1 whole
    · cases same
      cases rest
    · exact .quote opens (ih (by simpa [isOrdinary] using fun a b => absurd opens (by simp [a, b])) more.symm)
  | openBrace rest ih =>
    obtain ⟨rfl, same⟩ | ⟨r, rfl, more⟩ := List.append_eq_cons_iff.1 whole
    · cases same
      exact absurd white (by decide)
    · exact .openBrace (ih (by simp) more.symm)
  | closeBrace deep rest ih =>
    obtain ⟨rfl, same⟩ | ⟨r, rfl, more⟩ := List.append_eq_cons_iff.1 whole
    · cases same
      exact absurd white (by decide)
    · exact .closeBrace deep (ih (by simp) more.symm)
  | ordinary plain rest ih =>
    obtain ⟨rfl, same⟩ | ⟨r, rfl, more⟩ := List.append_eq_cons_iff.1 whole
    · cases same
      exact rest
    · exact .ordinary plain (ih (by simp) more.symm)

/-- What is enclosed still is without the white space around it. -/
theorem Encloses.trimWhite (h : Encloses depth none s) : Encloses depth none (Text.trimWhite s) := by
  have right : Encloses depth none (Text.trimRight Byte.isWhite s) := by
    induction s using List.reverseRecOn with
    | nil => exact h
    | append_singleton s c ih =>
      by_cases white : c.isWhite = true
      · simpa [Text.trimRight, white] using ih (h.init white (by simp))
      · simpa [Text.trimRight, white] using h
  rw [Text.trimWhite, Text.trim, Text.trimLeft]
  generalize Text.trimRight Byte.isWhite s = t at right
  induction t with
  | nil => exact right
  | cons c t ih =>
    by_cases white : c.isWhite = true
    · simpa [white] using ih (right.tail white)
    · simpa [white] using right

end Interpolation

/-- A literal piece with its dollars doubled, and an expression in braces. -/
def Fragment.written : Fragment → Text
  | .literal t => Text.doubled t
  | .expression e => "$\x7b" ++ e.source ++ "\x7d"

namespace Interpolation

/-! ## Sources -/

/-- What stands in an expression between its braces. -/
structure IsSource (s : Text) : Prop where
  filled : s ≠ []
  trimmed : Text.trimWhite s = s
  enclosed : Encloses 1 none s

theorem isSource_braced {s source : Text} {n : Nat} (h : braced? s = some (source, n)) : IsSource source := by
  cases s with
  | nil => cases h
  | cons c s =>
    rw [braced?] at h
    split_ifs at h
    cases found : closingBrace? 1 none s with
    | none => simp [found] at h
    | some m =>
      simp only [found] at h
      split_ifs at h with blank
      cases h
      exact ⟨by simpa using blank, Text.trimWhite_trimWhite _, (encloses_take found (by simp)).trimWhite⟩

theorem isSource_dotted {d : Byte} (s : Text) (start : Token.isNameStart d = true) :
    IsSource ((d :: s).take (dottedLength (d :: s))) := by
  have parts (t : Text) : ∀ c ∈ t.take (dottedLength t), Token.isNamePart c = true ∨ c = '.' := by
    fun_induction dottedLength t with
    | case1 => simp
    | case2 c t part ih =>
      refine List.forall_mem_cons.2 ⟨?_, ih⟩
      obtain name | dot := Bool.or_eq_true_iff.1 part
      · exact .inl name
      · exact .inr (by simpa using (Bool.and_eq_true_iff.1 dot).1)
    | case3 => simp
  have visible (c : Byte) : Token.isNamePart c = true ∨ c = '.' → isOrdinary c = true ∧ c.isWhite = false :=
    Byte.of_codes (p := fun c => Token.isNamePart c = true ∨ c = '.' → isOrdinary c = true ∧ c.isWhite = false)
      (by decide +kernel) c
  refine ⟨?_, Text.trimWhite_of_black fun c member => (visible c (parts _ c member)).2,
    encloses_ordinary (fun c member => (visible c (parts _ c member)).1) le_rfl⟩
  rw [dottedLength, if_pos (by simp [(Token.of_isNameStart start).2])]
  exact List.cons_ne_nil _ _

/-! ## The normal form -/

/-- Filled literal pieces, none behind another one, and expressions with the sources that stand between braces. -/
inductive Normal : List Fragment → Prop where
  | nil : Normal []
  | literal {t : Text} {fs : List Fragment} :
    t ≠ [] → (∀ f ∈ fs.head?, f.isExpression = true) → Normal fs → Normal (.literal t :: fs)
  | expression {e : Expression} {fs : List Fragment} : IsSource e.source → Normal fs → Normal (.expression e :: fs)

theorem Normal.append {fs gs : List Fragment} (first : Normal fs) (second : Normal gs)
    (between : ∀ g ∈ gs.head?, g.isExpression = true) : Normal (fs ++ gs) := by
  induction first with
  | nil => exact second
  | @literal t fs filled next rest ih =>
    refine .literal filled ?_ ih
    cases fs with
    | nil => exact between
    | cons f fs => exact next
  | expression source rest ih => exact .expression source ih

theorem Normal.addByte {fs : List Fragment} (h : Normal fs) (c : Byte) : Normal (addByte c fs) := by
  cases h with
  | nil => exact .literal (List.cons_ne_nil _ _) (by simp) .nil
  | literal filled next rest => exact .literal (List.cons_ne_nil _ _) next rest
  | expression source rest => exact .literal (List.cons_ne_nil _ _) (by simp [Fragment.isExpression]) (.expression source rest)

theorem normal_cutBraced (skip : Nat) (s : Text) : Normal (cutBraced skip s) := by
  fun_induction cutBraced skip s with
  | case1 => exact .nil
  | case2 _ _ _ ih => exact ih
  | case3 => exact Normal.nil.addByte _
  | case4 _ _ _ _ _ ih => exact (ih.addByte _).addByte _
  | case5 _ _ _ _ _ _ _ found ih =>
    rw [found]
    exact .expression (isSource_braced found) ih
  | case6 _ _ _ _ _ none ih =>
    rw [none]
    exact ih.addByte _
  | case7 _ _ _ ih => exact ih.addByte _

theorem normal_cutShort (skip : Nat) (s : Text) : Normal (cutShort skip s) := by
  fun_induction cutShort skip s with
  | case1 => exact .nil
  | case2 _ _ _ ih => exact ih
  | case3 => exact Normal.nil.addByte _
  | case4 _ _ _ _ _ ih => exact ih.addByte _
  | case5 _ _ _ r _ start _ ih => exact .expression (isSource_dotted r start) ih
  | case6 _ _ _ _ _ _ ih => exact ih.addByte _
  | case7 _ _ _ ih => exact ih.addByte _

theorem normal_interpolate (s : Text) : Normal (interpolate s) := by
  have cut := normal_cutBraced 0 s
  rw [interpolate]
  generalize cutBraced 0 s = fs at cut
  induction cut with
  | nil => exact .nil
  | @literal t fs filled next rest ih =>
    refine (normal_cutShort 0 t).append ih ?_
    cases fs with
    | nil => simp
    | cons f fs =>
      have first := next f rfl
      cases f with
      | literal u => cases first
      | expression e => simp [Fragment.isExpression]
  | expression source rest ih => exact .expression source ih

/-! ## Found again -/

/-- Cutting at braces finds the expressions again, and the doubled dollars between them. -/
theorem cutBraced_written {fs : List Fragment} (h : Normal fs) :
    cutBraced 0 (fs.flatMap Fragment.written) =
      fs.map fun | .literal t => .literal (Text.doubled t) | .expression e => .expression e := by
  induction h with
  | nil => rfl
  | @literal t fs filled next rest ih =>
    rw [List.flatMap_cons, Fragment.written, cutBraced_literal, if_neg filled, ih]
    · rfl
    · rw [ih]
      cases fs with
      | nil => simp
      | cons f fs =>
        have first := next f rfl
        cases f with
        | literal u => cases first
        | expression e => simp
  | @expression e fs source rest ih =>
    have cut := cutBraced_closing (source.enclosed.closing (fs.flatMap Fragment.written)) (source.trimmed.symm ▸ source.filled)
    rw [source.trimmed, ih] at cut
    rw [List.flatMap_cons, Fragment.written, List.append_assoc, List.append_assoc]
    exact cut

end Interpolation

open Interpolation

/-- **Fragments in normal form are found again** when they are written and interpolated. -/
theorem interpolate_written {fs : List Fragment} (h : Normal fs) : interpolate (fs.flatMap Fragment.written) = fs := by
  rw [interpolate, cutBraced_written h]
  induction h with
  | nil => rfl
  | literal filled next rest ih =>
    rw [List.map_cons, List.flatMap_cons, ih]
    exact congrArg (· ++ _) (cutShort_literal filled)
  | expression source rest ih =>
    rw [List.map_cons, List.flatMap_cons, ih]
    rfl

/-- **Interpolation has a normal form.**

It gives filled literal pieces, no two of them next to each other, and expressions with trimmed sources that are not
blank; these are found again when they are written, and a text with all its dollars doubled is the one piece it stands
for. -/
theorem interpolate_canonical (t : Text) :
    Normal (interpolate t) ∧ interpolate ((interpolate t).flatMap Fragment.written) = interpolate t ∧
      interpolate (Text.doubled t) = if t = [] then [] else [.literal t] :=
  ⟨normal_interpolate t, interpolate_written (normal_interpolate t), interpolate_doubled t⟩

end Stencil
