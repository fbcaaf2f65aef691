import Mathlib.Data.List.Induction
import Stencil.Proofs.Expr.Effect
import Stencil.Proofs.Expr.Written
import Stencil.Proofs.Text.Pieces

/-!
# Words with points between them

A word is a name or a keyword, and words with points between them look like an object and its members. They are an
expression if and only if that is what they are (`Expr.parse_dotted_iff`): after a point no keyword may stand, and
before the first point only one that is a constant. In every other place a keyword wants an operand next to it, and a
point starts none (`not_dotted`). The expression calls nothing, so that its evaluation fails at a member alone
(`Expr.failing_ofWords`).
-/

namespace Stencil

open Token

/-! ## Words -/

/-- The text is a name or a keyword. -/
def IsWord (w : Text) : Prop := ∃ c r, w = c :: r ∧ isNameStart c = true ∧ ∀ d ∈ r, isNamePart d = true

/-- The keyword is an expression of its own. -/
def Keyword.isConstant : Keyword → Bool
  | none | true | false => Bool.true
  | _ => Bool.false

/-- The first word may stand for a value, and the others are names of members. -/
def NamesMembers : List Text → Prop
  | [] => False
  | w :: ws => (∀ k ∈ Keyword.ofSpelling? w, k.isConstant = true) ∧ ∀ v ∈ ws, Keyword.ofSpelling? v = none

instance : DecidablePred NamesMembers
  | [] => .isFalse id
  | w :: ws => inferInstanceAs (Decidable ((∀ k ∈ Keyword.ofSpelling? w, k.isConstant = true) ∧
      ∀ v ∈ ws, Keyword.ofSpelling? v = none))

theorem spelling_of_ofSpelling {w : Text} {k : Keyword} (h : Keyword.ofSpelling? w = some k) : k.spelling = w := by
  unfold Keyword.ofSpelling? at h
  simpa using List.find?_some h

/-- No point is part of a word. -/
theorem IsWord.point_notMem {w : Text} (h : IsWord w) : ('.' : Byte) ∉ w := by
  obtain ⟨c, r, rfl, start, parts⟩ := h
  intro mem
  obtain rfl | mem := List.mem_cons.1 mem
  · exact absurd start (by decide)
  · exact absurd (parts _ mem) (by decide)

namespace Lexeme

/-- What a word is read as. -/
def ofWord (w : Text) : Lexeme :=
  match Keyword.ofSpelling? w with
  | some k => .keyword k
  | none => .word w

theorem ofWord_eq_word {w n : Text} : ofWord w = .word n ↔ Keyword.ofSpelling? w = none ∧ w = n := by
  unfold ofWord
  split <;> simp [*]

theorem ofWord_eq_keyword {w : Text} {k : Keyword} : ofWord w = .keyword k ↔ Keyword.ofSpelling? w = some k := by
  unfold ofWord
  split <;> simp [*]

theorem isWritten_ofWord {w : Text} (h : IsWord w) : (ofWord w).IsWritten w := by
  obtain ⟨c, r, rfl, start, parts⟩ := h
  unfold ofWord
  split
  next k known =>
    rw [← spelling_of_ofSpelling known]
    exact .keyword k
  next free => exact .word start parts free

/-- The word is a name or a keyword. -/
theorem ofWord_cases (w : Text) : (∃ n, ofWord w = .word n) ∨ ∃ k, ofWord w = .keyword k := by
  unfold ofWord
  split
  · exact .inr ⟨_, rfl⟩
  · exact .inl ⟨_, rfl⟩

theorem ends_ofWord (w : Text) {rest : Text} (h : ∀ c ∈ rest.head?, isNamePart c = false) : (ofWord w).Ends rest := by
  obtain ⟨n, word⟩ | ⟨k, keyword⟩ := ofWord_cases w
  · rw [word]
    exact h
  · rw [keyword]
    exact h

end Lexeme

open Lexeme

/-- The lexemes of words with points between them. -/
def dottedLexemes (w : Text) (ws : List Text) : List Lexeme := ofWord w :: ws.flatMap fun v => [.symbol .dot, ofWord v]

theorem dottedLexemes_snoc (w : Text) (ws : List Text) (v : Text) :
    dottedLexemes w (ws ++ [v]) = dottedLexemes w ws ++ [.symbol .dot, ofWord v] := by
  simp [dottedLexemes]

theorem dottedLexemes_eq_singleton {w : Text} {ws : List Text} {x : Lexeme} :
    dottedLexemes w ws = [x] ↔ ws = [] ∧ ofWord w = x := by
  cases ws <;> simp [dottedLexemes]

theorem cuts_dotted {w : Text} {ws : List Text} (word : IsWord w) (words : ∀ v ∈ ws, IsWord v) :
    Cuts (Text.join "." (w :: ws)) (dottedLexemes w ws) := by
  induction ws generalizing w with
  | nil =>
    rw [Text.join_singleton]
    exact (writing_lexeme (isWritten_ofWord word)).cuts
  | cons v ws ih =>
    obtain ⟨next, others⟩ := List.forall_mem_cons.1 words
    have point : Cuts ("." ++ Text.join "." (v :: ws)) (.symbol .dot :: dottedLexemes v ws) :=
      @Cuts.cons [] _ _ _ _ (by simp) (.symbol .dot) (by rintro (h | h | h) <;> cases h) (ih next others)
    rw [Text.join_cons_cons]
    exact @Cuts.cons [] _ _ _ _ (by simp) (isWritten_ofWord word)
      (ends_ofWord w (by rintro _ ⟨⟩; decide)) point

/-! ## Expressions of dotted words -/

/-- The value that a word stands for. -/
def Expr.ofWord (w : Text) : Expr :=
  match Keyword.ofSpelling? w with
  | some .none => .literal .none
  | some .true => .literal (.bool true)
  | some .false => .literal (.bool false)
  | _ => .name w

/-- The first word and its members. -/
def Expr.ofWords (w : Text) (ws : List Text) : Expr := ws.foldl .member (.ofWord w)

variable {w : Text} {ws : List Text} {xs ys : List Lexeme} {x y : Lexeme} {level : Level} {e : Expr}

theorem derives_ofWord (h : ∀ k ∈ Keyword.ofSpelling? w, k.isConstant = true) : Derives .atom [ofWord w] (.ofWord w) := by
  unfold Lexeme.ofWord Expr.ofWord
  split
  next k known =>
    rw [known]
    have constant := h k known
    cases k with
    | none => exact .none
    | true => exact .true
    | false => exact .false
    | _ => cases constant
  next free =>
    rw [free]
    exact .name w

theorem derives_ofWords (h : NamesMembers (w :: ws)) : Derives .access (dottedLexemes w ws) (.ofWords w ws) := by
  obtain ⟨first, members⟩ := h
  induction ws using List.reverseRecOn with
  | nil => exact .tighter (by decide) (derives_ofWord first)
  | append_singleton ws v ih =>
    rw [dottedLexemes_snoc, ofWord_eq_word.2 ⟨members v (by simp), rfl⟩, Expr.ofWords, List.foldl_concat]
    exact .member (ih fun u hu => members u (List.mem_append_left _ hu))

/-- Next to a word stands a point or nothing, and beside that there are only points. -/
theorem split_dotted (same : xs ++ y :: ys = dottedLexemes w ws) :
    y = .symbol .dot ∨ (∃ v, y = ofWord v) ∧ ∀ x ∈ ys.head?, x = .symbol .dot := by
  induction ws generalizing w xs with
  | nil =>
    cases xs with
    | nil =>
      cases same
      exact .inr ⟨⟨w, rfl⟩, by rintro _ ⟨⟩⟩
    | cons x xs => simp [dottedLexemes] at same
  | cons v ws ih =>
    change xs ++ y :: ys = ofWord w :: .symbol .dot :: dottedLexemes v ws at same
    match xs with
    | [] =>
      cases same
      exact .inr ⟨⟨w, rfl⟩, by rintro _ ⟨⟩; rfl⟩
    | [x] =>
      cases same
      exact .inl rfl
    | x :: x' :: xs =>
      simp only [List.cons_append, List.cons.injEq] at same
      exact ih same.2.2

/-- **Nothing else stands among dotted words**: no other symbol or constant, and no keyword before another lexeme. -/
theorem not_dotted (other : y ≠ .symbol .dot) (wanting : (∃ v, y = ofWord v) → ∃ x ∈ ys.head?, x ≠ .symbol .dot) :
    xs ++ y :: ys ≠ dottedLexemes w ws := by
  intro same
  obtain point | ⟨word, next⟩ := split_dotted same
  · exact other point
  · obtain ⟨x, ahead, plain⟩ := wanting word
    exact plain (next x ahead)

theorem ne_ofWord_symbol (s : Symbol) (v : Text) : Lexeme.symbol s ≠ ofWord v := by
  obtain ⟨n, word⟩ | ⟨k, keyword⟩ := ofWord_cases v <;> simp [*]

theorem not_dotted_symbol (xs : List Lexeme) {s : Symbol} (other : s ≠ .dot) : xs ++ .symbol s :: ys ≠ dottedLexemes w ws :=
  not_dotted (by simpa using other) fun ⟨v, same⟩ => absurd same (ne_ofWord_symbol s v)

/-- A point starts no expression. -/
theorem Derives.head_ne_dot (h : Derives level xs e) (rest : List Lexeme) : ∃ x ∈ (xs ++ rest).head?, x ≠ .symbol .dot := by
  obtain ⟨x, ys, rfl, l, opens, -⟩ := h.starts
  refine ⟨x, rfl, ?_⟩
  rintro rfl
  cases opens

theorem not_dotted_keyword (xs : List Lexeme) (h : Derives level ys e) (k : Keyword) (rest : List Lexeme) :
    xs ++ .keyword k :: (ys ++ rest) ≠ dottedLexemes w ws :=
  not_dotted (by simp) fun _ => h.head_ne_dot rest

theorem not_dotted_operator (op : Operator) (h : Derives level ys e) : xs ++ (op.lexemes ++ ys) ≠ dottedLexemes w ws := by
  have keyword (k : Keyword) : xs ++ .keyword k :: ys ≠ dottedLexemes w ws := by
    simpa using not_dotted_keyword xs h k []
  cases op with
  | or => exact keyword .or
  | and => exact keyword .and
  | «in» => exact keyword .in
  | is => exact keyword .is
  | notIn => exact not_dotted (by decide) fun _ => ⟨.keyword .in, rfl, by decide⟩
  | isNot => exact not_dotted (by decide) fun _ => ⟨.keyword .not, rfl, by decide⟩
  | _ => exact not_dotted_symbol _ (by decide)

/-- **Dotted words are an expression only as a value and its members.** -/
theorem Derives.ofWords {w : Text} {ws : List Text} {level : Level} {xs : List Lexeme} {e : Expr} :
    Derives level xs e → xs = dottedLexemes w ws → NamesMembers (w :: ws) ∧ e = .ofWords w ws
  | .tighter _ h, same => h.ofWords same
  | @Derives.member _ _ n first, same => by
    obtain rfl | ⟨ws, v, rfl⟩ := List.eq_nil_or_concat' ws
    · obtain ⟨x, ys, rfl, -⟩ := first.starts
      simp [dottedLexemes] at same
    · rw [dottedLexemes_snoc] at same
      obtain ⟨before, last⟩ := List.append_inj' same rfl
      obtain ⟨free, rfl⟩ := ofWord_eq_word.1 (List.cons.inj (List.cons.inj last).2).1.symm
      obtain ⟨⟨value, members⟩, rfl⟩ := first.ofWords before
      refine ⟨⟨value, fun u hu => ?_⟩, by rw [Expr.ofWords, Expr.ofWords, List.foldl_concat]⟩
      obtain old | rfl := List.mem_append.1 hu |>.imp_right List.mem_singleton.1
      · exact members u old
      · exact free
  | .conditional _ second _, same => absurd same (not_dotted_keyword _ second _ _)
  | .not h, same => absurd same (by simpa using not_dotted_keyword [] h .not [])
  | .binary _ second, same => absurd same (not_dotted_operator _ second)
  | .item _ _, same | .call _ _, same => absurd same (not_dotted_symbol _ (by decide))
  | .negate _, same | .identity _, same | .parenthesised _, same | .unit, same | .tuple _ _, same | .list _, same
  | .dict _, same => absurd same (not_dotted_symbol [] (by decide))
  | .text _ _, same | .integer _, same | .decimal _, same => by
    obtain ⟨n, word⟩ | ⟨k, keyword⟩ := ofWord_cases w <;> simp [dottedLexemes, *] at same
  | .name n, same => by
    obtain ⟨rfl, first⟩ := dottedLexemes_eq_singleton.1 same.symm
    obtain ⟨free, rfl⟩ := ofWord_eq_word.1 first
    exact ⟨⟨by simp [free], by simp⟩, by simp [Expr.ofWords, Expr.ofWord, free]⟩
  | .none, same | .true, same | .false, same => by
    obtain ⟨rfl, first⟩ := dottedLexemes_eq_singleton.1 same.symm
    have known := ofWord_eq_keyword.1 first
    exact ⟨⟨by simp [known, Keyword.isConstant], by simp⟩, by simp [Expr.ofWords, Expr.ofWord, known]⟩

/-- **Words with points between them are an expression if and only if they are a value and its members.** -/
theorem Expr.parse_dotted_iff (word : IsWord w) (words : ∀ v ∈ ws, IsWord v) :
    parse (Text.join "." (w :: ws)) = .ok e ↔ NamesMembers (w :: ws) ∧ e = .ofWords w ws := by
  obtain ⟨ts, scanned, lexemes⟩ := Token.scan_of_cuts (cuts_dotted word words)
  constructor
  · intro read
    obtain ⟨us, xs, again, same, derives⟩ := parse_eq_ok_iff.1 read
    rw [scanned] at again
    cases again
    exact derives.ofWords (List.append_cancel_right (same.symm.trans lexemes))
  · rintro ⟨names, rfl⟩
    exact parse_of_derives scanned lexemes ((derives_ofWords names).loosen (Nat.zero_le _))

/-! ## Evaluation -/

/-- The failure is one to evaluate an expression. -/
def Stop.OfEvaluation (why : Stop) : Prop := ∃ e, why = .fault (.badEvaluation e none)

theorem Expr.builtin_ne_error {s : Store} {why : Stop} : builtin w s ≠ .error why := by
  intro h
  unfold builtin at h
  repeat' split at h
  all_goals cases h

/-- The value that a word stands for is always there, undefined if nothing else. -/
theorem Expr.evalWith_ofWord_ne_error {call : Caller} {s : Store} {why : Stop} :
    (Expr.ofWord w).evalWith call s ≠ .error why := by
  intro h
  unfold Expr.ofWord at h
  split at h <;> rw [evalWith] at h
  case h_4 =>
    change (if (s.context.get w).isUndefined = true then builtin w else pure _) s = _ at h
    split at h
    · exact builtin_ne_error h
    · cases h
  all_goals cases h

/-- The evaluation of a value and its members fails at a member. -/
theorem Expr.failing_ofWords {call : Caller} {s : Store} {why : Stop} (h : (Expr.ofWords w ws).evalWith call s = .error why) :
    why.OfEvaluation := by
  induction ws using List.reverseRecOn generalizing s why with
  | nil => exact absurd h evalWith_ofWord_ne_error
  | append_singleton ws v ih =>
    rw [ofWords, List.foldl_concat, evalWith] at h
    obtain object | ⟨value, t, -, member⟩ := Eval.of_bind_error h
    · exact ih object
    · cases found : value.member v with
      | ok => rw [found] at member; cases member
      | error e =>
        rw [found] at member
        cases member
        exact ⟨e, rfl⟩

end Stencil
