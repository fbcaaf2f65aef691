import Stencil.Proofs.Expr.Reading
import Stencil.Proofs.Expr.Scanned

/-!
# The parser reads nothing but the grammar

What the parser takes for an expression, the grammar derives (`Expr.derives_of_readAt`), and with the other direction a
source has a tree if and only if its lexemes derive that tree (`Expr.parse_eq_ok_iff`). By induction on the number
of steps, for all functions of the parser at once (`Sound`).
-/

namespace Stencil

theorem Token.lexeme_eq_ofKind (t : Token) (h : t.kind ∉ [TokenKind.name, .integer, .decimal, .string]) :
    t.lexeme = .ofKind t.kind := by
  unfold lexeme
  cases kind : t.kind <;> first | rfl | simp [kind] at h

theorem Token.lexeme_of_name (t : Token) (h : t.kind = .name) : t.lexeme = .word t.text := by rw [lexeme, h]

theorem Operator.tokens_plain (op : Operator) :
    ∀ k ∈ op.tokens, k ∉ [TokenKind.name, .integer, .decimal, .string] := by cases op <;> decide

namespace Expr.Parse

variable {α β : Type} {p q : Parse α} {f : α → Parse β} {Q : α → List Lexeme → Prop} {Q' : β → List Lexeme → Prop}

/-- What is read has the property, together with the lexemes of the tokens that are taken for it. -/
def Finds (p : Parse α) (Q : α → List Lexeme → Prop) : Prop :=
  ∀ ts a us, p ts = .ok (a, us) → ∃ taken, ts = taken ++ us ∧ Q a (taken.map Token.lexeme)

theorem finds_pure {a : α} (h : Q a []) : Finds (pure a) Q := by
  rintro ts _ _ ⟨⟩
  exact ⟨[], rfl, h⟩

theorem finds_error {e : List Token → SyntaxError} : Finds (fun ts => .error (e ts)) Q := by
  rintro ts a us ⟨⟩

theorem Finds.mono {Q' : α → List Lexeme → Prop} (h : Finds p Q) (le : ∀ a xs, Q a xs → Q' a xs) : Finds p Q' := by
  intro ts a us read
  obtain ⟨taken, same, value⟩ := h ts a us read
  exact ⟨taken, same, le a _ value⟩

theorem Finds.bind (h : Finds p Q) (next : ∀ a xs, Q a xs → Finds (f a) fun b ys => Q' b (xs ++ ys)) :
    Finds (p >>= f) Q' := by
  intro ts b vs read
  change (p ts).bind (fun r => f r.1 r.2) = _ at read
  cases first : p ts with
  | error => rw [first] at read; cases read
  | ok r =>
    rw [first] at read
    obtain ⟨taken, same, value⟩ := h ts r.1 r.2 first
    obtain ⟨more, left, result⟩ := next r.1 _ value r.2 b vs read
    exact ⟨taken ++ more, by rw [same, left, List.append_assoc], by rwa [List.map_append]⟩

theorem Finds.accepts {k : TokenKind} {x : Lexeme} (known : ∀ t : Token, t.kind = k → t.lexeme = x) (some : k ≠ .endOfInput)
    (hit : Finds p fun a xs => Q a (x :: xs)) (miss : Finds q Q) :
    Finds (accept k >>= fun found => if found = true then p else q) Q := by
  have read : Finds (accept k) fun found xs => xs = if found = true then [x] else [] := by
    intro ts found us read
    simp only [Parse.accept] at read
    split at read
    next same =>
      cases ts with
      | nil => exact absurd same.symm some
      | cons t ts =>
        have same : t.kind = k := same
        cases read
        exact ⟨[t], by simp [ahead, same, some], by simp [known t same]⟩
    next =>
      cases read
      exact ⟨[], rfl, rfl⟩
  refine read.bind fun found xs same => ?_
  cases found <;> (subst same; assumption)

theorem finds_expect {source : Text} {k : TokenKind} (some : k ≠ .endOfInput) :
    Finds (expect source k) fun t xs => t.kind = k ∧ xs = [t.lexeme] := by
  intro ts t us read
  change (if (ahead ts).kind = k then advance else _) ts = _ at read
  split at read
  next same =>
    cases ts with
    | nil => exact absurd same.symm some
    | cons u ts =>
      have same : u.kind = k := same
      cases read
      exact ⟨[u], by simp [ahead, same, some], same, rfl⟩
  next => cases read

/-- A keyword or a symbol that is wanted is taken. -/
theorem Finds.expects {source : Text} {f : Token → Parse β} {k : TokenKind} {x : Lexeme}
    (known : ∀ t : Token, t.kind = k → t.lexeme = x) (some : k ≠ .endOfInput)
    (next : ∀ t, Finds (f t) fun b ys => Q' b (x :: ys)) : Finds (expect source k >>= f) Q' := by
  refine (finds_expect some).bind ?_
  rintro t _ ⟨kind, rfl⟩
  rw [known t kind]
  exact next t

theorem advance_cons {t : Token} (h : t.kind ≠ .endOfInput) (ts : List Token) : advance (t :: ts) = .ok (t, ts) := by
  simp [advance, ahead, h]

theorem finds_advance : Finds advance fun t xs => t.kind = .endOfInput ∨ xs = [t.lexeme] := by
  intro ts t us read
  cases read
  cases ts with
  | nil => exact ⟨[], rfl, .inl rfl⟩
  | cons t ts =>
    by_cases ended : t.kind = .endOfInput
    · exact ⟨[], by simp [ahead, ended], .inl ended⟩
    · exact ⟨[t], by simp [ahead, ended], .inr rfl⟩

/-- A name and an equals sign, where they are ahead, are taken together. -/
theorem finds_assigned {f : Token → Parse α} {g : List Token → Parse α}
    (hit : ∀ t, Finds (f t) fun a xs => Q a (.word t.text :: .symbol .assign :: xs)) (miss : ∀ ts, Finds (g ts) Q) :
    Finds (get >>= fun ts => if (ahead ts).kind = .name ∧ afterNext ts = .symbol .assign then
      advance >>= fun name => advance >>= fun _ => f name else g ts) Q := by
  intro ts a us read
  change (if (ahead ts).kind = .name ∧ afterNext ts = .symbol .assign then _ else g ts) ts = _ at read
  split at read
  next assigned =>
    obtain ⟨name, xs, same⟩ := (assigned_iff rfl).1 assigned
    obtain ⟨t, ts, rfl, word, same⟩ := List.map_eq_cons_iff.1 same
    obtain ⟨u, ts, rfl, assign, -⟩ := List.map_eq_cons_iff.1 same
    have kinds : t.kind = .name ∧ u.kind = .symbol .assign := ⟨kind_of_lexeme word, kind_of_lexeme assign⟩
    have rest : f t ts = .ok (a, us) := by
      change (advance (t :: u :: ts)).bind (fun r => (advance r.2).bind fun r' => f r.1 r'.2) = _ at read
      rw [advance_cons (by simp [kinds])] at read
      change (advance (u :: ts)).bind (fun r => f t r.2) = _ at read
      rw [advance_cons (by simp [kinds])] at read
      exact read
    obtain ⟨taken, left, value⟩ := hit t ts a us rest
    refine ⟨t :: u :: taken, by rw [left]; rfl, ?_⟩
    rwa [List.map_cons, List.map_cons, assign, t.lexeme_of_name kinds.1]
  next => exact miss ts ts a us read

theorem finds_operator (level : Level) : Finds (operator? level) fun found xs =>
    (∃ op, found = some op ∧ op.level = level ∧ xs = op.lexemes) ∨ found = none ∧ xs = [] := by
  intro ts found us read
  unfold operator? at read
  split at read
  next op same =>
    cases read
    have chosen := List.find?_some same
    obtain ⟨leveled, starts⟩ := Bool.and_eq_true_iff.1 chosen
    have start := List.prefix_iff_eq_take.1 (List.isPrefixOf_iff_prefix.1 starts)
    have kinds : (ts.take op.tokens.length).map (·.kind) = op.tokens := List.map_take.trans start.symm
    have written : (ts.take op.tokens.length).map Token.lexeme = op.lexemes := calc
      _ = (ts.take op.tokens.length).map (Lexeme.ofKind ·.kind) := List.map_congr_left fun t ht => by
        have mem : t.kind ∈ op.tokens := kinds ▸ List.mem_map_of_mem ht
        exact t.lexeme_eq_ofKind (op.tokens_plain _ mem)
      _ = ((ts.take op.tokens.length).map (·.kind)).map Lexeme.ofKind := by rw [List.map_map]; rfl
      _ = op.lexemes := by rw [kinds]; rfl
    exact ⟨_, (List.take_append_drop _ _).symm, .inl ⟨op, rfl, of_decide_eq_true leveled, written⟩⟩
  next =>
    cases read
    exact ⟨[], rfl, .inr ⟨rfl, rfl⟩⟩

theorem finds_adjacentStrings : Finds adjacentStrings fun t xs => ∃ ts : List Text, xs = ts.map .string ∧ t = ts.flatten := by
  intro ts t us read
  cases read
  refine ⟨ts.takeWhile (·.kind = .string), List.takeWhile_append_dropWhile.symm,
    (ts.takeWhile (·.kind = .string)).map (·.text), ?_, List.flatMap_def⟩
  rw [List.map_map]
  refine List.map_congr_left fun t ht => ?_
  have kind : t.kind = .string := by simpa using List.mem_takeWhile_imp (p := fun t : Token => decide (t.kind = .string)) ht
  rw [Token.lexeme, kind]
  rfl

end Expr.Parse

namespace Expr

open Parse

variable {source : Text} {n : Nat}

/-- With the number of steps, the functions of the parser read what the grammar derives. -/
structure Sound (source : Text) (n : Nat) : Prop where
  expressions : ∀ level, Finds (readAt source n level) fun e xs => Derives level xs e
  operators : ∀ level left, Finds (readOperators source n level left) fun e ys =>
    ∀ xs, Derives level xs left → Derives level (xs ++ ys) e
  accesses : ∀ object, Finds (readAccesses source n object) fun e ys =>
    ∀ xs, Derives .access xs object → Derives .access (xs ++ ys) e
  atoms : ∀ t, Finds (readAtom source n t) fun e ys => Derives .atom (t.lexeme :: ys) e
  elements : ∀ close, Finds (readElements source n close) fun es xs => DerivesElements close xs es
  entries : Finds (readEntries source n) fun es xs => DerivesEntries xs es
  arguments : ∀ seen, Finds (readArguments source n seen) fun r xs => DerivesArguments seen xs r.1 r.2
  more : ∀ seen, Finds (readMoreArguments source n seen) fun r xs => DerivesMore seen xs r.1 r.2

theorem sound_zero : Sound source 0 where
  expressions level := by rw [readAt]; exact finds_error
  operators level left := by rw [readOperators]; exact finds_error
  accesses object := by rw [readAccesses]; exact finds_error
  atoms t := by rw [readAtom]; exact finds_error
  elements close := by rw [readElements]; exact finds_error
  entries := by rw [readEntries]; exact finds_error
  arguments seen := by rw [readArguments]; exact finds_error
  more seen := by rw [readMoreArguments]; exact finds_error

/-- A keyword or a symbol is told by its kind. -/
theorem known_keyword (k : Keyword) (t : Token) : t.kind = .keyword k → t.lexeme = .keyword k := Lexeme.lexeme_eq_keyword.2

theorem known_symbol (s : Symbol) (t : Token) : t.kind = .symbol s → t.lexeme = .symbol s := Lexeme.lexeme_eq_symbol.2

theorem Sound.expressions_succ (h : Sound source n) (level : Level) :
    Finds (readAt source (n + 1) level) fun e xs => Derives level xs e := by
  obtain ⟨op, rfl⟩ | case := Level.cases_operator level
  · rw [readAt_operator]
    have loose : op.level ≠ .atom := by cases op <;> decide
    exact (h.expressions _).bind fun left xs first =>
      (h.operators op.level left).mono fun _ _ more => more xs (.tighter loose first)
  · simp only [List.mem_cons, List.not_mem_nil, or_false] at case
    -- the levels without operators, from the loosest one to atoms
    obtain rfl | rfl | rfl | rfl | rfl := case
    · rw [readAt]
      refine (h.expressions .disjunction).bind fun value xs first => ?_
      refine .accepts (known_keyword .if) (by decide) ?_ (finds_pure (by simpa using .tighter (by decide) first))
      refine (h.expressions .disjunction).bind fun test ys second => ?_
      refine .expects (known_keyword .else) (by decide) fun _ => ?_
      refine (h.expressions .conditional).bind fun other zs third => finds_pure ?_
      simpa using .conditional first second third
    · rw [readAt]
      refine .accepts (known_keyword .not) (by decide) ?_
        ((h.expressions .comparison).mono fun _ _ => .tighter (by decide : Level.negation ≠ .atom))
      exact (h.expressions .negation).bind fun e xs some => finds_pure (by simpa using .not some)
    · rw [readAt]
      refine .accepts (known_symbol .minus) (by decide) ?_ (.accepts (known_symbol .plus) (by decide) ?_
        ((h.expressions .access).mono fun _ _ => .tighter (by decide : Level.sign ≠ .atom)))
      · exact (h.expressions .sign).bind fun e xs some => finds_pure (by simpa using .negate some)
      · exact (h.expressions .sign).bind fun e xs some => finds_pure (by simpa using .identity some)
    · rw [readAt]
      exact (h.expressions .atom).bind fun object xs first =>
        (h.accesses object).mono fun _ _ more => more xs (.tighter (by decide) first)
    · rw [readAt]
      refine finds_advance.bind fun t xs taken => ?_
      obtain ended | rfl := taken
      · cases n with
        | zero => rw [readAtom]; exact finds_error
        | succ n => rw [readAtom, ended]; exact finds_error
      · exact h.atoms t

theorem Sound.operators_succ (h : Sound source n) (level : Level) (left : Expr) :
    Finds (readOperators source (n + 1) level left) fun e ys => ∀ xs, Derives level xs left → Derives level (xs ++ ys) e := by
  rw [readOperators]
  refine (finds_operator level).bind ?_
  rintro _ _ (⟨op, rfl, rfl, rfl⟩ | ⟨rfl, rfl⟩)
  · refine (h.expressions _).bind fun right ys second => (h.operators _ _).mono fun e zs more xs first => ?_
    simpa using more _ (.binary first second)
  · exact finds_pure fun xs first => by simpa using first

theorem Sound.accesses_succ (h : Sound source n) (object : Expr) : Finds (readAccesses source (n + 1) object) fun e ys =>
    ∀ xs, Derives .access xs object → Derives .access (xs ++ ys) e := by
  rw [readAccesses]
  refine .accepts (known_symbol .dot) (by decide) ?_ (.accepts (known_symbol .openBracket) (by decide) ?_
    (.accepts (known_symbol .openParen) (by decide) ?_ (finds_pure fun xs first => by simpa using first)))
  · refine (finds_expect (by decide)).bind ?_
    rintro t _ ⟨kind, rfl⟩
    rw [t.lexeme_of_name kind]
    exact (h.accesses _).mono fun e ys more xs first => by simpa using more _ (.member first)
  · refine (h.expressions .conditional).bind fun key ys second =>
      .expects (known_symbol .closeBracket) (by decide) fun _ => ?_
    exact (h.accesses _).mono fun e zs more xs first => by simpa using more _ (.item first second)
  · refine (h.arguments false).bind fun r ys second => ?_
    exact (h.accesses _).mono fun e zs more xs first => by simpa using more _ (.call first second)

theorem Sound.atoms_succ (h : Sound source n) (t : Token) :
    Finds (readAtom source (n + 1) t) fun e ys => Derives .atom (t.lexeme :: ys) e := by
  rw [readAtom]
  unfold Token.lexeme
  split
  next kind => rw [kind]; exact finds_pure (.name _)
  next kind => rw [kind]; exact finds_pure .none
  next kind => rw [kind]; exact finds_pure .true
  next kind => rw [kind]; exact finds_pure .false
  next kind =>
    rw [kind]
    refine finds_adjacentStrings.bind ?_
    rintro _ _ ⟨ts, rfl, rfl⟩
    exact finds_pure (by simpa using .text t.text ts)
  next kind =>
    rw [kind]
    split
    next k same => exact finds_pure (.integer same)
    next => exact finds_error
  next kind =>
    rw [kind]
    split
    next x same => exact finds_pure (.decimal same)
    next => exact finds_error
  next kind =>
    rw [kind]
    refine .accepts (known_symbol .closeParen) (by decide) (finds_pure .unit) ?_
    refine (h.expressions .conditional).bind fun first xs some => ?_
    refine .accepts (known_symbol .closeParen) (by decide) (finds_pure (by simpa using .parenthesised some)) ?_
    refine .expects (known_symbol .comma) (by decide) fun _ => ?_
    exact (h.elements .closeParen).bind fun es ys others => finds_pure (by simpa using .tuple some others)
  next kind =>
    rw [kind]
    exact (h.elements .closeBracket).bind fun es xs some => finds_pure (by simpa using .list some)
  next kind =>
    rw [kind]
    exact h.entries.bind fun es xs some => finds_pure (by simpa using .dict some)
  next => exact finds_error

theorem Sound.elements_succ (h : Sound source n) (close : Symbol) :
    Finds (readElements source (n + 1) close) fun es xs => DerivesElements close xs es := by
  rw [readElements]
  refine .accepts (known_symbol close) (by simp) (finds_pure (.nil close)) ?_
  refine (h.expressions .conditional).bind fun e xs first => .accepts (known_symbol .comma) (by decide) ?_ ?_
  · exact (h.elements close).bind fun es ys others => finds_pure (by simpa using .cons first others)
  · exact .expects (known_symbol close) (by simp) fun _ => finds_pure (by simpa using .last first)

theorem Sound.entries_succ (h : Sound source n) :
    Finds (readEntries source (n + 1)) fun es xs => DerivesEntries xs es := by
  rw [readEntries]
  refine .accepts (known_symbol .closeBrace) (by decide) (finds_pure .nil) ?_
  refine (h.expressions .conditional).bind fun key xs first => .expects (known_symbol .colon) (by decide) fun _ => ?_
  refine (h.expressions .conditional).bind fun value ys second => .accepts (known_symbol .comma) (by decide) ?_ ?_
  · exact h.entries.bind fun es zs others => finds_pure (by simpa using .cons first second others)
  · exact .expects (known_symbol .closeBrace) (by decide) fun _ => finds_pure (by simpa using .last first second)

theorem Sound.arguments_succ (h : Sound source n) (seen : Bool) :
    Finds (readArguments source (n + 1) seen) fun r xs => DerivesArguments seen xs r.1 r.2 := by
  rw [readArguments]
  refine .accepts (known_symbol .closeParen) (by decide) (finds_pure (.nil seen)) (finds_assigned (fun t => ?_) fun ts => ?_)
  · exact (h.expressions .conditional).bind fun value xs first =>
      (h.more true).bind fun r ys others => finds_pure (by simpa using .keyword first others)
  · split
    next => exact finds_error
    next positional =>
      rw [Bool.not_eq_true] at positional
      subst positional
      exact (h.expressions .conditional).bind fun value xs first =>
        (h.more false).bind fun r ys others => finds_pure (by simpa using .positional first others)

theorem Sound.more_succ (h : Sound source n) (seen : Bool) :
    Finds (readMoreArguments source (n + 1) seen) fun r xs => DerivesMore seen xs r.1 r.2 := by
  rw [readMoreArguments]
  refine .accepts (known_symbol .comma) (by decide) ((h.arguments seen).mono fun _ _ => .comma) ?_
  exact .expects (known_symbol .closeParen) (by decide) fun _ => finds_pure (.close seen)

theorem sound (source : Text) (n : Nat) : Sound source n := by
  induction n with
  | zero => exact sound_zero
  | succ n ih =>
    exact ⟨ih.expressions_succ, ih.operators_succ, ih.accesses_succ, ih.atoms_succ, ih.elements_succ, ih.entries_succ,
      ih.arguments_succ, ih.more_succ⟩

end Expr

/-! ## Whole sources -/

open Stencil.Expr Stencil.Expr.Parse

/-- The grammar derives what the parser reads, from the tokens that are taken for it. -/
theorem Expr.derives_of_readAt {source : Text} {n : Nat} {level : Level} {ts rest : List Token} {e : Expr}
    (h : readAt source n level ts = .ok (e, rest)) :
    ∃ taken, ts = taken ++ rest ∧ Derives level (taken.map Token.lexeme) e :=
  (sound source n).expressions level ts e rest h

/-- Where the end of the input is ahead after some lexemes, they are all that stand before it. -/
theorem eq_of_ended {xs us rest : List Lexeme} (same : us ++ [.endOfInput] = xs ++ rest) (before : .endOfInput ∉ us)
    (taken : .endOfInput ∉ xs) (ahead : ∀ x ∈ rest.head?, x = .endOfInput) : xs = us := by
  have upTo {as : List Lexeme} (h : .endOfInput ∉ as) (bs : List Lexeme) :
      (as ++ .endOfInput :: bs).takeWhile (· ≠ .endOfInput) = as :=
    Token.takeWhile_of_ends (fun a ha => by simpa using ne_of_mem_of_not_mem ha h) (by rintro _ ⟨⟩; simp)
  cases rest with
  | nil =>
    rw [List.append_nil] at same
    exact absurd (same ▸ by simp) taken
  | cons x rest =>
    obtain rfl := ahead x rfl
    rw [← upTo taken rest, ← same, upTo before []]

/-- **A source has a tree if and only if its lexemes make up the expression of that tree.** -/
theorem Expr.parse_eq_ok_iff {source : Text} {e : Expr} : parse source = .ok e ↔
    ∃ ts xs, Token.scan source = .ok ts ∧ ts.map Token.lexeme = xs ++ [.endOfInput] ∧ Derives .conditional xs e := by
  constructor
  · intro h
    unfold parse at h
    split at h
    next => cases h
    next ts scanned =>
      obtain ⟨us, lexemes, spells⟩ := Token.spells_of_scan scanned
      unfold ofTokens at h
      split at h
      next => cases h
      next =>
        split at h
        next => cases h
        next e' rest read =>
          split at h
          next ended =>
            cases h
            obtain ⟨taken, rfl, derives⟩ := derives_of_readAt read
            obtain rfl : taken.map Token.lexeme = us := by
              rw [List.map_append] at lexemes
              refine eq_of_ended lexemes.symm spells.endOfInput_notMem derives.balanced.endOfInput_notMem ?_
              intro x hx
              cases rest with
              | nil => cases hx
              | cons t rest =>
                cases hx
                rw [Token.lexeme, show t.kind = .endOfInput from ended]
            exact ⟨_, _, scanned, lexemes, derives⟩
          next => cases h
  · rintro ⟨ts, xs, scanned, lexemes, h⟩
    exact parse_of_derives scanned lexemes h

end Stencil
