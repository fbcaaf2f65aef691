import Stencil.Proofs.Expr.Lexeme
import Stencil.Expr.Parser

/-!
# The grammar of expressions

`Derives` is the grammar: which lexemes make up an expression of a level, one rule for each form. An
expression of a tighter level is also one of a looser level. Operators of one level are left associative, as
their right operand is of the next level; the last part of a conditional is a conditional again.

The parser decides by the lexeme ahead. The lexeme that an expression starts with tells how tightly it may
bind (`Derives.starts`), and what can go on an expression is told by the level it does so at
(`Lexeme.extends?`).
-/

namespace Stencil

/-- The number of levels that are looser. -/
def Level.rank : Level → Nat
  | conditional => 0
  | disjunction => 1
  | conjunction => 2
  | negation => 3
  | comparison => 4
  | sum => 5
  | product => 6
  | sign => 7
  | access => 8
  | atom => 9

/-- Keywords and symbols are known from their kind. -/
def Lexeme.ofKind : TokenKind → Lexeme
  | .keyword k => .keyword k
  | .symbol s => .symbol s
  | _ => .endOfInput

/-- The lexemes that an operator is written with. -/
def Operator.lexemes (op : Operator) : List Lexeme := op.tokens.map Lexeme.ofKind

mutual

/-- The lexemes make up an expression of the level. -/
inductive Derives : Level → List Lexeme → Expr → Prop
  | tighter {level : Level} {xs : List Lexeme} {e : Expr} (loose : level ≠ .atom) (h : Derives level.operand xs e) :
      Derives level xs e
  | conditional {xs ys zs : List Lexeme} {value test other : Expr} (first : Derives .disjunction xs value)
      (second : Derives .disjunction ys test) (third : Derives .conditional zs other) :
      Derives .conditional (xs ++ .keyword .if :: (ys ++ .keyword .else :: zs)) (.conditional test value other)
  | not {xs : List Lexeme} {e : Expr} (h : Derives .negation xs e) :
      Derives .negation (.keyword .not :: xs) (.unary .not e)
  | negate {xs : List Lexeme} {e : Expr} (h : Derives .sign xs e) :
      Derives .sign (.symbol .minus :: xs) (.unary .negate e)
  | identity {xs : List Lexeme} {e : Expr} (h : Derives .sign xs e) :
      Derives .sign (.symbol .plus :: xs) (.unary .identity e)
  | binary {op : Operator} {xs ys : List Lexeme} {left right : Expr} (first : Derives op.level xs left)
      (second : Derives op.level.operand ys right) :
      Derives op.level (xs ++ (op.lexemes ++ ys)) (.binary op left right)
  | member {xs : List Lexeme} {object : Expr} {name : Text} (first : Derives .access xs object) :
      Derives .access (xs ++ [.symbol .dot, .word name]) (.member object name)
  | item {xs ys : List Lexeme} {object key : Expr} (first : Derives .access xs object)
      (second : Derives .conditional ys key) :
      Derives .access (xs ++ .symbol .openBracket :: (ys ++ [.symbol .closeBracket])) (.item object key)
  | call {xs ys : List Lexeme} {function : Expr} {arguments : List Expr} {keywords : List (Text × Expr)}
      (first : Derives .access xs function) (second : DerivesArguments false ys arguments keywords) :
      Derives .access (xs ++ .symbol .openParen :: ys) (.call function arguments keywords)
  | name (n : Text) : Derives .atom [.word n] (.name n)
  | none : Derives .atom [.keyword .none] (.literal .none)
  | true : Derives .atom [.keyword .true] (.literal (.bool true))
  | false : Derives .atom [.keyword .false] (.literal (.bool false))
  | text (t : Text) (ts : List Text) : Derives .atom (.string t :: ts.map .string) (.literal (.text (t ++ ts.flatten)))
  | integer {digits : Text} {n : Int64} (h : Text.toInt64? digits = some n) :
      Derives .atom [.integer digits] (.literal (.int n))
  | decimal {digits : Text} {x : Float} (h : Binary64.ofText? digits = some x) :
      Derives .atom [.decimal digits] (.literal (.float x))
  | parenthesised {xs : List Lexeme} {e : Expr} (h : Derives .conditional xs e) :
      Derives .atom (.symbol .openParen :: (xs ++ [.symbol .closeParen])) e
  | unit : Derives .atom [.symbol .openParen, .symbol .closeParen] (.list [])
  | tuple {xs ys : List Lexeme} {e : Expr} {es : List Expr} (first : Derives .conditional xs e)
      (others : DerivesElements .closeParen ys es) :
      Derives .atom (.symbol .openParen :: (xs ++ .symbol .comma :: ys)) (.list (e :: es))
  | list {xs : List Lexeme} {es : List Expr} (h : DerivesElements .closeBracket xs es) :
      Derives .atom (.symbol .openBracket :: xs) (.list es)
  | dict {xs : List Lexeme} {es : List (Expr × Expr)} (h : DerivesEntries xs es) :
      Derives .atom (.symbol .openBrace :: xs) (.dict es)

/-- The lexemes make up expressions with commas between them, and end with the closing symbol. -/
inductive DerivesElements : Symbol → List Lexeme → List Expr → Prop
  | nil (close : Symbol) : DerivesElements close [.symbol close] []
  | last {close : Symbol} {xs : List Lexeme} {e : Expr} (h : Derives .conditional xs e) :
      DerivesElements close (xs ++ [.symbol close]) [e]
  | cons {close : Symbol} {xs ys : List Lexeme} {e : Expr} {es : List Expr} (first : Derives .conditional xs e)
      (others : DerivesElements close ys es) : DerivesElements close (xs ++ .symbol .comma :: ys) (e :: es)

/-- The lexemes make up the entries of a dict display, and end with its closing brace. -/
inductive DerivesEntries : List Lexeme → List (Expr × Expr) → Prop
  | nil : DerivesEntries [.symbol .closeBrace] []
  | last {xs ys : List Lexeme} {key value : Expr} (first : Derives .conditional xs key)
      (second : Derives .conditional ys value) :
      DerivesEntries (xs ++ .symbol .colon :: (ys ++ [.symbol .closeBrace])) [(key, value)]
  | cons {xs ys zs : List Lexeme} {key value : Expr} {es : List (Expr × Expr)} (first : Derives .conditional xs key)
      (second : Derives .conditional ys value) (others : DerivesEntries zs es) :
      DerivesEntries (xs ++ .symbol .colon :: (ys ++ .symbol .comma :: zs)) ((key, value) :: es)

/-- The lexemes make up the arguments of a call, and end with its closing parenthesis; only arguments by keyword
may follow one by keyword. -/
inductive DerivesArguments : Bool → List Lexeme → List Expr → List (Text × Expr) → Prop
  | nil (keywordSeen : Bool) : DerivesArguments keywordSeen [.symbol .closeParen] [] []
  | keyword {keywordSeen : Bool} {name : Text} {xs ys : List Lexeme} {value : Expr} {arguments : List Expr}
      {keywords : List (Text × Expr)} (first : Derives .conditional xs value)
      (others : DerivesMore true ys arguments keywords) :
      DerivesArguments keywordSeen (.word name :: .symbol .assign :: (xs ++ ys)) arguments ((name, value) :: keywords)
  | positional {xs ys : List Lexeme} {value : Expr} {arguments : List Expr} {keywords : List (Text × Expr)}
      (first : Derives .conditional xs value) (others : DerivesMore false ys arguments keywords) :
      DerivesArguments false (xs ++ ys) (value :: arguments) keywords

/-- The lexemes make up what follows an argument. -/
inductive DerivesMore : Bool → List Lexeme → List Expr → List (Text × Expr) → Prop
  | close (keywordSeen : Bool) : DerivesMore keywordSeen [.symbol .closeParen] [] []
  | comma {keywordSeen : Bool} {xs : List Lexeme} {arguments : List Expr} {keywords : List (Text × Expr)}
      (h : DerivesArguments keywordSeen xs arguments keywords) :
      DerivesMore keywordSeen (.symbol .comma :: xs) arguments keywords

end

/-! ## The first lexeme -/

/-- The tightest level of the expressions that start with the lexeme. -/
def Lexeme.opens? : Lexeme → Option Level
  | word _ | integer _ | decimal _ | string _ | keyword .none | keyword .true | keyword .false => some .atom
  | symbol .openParen | symbol .openBracket | symbol .openBrace => some .atom
  | symbol .minus | symbol .plus => some .sign
  | keyword .not => some .negation
  | _ => none

/-- The lexeme may start an expression of the level. -/
def Lexeme.Opens (x : Lexeme) (level : Level) : Prop := ∃ l, x.opens? = some l ∧ level.rank ≤ l.rank

theorem Level.rank_le_operand (level : Level) : level.rank ≤ level.operand.rank := by cases level <;> decide

theorem Derives.starts {level : Level} {xs : List Lexeme} {e : Expr} : Derives level xs e → ∃ x ys, xs = x :: ys ∧ x.Opens level
  | .tighter _ h => by
    obtain ⟨x, ys, same, l, opens, le⟩ := h.starts
    exact ⟨x, ys, same, l, opens, Nat.le_trans (Level.rank_le_operand level) le⟩
  | .conditional first _ _ => by
    obtain ⟨x, ys, rfl, l, opens, -⟩ := first.starts
    exact ⟨x, _, rfl, l, opens, Nat.zero_le _⟩
  | .binary first _ | .member first | .item first _ | .call first _ => by
    obtain ⟨x, ys, rfl, opens⟩ := first.starts
    exact ⟨x, _, rfl, opens⟩
  | .not _ | .negate _ | .identity _ => ⟨_, _, rfl, _, rfl, Nat.le_refl _⟩
  | .name _ | .none | .true | .false | .text _ _ | .integer _ | .decimal _ | .parenthesised _ | .unit | .tuple _ _
  | .list _ | .dict _ => ⟨_, _, rfl, _, rfl, Nat.le_refl _⟩

/-- No expression starts with a name and an equals sign, where no equals sign follows it. -/
theorem Derives.unassigned {level : Level} {xs rest : List Lexeme} {e : Expr} {n : Text} {ys : List Lexeme} :
    Derives level xs e → rest.head? ≠ some (.symbol .assign) → xs ++ rest ≠ .word n :: .symbol .assign :: ys
  | .tighter _ h, next => h.unassigned next
  | .conditional first _ _, _ | .member first, _ | .item first _, _ | .call first _, _ => by
    rw [List.append_assoc]
    exact first.unassigned (by simp)
  | @Derives.binary op _ _ _ _ first _, _ => by
    rw [List.append_assoc]
    exact first.unassigned (by cases op <;> simp [Operator.lexemes, Operator.tokens, Lexeme.ofKind])
  | .name _, next => by
    intro same
    rw [List.singleton_append, List.cons.injEq] at same
    exact next (by rw [same.2]; rfl)
  | .not _, _ | .negate _, _ | .identity _, _ | .none, _ | .true, _ | .false, _ | .text _ _, _ | .integer _, _
  | .decimal _, _ | .parenthesised _, _ | .unit, _ | .tuple _ _, _ | .list _, _ | .dict _, _ => by simp

/-! ## The lexeme after an expression -/

/-- The level at which the lexeme goes on an expression. -/
def Lexeme.extends? : Lexeme → Option Level
  | string _ => some .atom
  | symbol .dot | symbol .openBracket | symbol .openParen => some .access
  | symbol .star | symbol .slash | symbol .percent => some .product
  | symbol .plus | symbol .minus => some .sum
  | symbol .equal | symbol .notEqual | symbol .less | symbol .lessEqual | symbol .greater | symbol .greaterEqual
  | keyword .in | keyword .is | keyword .not => some .comparison
  | keyword .and => some .conjunction
  | keyword .or => some .disjunction
  | keyword .if => some .conditional
  | _ => none

/-- What follows goes on an expression at looser levels only. -/
def Stops (level : Level) (rest : List Lexeme) : Prop := ∀ x ∈ rest.head?, ∀ l ∈ x.extends?, l.rank < level.rank

theorem Stops.mono {level level' : Level} {rest : List Lexeme} (h : Stops level rest) (le : level.rank ≤ level'.rank) :
    Stops level' rest := fun x hx l hl => Nat.lt_of_lt_of_le (h x hx l hl) le

theorem stops_of_none {level : Level} {x : Lexeme} (h : x.extends? = none) (rest : List Lexeme) :
    Stops level (x :: rest) := by
  rintro _ ⟨⟩ l hl
  rw [h] at hl
  cases hl

/-- An operator goes on expressions of its own level and of looser ones. -/
theorem stops_operator (op : Operator) (rest : List Lexeme) : Stops op.level.operand (op.lexemes ++ rest) := by
  cases op <;> (rintro _ ⟨⟩ _ ⟨⟩; decide)

/-! ## Braces -/

/-- How deep in braces a lexeme leaves what follows it. There is none where it closes the outermost one, or is the
end of the input. -/
def Lexeme.nest (depth : Nat) : Lexeme → Option Nat
  | symbol .openBrace => some (depth + 1)
  | symbol .closeBrace => if depth ≤ 1 then none else some (depth - 1)
  | endOfInput => none
  | _ => some depth

/-- The lexemes close the braces that they open, and no others. -/
def Balanced (xs : List Lexeme) : Prop := ∀ depth, 0 < depth → xs.foldlM Lexeme.nest depth = some depth

theorem balanced_nil : Balanced [] := fun _ _ => rfl

theorem Balanced.append {xs ys : List Lexeme} (h : Balanced xs) (h' : Balanced ys) : Balanced (xs ++ ys) := by
  intro depth pos
  rw [List.foldlM_append, h depth pos]
  exact h' depth pos

theorem Balanced.cons {x : Lexeme} {xs : List Lexeme} (h : Balanced xs) (flat : ∀ depth, x.nest depth = some depth) :
    Balanced (x :: xs) := by
  intro depth pos
  rw [List.foldlM_cons, flat depth]
  exact h depth pos

/-- After an opening brace, what closes it. -/
theorem balanced_braces {xs : List Lexeme} (h : ∀ depth, 0 < depth → xs.foldlM Lexeme.nest (depth + 1) = some depth) :
    Balanced (.symbol .openBrace :: xs) := h

theorem balanced_strings (ts : List Text) : Balanced (ts.map .string) := by
  induction ts with
  | nil => exact balanced_nil
  | cons t ts ih => exact ih.cons fun _ => rfl

theorem balanced_operator (op : Operator) : Balanced op.lexemes := by
  intro depth _
  cases op <;> rfl

mutual

/-- **The braces of an expression are balanced.** -/
theorem Derives.balanced {level : Level} {xs : List Lexeme} {e : Expr} : Derives level xs e → Balanced xs
  | .tighter _ h => h.balanced
  | .conditional first second third =>
    first.balanced.append (.cons (second.balanced.append (.cons third.balanced fun _ => rfl)) fun _ => rfl)
  | .not h | .negate h | .identity h => h.balanced.cons fun _ => rfl
  | .binary first second => first.balanced.append ((balanced_operator _).append second.balanced)
  | .member first => first.balanced.append fun _ _ => rfl
  | .item first second => first.balanced.append (.cons (second.balanced.append fun _ _ => rfl) fun _ => rfl)
  | .call first second => first.balanced.append (second.balanced.cons fun _ => rfl)
  | .name _ | .none | .true | .false | .integer _ | .decimal _ | .unit => fun _ _ => rfl
  | .text _ ts => (balanced_strings ts).cons fun _ => rfl
  | .parenthesised h => .cons (h.balanced.append fun _ _ => rfl) fun _ => rfl
  | .tuple first others =>
    .cons (first.balanced.append (.cons (others.balanced fun _ => rfl) fun _ => rfl)) fun _ => rfl
  | .list h => .cons (h.balanced fun _ => rfl) fun _ => rfl
  | .dict h => balanced_braces h.closes

theorem DerivesElements.balanced {close : Symbol} {xs : List Lexeme} {es : List Expr} :
    DerivesElements close xs es → (∀ depth, (Lexeme.symbol close).nest depth = some depth) → Balanced xs
  | .nil _, flat => balanced_nil.cons flat
  | .last h, flat => h.balanced.append (balanced_nil.cons flat)
  | .cons first others, flat => first.balanced.append ((others.balanced flat).cons fun _ => rfl)

theorem DerivesEntries.closes {xs : List Lexeme} {es : List (Expr × Expr)} :
    DerivesEntries xs es → ∀ depth, 0 < depth → xs.foldlM Lexeme.nest (depth + 1) = some depth
  | .nil, depth, pos => by simp [Lexeme.nest, Nat.pos_iff_ne_zero.1 pos]
  | .last first second, depth, pos => by
    simp [Lexeme.nest, first.balanced (depth + 1), second.balanced (depth + 1), Nat.pos_iff_ne_zero.1 pos]
  | .cons first second others, depth, pos => by
    simp [Lexeme.nest, first.balanced (depth + 1), second.balanced (depth + 1), others.closes depth pos]

theorem DerivesArguments.balanced {keywordSeen : Bool} {xs : List Lexeme} {arguments : List Expr}
    {keywords : List (Text × Expr)} : DerivesArguments keywordSeen xs arguments keywords → Balanced xs
  | .nil _ => fun _ _ => rfl
  | .keyword first others => .cons (.cons (first.balanced.append others.balanced) fun _ => rfl) fun _ => rfl
  | .positional first others => first.balanced.append others.balanced

theorem DerivesMore.balanced {keywordSeen : Bool} {xs : List Lexeme} {arguments : List Expr}
    {keywords : List (Text × Expr)} : DerivesMore keywordSeen xs arguments keywords → Balanced xs
  | .close _ => fun _ _ => rfl
  | .comma h => h.balanced.cons fun _ => rfl

end

/-- The end of the input is no part of anything balanced. -/
theorem Balanced.endOfInput_notMem {xs : List Lexeme} (h : Balanced xs) : .endOfInput ∉ xs := by
  intro mem
  obtain ⟨as, bs, rfl⟩ := List.append_of_mem mem
  have closed := h 1 Nat.one_pos
  rw [List.foldlM_append] at closed
  obtain ⟨depth, -, rest⟩ := Option.bind_eq_some_iff.1 closed
  cases rest

end Stencil
