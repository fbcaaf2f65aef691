import Stencil.Proofs.Expr.Written

/-!
# Printing expressions

`Expr.print` writes a tree with as few parentheses as the levels of precedence allow: an operand is put in
parentheses only where its own form is looser than what is wanted in its place. Parsing the text of a tree that the
parser has made gives the tree back (`Expr.parse_print`). Floating-point constants are left out, as their text need not be the
shortest that is read as them.
-/

namespace Stencil

namespace Expr

/-- The level at which the form of an expression is read. -/
def level : Expr → Level
  | conditional .. => .conditional
  | binary op .. => op.level
  | unary .not _ => .negation
  | unary _ _ => .sign
  | member .. | item .. | call .. => .access
  | _ => .atom

/-- Puts parentheses around the text of an expression that is looser than the level wanted. -/
def enclose (wanted own : Level) (t : Text) : Text := if own.rank < wanted.rank then "(" ++ t ++ ")" else t

end Expr

def Literal.print : Literal → Text
  | none => "None"
  | bool b => if b then "True" else "False"
  | int n => Text.ofInt n.toInt
  | float x => Binary64.toText x
  | text t => Value.quoted t

namespace Expr

mutual

/-- The text of an expression. -/
def print : Expr → Text
  | literal l => l.print
  | name n => n
  | member object n => enclose .access object.level object.print ++ "." ++ n
  | item object key => enclose .access object.level object.print ++ "[" ++ key.print ++ "]"
  | call function arguments keywords =>
    enclose .access function.level function.print ++ "(" ++
      Text.join ", " (printEach arguments ++ printKeywords keywords) ++ ")"
  | list elements => "[" ++ Text.join ", " (printEach elements) ++ "]"
  | dict entries => "\x7b" ++ Text.join ", " (printEntries entries) ++ "\x7d"
  | unary .not e => "not " ++ enclose .negation e.level e.print
  | unary .negate e => "-" ++ enclose .sign e.level e.print
  | unary .identity e => "+" ++ enclose .sign e.level e.print
  | binary op left right =>
    enclose op.level left.level left.print ++ " " ++ op.text ++ " " ++ enclose op.level.operand right.level right.print
  | conditional test value other =>
    enclose .disjunction value.level value.print ++ " if " ++ enclose .disjunction test.level test.print ++ " else "
      ++ other.print

def printEach : List Expr → List Text
  | [] => []
  | e :: es => e.print :: printEach es

def printKeywords : List (Text × Expr) → List Text
  | [] => []
  | (n, e) :: es => (n ++ " = " ++ e.print) :: printKeywords es

def printEntries : List (Expr × Expr) → List Text
  | [] => []
  | (k, e) :: es => (k.print ++ ": " ++ e.print) :: printEntries es

end

mutual

/-- There are no floating-point constants in the expression. -/
def isExact : Expr → Bool
  | literal (.float _) => false
  | literal _ | name _ => true
  | member object _ => object.isExact
  | item object key => object.isExact && key.isExact
  | call function arguments keywords => function.isExact && areExact arguments && areExactKeywords keywords
  | list elements => areExact elements
  | dict entries => areExactEntries entries
  | unary _ e => e.isExact
  | binary _ left right => left.isExact && right.isExact
  | conditional test value other => test.isExact && value.isExact && other.isExact

def areExact : List Expr → Bool
  | [] => true
  | e :: es => e.isExact && areExact es

def areExactKeywords : List (Text × Expr) → Bool
  | [] => true
  | (_, e) :: es => e.isExact && areExactKeywords es

def areExactEntries : List (Expr × Expr) → Bool
  | [] => true
  | (k, e) :: es => k.isExact && e.isExact && areExactEntries es

end

/-! ## What is printed -/

/-- The text that is printed is a way to write the expression. -/
def Printable (e : Expr) : Prop := e.isExact = true → Writes e.level e.print e

theorem Printable.enclosed {e : Expr} (h : Printable e) (exact : e.isExact = true) (wanted : Level) :
    Writes wanted (enclose wanted e.level e.print) e := by
  unfold enclose
  split
  next => exact (writes_parenthesised ((h exact).loosen (Nat.zero_le _))).loosen (Nat.le_of_lt_succ (Level.inner_le wanted).2)
  next tight => exact (h exact).loosen (Nat.le_of_not_lt tight)

/-- Where any expression may stand no parentheses are needed. -/
theorem Printable.bare {e : Expr} (h : Printable e) (exact : e.isExact = true) : Writes .conditional e.print e :=
  (h exact).loosen (Nat.zero_le _)

theorem writesElements_print {es : List Expr} (h : ∀ e ∈ es, Printable e) (exact : areExact es = true) :
    WritesElements (Text.join ", " (printEach es)) es := by
  induction es with
  | nil => exact writesElements_nil
  | cons e es ih =>
    obtain ⟨first, others⟩ := List.forall_mem_cons.1 h
    rw [areExact, Bool.and_eq_true] at exact
    cases es with
    | nil => simpa [printEach, Text.join] using writesElements_last (first.bare exact.1)
    | cons e' es =>
      rw [printEach, printEach, join_cons]
      exact writesElements_cons (first.bare exact.1) (ih others exact.2)

theorem writesEntries_print {es : List (Expr × Expr)} (h : ∀ p ∈ es, Printable p.1 ∧ Printable p.2)
    (exact : areExactEntries es = true) : WritesEntries (Text.join ", " (printEntries es)) es := by
  induction es with
  | nil => exact writesEntries_nil
  | cons p es ih =>
    obtain ⟨⟨key, value⟩, others⟩ := List.forall_mem_cons.1 h
    rw [areExactEntries, Bool.and_eq_true, Bool.and_eq_true] at exact
    cases es with
    | nil => simpa [printEntries, Text.join] using writesEntries_last (key.bare exact.1.1) (value.bare exact.1.2)
    | cons p' es =>
      rw [printEntries, printEntries, join_cons]
      exact writesEntries_cons (key.bare exact.1.1) (value.bare exact.1.2) (ih others exact.2)

/-- A name that the scanner may find. -/
def ProperName (n : Text) : Prop := (Lexeme.word n).IsWritten n

theorem writesArguments_print_keywords {es : List (Text × Expr)} (h : ∀ p ∈ es, ProperName p.1 ∧ Printable p.2)
    (exact : areExactKeywords es = true) (keywordSeen : Bool) :
    WritesArguments keywordSeen (Text.join ", " (printKeywords es)) [] es := by
  induction es generalizing keywordSeen with
  | nil => exact writesArguments_nil keywordSeen
  | cons p es ih =>
    obtain ⟨⟨name, value⟩, others⟩ := List.forall_mem_cons.1 h
    rw [areExactKeywords, Bool.and_eq_true] at exact
    cases es with
    | nil => simpa [printKeywords, Text.join] using writesArguments_keyword_last name (value.bare exact.1)
    | cons p' es =>
      rw [printKeywords, printKeywords, join_cons]
      exact writesArguments_keyword_cons name (value.bare exact.1) (ih others exact.2 true)

theorem writesArguments_print {arguments : List Expr} {keywords : List (Text × Expr)}
    (h : ∀ e ∈ arguments, Printable e) (h' : ∀ p ∈ keywords, ProperName p.1 ∧ Printable p.2)
    (exact : areExact arguments = true) (exact' : areExactKeywords keywords = true) :
    WritesArguments false (Text.join ", " (printEach arguments ++ printKeywords keywords)) arguments keywords := by
  induction arguments with
  | nil => exact writesArguments_print_keywords h' exact' false
  | cons e es ih =>
    obtain ⟨first, others⟩ := List.forall_mem_cons.1 h
    rw [areExact, Bool.and_eq_true] at exact
    have more := ih others exact.2
    cases rest : printEach es ++ printKeywords keywords with
    | nil =>
      obtain ⟨rfl, rfl⟩ : es = [] ∧ keywords = [] := by
        cases es <;> cases keywords <;> first | exact ⟨rfl, rfl⟩ | cases rest
      simpa [printEach, printKeywords, Text.join] using writesArguments_last (first.bare exact.1)
    | cons t ts =>
      rw [rest] at more
      rw [printEach, List.cons_append, rest, join_cons]
      exact writesArguments_cons (first.bare exact.1) more

theorem printable_conditional {test value other : Expr} (first : Printable value) (second : Printable test)
    (third : Printable other) : Printable (.conditional test value other) := by
  intro exact
  rw [isExact, Bool.and_eq_true, Bool.and_eq_true] at exact
  exact writes_conditional (first.enclosed exact.1.2 _) (second.enclosed exact.1.1 _) (third.bare exact.2)

theorem printable_binary {op : Operator} {left right : Expr} (first : Printable left) (second : Printable right) :
    Printable (.binary op left right) := by
  intro exact
  rw [isExact, Bool.and_eq_true] at exact
  exact writes_binary (first.enclosed exact.1 _) (second.enclosed exact.2 _)

theorem printable_unary {e : Expr} (h : Printable e) (op : UnaryOperator) : Printable (.unary op e) := by
  intro exact
  rw [isExact] at exact
  cases op with
  | not => exact writes_not (h.enclosed exact _)
  | negate => exact writes_negate (h.enclosed exact _)
  | identity => exact writes_identity (h.enclosed exact _)

theorem printable_member {object : Expr} {name : Text} (h : Printable object) (proper : ProperName name) :
    Printable (.member object name) := fun exact => writes_member (h.enclosed exact _) proper

theorem printable_item {object key : Expr} (first : Printable object) (second : Printable key) :
    Printable (.item object key) := by
  intro exact
  rw [isExact, Bool.and_eq_true] at exact
  exact writes_item (first.enclosed exact.1 _) (second.bare exact.2)

theorem printable_call {function : Expr} {arguments : List Expr} {keywords : List (Text × Expr)}
    (first : Printable function) (second : (∀ e ∈ arguments, Printable e) ∧ ∀ p ∈ keywords, ProperName p.1 ∧ Printable p.2) :
    Printable (.call function arguments keywords) := by
  intro exact
  rw [isExact, Bool.and_eq_true, Bool.and_eq_true] at exact
  exact writes_call (first.enclosed exact.1.1 _) (writesArguments_print second.1 second.2 exact.1.2 exact.2)

theorem printable_list {es : List Expr} (h : ∀ e ∈ es, Printable e) : Printable (.list es) :=
  fun exact => writes_list (writesElements_print h exact)

theorem printable_dict {es : List (Expr × Expr)} (h : ∀ p ∈ es, Printable p.1 ∧ Printable p.2) : Printable (.dict es) :=
  fun exact => writes_dict (writesEntries_print h exact)

/-- The digits of an integer constant stand for a number that is not negative. -/
theorem printable_integer {digits raw : Text} {n : Int64} (spelled : (Lexeme.integer digits).IsSpelled raw)
    (h : Text.toInt64? digits = some n) : Printable (.literal (.int n)) := by
  intro _
  have fits : n.toInt = (Text.digitsValue digits : Int) := by
    cases spelled with
    | written written =>
      cases written with
      | integer all =>
        rw [Text.toInt64_digits (List.cons_ne_nil _ _) all] at h
        exact Text.toInt_fitInt64 h
  have text : Text.ofInt n.toInt = Text.ofNat (Text.digitsValue digits) := by rw [fits]; rfl
  change Writes .atom (Text.ofInt n.toInt) _
  rw [text]
  exact writes_int fits

theorem properName_of_spelled {n raw : Text} (h : (Lexeme.word n).IsSpelled raw) : ProperName n := by
  cases h with
  | written h =>
    cases h with
    | word start parts free => exact .word start parts free

end Expr

/-! ## Parsed expressions -/

/-- The scanner may find each of the lexemes. -/
def Spellable (xs : List Lexeme) : Prop := ∀ x ∈ xs, ∃ raw, x.IsSpelled raw

theorem Spellable.append {xs ys : List Lexeme} (h : Spellable (xs ++ ys)) : Spellable xs ∧ Spellable ys :=
  List.forall_mem_append.1 h

theorem Spellable.tail {x : Lexeme} {xs : List Lexeme} (h : Spellable (x :: xs)) : Spellable xs :=
  (List.forall_mem_cons.1 h).2

theorem Spellable.properName {n : Text} {xs : List Lexeme} (h : Spellable (.word n :: xs)) : Expr.ProperName n := by
  obtain ⟨raw, spelled⟩ := h _ List.mem_cons_self
  exact Expr.properName_of_spelled spelled

open Stencil.Expr

mutual

theorem Derives.printable {level : Level} {xs : List Lexeme} {e : Expr} : Derives level xs e → Spellable xs → Printable e
  | .tighter _ h, spelled => h.printable spelled
  | .conditional first second third, spelled =>
    have tail := spelled.append.2.tail.append
    printable_conditional (first.printable spelled.append.1) (second.printable tail.1) (third.printable tail.2.tail)
  | .not h, spelled => printable_unary (h.printable spelled.tail) .not
  | .negate h, spelled => printable_unary (h.printable spelled.tail) .negate
  | .identity h, spelled => printable_unary (h.printable spelled.tail) .identity
  | .binary first second, spelled =>
    printable_binary (first.printable spelled.append.1) (second.printable spelled.append.2.append.2)
  | .member first, spelled => printable_member (first.printable spelled.append.1) spelled.append.2.tail.properName
  | .item first second, spelled =>
    printable_item (first.printable spelled.append.1) (second.printable spelled.append.2.tail.append.1)
  | .call first second, spelled => printable_call (first.printable spelled.append.1) (second.printable spelled.append.2.tail)
  | .name _, spelled => fun _ => writes_name spelled.properName
  | .none, _ => fun _ => writes_none
  | .true, _ => fun _ => writes_bool true
  | .false, _ => fun _ => writes_bool false
  | .text _ _, _ => fun _ => writes_text _
  | .integer h, spelled =>
    have ⟨_, written⟩ := spelled _ List.mem_cons_self
    printable_integer written h
  | .decimal _, _ => fun exact => nomatch exact
  | .parenthesised h, spelled => h.printable spelled.tail.append.1
  | .unit, _ => printable_list (by simp)
  | .tuple first others, spelled =>
    printable_list (List.forall_mem_cons.2 ⟨first.printable spelled.tail.append.1, others.printable spelled.tail.append.2.tail⟩)
  | .list h, spelled => printable_list (h.printable spelled.tail)
  | .dict h, spelled => printable_dict (h.printable spelled.tail)

theorem DerivesElements.printable {close : Symbol} {xs : List Lexeme} {es : List Expr} :
    DerivesElements close xs es → Spellable xs → ∀ e ∈ es, Printable e
  | .nil _, _ => by simp
  | .last h, spelled => List.forall_mem_singleton.2 (h.printable spelled.append.1)
  | .cons first others, spelled =>
    List.forall_mem_cons.2 ⟨first.printable spelled.append.1, others.printable spelled.append.2.tail⟩

theorem DerivesEntries.printable {xs : List Lexeme} {es : List (Expr × Expr)} :
    DerivesEntries xs es → Spellable xs → ∀ p ∈ es, Printable p.1 ∧ Printable p.2
  | .nil, _ => by simp
  | .last first second, spelled =>
    List.forall_mem_singleton.2 ⟨first.printable spelled.append.1, second.printable spelled.append.2.tail.append.1⟩
  | .cons first second others, spelled =>
    have tail := spelled.append.2.tail.append
    List.forall_mem_cons.2 ⟨⟨first.printable spelled.append.1, second.printable tail.1⟩, others.printable tail.2.tail⟩

theorem DerivesArguments.printable {keywordSeen : Bool} {xs : List Lexeme} {arguments : List Expr}
    {keywords : List (Text × Expr)} : DerivesArguments keywordSeen xs arguments keywords → Spellable xs →
      (∀ e ∈ arguments, Printable e) ∧ ∀ p ∈ keywords, ProperName p.1 ∧ Printable p.2
  | .nil _, _ => by simp
  | .keyword first others, spelled =>
    have tail := spelled.tail.tail.append
    have ⟨positional, named⟩ := others.printable tail.2
    ⟨positional, List.forall_mem_cons.2 ⟨⟨spelled.properName, first.printable tail.1⟩, named⟩⟩
  | .positional first others, spelled =>
    have ⟨positional, named⟩ := others.printable spelled.append.2
    ⟨List.forall_mem_cons.2 ⟨first.printable spelled.append.1, positional⟩, named⟩

theorem DerivesMore.printable {keywordSeen : Bool} {xs : List Lexeme} {arguments : List Expr}
    {keywords : List (Text × Expr)} : DerivesMore keywordSeen xs arguments keywords → Spellable xs →
      (∀ e ∈ arguments, Printable e) ∧ ∀ p ∈ keywords, ProperName p.1 ∧ Printable p.2
  | .close _, _ => by simp
  | .comma h, spelled => h.printable spelled.tail

end

theorem Spells.spellable {s : Text} {xs : List Lexeme} (h : Spells s xs) : Spellable xs := by
  induction h with
  | nil => exact fun x hx => absurd hx List.not_mem_nil
  | cons white spelled more ih => exact List.forall_mem_cons.2 ⟨⟨_, spelled⟩, ih⟩

/-- **Parsing inverts printing**: the tree of any source, without floating-point constants, is read back from its
text. -/
theorem Expr.parse_print {source : Text} {e : Expr} (read : parse source = .ok e) (exact : e.isExact = true) :
    parse e.print = .ok e := by
  obtain ⟨ts, xs, scanned, lexemes, derives⟩ := parse_eq_ok_iff.1 read
  obtain ⟨ys, same, spells⟩ := Token.spells_of_scan scanned
  obtain rfl : xs = ys := List.append_cancel_right (lexemes.symm.trans same)
  exact ((derives.printable spells.spellable).bare exact).parse

/-- Parentheses that the levels do not ask for are gone from the text, and it is read as the same tree. -/
theorem Expr.parse_print_regrouped :
    let e : Expr := .binary .subtract (.binary .subtract (.name "a") (.name "b")) (.binary .subtract (.name "c") (.name "d"))
    parse "((a) - b) - (c - d)" = .ok e ∧ e.isExact = true ∧ e.print = ("a - b - (c - d)" : Text) ∧
      parse e.print = .ok e := by
  intro e
  have name (c : Byte) (start : Token.isNameStart c = true) (free : Keyword.ofSpelling? [c] = none) (level : Level) :
      Writes level [c] (.name [c]) :=
    (writes_name (.word start (by simp) free)).loosen (Nat.le_of_lt_succ (Level.inner_le level).2)
  have subtract {t u : Text} {left right : Expr} (first : Writes .sum t left) (second : Writes .product u right) :=
    @writes_binary t u .subtract left right first second
  have a : Writes .atom "(a)" _ := writes_parenthesised (name 'a' (by decide) (by decide) _)
  have left : Writes .atom "((a) - b)" _ := writes_parenthesised
    ((subtract (a.loosen (by decide)) (name 'b' (by decide) (by decide) _)).loosen (by decide))
  have right : Writes .atom "(c - d)" _ := writes_parenthesised
    ((subtract (name 'c' (by decide) (by decide) _) (name 'd' (by decide) (by decide) _)).loosen (by decide))
  have read : parse "((a) - b) - (c - d)" = .ok e :=
    ((subtract (left.loosen (by decide)) (right.loosen (by decide))).loosen (by decide)).parse
  exact ⟨read, rfl, by decide, parse_print read rfl⟩

end Stencil
