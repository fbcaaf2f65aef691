import Stencil.Proofs.Expr.Default

/-!
# Where syntax errors are

The spans of the tokens of a source lie in it one behind the other, and what they leave out is white space
(`Token.covers_of_tiles`). A source that can't be scanned has an error at one of its bytes (`Token.in_of_scan`).

An error of the parser is at a token of the source or at its start. What a function of the parser has to say for that is
that it takes tokens off those that stand in the source, and that the steps it is given suffice for them
(`Expr.Parse.Progresses`): a call that takes no token goes on to a tighter level, so sixteen steps for each token are
enough (`Expr.Sufficient`).
-/

namespace Stencil

/-- The error is at an offset of the source, its end included, and not one that lacks steps. -/
structure SyntaxError.In (source : Text) (e : SyntaxError) : Prop where
  offset_le : e.offset ≤ source.length
  origin : e.source = source
  proper : e.cause ≠ .outOfSteps

/-! ## Tokens -/

namespace Token

/-- The spans of the tokens lie in the source one behind the other, and all that they leave out is white space. The last
token is the end of the input, the only one that has no bytes. -/
structure Covers (source : Text) (ts : List Token) : Prop where
  inside : ∀ t ∈ ts, t.stop ≤ source.length
  ordered : ts.Pairwise fun t u => t.stop ≤ u.offset
  white : ∀ i c, source[i]? = some c → (∀ t ∈ ts, i < t.offset ∨ t.stop ≤ i) → c.isWhite = true
  ended : ∃ us, ts = us ++ [⟨.endOfInput, [], source.length, 0⟩] ∧ ∀ t ∈ us, t.kind ≠ .endOfInput ∧ t.offset < t.stop

variable {source : Text} {offset : Nat} {ts us taken : List Token} {t : Token}

theorem Tiles.offset_le (h : Tiles source offset ts) : ∀ t ∈ ts, offset ≤ t.offset ∧ t.stop ≤ source.length := by
  induction h with
  | ended within white => exact List.forall_mem_singleton.2 ⟨within, Nat.le_refl _⟩
  | token after white black read proper more ih =>
    obtain ⟨pos, inside⟩ := stop_le_of_first read proper
    refine List.forall_mem_cons.2 ⟨⟨after, inside⟩, fun u hu => ⟨?_, (ih u hu).2⟩⟩
    exact Nat.le_trans after (Nat.le_trans (Nat.le_of_lt pos) (ih u hu).1)

/-- A byte between two offsets is one of what is cut out there. -/
theorem mem_cut {start stop i : Nat} {c : Byte} (found : source[i]? = some c) (lower : start ≤ i) (upper : i < stop) :
    c ∈ cut source start stop := by
  refine List.mem_of_getElem? (i := i - start) ?_
  rw [cut, List.getElem?_take, if_pos (by omega), List.getElem?_drop, Nat.add_sub_cancel' lower]
  exact found

/-- What no token covers from an offset on is white space. -/
theorem Tiles.white (h : Tiles source offset ts) {i : Nat} {c : Byte} (found : source[i]? = some c) (behind : offset ≤ i)
    (uncovered : ∀ t ∈ ts, i < t.offset ∨ t.stop ≤ i) : c.isWhite = true := by
  induction h with
  | @ended offset within white =>
    refine white c (List.mem_of_getElem? (i := i - offset) ?_)
    rw [List.getElem?_drop, Nat.add_sub_cancel' behind]
    exact found
  | @token offset t ts after white black read proper more ih =>
    obtain ⟨first, others⟩ := List.forall_mem_cons.1 uncovered
    obtain before | past := first
    · exact white c (mem_cut found behind before)
    · exact ih past others

theorem Tiles.ordered (h : Tiles source offset ts) : ts.Pairwise fun t u => t.stop ≤ u.offset := by
  induction h with
  | ended => exact List.pairwise_singleton _ _
  | token after white black read proper more ih => exact List.pairwise_cons.2 ⟨fun u hu => (more.offset_le u hu).1, ih⟩

theorem Tiles.eq_concat (h : Tiles source offset ts) : ∃ us, ts = us ++ [⟨.endOfInput, [], source.length, 0⟩] ∧
    ∀ t ∈ us, t.kind ≠ .endOfInput ∧ t.offset < t.stop := by
  induction h with
  | ended => exact ⟨[], rfl, by simp⟩
  | @token _ t _ after white black read proper more ih =>
    obtain ⟨us, rfl, all⟩ := ih
    exact ⟨t :: us, rfl, List.forall_mem_cons.2 ⟨⟨proper, (stop_le_of_first read proper).1⟩, all⟩⟩

theorem covers_of_tiles (h : Tiles source 0 ts) : Covers source ts where
  inside t ht := (h.offset_le t ht).2
  ordered := h.ordered
  white _ _ found uncovered := h.white found (Nat.zero_le _) uncovered
  ended := h.eq_concat

/-! ## Errors of the scanner -/

theorem error_of_first {s : Text} {e : SyntaxError} (h : first source offset s = .error e) :
    s ≠ [] ∧ e.offset = offset ∧ e.source = source ∧ e.cause ≠ .outOfSteps := by
  cases s with
  | nil => cases h
  | cons c r =>
    refine ⟨List.cons_ne_nil c r, ?_⟩
    unfold first at h
    dsimp only at h
    repeat' split at h
    all_goals first | cases h; done | cases h; exact ⟨rfl, rfl, by simp⟩

theorem in_of_scanFrom {steps : Nat} {e : SyntaxError} (within : offset ≤ source.length)
    (enough : source.length - offset < steps) (h : scanFrom source steps offset (source.drop offset) = .error e) :
    e.In source ∧ e.offset < source.length := by
  induction steps generalizing offset with
  | zero => exact absurd enough (Nat.not_lt_zero _)
  | succ steps ih =>
    obtain ⟨stop, skipped, le, inside, -, -⟩ := blank_at within
    unfold scanFrom at h
    dsimp only at h
    rw [List.drop_drop, skipped] at h
    split at h
    next e' failed =>
      cases h
      obtain ⟨some, place, origin, proper⟩ := error_of_first failed
      have pos := List.length_pos_iff.2 some
      rw [List.length_drop] at pos
      have before : e.offset < source.length := by omega
      exact ⟨⟨Nat.le_of_lt before, origin, proper⟩, before⟩
    next t read =>
      split at h
      next => cases h
      next proper =>
        obtain rfl : t.offset = stop := offset_of_first read
        obtain ⟨pos, further⟩ := stop_le_of_first read proper
        rw [List.drop_drop] at h
        split at h
        next e' failed =>
          cases h
          exact ih further (by omega) failed
        next => cases h

/-- A source that can't be scanned has an error at one of its bytes. -/
theorem in_of_scan {e : SyntaxError} (h : scan source = .error e) : e.In source ∧ e.offset < source.length :=
  in_of_scanFrom (Nat.zero_le _) (Nat.lt_succ_self _) h

end Token

/-! ## The parser -/

namespace Expr.Parse

open Token

/-- The tokens stand in the source, up to its end. -/
def Stands (source : Text) (ts : List Token) : Prop := ∃ offset, Tiles source offset ts

variable {α β : Type} {source : Text} {count least : Nat} {p q : Parse α} {f : α → Parse β} {ts us taken : List Token}

theorem Stands.ne_nil (h : Stands source ts) : ts ≠ [] := by
  obtain ⟨_, tiles⟩ := h
  cases tiles <;> simp

theorem Stands.ahead_le (h : Stands source ts) : (ahead ts).offset ≤ source.length := by
  obtain ⟨_, tiles⟩ := h
  cases tiles with
  | ended => exact Nat.le_refl _
  | token after white black read proper more =>
    have := stop_le_of_first read proper
    exact Nat.le_trans (Nat.le_of_lt this.1) this.2

/-- Tokens stand in the source when others before them are taken, as the end of the input is none of these. -/
theorem Stands.behind (h : Stands source (taken ++ us)) (goesOn : .endOfInput ∉ taken.map lexeme) : Stands source us := by
  obtain ⟨_, tiles⟩ := h
  have some : us ≠ [] := by
    rintro rfl
    rw [List.append_nil] at tiles
    exact goesOn tiles.endOfInput_mem
  exact ⟨_, (tiles.behind some).1⟩

/-- From tokens that stand in the source, at most `count` of them, reading takes at least `least` tokens or fails with
an error in the source. -/
def Progresses (source : Text) (count least : Nat) (p : Parse α) : Prop :=
  ∀ ts, Stands source ts → ts.length ≤ count → (∀ e, p ts = .error e → e.In source) ∧
    ∀ a us, p ts = .ok (a, us) → Stands source us ∧ us.length + least ≤ ts.length

theorem progresses_pure (a : α) : Progresses source count 0 (pure a) := by
  intro ts stands _
  refine ⟨by rintro _ ⟨⟩, ?_⟩
  rintro _ _ ⟨⟩
  exact ⟨stands, Nat.le_refl _⟩

theorem progresses_fail {cause : SyntaxCause} {offset : Nat} (le : offset ≤ source.length) (proper : cause ≠ .outOfSteps) :
    Progresses source count least (fail source cause offset : Parse α) := by
  intro ts stands _
  refine ⟨?_, by rintro _ _ ⟨⟩⟩
  rintro _ ⟨⟩
  exact ⟨le, rfl, proper⟩

theorem Progresses.mono {more : Nat} (h : Progresses source count more p) (le : least ≤ more) :
    Progresses source count least p := by
  intro ts stands few
  obtain ⟨fails, reads⟩ := h ts stands few
  refine ⟨fails, fun a us read => ?_⟩
  obtain ⟨stands, taken⟩ := reads a us read
  exact ⟨stands, by omega⟩

/-- What is read first leaves fewer tokens for what is read then. -/
theorem Progresses.bind {first : Nat} (h : Progresses source count first p)
    (next : ∀ a, Progresses source (count - first) (least - first) (f a)) : Progresses source count least (p >>= f) := by
  intro ts stands few
  obtain ⟨fails, reads⟩ := h ts stands few
  have whole : (p >>= f) ts = (p ts).bind fun r => f r.1 r.2 := rfl
  cases read : p ts with
  | error e =>
    rw [whole, read]
    refine ⟨?_, by rintro _ _ ⟨⟩⟩
    rintro _ ⟨⟩
    exact fails e read
  | ok r =>
    obtain ⟨stands, taken⟩ := reads r.1 r.2 read
    obtain ⟨fails, reads⟩ := next r.1 r.2 stands (by omega)
    rw [whole, read]
    refine ⟨fails, fun b vs read => ?_⟩
    obtain ⟨stands, rest⟩ := reads b vs read
    exact ⟨stands, by omega⟩

/-- The token ahead is taken, unless it is the end of the input. -/
theorem Stands.tail (h : Stands source ts) (goesOn : (ahead ts).kind ≠ .endOfInput) :
    Stands source ts.tail ∧ ts.tail.length + 1 = ts.length := by
  cases ts with
  | nil => exact absurd rfl h.ne_nil
  | cons t ts =>
    refine ⟨Stands.behind (show Stands source ([t] ++ ts) from h) ?_, rfl⟩
    simp only [List.map_cons, List.map_nil, List.mem_singleton]
    intro ended
    exact goesOn (show t.kind = _ by rw [← kind_lexeme, ← ended]; rfl)

/-- What is read after a token that is taken. -/
theorem Progresses.after (h : Progresses source (count - 1) (least - 1) p) (stands : Stands source ts)
    (few : ts.length ≤ count) (goesOn : (ahead ts).kind ≠ .endOfInput) : (∀ e, p ts.tail = .error e → e.In source) ∧
      ∀ a us, p ts.tail = .ok (a, us) → Stands source us ∧ us.length + least ≤ ts.length := by
  obtain ⟨rest, length⟩ := stands.tail goesOn
  obtain ⟨fails, reads⟩ := h ts.tail rest (by omega)
  refine ⟨fails, fun a us read => ?_⟩
  obtain ⟨stands, taken⟩ := reads a us read
  exact ⟨stands, by omega⟩

/-- A token of a kind is taken where it is ahead, and the one or the other is read then. -/
theorem Progresses.accepts {k : TokenKind} (some : k ≠ .endOfInput) (hit : Progresses source (count - 1) (least - 1) p)
    (miss : Progresses source count least q) :
    Progresses source count least (accept k >>= fun found => if found = true then p else q) := by
  intro ts stands few
  by_cases same : (ahead ts).kind = k
  · have read : (accept k >>= fun found => if found = true then p else q) ts = p ts.tail := by
      change (accept k ts).bind _ = _
      simp [accept, same, some, Except.bind]
    rw [read]
    exact hit.after stands few (same ▸ some)
  · have read : (accept k >>= fun found => if found = true then p else q) ts = q ts := by
      change (accept k ts).bind _ = _
      simp [accept, same, Except.bind]
    rw [read]
    exact miss ts stands few

/-- A token that is wanted is taken, or refused where it is not ahead. -/
theorem Progresses.expects {f : Token → Parse β} {k : TokenKind} (some : k ≠ .endOfInput)
    (next : ∀ t, Progresses source (count - 1) (least - 1) (f t)) :
    Progresses source count least (expect source k >>= f) := by
  intro ts stands few
  by_cases same : (ahead ts).kind = k
  · have read : (expect source k >>= f) ts = f (ahead ts) ts.tail := by
      change ((if (ahead ts).kind = k then advance else _) ts).bind _ = _
      simp [advance, same, some, Except.bind]
    rw [read]
    exact (next _).after stands few (same ▸ some)
  · have read : (expect source k >>= f) ts = .error ⟨.expected k (ahead ts).kind, (ahead ts).offset, source⟩ := by
      change ((if (ahead ts).kind = k then advance else fail source _ _) ts).bind _ = _
      simp [fail, same, Except.bind]
    rw [read]
    refine ⟨?_, by rintro _ _ ⟨⟩⟩
    rintro _ ⟨⟩
    exact ⟨stands.ahead_le, rfl, by simp⟩

/-- Reading that only takes tokens of an expression never fails. -/
theorem progresses_of_finds {Q : α → List Lexeme → Prop} (finds : Finds p Q) (never : ∀ ts, ∃ r, p ts = .ok r)
    (takes : ∀ a xs, Q a xs → .endOfInput ∉ xs ∧ least ≤ xs.length) : Progresses source count least p := by
  intro ts stands _
  obtain ⟨r, read⟩ := never ts
  rw [read]
  refine ⟨by rintro _ ⟨⟩, ?_⟩
  rintro a us ⟨⟩
  obtain ⟨taken, rfl, value⟩ := finds ts a us read
  obtain ⟨goesOn, enough⟩ := takes a _ value
  rw [List.length_map] at enough
  exact ⟨stands.behind goesOn, by rw [List.length_append]; omega⟩

theorem progresses_adjacentStrings : Progresses source count 0 adjacentStrings := by
  refine progresses_of_finds finds_adjacentStrings (fun ts => ⟨_, rfl⟩) ?_
  rintro _ _ ⟨ts, rfl, -⟩
  exact ⟨by simp, Nat.zero_le _⟩

/-- An operator is taken where one of the level is ahead. -/
theorem Progresses.operators {level : Level} {g : Operator → Parse β} {q : Parse β}
    (hit : ∀ op : Operator, Progresses source (count - 1) (least - 1) (g op)) (miss : Progresses source count least q) :
    Progresses source count least (operator? level >>= fun found => match found with
      | some op => g op
      | none => q) := by
  intro ts stands few
  obtain ⟨r, read⟩ : ∃ r, operator? level ts = .ok r := by
    unfold operator?
    split <;> exact ⟨_, rfl⟩
  have whole : (operator? level >>= fun found => match found with
      | some op => g op
      | none => q) ts = (match r.1 with
      | some op => g op
      | none => q) r.2 := by
    change (operator? level ts).bind _ = _
    rw [read]
    rfl
  obtain ⟨taken, rfl, ⟨op, found, -, lexemes⟩ | ⟨found, none⟩⟩ := finds_operator level ts r.1 r.2 read
  · have goesOn : .endOfInput ∉ taken.map lexeme := lexemes ▸ (balanced_operator op).endOfInput_notMem
    have some : 0 < taken.length := by
      rw [← List.length_map (f := lexeme), lexemes]
      cases op <;> decide
    rw [List.length_append] at few ⊢
    obtain ⟨fails, reads⟩ := hit op r.2 (stands.behind goesOn) (by omega)
    rw [whole, found]
    refine ⟨fails, fun a us read => ?_⟩
    obtain ⟨stands, rest⟩ := reads a us read
    exact ⟨stands, by omega⟩
  · obtain rfl : taken = [] := by simpa using none
    rw [whole, found]
    exact miss r.2 stands few

/-- A name and an equals sign are taken together where they are ahead. -/
theorem Progresses.assigned {f : Token → Parse α} {g : List Token → Parse α}
    (hit : ∀ t, Progresses source (count - 1 - 1) (least - 1 - 1) (f t))
    (miss : ∀ ts, Stands source ts → Progresses source count least (g ts)) :
    Progresses source count least (get >>= fun ts => if (ahead ts).kind = .name ∧ afterNext ts = .symbol .assign then
      advance >>= fun name => advance >>= fun _ => f name else g ts) := by
  intro ts stands few
  change (∀ e, (if (ahead ts).kind = .name ∧ afterNext ts = .symbol .assign then
    advance >>= fun name => advance >>= fun _ => f name else g ts) ts = .error e → _) ∧
    ∀ a us, (if (ahead ts).kind = .name ∧ afterNext ts = .symbol .assign then
      advance >>= fun name => advance >>= fun _ => f name else g ts) ts = .ok (a, us) → _
  split
  next assigned =>
    obtain ⟨name, xs, same⟩ := (assigned_iff rfl).1 assigned
    obtain ⟨t, ts, rfl, word, same⟩ := List.map_eq_cons_iff.1 same
    obtain ⟨u, ts, rfl, assign, -⟩ := List.map_eq_cons_iff.1 same
    have kinds : t.kind = .name ∧ u.kind = .symbol .assign := ⟨kind_of_lexeme word, kind_of_lexeme assign⟩
    have first : t.kind ≠ .endOfInput := by simp [kinds]
    have second : u.kind ≠ .endOfInput := by simp [kinds]
    have read : (advance >>= fun name => advance >>= fun _ => f name) (t :: u :: ts) = f t ts := by
      change (advance (t :: u :: ts)).bind (fun r => (advance r.2).bind fun r' => f r.1 r'.2) = _
      rw [advance_cons first]
      change (advance (u :: ts)).bind (fun r => f t r.2) = _
      rw [advance_cons second]
      rfl
    obtain ⟨rest, length⟩ := stands.tail first
    obtain ⟨fails, reads⟩ := (hit t).after rest (by rw [List.tail_cons] at *; omega) second
    rw [read]
    refine ⟨fails, fun a us read => ?_⟩
    obtain ⟨stands, taken⟩ := reads a us read
    exact ⟨stands, by omega⟩
  next => exact miss ts stands ts stands few

end Expr.Parse

namespace Expr

open Parse Token

variable {source : Text} {n : Nat}

/-- The number of steps suffices for the functions of the parser, as long as there are sixteen for each token: what is
read takes tokens, and an error is one of the source. The looser the level, the more steps go by before the first
token. -/
structure Sufficient (source : Text) (n : Nat) : Prop where
  expressions : ∀ count level, 16 * count + 11 ≤ n + level.rank → Progresses source count 1 (readAt source n level)
  operators : ∀ count level left, 16 * count < n → Progresses source count 0 (readOperators source n level left)
  accesses : ∀ count object, 16 * count < n → Progresses source count 0 (readAccesses source n object)
  atoms : ∀ count t, 16 * count + 13 ≤ n → t.offset ≤ source.length → Progresses source count 0 (readAtom source n t)
  elements : ∀ count close, 16 * count + 12 ≤ n → Progresses source count 1 (readElements source n close)
  entries : ∀ count, 16 * count + 12 ≤ n → Progresses source count 1 (readEntries source n)
  arguments : ∀ count seen, 16 * count + 12 ≤ n → Progresses source count 1 (readArguments source n seen)
  more : ∀ count seen, 16 * count < n → Progresses source count 1 (readMoreArguments source n seen)

/-- No tokens stand in a source, not even the end of the input. -/
theorem Parse.progresses_zero {α : Type} {least : Nat} {p : Parse α} : Progresses source 0 least p := by
  intro ts stands few
  exact absurd (List.length_eq_zero_iff.1 (Nat.le_zero.1 few)) stands.ne_nil

theorem Parse.progresses_of_pos {α : Type} {count least : Nat} {p : Parse α}
    (h : 0 < count → Progresses source count least p) : Progresses source count least p := by
  obtain rfl | pos := Nat.eq_zero_or_pos count
  · exact progresses_zero
  · exact h pos

theorem sufficient_zero : Sufficient source 0 where
  expressions count level enough := by
    have := (Level.inner_le level).2
    obtain rfl : count = 0 := by omega
    exact progresses_zero
  operators _ _ _ enough := absurd enough (Nat.not_lt_zero _)
  accesses _ _ enough := absurd enough (Nat.not_lt_zero _)
  atoms _ _ enough := absurd enough (by omega)
  elements _ _ enough := absurd enough (by omega)
  entries _ enough := absurd enough (by omega)
  arguments _ _ enough := absurd enough (by omega)
  more _ _ enough := absurd enough (Nat.not_lt_zero _)

theorem Sufficient.expressions_succ (h : Sufficient source n) (count : Nat) (level : Level)
    (enough : 16 * count + 11 ≤ n + 1 + level.rank) : Progresses source count 1 (readAt source (n + 1) level) := by
  refine progresses_of_pos fun pos => ?_
  obtain ⟨op, rfl⟩ | case := Level.cases_operator level
  · rw [readAt_operator]
    have rank : op.level.operand.rank = op.level.rank + 1 := Level.rank_operand (by cases op <;> decide)
    have low : op.level.rank ≤ 6 := by cases op <;> decide
    exact (h.expressions count _ (by omega)).bind fun left => h.operators _ _ _ (by omega)
  · simp only [List.mem_cons, List.not_mem_nil, or_false] at case
    -- the levels without operators, from the loosest one to atoms
    obtain rfl | rfl | rfl | rfl | rfl := case <;> simp only [Level.rank] at enough
    · rw [readAt]
      refine (h.expressions count .disjunction (by simp only [Level.rank]; omega)).bind fun value => ?_
      refine .accepts (by decide) ?_ (progresses_pure _)
      refine (h.expressions _ .disjunction (by simp only [Level.rank]; omega)).bind fun test => ?_
      refine .expects (by decide) fun _ => ?_
      refine (h.expressions _ .conditional (by simp only [Level.rank]; omega)).bind fun other => ?_
      exact progresses_pure _
    · rw [readAt]
      refine .accepts (by decide) ?_ (h.expressions count .comparison (by simp only [Level.rank]; omega))
      exact (h.expressions _ .negation (by simp only [Level.rank]; omega)).bind fun e => progresses_pure _
    · rw [readAt]
      refine .accepts (by decide) ?_ (.accepts (by decide) ?_ ?_)
      · exact (h.expressions _ .sign (by simp only [Level.rank]; omega)).bind fun e => progresses_pure _
      · exact (h.expressions _ .sign (by simp only [Level.rank]; omega)).bind fun e => progresses_pure _
      · exact h.expressions count .access (by simp only [Level.rank]; omega)
    · rw [readAt]
      exact (h.expressions count .atom (by simp only [Level.rank]; omega)).bind fun object => h.accesses _ _ (by omega)
    · rw [readAt]
      intro ts stands few
      by_cases ended : (ahead ts).kind = .endOfInput
      · obtain ⟨n, rfl⟩ : ∃ m, n = m + 1 := ⟨n - 1, by omega⟩
        have read : (advance >>= readAtom source (n + 1)) ts =
            .error ⟨.unexpected .endOfInput, (ahead ts).offset, source⟩ := by
          change readAtom source (n + 1) (ahead ts) _ = _
          rw [readAtom, ended]
          rfl
        rw [read]
        refine ⟨?_, by rintro _ _ ⟨⟩⟩
        rintro _ ⟨⟩
        exact ⟨stands.ahead_le, rfl, by simp⟩
      · have read : (advance >>= readAtom source n) ts = readAtom source n (ahead ts) ts.tail := by
          change readAtom source n (ahead ts) (if _ then _ else _) = _
          rw [if_neg ended]
        rw [read]
        exact (h.atoms _ _ (by omega) stands.ahead_le).after stands few ended

theorem Sufficient.operators_succ (h : Sufficient source n) (count : Nat) (level : Level) (left : Expr)
    (enough : 16 * count < n + 1) : Progresses source count 0 (readOperators source (n + 1) level left) := by
  refine progresses_of_pos fun pos => ?_
  rw [readOperators]
  refine .operators (fun op => ?_) (progresses_pure _)
  exact (h.expressions _ _ (by omega)).bind fun right => h.operators _ _ _ (by omega)

theorem Sufficient.accesses_succ (h : Sufficient source n) (count : Nat) (object : Expr) (enough : 16 * count < n + 1) :
    Progresses source count 0 (readAccesses source (n + 1) object) := by
  refine progresses_of_pos fun pos => ?_
  rw [readAccesses]
  refine .accepts (by decide) ?_ (.accepts (by decide) ?_ (.accepts (by decide) ?_ (progresses_pure _)))
  · exact .expects (by decide) fun t => h.accesses _ _ (by omega)
  · refine (h.expressions _ .conditional (by omega)).bind fun key => ?_
    exact .expects (by decide) fun _ => h.accesses _ _ (by omega)
  · exact (h.arguments _ false (by omega)).bind fun r => h.accesses _ _ (by omega)

theorem Sufficient.atoms_succ (h : Sufficient source n) (count : Nat) (t : Token) (enough : 16 * count + 13 ≤ n + 1)
    (inside : t.offset ≤ source.length) : Progresses source count 0 (readAtom source (n + 1) t) := by
  rw [readAtom]
  split
  · exact progresses_pure _
  · exact progresses_pure _
  · exact progresses_pure _
  · exact progresses_pure _
  · exact progresses_adjacentStrings.bind fun more => progresses_pure _
  · split
    · exact progresses_pure _
    · exact progresses_fail inside (by simp)
  · split
    · exact progresses_pure _
    · exact progresses_fail inside (by simp)
  · refine .accepts (by decide) (progresses_pure _) ?_
    refine (h.expressions _ .conditional (by simp only [Level.rank]; omega)).bind fun first => ?_
    refine .accepts (by decide) (progresses_pure _) (.expects (by decide) fun _ => ?_)
    exact (h.elements _ .closeParen (by omega)).bind fun es => progresses_pure _
  · exact (h.elements _ .closeBracket (by omega)).bind fun es => progresses_pure _
  · exact (h.entries _ (by omega)).bind fun es => progresses_pure _
  · exact progresses_fail inside (by simp)

theorem Sufficient.elements_succ (h : Sufficient source n) (count : Nat) (close : Symbol)
    (enough : 16 * count + 12 ≤ n + 1) : Progresses source count 1 (readElements source (n + 1) close) := by
  refine progresses_of_pos fun pos => ?_
  rw [readElements]
  refine .accepts (by simp) (progresses_pure _) ?_
  refine (h.expressions _ .conditional (by omega)).bind fun e => .accepts (by decide) ?_
    (.expects (by simp) fun _ => progresses_pure _)
  exact (h.elements _ close (by omega)).bind fun es => progresses_pure _

theorem Sufficient.entries_succ (h : Sufficient source n) (count : Nat) (enough : 16 * count + 12 ≤ n + 1) :
    Progresses source count 1 (readEntries source (n + 1)) := by
  refine progresses_of_pos fun pos => ?_
  rw [readEntries]
  refine .accepts (by decide) (progresses_pure _) ?_
  refine (h.expressions _ .conditional (by omega)).bind fun key => .expects (by decide) fun _ => ?_
  refine (h.expressions _ .conditional (by omega)).bind fun value => .accepts (by decide) ?_
    (.expects (by decide) fun _ => progresses_pure _)
  exact (h.entries _ (by omega)).bind fun es => progresses_pure _

theorem Sufficient.arguments_succ (h : Sufficient source n) (count : Nat) (seen : Bool) (enough : 16 * count + 12 ≤ n + 1) :
    Progresses source count 1 (readArguments source (n + 1) seen) := by
  refine progresses_of_pos fun pos => ?_
  rw [readArguments]
  refine .accepts (by decide) (progresses_pure _) (.assigned (fun name => ?_) fun ts stands => ?_)
  · refine (h.expressions _ .conditional (by omega)).bind fun value => ?_
    exact (h.more _ true (by omega)).bind fun r => progresses_pure _
  · split
    · exact progresses_fail stands.ahead_le (by simp)
    · refine (h.expressions _ .conditional (by omega)).bind fun value => ?_
      exact (h.more _ false (by omega)).bind fun r => progresses_pure _

theorem Sufficient.more_succ (h : Sufficient source n) (count : Nat) (seen : Bool) (enough : 16 * count < n + 1) :
    Progresses source count 1 (readMoreArguments source (n + 1) seen) := by
  refine progresses_of_pos fun pos => ?_
  rw [readMoreArguments]
  refine .accepts (by decide) ((h.arguments _ seen (by omega)).mono (Nat.zero_le 1)) ?_
  exact .expects (by decide) fun _ => progresses_pure _

theorem sufficient (source : Text) (n : Nat) : Sufficient source n := by
  induction n with
  | zero => exact sufficient_zero
  | succ n ih =>
    exact ⟨ih.expressions_succ, ih.operators_succ, ih.accesses_succ, ih.atoms_succ, ih.elements_succ, ih.entries_succ,
      ih.arguments_succ, ih.more_succ⟩

/-- The steps that the parser starts with suffice for the tokens that it starts with. -/
theorem progresses_readAt (source : Text) (count : Nat) :
    Progresses source count 1 (readAt source (stepsFor count) .conditional) :=
  (sufficient source _).expressions count .conditional (by rw [stepsFor]; omega)

/-- An error of the parser is in the source. -/
theorem in_of_parse {e : SyntaxError} (h : parse source = .error e) : e.In source := by
  unfold parse at h
  split at h
  next _ failed =>
    cases h
    exact (in_of_scan failed).1
  next ts scanned =>
    have stands : Stands source ts := ⟨0, scan_eq_ok_iff.1 scanned⟩
    obtain ⟨fails, reads⟩ := progresses_readAt source ts.length ts stands (Nat.le_refl _)
    unfold ofTokens at h
    split at h
    next =>
      cases h
      exact ⟨Nat.zero_le _, rfl, by simp⟩
    next =>
      split at h
      next _ failed =>
        cases h
        exact fails e failed
      next tree rest read =>
        split at h
        next => cases h
        next =>
          cases h
          exact ⟨(reads tree rest read).1.ahead_le, rfl, by simp⟩

end Expr

/-! ## Signatures -/

open Stencil.Expr Stencil.Expr.Parse

namespace Signature

open Token

variable {α : Type} {source : Text} {count least : Nat}

theorem progresses_get {f : List Token → Parse α}
    (next : ∀ ts, Stands source ts → Progresses source ts.length least (f ts)) :
    Progresses source count least (get >>= f) :=
  fun ts stands _ => next ts stands ts stands (Nat.le_refl _)

/-- What is left when the token ahead is taken, unless it is the end of the input, stands in the source. -/
theorem stands_advance {ts : List Token} (h : Stands source ts) :
    Stands source (if (ahead ts).kind = .endOfInput then ts else ts.tail) ∧
      (if (ahead ts).kind = .endOfInput then ts else ts.tail).length ≤ ts.length := by
  obtain ⟨_, tiles⟩ := h
  refine ⟨tiles_advance tiles, ?_⟩
  split
  · exact Nat.le_refl _
  · rw [List.length_tail]
    exact Nat.sub_le _ _

theorem progresses_accept (k : TokenKind) : Progresses source count 0 (accept k) := by
  intro ts stands _
  unfold accept
  dsimp only
  split
  all_goals refine ⟨by rintro _ ⟨⟩, ?_⟩
  all_goals rintro _ _ ⟨⟩
  · exact stands_advance stands
  · exact ⟨stands, Nat.le_refl _⟩

theorem progresses_expect (k : TokenKind) : Progresses source count 0 (expect source k) := by
  intro ts stands _
  change (∀ e, (if (ahead ts).kind = k then advance else fail source _ _) ts = .error e → _) ∧
    ∀ a us, (if (ahead ts).kind = k then advance else fail source _ _) ts = .ok (a, us) → _
  split
  next =>
    refine ⟨by rintro _ ⟨⟩, ?_⟩
    rintro _ _ ⟨⟩
    exact stands_advance stands
  next =>
    refine ⟨?_, by rintro _ _ ⟨⟩⟩
    rintro _ ⟨⟩
    exact ⟨stands.ahead_le, rfl, by simp⟩

theorem progresses_readDefault : Progresses source count 1 (readDefault source) := by
  refine progresses_get fun ts _ => ?_
  refine (progresses_readAt source ts.length).bind fun _ => ?_
  exact progresses_get fun us _ => progresses_pure _

/-- Each parameter takes a token, so that as many steps as there are tokens are enough. -/
theorem progresses_readParameters {n : Nat} (defaults : Bool) (enough : count ≤ n) :
    Progresses source count 1 (readParameters source n defaults) := by
  induction n generalizing count defaults with
  | zero =>
    obtain rfl := Nat.le_zero.1 enough
    exact progresses_zero
  | succ n ih =>
    -- what is read after the default of a parameter, or after its name
    have parameter (name : Text) (default? : Option Expression) {count : Nat} (enough : count ≤ n) :
        Progresses source count 0 (accept (.symbol .comma) >>= fun more => if more = true then
            readParameters source n default?.isSome >>= fun ps => pure (⟨name, default?⟩ :: ps)
          else expect source (.symbol .closeParen) >>= fun _ => pure [⟨name, default?⟩]) :=
      .accepts (by decide) ((ih _ (by omega)).bind fun ps => progresses_pure _)
        (.expects (by decide) fun _ => progresses_pure _)
    rw [readParameters]
    refine .accepts (by decide) (progresses_pure _) (.expects (by decide) fun name => .accepts (by decide) ?_ ?_)
    · exact progresses_readDefault.bind fun d => parameter name.text (some d) (by omega)
    · split
      · exact progresses_get fun ts stands => progresses_fail stands.ahead_le (by simp)
      · exact parameter name.text none (by omega)

theorem progresses_read : Progresses source count 0 (read source) := by
  rw [read]
  refine (progresses_expect _).bind fun name => (progresses_accept _).bind fun ended => ?_
  split
  · exact progresses_pure _
  · refine (progresses_expect _).bind fun _ => progresses_get fun ts _ => ?_
    refine (progresses_readParameters false (Nat.le_succ _)).bind fun ps => ?_
    exact (progresses_expect _).bind fun _ => progresses_pure _

/-- An error in a signature is in its text, without the white space around it. -/
theorem in_of_parse {text : Text} {e : SyntaxError} (h : parse text = .error e) : e.In (Text.trimWhite text) := by
  unfold parse at h
  dsimp only at h
  split at h
  next _ failed =>
    cases h
    exact (in_of_scan failed).1
  next ts scanned =>
    split at h
    next _ failed =>
      cases h
      exact (progresses_read ts ⟨0, scan_eq_ok_iff.1 scanned⟩ (Nat.le_refl _)).1 e failed
    next => cases h

end Signature

/-- **The tokens of a source tile it.** A source that is shorter than the 32 bits of an offset can count either has a
syntax error at one of its bytes or is cut into tokens that lie in it one behind the other, with nothing but white space
left out and the end of the input at its end, and none of their offsets and lengths is cut off. So an error of the
parser is in the source, be it read as an expression or as a signature, which is scanned without the white space
around it. -/
theorem Token.scan_covers {source : Text} (short : source.length < UInt32.size) :
    ((∃ e, scan source = .error e ∧ e.In source ∧ e.offset < source.length) ∨
      ∃ ts, scan source = .ok ts ∧ Covers source ts ∧
        ∀ t ∈ ts, t.offset.toUInt32.toNat = t.offset ∧ t.length.toUInt32.toNat = t.length) ∧
    (∀ e, Expr.parse source = .error e → e.In source) ∧
    ∀ text, Text.trimWhite text = source → ∀ e, Signature.parse text = .error e → e.In source := by
  refine ⟨?_, fun e => Expr.in_of_parse, ?_⟩
  · cases scanned : scan source with
    | error e => exact .inl ⟨e, rfl, (in_of_scan scanned).1, (in_of_scan scanned).2⟩
    | ok ts =>
      have covers := covers_of_tiles (scan_eq_ok_iff.1 scanned)
      refine .inr ⟨ts, rfl, covers, fun t ht => ?_⟩
      have inside := covers.inside t ht
      rw [stop] at inside
      exact ⟨UInt32.toNat_ofNat_of_lt' (show t.offset < UInt32.size by omega),
        UInt32.toNat_ofNat_of_lt' (show t.length < UInt32.size by omega)⟩
  · rintro text rfl e
    exact Signature.in_of_parse

/-- An exponent that has no digits is given back, and the letter starts a name. -/
def Token.givenBack : Text := "1.5e+x\t<= 'a\\'b')"

theorem Token.scan_covers_givenBack :
    scan givenBack = .ok [⟨.decimal, "1.5", 0, 3⟩, ⟨.name, "e", 3, 1⟩, ⟨.symbol .plus, [], 4, 1⟩, ⟨.name, "x", 5, 1⟩,
      ⟨.symbol .lessEqual, [], 7, 2⟩, ⟨.string, "a'b", 10, 6⟩, ⟨.symbol .closeParen, [], 16, 1⟩,
      ⟨.endOfInput, [], 17, 0⟩] ∧ givenBack.length < UInt32.size ∧
    ((∃ e, scan givenBack = .error e ∧ e.In givenBack ∧ e.offset < givenBack.length) ∨
      ∃ ts, scan givenBack = .ok ts ∧ Covers givenBack ts ∧
        ∀ t ∈ ts, t.offset.toUInt32.toNat = t.offset ∧ t.length.toUInt32.toNat = t.length) ∧
    (∀ e, Expr.parse givenBack = .error e → e.In givenBack) ∧
    ∀ text, Text.trimWhite text = givenBack → ∀ e, Signature.parse text = .error e → e.In givenBack :=
  ⟨by decide +kernel, by decide, scan_covers (by decide)⟩

end Stencil
