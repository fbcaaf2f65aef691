import Stencil.Proofs.Expr.Scanned

/-!
# Where the tokens stand

The tokens of a source stand in it one after the other, each of them read off at its own place, with nothing but
white space before and between them and the end of the input at the end of the source (`Token.scan_eq_ok_iff`).

A token depends on the bytes it covers and on nothing behind them (`Token.first_take`). So a part of a source that
is cut out from the start of one of its tokens to the end of another is scanned to just these tokens
(`Token.scan_cut`).
-/

namespace Stencil

namespace Token

/-- The part of a text between two offsets. -/
def cut (source : Text) (start stop : Nat) : Text := (source.drop start).take (stop - start)

/-- Where a token ends. -/
def stop (t : Token) : Nat := t.offset + t.length

/-! ## What a token covers -/

theorem length_takeWhile_le (p : Byte → Bool) (s : Text) : (s.takeWhile p).length ≤ s.length :=
  (List.takeWhile_prefix p).length_le

theorem fractionSpan_le (s : Text) : fractionSpan s ≤ s.length := by
  unfold fractionSpan
  split
  next c d r =>
    have := length_takeWhile_le Byte.isDigit r
    split <;> simp only [List.length_cons] <;> omega
  next => exact Nat.zero_le _

theorem signSpan_le (s : Text) : signSpan s ≤ 1 := by
  unfold signSpan
  split
  next => split <;> decide
  next => decide

theorem exponentSpan_cons (c : Byte) (r : Text) : exponentSpan (c :: r) =
    if (c == 'e' || c == 'E') = true ∧ (r.drop (signSpan r)).takeWhile Byte.isDigit ≠ []
    then 1 + signSpan r + ((r.drop (signSpan r)).takeWhile Byte.isDigit).length else 0 := by
  cases mark : (c == 'e' || c == 'E') <;> cases digits : (r.drop (signSpan r)).takeWhile Byte.isDigit <;>
    simp [exponentSpan, mark, digits]

theorem exponentSpan_le (s : Text) : exponentSpan s ≤ s.length := by
  cases s with
  | nil => exact Nat.zero_le _
  | cons c r =>
    rw [exponentSpan_cons]
    split
    next some =>
      have digits := List.length_pos_iff.2 some.2
      have := length_takeWhile_le Byte.isDigit (r.drop (signSpan r))
      rw [List.length_drop] at this
      simp only [List.length_cons]
      omega
    next => exact Nat.zero_le _

theorem numberSpan_le (s : Text) : (numberSpan s).1 ≤ s.length := by
  rw [numberSpan_eq]
  have whole := length_takeWhile_le Byte.isDigit s
  have fraction := fractionSpan_le (s.drop (s.takeWhile Byte.isDigit).length)
  have exponent := exponentSpan_le ((s.drop (s.takeWhile Byte.isDigit).length).drop
    (fractionSpan (s.drop (s.takeWhile Byte.isDigit).length)))
  simp only [List.length_drop] at fraction exponent ⊢
  omega

theorem spelling_pos (k : Symbol) : 0 < k.spelling.length := by cases k <;> decide

/-- The token at the start of a text covers bytes of it, at least one. -/
theorem length_of_first {source s : Text} {offset : Nat} {t : Token} (h : first source offset s = .ok t)
    (some : s ≠ []) : 0 < t.length ∧ t.length ≤ s.length := by
  cases s with
  | nil => exact absurd rfl some
  | cons c r =>
    unfold first at h
    dsimp only at h
    split at h
    next start =>
      cases h
      refine ⟨?_, length_takeWhile_le _ _⟩
      rw [List.takeWhile_cons, (of_isNameStart start).2]
      exact Nat.succ_pos _
    next =>
      split at h
      next digit =>
        cases h
        exact ⟨numberSpan_pos digit r, numberSpan_le _⟩
      next =>
        split at h
        next =>
          split at h
          next t n read =>
            cases h
            exact ⟨Nat.succ_pos n, Nat.succ_le_succ (takeString_take read).1⟩
          next => cases h
        next =>
          split at h
          next k found =>
            cases h
            have starts : k.spelling <+: c :: r := List.isPrefixOf_iff_prefix.1 (by simpa using List.find?_some found)
            exact ⟨spelling_pos k, starts.length_le⟩
          next => cases h

/-! ## A token and what follows it -/

theorem takeWhile_take {p : Byte → Bool} {s : Text} {m : Nat} (h : (s.takeWhile p).length ≤ m) :
    (s.take m).takeWhile p = s.takeWhile p := by
  have parts : s.take m = s.takeWhile p ++ (s.dropWhile p).take (m - (s.takeWhile p).length) := by
    conv => lhs; rw [← List.takeWhile_append_dropWhile (p := p) (l := s)]
    rw [List.take_append, List.take_of_length_le h]
  rw [parts]
  refine takeWhile_of_ends (fun c hc => List.mem_takeWhile_imp hc) fun c hc => ?_
  have next : (s.dropWhile p).head? = some c := by
    rw [List.head?_take] at hc
    split at hc
    next => cases hc
    next => exact hc
  simpa [next] using List.head?_dropWhile_not p s

theorem fractionSpan_take {s : Text} {m : Nat} (h : fractionSpan s ≤ m) : fractionSpan (s.take m) = fractionSpan s := by
  unfold fractionSpan at h ⊢
  split at h
  next c d r =>
    split at h
    next point =>
      obtain ⟨m, rfl⟩ : ∃ k, m = k + 2 := ⟨m - 2, by omega⟩
      simp only [List.take_succ_cons, point, if_true]
      rw [takeWhile_take (by omega)]
    next noPoint =>
      match m with
      | 0 => simp [noPoint]
      | 1 => simp [noPoint]
      | m + 2 => simp [noPoint]
  next short =>
    match s, m, short with
    | [], _, _ => simp
    | [c], 0, _ => simp
    | [c], m + 1, _ => simp
    | c :: d :: r, _, short => exact absurd rfl (short c d r)

theorem signSpan_take {s : Text} {m : Nat} (h : signSpan s ≤ m) : signSpan (s.take m) = signSpan s := by
  cases s with
  | nil => rw [List.take_nil]
  | cons c r =>
    cases m with
    | zero => exact (Nat.le_zero.1 h).symm
    | succ m => rfl

theorem exponentSpan_take {s : Text} {m : Nat} (h : exponentSpan s ≤ m) : exponentSpan (s.take m) = exponentSpan s := by
  match s, m with
  | [], _ => rw [List.take_nil]
  | c :: r, 0 => exact (Nat.le_zero.1 h).symm
  | c :: r, 1 =>
    -- an exponent has two bytes at least
    rw [exponentSpan_cons] at h
    rw [List.take_succ_cons, List.take_zero, exponentSpan_cons, exponentSpan_cons, if_neg (by simp)]
    refine (if_neg fun some => ?_).symm
    rw [if_pos some] at h
    have := List.length_pos_iff.2 some.2
    omega
  | c :: r, m + 2 =>
    rw [List.take_succ_cons, exponentSpan_cons, exponentSpan_cons, signSpan_take (by have := signSpan_le r; omega),
      List.drop_take]
    rw [exponentSpan_cons] at h
    by_cases mark : (c == 'e' || c == 'E') = true
    · have covered : ((r.drop (signSpan r)).takeWhile Byte.isDigit).length ≤ m + 1 - signSpan r := by
        by_cases none : (r.drop (signSpan r)).takeWhile Byte.isDigit = []
        · rw [none]
          exact Nat.zero_le _
        · rw [if_pos ⟨mark, none⟩] at h
          omega
      rw [takeWhile_take covered]
    · rw [if_neg (by simp [mark]), if_neg (by simp [mark])]

theorem numberSpan_take {s : Text} {m : Nat} (h : (numberSpan s).1 ≤ m) : numberSpan (s.take m) = numberSpan s := by
  rw [numberSpan_eq] at h ⊢
  rw [numberSpan_eq]
  dsimp only at h ⊢
  rw [takeWhile_take (by omega), List.drop_take, fractionSpan_take (by omega), List.drop_take, exponentSpan_take (by omega)]

theorem ofStart_take {s : Text} {m : Nat} {k : Symbol} (h : Symbol.ofStart? s = some k) (covered : k.spelling.length ≤ m) :
    Symbol.ofStart? (s.take m) = some k := by
  unfold Symbol.ofStart? at h ⊢
  obtain ⟨starts, before, after, parts, others⟩ := List.find?_eq_some_iff_append.1 h
  refine List.find?_eq_some_iff_append.2 ⟨?_, before, after, parts, fun k' mem => ?_⟩
  · rw [List.isPrefixOf_iff_prefix] at starts ⊢
    exact List.prefix_take_iff.2 ⟨starts, covered⟩
  · have other := others k' mem
    rw [Bool.not_eq_true', Bool.eq_false_iff, ne_eq, List.isPrefixOf_iff_prefix] at other ⊢
    exact fun starts => other (List.prefix_take_iff.1 starts).1

/-- A token depends on the bytes that it covers, and neither on what follows nor on where it stands. -/
theorem first_take {source s : Text} {offset m : Nat} {t : Token} (h : first source offset s = .ok t)
    (covered : t.length ≤ m) (source' : Text) (offset' : Nat) :
    first source' offset' (s.take m) = .ok { t with offset := offset' } := by
  cases s with
  | nil =>
    cases h
    rw [List.take_nil]
    rfl
  | cons c r =>
    have pos := (length_of_first h (List.cons_ne_nil c r)).1
    obtain ⟨m, rfl⟩ : ∃ k, m = k + 1 := ⟨m - 1, by omega⟩
    rw [List.take_succ_cons]
    unfold first at h ⊢
    dsimp only at h ⊢
    rw [← List.take_succ_cons]
    split at h
    next start =>
      cases h
      rw [if_pos start, takeWhile_take covered]
    next noName =>
      rw [if_neg noName]
      split at h
      next digit =>
        cases h
        rw [if_pos digit, numberSpan_take covered, List.take_take, Nat.min_eq_left covered]
      next noDigit =>
        rw [if_neg noDigit]
        split at h
        next quotes =>
          rw [if_pos quotes]
          split at h
          next t n read =>
            cases h
            have again : takeString c (r.take m) = some (t, n) := by
              have whole : r.take m = r.take n ++ (r.take m).drop n := by
                conv => lhs; rw [← List.take_append_drop n (r.take m)]
                rw [List.take_take, Nat.min_eq_left (Nat.le_of_succ_le_succ covered)]
              rw [whole]
              exact takeString_append (takeString_take read).2 _
            rw [again]
          next => cases h
        next noQuote =>
          rw [if_neg noQuote]
          split at h
          next k found =>
            cases h
            rw [ofStart_take found covered]
          next => cases h

theorem offset_of_first {source s : Text} {offset : Nat} {t : Token} (h : first source offset s = .ok t) :
    t.offset = offset := by
  cases s with
  | nil =>
    cases h
    rfl
  | cons c r =>
    have again := first_take h (length_of_first h (List.cons_ne_nil c r)).2 source offset
    rw [List.take_length, h] at again
    exact congrArg Token.offset (Except.ok.inj again)

/-! ## Tokens of a source -/

/-- The tokens stand in the source from an offset on: each of them is read off where it stands, with white space
before it, and the last one is the end of the input, at the end of the source. -/
inductive Tiles (source : Text) : Nat → List Token → Prop
  | ended {offset : Nat} (within : offset ≤ source.length) (white : ∀ c ∈ source.drop offset, c.isWhite = true) :
      Tiles source offset [⟨.endOfInput, [], source.length, 0⟩]
  | token {offset : Nat} {t : Token} {ts : List Token} (after : offset ≤ t.offset)
      (white : ∀ c ∈ cut source offset t.offset, c.isWhite = true)
      (black : ∀ c ∈ (source.drop t.offset).head?, c.isWhite = false)
      (read : first source t.offset (source.drop t.offset) = .ok t) (proper : t.kind ≠ .endOfInput)
      (more : Tiles source t.stop ts) : Tiles source offset (t :: ts)

theorem stop_le_of_first {source : Text} {t : Token} (read : first source t.offset (source.drop t.offset) = .ok t)
    (proper : t.kind ≠ .endOfInput) : t.offset < t.stop ∧ t.stop ≤ source.length := by
  have some : source.drop t.offset ≠ [] := by
    intro none
    rw [none] at read
    exact proper (congrArg Token.kind (Except.ok.inj read)).symm
  have length := length_of_first read some
  rw [List.length_drop] at length
  unfold stop
  omega

theorem cut_append_drop {source : Text} {start stop : Nat} (le : start ≤ stop) :
    cut source start stop ++ source.drop stop = source.drop start := by
  have rest : source.drop stop = (source.drop start).drop (stop - start) := by
    rw [List.drop_drop, Nat.add_sub_cancel' le]
  rw [rest]
  exact List.take_append_drop _ _

/-- The white space at an offset ends before the first byte that is none. -/
theorem blank_at {source : Text} {offset : Nat} (within : offset ≤ source.length) :
    ∃ stop, offset + ((source.drop offset).takeWhile Byte.isWhite).length = stop ∧ offset ≤ stop ∧ stop ≤ source.length ∧
      (∀ c ∈ cut source offset stop, c.isWhite = true) ∧ ∀ c ∈ (source.drop stop).head?, c.isWhite = false := by
  refine ⟨_, rfl, Nat.le_add_right _ _, ?_, ?_, ?_⟩
  · have := length_takeWhile_le Byte.isWhite (source.drop offset)
    rw [List.length_drop] at this
    omega
  · rw [cut, Nat.add_sub_cancel_left, take_takeWhile]
    exact fun c hc => List.mem_takeWhile_imp hc
  · rw [← List.drop_drop]
    have rest : (source.drop offset).drop ((source.drop offset).takeWhile Byte.isWhite).length =
        (source.drop offset).dropWhile Byte.isWhite := by
      conv => lhs; rhs; rw [← List.takeWhile_append_dropWhile (p := Byte.isWhite) (l := source.drop offset)]
      rw [List.drop_left]
    rw [rest]
    intro c hc
    simpa [Option.mem_def.1 hc] using List.head?_dropWhile_not Byte.isWhite (source.drop offset)

theorem length_blank {source : Text} {offset stop : Nat} (le : offset ≤ stop) (within : stop ≤ source.length)
    (white : ∀ c ∈ cut source offset stop, c.isWhite = true) (black : ∀ c ∈ (source.drop stop).head?, c.isWhite = false) :
    ((source.drop offset).takeWhile Byte.isWhite).length = stop - offset := by
  rw [← cut_append_drop le, takeWhile_of_ends white black, cut, List.length_take, List.length_drop]
  omega

theorem tiles_of_scanFrom {source : Text} {steps offset : Nat} {ts : List Token} (within : offset ≤ source.length)
    (h : scanFrom source steps offset (source.drop offset) = .ok ts) : Tiles source offset ts := by
  induction steps generalizing offset ts with
  | zero => cases h
  | succ steps ih =>
    obtain ⟨stop, skipped, le, inside, white, black⟩ := blank_at within
    unfold scanFrom at h
    dsimp only at h
    rw [List.drop_drop, skipped] at h
    split at h
    next => cases h
    next t read =>
      obtain none | some := eq_or_ne (source.drop stop) []
      · rw [none] at read
        cases read
        cases h
        obtain rfl : stop = source.length := Nat.le_antisymm inside (List.drop_eq_nil_iff.1 none)
        refine .ended within ?_
        rw [← cut_append_drop le, none, List.append_nil]
        exact white
      · have proper : t.kind ≠ .endOfInput := fun ended =>
          (spelled_of_first read some).ne_endOfInput (by rw [lexeme, ended])
        obtain rfl : t.offset = stop := offset_of_first read
        rw [if_neg proper, List.drop_drop] at h
        split at h
        next => cases h
        next ts' more =>
          cases h
          exact .token le white black read proper (ih (stop_le_of_first read proper).2 more)

theorem scanFrom_of_tiles {source : Text} {steps offset : Nat} {ts : List Token} (h : Tiles source offset ts)
    (enough : source.length - offset < steps) : scanFrom source steps offset (source.drop offset) = .ok ts := by
  induction h generalizing steps with
  | @ended offset within white =>
    obtain ⟨steps, rfl⟩ : ∃ n, steps = n + 1 := ⟨steps - 1, by omega⟩
    have all : (source.drop offset).takeWhile Byte.isWhite = source.drop offset := List.takeWhile_eq_self_iff.2 white
    have stop : offset + (source.drop offset).length = source.length := by
      rw [List.length_drop]
      omega
    simp only [scanFrom, all, List.drop_length, first, if_true, stop]
  | @token offset t ts after white black read proper more ih =>
    obtain ⟨steps, rfl⟩ : ∃ n, steps = n + 1 := ⟨steps - 1, by omega⟩
    obtain ⟨pos, inside⟩ := stop_le_of_first read proper
    have blank := length_blank after (Nat.le_trans (Nat.le_of_lt pos) inside) white black
    have rests : scanFrom source steps (t.offset + t.length) (source.drop (t.offset + t.length)) = .ok ts := ih (by omega)
    unfold scanFrom
    dsimp only
    rw [List.drop_drop, blank, Nat.add_sub_cancel' after, read]
    dsimp only
    rw [if_neg proper, List.drop_drop, rests]

/-- **The scanner tiles its input.** The tokens that it finds are those that stand in the source. -/
theorem scan_eq_ok_iff {source : Text} {ts : List Token} : scan source = .ok ts ↔ Tiles source 0 ts := by
  constructor
  · exact fun h => tiles_of_scanFrom (Nat.zero_le _) h
  · exact fun h => scanFrom_of_tiles h (Nat.lt_succ_self _)

theorem Tiles.within {source : Text} {offset : Nat} {ts : List Token} (h : Tiles source offset ts) :
    offset ≤ source.length := by
  cases h with
  | ended within => exact within
  | token after _ _ read proper =>
    have := stop_le_of_first read proper
    omega

theorem Tiles.endOfInput_mem {source : Text} {offset : Nat} {ts : List Token} (h : Tiles source offset ts) :
    Lexeme.endOfInput ∈ ts.map lexeme := by
  induction h with
  | ended => exact List.mem_singleton_self _
  | token _ _ _ _ _ _ ih => exact List.mem_cons_of_mem _ ih

/-! ## A part of a source -/

variable {source : Text} {offset : Nat} {t : Token} {taken rest : List Token}

/-- What stands before other tokens is not the end of the input. -/
theorem Tiles.of_cons (h : Tiles source offset (t :: rest)) (some : rest ≠ []) :
    offset ≤ t.offset ∧ (∀ c ∈ cut source offset t.offset, c.isWhite = true) ∧
      (∀ c ∈ (source.drop t.offset).head?, c.isWhite = false) ∧ first source t.offset (source.drop t.offset) = .ok t ∧
      t.kind ≠ .endOfInput ∧ Tiles source t.stop rest := by
  cases h with
  | ended => exact absurd rfl some
  | token after white black read proper more => exact ⟨after, white, black, read, proper, more⟩

/-- Where the last one of tokens ends that stand from an offset on. -/
def reach (offset : Nat) (ts : List Token) : Nat := ts.foldl (fun _ t => t.stop) offset

theorem reach_eq_getLast (offset : Nat) {ts : List Token} (some : ts ≠ []) : reach offset ts = (ts.getLast some).stop := by
  conv => lhs; rw [← List.dropLast_concat_getLast some]
  rw [reach, List.foldl_append]
  rfl

/-- Tokens behind others stand from where these end. -/
theorem Tiles.behind (h : Tiles source offset (taken ++ rest)) (some : rest ≠ []) :
    Tiles source (reach offset taken) rest ∧ offset ≤ reach offset taken := by
  induction taken generalizing offset with
  | nil => exact ⟨h, Nat.le_refl _⟩
  | cons t taken ih =>
    obtain ⟨after, -, -, read, proper, more⟩ := h.of_cons (by simp [some])
    obtain ⟨tiles, le⟩ := ih more
    refine ⟨tiles, Nat.le_trans ?_ le⟩
    exact Nat.le_trans after (Nat.le_of_lt (stop_le_of_first read proper).1)

theorem drop_cut {start offset stop : Nat} (le : start ≤ offset) :
    (cut source start stop).drop (offset - start) = (source.drop offset).take (stop - offset) := by
  rw [cut, List.drop_take, List.drop_drop, Nat.add_sub_cancel' le, Nat.sub_sub_sub_cancel_right le]

theorem cut_cut {start a b stop : Nat} (le : start ≤ a) (inside : b ≤ stop) :
    cut (cut source start stop) (a - start) (b - start) = cut source a b := by
  rw [cut, drop_cut le, List.take_take, Nat.sub_sub_sub_cancel_right le, Nat.min_eq_left (Nat.sub_le_sub_right inside a)]
  rfl

/-- The token as it stands in a source that starts at an offset. -/
def shift (start : Nat) (t : Token) : Token := { t with offset := t.offset - start }

@[simp] theorem lexeme_shift (start : Nat) (t : Token) : (t.shift start).lexeme = t.lexeme := rfl

/-- Tokens up to the end of one of them stand in what is cut out up to there. -/
theorem Tiles.cut {start : Nat} (h : Tiles source offset (taken ++ rest)) (some : rest ≠ []) (le : start ≤ offset) :
    Tiles (cut source start (reach offset taken)) (offset - start)
      (taken.map (shift start) ++ [⟨.endOfInput, [], reach offset taken - start, 0⟩]) := by
  induction taken generalizing offset with
  | nil =>
    have length : (Token.cut source start offset).length = offset - start := by
      have := h.within
      rw [Token.cut, List.length_take, List.length_drop]
      omega
    have ended : Tiles (Token.cut source start offset) (offset - start) [⟨.endOfInput, [], _, 0⟩] :=
      .ended (Nat.le_of_eq length.symm) (by rw [List.drop_eq_nil_of_le (Nat.le_of_eq length)]; simp)
    rwa [length] at ended
  | cons t taken ih =>
    obtain ⟨after, white, black, read, proper, more⟩ := h.of_cons (by simp [some])
    obtain ⟨pos, -⟩ := stop_le_of_first read proper
    have further : t.stop ≤ reach t.stop taken := (more.behind some).2
    have here : start ≤ t.offset := Nat.le_trans le after
    have stop : (t.shift start).stop = t.stop - start := (Nat.sub_add_comm here).symm
    refine .token (Nat.sub_le_sub_right after start) ?_ ?_ ?_ proper ?_
    · change ∀ c ∈ Token.cut (Token.cut source start (reach t.stop taken)) (offset - start) (t.offset - start), _
      rwa [cut_cut le (by omega)]
    · change ∀ c ∈ ((Token.cut source start (reach t.stop taken)).drop (t.offset - start)).head?, _
      rw [drop_cut here, List.head?_take, if_neg (by omega)]
      exact black
    · change first _ (t.offset - start) ((Token.cut source start (reach t.stop taken)).drop (t.offset - start)) = _
      rw [drop_cut here]
      exact first_take read (Nat.le_sub_of_add_le' further) _ _
    · rw [stop]
      exact ih more (Nat.le_trans here (Nat.le_of_lt pos))

/-- **What is cut out from the start of a token to the end of another is scanned to the tokens that stand there.** -/
theorem scan_cut (h : Tiles source offset (t :: taken ++ rest)) (some : rest ≠ []) :
    ∃ ts, scan (cut source t.offset (reach t.stop taken)) = .ok ts ∧
      ts.map lexeme = (t :: taken).map lexeme ++ [.endOfInput] := by
  obtain ⟨-, -, black, read, proper, more⟩ := h.of_cons (by simp [some])
  have here : Tiles source t.offset (t :: taken ++ rest) :=
    .token (Nat.le_refl _) (by simp [Token.cut]) black read proper more
  have tiles := here.cut some (Nat.le_refl _)
  rw [Nat.sub_self] at tiles
  refine ⟨_, scan_eq_ok_iff.2 tiles, ?_⟩
  rw [List.map_append, List.map_map]
  rfl

end Token

end Stencil
