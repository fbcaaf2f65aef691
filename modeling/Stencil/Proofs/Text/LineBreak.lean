import Mathlib.Data.List.Chain
import Mathlib.Data.List.DropRight
import Stencil.Stream.Tag

/-!
# White space at the ends of lines

Tidying a text goes through its bytes and takes back what it has written before. What it comes to is said
without it here: each longest stretch of line feeds with the blanks before them becomes one line feed, and all
else stays (`Text.collapses_iff`). Then no line ends in a blank, no line feed follows another one (`Text.neat_tidy`),
and tidying such a text changes nothing (`Text.Neat.tidy_eq`).
-/

namespace Stencil

namespace Text

/-- Line feeds, each with the blanks before it: `([ \t]*\n)+`. -/
inductive Breaks : Text → Prop
  | one {blanks : Text} (blank : ∀ c ∈ blanks, isBlank c = true) : Breaks (blanks ++ [('\n' : Byte)])
  | more {blanks rest : Text} (blank : ∀ c ∈ blanks, isBlank c = true) (next : Breaks rest) :
    Breaks (blanks ++ ('\n' : Byte) :: rest)

/-- The breaks between two texts are no part of longer ones. -/
structure Longest (before g after : Text) : Prop where
  breaks : Breaks g
  alone : ∀ before' start finish after', before = before' ++ start → after = finish ++ after' →
    Breaks (start ++ g ++ finish) → start = [] ∧ finish = []

/-- What comes after `before`, once with all line feeds and blanks, and once with each of the longest breaks replaced by one
line feed. -/
inductive Collapses : (before t collapsed : Text) → Prop
  | last {before t : Text} (plain : ('\n' : Byte) ∉ t) : Collapses before t t
  | more {before line g rest collapsed : Text} (plain : ('\n' : Byte) ∉ line) (longest : Longest (before ++ line) g rest)
    (next : Collapses (before ++ line ++ g) rest collapsed) :
    Collapses before (line ++ g ++ rest) (line ++ ('\n' : Byte) :: collapsed)

/-- No blank and no line feed stands before a line feed. -/
def Neat (t : Text) : Prop := List.IsChain (fun c d : Byte => d = '\n' → isBlank c = false ∧ c ≠ '\n') t

variable {t t' g a b r : Text} {c : Byte}

theorem not_mem_of_isBlank (blank : ∀ c ∈ t, isBlank c = true) : ('\n' : Byte) ∉ t := fun there =>
  absurd (blank _ there) (by decide)

/-! ## Breaks -/

theorem Breaks.getLast? (h : Breaks g) : g.getLast? = some '\n' := by
  induction h with
  | one => simp
  | more _ _ ih => simp [List.getLast?_append, List.getLast?_cons, ih]

theorem Breaks.ne_nil (h : Breaks g) : g ≠ [] := List.ne_nil_of_mem (List.mem_of_getLast? h.getLast?)

theorem Breaks.bytes (h : Breaks g) : ∀ c ∈ g, isBlank c = true ∨ c = '\n' := by
  induction h with
  | one blank =>
    intro c there
    rcases List.mem_append.1 there with there | there
    · exact .inl (blank c there)
    · exact .inr (List.mem_singleton.1 there)
  | more blank _ ih =>
    intro c there
    rcases List.mem_append.1 there with there | there
    · exact .inl (blank c there)
    · rcases List.mem_cons.1 there with rfl | there
      · exact .inr rfl
      · exact ih c there

theorem Breaks.cons (space : isBlank c = true ∨ c = '\n') (h : Breaks g) : Breaks (c :: g) := by
  rcases space with space | rfl
  · have blank {blanks : Text} (blank : ∀ d ∈ blanks, isBlank d = true) : ∀ d ∈ c :: blanks, isBlank d = true :=
      List.forall_mem_cons.2 ⟨space, blank⟩
    cases h with
    | one blanks => exact .one (blank blanks)
    | more blanks next => exact .more (blank blanks) next
  · exact @Breaks.more [] g (by simp) h

theorem Breaks.of_bytes (last : g.getLast? = some '\n') (bytes : ∀ c ∈ g, isBlank c = true ∨ c = '\n') : Breaks g := by
  induction g with
  | nil => cases last
  | cons c g ih =>
    obtain ⟨space, bytes⟩ := List.forall_mem_cons.1 bytes
    cases g with
    | nil =>
      cases last
      exact @Breaks.one [] (by simp)
    | cons d g => exact (ih last bytes).cons space

theorem Breaks.append (h : Breaks a) (h' : Breaks b) : Breaks (a ++ b) := by
  refine .of_bytes ?_ fun c there => (List.mem_append.1 there).elim (h.bytes c) (h'.bytes c)
  simp [List.getLast?_append, h'.getLast?]

/-- What breaks end with are breaks. -/
theorem Breaks.of_append (h : Breaks (a ++ b)) (some : b ≠ []) : Breaks b := by
  refine .of_bytes ?_ fun c there => h.bytes c (List.mem_append_right _ there)
  rw [← h.getLast?, List.getLast?_append_of_ne_nil _ some]

/-- A text starts with longest breaks, or with none. -/
theorem exists_breaks (t : Text) :
    ∃ g rest, t = g ++ rest ∧ (g = [] ∨ Breaks g) ∧ ∀ finish after, rest = finish ++ after → ¬ Breaks finish := by
  by_cases starts : ∃ g rest, t = g ++ rest ∧ Breaks g
  · obtain ⟨g, rest, rfl, breaks⟩ := starts
    have shorter : rest.length < (g ++ rest).length := by
      have := List.length_pos_of_ne_nil breaks.ne_nil
      rw [List.length_append]
      omega
    obtain ⟨h, rest, rfl, more, longest⟩ := exists_breaks rest
    refine ⟨g ++ h, rest, by simp, .inr ?_, longest⟩
    rcases more with rfl | more
    · simpa using breaks
    · exact breaks.append more
  · exact ⟨[], t, rfl, .inl rfl, fun finish after same breaks => starts ⟨finish, after, same, breaks⟩⟩
termination_by t.length

/-! ## Tidying -/

/-- A byte is written as it is, unless it ends a line that has to be tidied. -/
theorem tidyByte_of_neat (neat : c = '\n' → ∀ d ∈ r.head?, isBlank d = false ∧ d ≠ '\n') : tidyByte r c = c :: r := by
  rw [tidyByte]
  split
  · rename_i isLineFeed
    have neat := neat (eq_of_beq isLineFeed)
    cases r with
    | nil => rfl
    | cons d r =>
      obtain ⟨visible, other⟩ := neat d rfl
      rw [List.dropWhile_cons_of_neg (by simp [visible])]
      simp [other]
  · rfl

theorem foldl_tidyByte_of_plain (plain : ('\n' : Byte) ∉ t) (r : Text) : t.foldl tidyByte r = t.reverse ++ r := by
  induction t generalizing r with
  | nil => rfl
  | cons c t ih =>
    obtain ⟨other, plain⟩ := List.ne_and_not_mem_of_not_mem_cons plain
    rw [List.foldl_cons, tidyByte_of_neat fun same => absurd same.symm other, ih plain]
    simp

theorem tidyByte_append_blanks (blank : ∀ c ∈ a, isBlank c = true) (r : Text) : tidyByte (a ++ r) '\n' = tidyByte r '\n' := by
  simp only [tidyByte, List.dropWhile_append_of_pos blank, beq_self_eq_true, if_true]

theorem head?_tidyByte (r : Text) : (tidyByte r '\n').head? = some '\n' := by
  simp only [tidyByte]
  split
  · split
    · exact eq_of_beq ‹_›
    · rfl
  · rfl

/-- A line feed right after another one is lost. -/
theorem tidyByte_tidyByte (r : Text) : tidyByte (tidyByte r '\n') '\n' = tidyByte r '\n' := by
  obtain ⟨r', same⟩ : ∃ r', tidyByte r '\n' = ('\n' : Byte) :: r' := List.head?_eq_some_iff.1 (head?_tidyByte r)
  rw [same, tidyByte, List.dropWhile_cons_of_neg (by decide)]
  simp

/-- Breaks come to no more than one line feed does. -/
theorem Breaks.foldl_tidyByte (h : Breaks g) (r : Text) : g.foldl tidyByte r = tidyByte r '\n' := by
  have line {blanks : Text} (blank : ∀ c ∈ blanks, isBlank c = true) (r : Text) :
      tidyByte (blanks.foldl tidyByte r) '\n' = tidyByte r '\n' := by
    rw [foldl_tidyByte_of_plain (not_mem_of_isBlank blank), tidyByte_append_blanks (by simpa using blank)]
  induction h generalizing r with
  | one blank => rw [List.foldl_append, List.foldl_cons, line blank, List.foldl_nil]
  | more blank _ ih => rw [List.foldl_append, List.foldl_cons, line blank, ih, tidyByte_tidyByte]

/-- Neither a blank nor a line feed stands before the longest breaks. -/
theorem Longest.neat (h : Longest a g b) {d : Byte} (last : d ∈ a.getLast?) : isBlank d = false ∧ d ≠ '\n' := by
  obtain ⟨a, rfl⟩ := List.getLast?_eq_some_iff.1 (Option.mem_def.1 last)
  by_contra untidy
  have space : isBlank d = true ∨ d = '\n' := by
    by_contra neither
    exact untidy (by simpa only [not_or, Bool.not_eq_true] using neither)
  have longer : Breaks ([d] ++ g ++ []) := by simpa using h.breaks.cons space
  exact absurd (h.alone a [d] [] b rfl rfl longer).1 (by simp)

theorem Longest.of_neat (breaks : Breaks g) (neat : ∀ d ∈ a.getLast?, isBlank d = false ∧ d ≠ '\n')
    (last : ∀ finish after, b = finish ++ after → ¬ Breaks finish) : Longest a g b := by
  refine ⟨breaks, fun before start finish after left right joined => ⟨?_, ?_⟩⟩
  · by_contra some
    obtain ⟨start, d, rfl⟩ := (List.eq_nil_or_concat' start).resolve_left some
    obtain ⟨visible, other⟩ := neat d (by simp [left])
    rcases joined.bytes d (by simp) with blank | same
    · rw [blank] at visible
      cases visible
    · exact other same
  · by_contra some
    exact last finish after right (joined.of_append some)

/-- Going through a text writes it with its breaks collapsed, as long as what has been written ends like what was read. -/
theorem Collapses.foldl_tidyByte {before : Text} (h : Collapses before t t') (same : r.head? = before.getLast?) :
    t.foldl tidyByte r = t'.reverse ++ r := by
  induction h generalizing r with
  | last plain => exact foldl_tidyByte_of_plain plain r
  | @more before line g rest collapsed plain longest _ ih =>
    have ends : (line.reverse ++ r).head? = (before ++ line).getLast? := by
      rw [List.head?_append, List.head?_reverse, List.getLast?_append, same]
    have written : tidyByte (line.reverse ++ r) '\n' = ('\n' : Byte) :: (line.reverse ++ r) :=
      tidyByte_of_neat fun _ d there => longest.neat (ends ▸ there)
    rw [List.foldl_append, List.foldl_append, foldl_tidyByte_of_plain plain, longest.breaks.foldl_tidyByte, written, ih]
    · simp
    · simp [List.getLast?_append, longest.breaks.getLast?]

/-- Up to its first line feed a text is a line, then the longest breaks follow. -/
theorem exists_line (some : ('\n' : Byte) ∈ t) :
    ∃ line g rest, t = line ++ g ++ rest ∧ ('\n' : Byte) ∉ line ∧ (∀ d ∈ line.getLast?, isBlank d = false ∧ d ≠ '\n') ∧
      Breaks g ∧ ∀ finish after, rest = finish ++ after → ¬ Breaks finish := by
  obtain ⟨front, after, rfl, plain⟩ := List.eq_append_cons_of_mem some
  obtain ⟨more, rest, rfl, breaks, longest⟩ := exists_breaks after
  have split : front.rdropWhile isBlank ++ front.rtakeWhile isBlank = front := List.rdropWhile_append_rtakeWhile ..
  have blank : ∀ c ∈ front.rtakeWhile isBlank, isBlank c = true := fun c there => List.mem_rtakeWhile_imp there
  have plain : ('\n' : Byte) ∉ front.rdropWhile isBlank := fun there => plain ((List.rdropWhile_prefix ..).mem there)
  refine ⟨front.rdropWhile isBlank, front.rtakeWhile isBlank ++ ('\n' : Byte) :: more, rest, ?_, plain, fun d last => ?_, ?_,
    longest⟩
  · rw [← List.append_assoc, split]
    simp
  · have there := List.mem_of_getLast? last
    refine ⟨?_, fun same => plain (same ▸ there)⟩
    have visible := List.rdropWhile_last_not isBlank front (List.ne_nil_of_mem there)
    rw [(List.getLast_eq_iff_getLast?_eq_some _).2 last] at visible
    simpa using visible
  · rcases breaks with rfl | breaks
    · exact .one blank
    · exact .more blank breaks

/-- What comes after a text can be collapsed, if no breaks reach over from there. -/
theorem exists_collapses (before t : Text) (apart : before = [] ∨ ∀ g rest, t = g ++ rest → ¬ Breaks g) :
    ∃ t', Collapses before t t' := by
  by_cases some : ('\n' : Byte) ∈ t
  · obtain ⟨line, g, rest, rfl, plain, neat, breaks, longest⟩ := exists_line some
    have alone : Longest (before ++ line) g rest := by
      refine .of_neat breaks (fun d last => ?_) longest
      cases line with
      -- the text itself starts with breaks, so nothing comes before it
      | nil =>
        obtain rfl : before = [] := apart.resolve_right fun none => none g rest rfl breaks
        cases last
      | cons c line => exact neat d (by rwa [List.getLast?_append_of_ne_nil _ (by simp)] at last)
    have shorter : rest.length < (line ++ g ++ rest).length := by
      have := List.length_pos_of_ne_nil breaks.ne_nil
      simp only [List.length_append]
      omega
    obtain ⟨t', collapsed⟩ := exists_collapses (before ++ line ++ g) rest (.inr longest)
    exact ⟨_, .more plain alone collapsed⟩
  · exact ⟨t, .last some⟩
termination_by t.length

/-- **Tidying replaces each of the longest breaks by one line feed**, and changes nothing else. -/
theorem collapses_iff : Collapses [] t t' ↔ t' = t.tidy := by
  have only {t' : Text} (h : Collapses [] t t') : t' = t.tidy := by
    rw [tidy, h.foldl_tidyByte rfl]
    simp
  refine ⟨only, ?_⟩
  rintro rfl
  obtain ⟨t', collapsed⟩ := exists_collapses [] t (.inl rfl)
  rwa [← only collapsed]

/-! ## Tidy texts -/

/-- The text that is kept in reverse. -/
theorem neat_reverse_cons :
    Neat (c :: r).reverse ↔ (c = '\n' → ∀ d ∈ r.head?, isBlank d = false ∧ d ≠ '\n') ∧ Neat r.reverse := by
  simp only [Neat, List.isChain_reverse, List.isChain_cons]
  exact and_congr_left fun _ => ⟨fun h same d there => h d there same, fun h d there same => h same d there⟩

theorem Neat.tidyByte (neat : Neat r.reverse) (c : Byte) : Neat (Text.tidyByte r c).reverse := by
  have trimmed : Neat (r.dropWhile isBlank).reverse := by
    refine neat.prefix ?_
    rw [List.reverse_prefix]
    exact List.dropWhile_suffix _
  rw [Text.tidyByte]
  split
  · dsimp only
    split
    · exact trimmed
    · rename_i other
      refine neat_reverse_cons.2 ⟨fun _ d there => ⟨?_, ?_⟩, trimmed⟩
      · have visible := List.head?_dropWhile_not isBlank r
        rwa [there] at visible
      · rintro rfl
        exact other (by rw [there]; rfl)
  · rename_i other
    exact neat_reverse_cons.2 ⟨fun same => absurd (beq_iff_eq.2 same) other, neat⟩

/-- **In a tidied text no line ends in a blank, and no line feed follows another one.** -/
theorem neat_tidy (t : Text) : Neat t.tidy := by
  have all (r : Text) (neat : Neat r.reverse) : Neat (t.foldl Text.tidyByte r).reverse := by
    induction t generalizing r with
    | nil => exact neat
    | cons c t ih => exact ih _ (neat.tidyByte c)
  exact all [] .nil

theorem Neat.foldl_tidyByte (neat : Neat (r.reverse ++ t)) : t.foldl Text.tidyByte r = t.reverse ++ r := by
  induction t generalizing r with
  | nil => rfl
  | cons c t ih =>
    have whole : r.reverse ++ c :: t = (c :: r).reverse ++ t := by simp
    rw [whole] at neat
    rw [List.foldl_cons, tidyByte_of_neat (neat_reverse_cons.1 neat.left_of_append).1, ih neat]
    simp

/-- **A text that is neat stays as it is.** -/
theorem Neat.tidy_eq (neat : Neat t) : t.tidy = t := by
  rw [tidy, Neat.foldl_tidyByte (r := []) neat]
  simp

theorem tidy_tidy (t : Text) : t.tidy.tidy = t.tidy := (neat_tidy t).tidy_eq

end Text

end Stencil
