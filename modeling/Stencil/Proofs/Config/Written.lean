import Stencil.File.Tree
import Stencil.Proofs.Config.Ending
import Stencil.Proofs.Config.Quoted
import Stencil.Proofs.Text.Pieces

/-!
# Configurations written to files

A configuration is written as lines: a header for each section, followed by its entries. Each of these lines is one
physical line of the file and is read as it stands (`Config.linesFrom_cons`). A header opens its section, and an entry is
added to it, or refused if its value is misread. So what is read from the file is the configuration, or nothing
(`Config.written_read_back_iff`).
-/

namespace Stencil

namespace Config

open Text (isBlank)

/-- A section that can be written. -/
structure Section.Writable (s : Section) : Prop where
  some : s.name ≠ []
  letters : ∀ c ∈ s.name, c.isLetter = true
  entries : ∀ e ∈ s.entries, e.Writable
  distinct : (s.entries.map (·.name)).Nodup

structure Writable (c : Config) : Prop where
  sections : ∀ s ∈ c.sections, s.Writable
  distinct : (c.sections.map (·.name)).Nodup

instance : DecidablePred Section.Writable := fun s => decidable_of_iff (s.name ≠ [] ∧ s.name.all Byte.isLetter = true ∧
    (∀ e ∈ s.entries, e.Writable) ∧ (s.entries.map (·.name)).Nodup)
  ⟨fun ⟨named, letters, entries, distinct⟩ => ⟨named, List.all_eq_true.1 letters, entries, distinct⟩,
    fun h => ⟨h.some, List.all_eq_true.2 h.letters, h.entries, h.distinct⟩⟩

instance : DecidablePred Writable := fun c =>
  decidable_of_iff ((∀ s ∈ c.sections, s.Writable) ∧ (c.sections.map (·.name)).Nodup)
    ⟨fun ⟨sections, distinct⟩ => ⟨sections, distinct⟩, fun h => ⟨h.sections, h.distinct⟩⟩

def Section.header (s : Section) : Text := ('[' : Byte) :: (s.name ++ "]")

/-- The lines of a section. -/
def Section.written (s : Section) : List Text := s.header :: s.entries.map Entry.line

/-- What a configuration is written as, with a line feed at the end of each line. -/
def written (c : Config) : Text := (c.sections.flatMap Section.written).flatMap (· ++ "\n")

variable {l : Text} {ls : List Text} {n : Nat} {e : Entry} {s : Section} {ss : List Section} {es : List Entry}
  {name : Text} (fs : FileSystem) (filename : Text)

/-! ## Lines of a file -/

/-- A line that is not joined with the next one. -/
structure Alone (l : Text) : Prop where
  first : ∀ c ∈ l.head?, isBlank c = false
  last : ∀ c ∈ l.getLast?, isBlank c = false ∧ c ≠ '\\'
  noFeed : ('\n' : Byte) ∉ l

/-- The lines that are read from physical lines, the first of which has the number `n + 1`. -/
def linesFrom (n : Nat) (ls : List Text) : List Line := ((joinLines n none ls).map Line.ofJoined).filter (!·.text.isEmpty)

theorem pieces_feeds (h : ∀ l ∈ ls, ('\n' : Byte) ∉ l) : Text.pieces '\n' (ls.flatMap (· ++ "\n")) = ls ++ [[]] := by
  induction ls with
  | nil => rfl
  | cons l ls ih =>
    obtain ⟨noFeed, others⟩ := List.forall_mem_cons.1 h
    rw [List.flatMap_cons, List.append_assoc]
    show Text.pieces '\n' (l ++ ('\n' : Byte) :: ls.flatMap (· ++ "\n")) = _
    rw [Text.pieces_append, Text.pieces_whole noFeed, ih others]
    rfl

theorem lines_feeds (h : ∀ l ∈ ls, Alone l) : lines (ls.flatMap (· ++ "\n")) = linesFrom 0 ls := by
  have physical : physicalLines (ls.flatMap (· ++ "\n")) = ls := by
    rw [physicalLines, pieces_feeds fun l hl => (h l hl).noFeed]
    simp
  rw [lines, physical, linesFrom]

theorem linesFrom_cons (alone : Alone l) (some : (Line.ofJoined (n + 1, l)).text ≠ []) (ls : List Text) :
    linesFrom n (l :: ls) = Line.ofJoined (n + 1, l) :: linesFrom (n + 1) ls := by
  have trimmed : Text.trim isBlank l = l := Text.trim_of_ends alone.first fun c hc => (alone.last c hc).1
  have stops : ¬ (l.getLast? == Option.some ('\\' : Byte)) = true := by
    rw [beq_iff_eq]
    exact fun last => (alone.last _ last).2 rfl
  rw [linesFrom, joinLines]
  simp only [Option.getD_none, List.dropLast_nil, List.nil_append, trimmed]
  rw [if_neg stops, List.map_cons, List.filter_cons_of_pos (by simpa using some)]
  rfl

/-! ## Headers -/

theorem Section.Writable.bytes (h : s.Writable) : ∀ c ∈ s.name, isBlank c = false ∧ c ≠ '#' ∧ c ≠ '\n' := by
  intro c hc
  have letter := h.letters c hc
  revert letter
  exact Byte.of_codes (p := fun c => c.isLetter = true → isBlank c = false ∧ c ≠ '#' ∧ c ≠ '\n') (by decide +kernel) c

theorem Section.getLast?_header (s : Section) : s.header.getLast? = some (']' : Byte) := by
  rw [Section.header, ← List.cons_append, List.getLast?_append]
  rfl

theorem Section.Writable.alone (h : s.Writable) : Alone s.header := by
  constructor
  · rintro _ ⟨⟩
    decide
  · rw [s.getLast?_header]
    rintro _ ⟨⟩
    decide
  · simp only [Section.header, List.mem_cons, List.mem_append, not_or]
    exact ⟨by decide, fun there => (h.bytes _ there).2.2 rfl, by decide⟩

theorem Section.Writable.ofJoined (h : s.Writable) (k : Nat) : Line.ofJoined (k, s.header) = ⟨k, s.header, []⟩ := by
  have noHash : ('#' : Byte) ∉ s.header := by
    simp only [Section.header, List.mem_cons, List.mem_append, not_or]
    exact ⟨by decide, fun there => (h.bytes _ there).2.1 rfl, by decide⟩
  have split : splitComment s.header = (s.header, []) := by
    rw [splitComment, hashIndex?_eq_none noHash]
  rw [Line.ofJoined, split]
  exact congrArg (Line.mk k · []) (Text.trim_of_ends h.alone.first fun c hc => (h.alone.last c hc).1)

theorem Section.Writable.readHeader (h : s.Writable) : readHeader s.header = .ok s.name := by
  have inside : inner s.header = s.name := by
    show (s.name ++ [(']' : Byte)]).dropLast = s.name
    exact List.dropLast_concat
  have trimmed : Text.trim isBlank s.name = s.name := by
    apply Text.trim_of_ends
    · exact fun c hc => (h.bytes c (List.mem_of_mem_head? hc)).1
    · exact fun c hc => (h.bytes c (List.mem_of_getLast? hc)).1
  rw [Config.readHeader, s.getLast?_header, if_pos (by decide)]
  dsimp only
  rw [inside, trimmed, if_neg (by simpa using h.some)]

/-- A header opens a section. -/
theorem readLine_header (h : s.Writable) (new : s.name ∉ ss.map (·.name)) (k : Nat) :
    readLine filename ⟨ss⟩ (Line.ofJoined (k, s.header)) = .ok (⟨ss ++ [.empty s.name]⟩, none) := by
  have unknown : hasSection ⟨ss⟩ s.name = false := by
    rw [hasSection, section?, Option.isSome_eq_false_iff, Option.isNone_iff_eq_none, List.find?_eq_none]
    intro s' there same
    exact new (List.mem_map.2 ⟨s', there, beq_iff_eq.1 same⟩)
  have opened : addSection ⟨ss⟩ s.name = .ok ⟨ss ++ [.empty s.name]⟩ := by
    rw [addSection, unknown]
    rfl
  rw [h.ofJoined, readLine]
  dsimp only
  rw [if_pos (by rfl), h.readHeader]
  simp only [bind, Except.bind, opened]
  rfl

/-! ## Entries -/

/-- A line that starts with the name of an entry includes no file. -/
theorem isInclude_name (valid : isValidName name = true) (other : name ≠ includeKeyword) (t : Text) :
    isInclude (name ++ (' ' : Byte) :: t) = false := by
  obtain ⟨-, -, parts⟩ := of_isValidName valid
  rw [isInclude, Bool.and_eq_false_iff]
  by_cases starts : includeKeyword <+: name ++ (' ' : Byte) :: t
  · right
    rcases List.prefix_or_prefix_of_prefix (List.prefix_append name ((' ' : Byte) :: t)) starts with ⟨r, longer⟩ | ⟨r, shorter⟩
    · -- a blank would be in the keyword
      rw [← longer, List.prefix_append_right_inj] at starts
      cases r with
      | nil => exact absurd ((List.append_nil name).symm.trans longer) other
      | cons c r =>
        obtain ⟨rfl, -⟩ := List.cons_prefix_cons.1 starts
        have blank : (' ' : Byte) ∈ includeKeyword := longer ▸ List.mem_append_right _ List.mem_cons_self
        exact absurd blank (by decide)
    · -- the name goes on after the keyword
      cases r with
      | nil => exact absurd ((List.append_nil includeKeyword).symm.trans shorter).symm other
      | cons c r =>
        have visible : isBlank c = false := (parts c (shorter ▸ List.mem_append_right _ List.mem_cons_self)).1
        have next : (name ++ (' ' : Byte) :: t)[includeKeyword.length]? = some c := by
          rw [← shorter, List.append_assoc, List.getElem?_append_right (Nat.le_refl _), Nat.sub_self]
          rfl
        rw [next]
        exact visible
  · left
    rw [← Bool.not_eq_true, List.isPrefixOf_iff_prefix]
    exact starts

theorem addEntry_new (new : e.name ∉ es.map (·.name)) :
    addEntry ⟨ss ++ [⟨name, es⟩]⟩ e = .ok ⟨ss ++ [⟨name, es ++ [e]⟩]⟩ := by
  have unknown : Section.find? ⟨name, es⟩ e.name = none := by
    rw [Section.find?, List.find?_eq_none]
    intro e' there same
    exact new (List.mem_map.2 ⟨e', there, beq_iff_eq.1 same⟩)
  rw [addEntry, List.getLast?_concat, List.dropLast_concat]
  dsimp only [Option.getD_some]
  rw [Section.insert, unknown]

/-- **The line of an entry adds it, or is refused as its value is misread.** -/
theorem readLine_entry (h : e.Writable) (new : e.name ∉ es.map (·.name)) (k : Nat) :
    (¬ Misread e.value ∧ readLine filename ⟨ss ++ [⟨name, es⟩]⟩ (Line.ofJoined (k, e.line)) =
        .ok (⟨ss ++ [⟨name, es ++ [e]⟩]⟩, none)) ∨
      (Misread e.value ∧ ∃ u, readLine filename ⟨ss ++ [⟨name, es⟩]⟩ (Line.ofJoined (k, e.line)) =
        .error (.line (cutCause u) k filename)) := by
  obtain ⟨some, letter, -⟩ := of_isValidName h.name
  obtain ⟨t, comment, line, -⟩ := ofJoined_line h.name k
  have noHeader : ¬ ((Line.ofJoined (k, e.line)).text.head? == Option.some ('[' : Byte)) = true := by
    obtain ⟨d, rest, same⟩ := List.exists_cons_of_ne_nil some
    rw [line, same, beq_iff_eq]
    rintro ⟨⟩
    exact absurd (letter '[' (by rw [same]; rfl)) (by decide)
  have noInclude : ¬ isInclude (Line.ofJoined (k, e.line)).text = true := by
    rw [line]
    exact Bool.eq_false_iff.1 (isInclude_name h.name h.noInclude _)
  have number : (Line.ofJoined (k, e.line)).number = k := rfl
  rw [readLine]
  dsimp only
  rw [if_neg noHeader, if_neg noInclude, number]
  rcases readEntry_line h k with ⟨fine, read⟩ | ⟨misread, u, read⟩
  · refine .inl ⟨fine, ?_⟩
    simp only [read, bind, Except.bind, addEntry_new new]
    rfl
  · refine .inr ⟨misread, u, ?_⟩
    simp only [read, bind, Except.bind]

theorem Entry.Writable.alone (h : e.Writable) : Alone e.line := by
  obtain ⟨some, -, parts⟩ := of_isValidName h.name
  constructor
  · obtain ⟨d, rest, same⟩ := List.exists_cons_of_ne_nil some
    rw [Entry.line, same]
    rintro _ ⟨⟩
    exact (parts d (same ▸ List.mem_cons_self)).1
  · rw [Entry.line, List.getLast?_append, List.getLast?_append, List.getLast?_append]
    rintro _ ⟨⟩
    decide
  · have escaped : ('\n' : Byte) ∉ escape e.value := by
      intro there
      obtain ⟨c, -, inside⟩ := List.mem_flatMap.1 there
      revert inside
      exact Byte.of_codes (p := fun c => ('\n' : Byte) ∉ escapeByte c) (by decide +kernel) c
    simp only [Entry.line, List.mem_append, not_or]
    exact ⟨fun there => (parts _ there).2 '\n' (by decide) rfl, by decide, escaped, by decide⟩

theorem text_line_ne_nil (h : e.Writable) (k : Nat) : (Line.ofJoined (k, e.line)).text ≠ [] := by
  obtain ⟨some, -⟩ := of_isValidName h.name
  obtain ⟨t, comment, line, -⟩ := ofJoined_line h.name k
  rw [line]
  exact List.append_ne_nil_of_left_ne_nil some _

/-! ## Files -/

/-- A line is refused as a value in it has lost its end. -/
def Refused (fs : FileSystem) (filename : Text) (m : Reader) : Prop :=
  ∃ u k, Leads fs m (.ended (.error (.line (cutCause u) k filename)))

variable {fs filename} in
theorem Refused.of_leads {m m' : Reader} (h : Leads fs m m') (refused : Refused fs filename m') : Refused fs filename m := by
  obtain ⟨u, k, ends⟩ := refused
  exact ⟨u, k, h.trans ends⟩

/-- The entries of a section are read one after the other. -/
theorem read_entries {done : List Entry} (h : ∀ e ∈ es, e.Writable) (distinct : ((done ++ es).map (·.name)).Nodup) (n : Nat)
    (ls : List Text) :
    ((∀ e ∈ es, ¬ Misread e.value) ∧
      Leads fs (.reading ⟨ss ++ [⟨name, done⟩]⟩ [⟨filename, linesFrom n (es.map Entry.line ++ ls)⟩])
        (.reading ⟨ss ++ [⟨name, done ++ es⟩]⟩ [⟨filename, linesFrom (n + es.length) ls⟩])) ∨
    ((∃ e ∈ es, Misread e.value) ∧ Refused fs filename
      (.reading ⟨ss ++ [⟨name, done⟩]⟩ [⟨filename, linesFrom n (es.map Entry.line ++ ls)⟩])) := by
  induction es generalizing done n with
  | nil =>
    refine .inl ⟨List.forall_mem_nil _, ?_⟩
    rw [List.append_nil]
    exact .refl _
  | cons e es ih =>
    obtain ⟨writable, others⟩ := List.forall_mem_cons.1 h
    have new : e.name ∉ done.map (·.name) := by
      rw [List.map_append, List.map_cons, List.nodup_append] at distinct
      exact fun there => distinct.2.2 _ there _ List.mem_cons_self rfl
    rw [List.map_cons, List.cons_append, linesFrom_cons writable.alone (text_line_ne_nil writable _)]
    rcases readLine_entry filename writable new (n + 1) with ⟨fine, read⟩ | ⟨misread, u, read⟩
    · have moved : ((done ++ [e] ++ es).map (·.name)).Nodup := by
        rw [List.append_assoc]
        exact distinct
      rcases ih others moved (n + 1) with ⟨rest, there⟩ | ⟨⟨e', he', misread⟩, refused⟩
      · refine .inl ⟨List.forall_mem_cons.2 ⟨fine, rest⟩, (leads_line read).trans ?_⟩
        rw [List.append_assoc, Nat.add_assoc, Nat.add_comm 1] at there
        exact there
      · exact .inr ⟨⟨e', List.mem_cons_of_mem e he', misread⟩, .of_leads (leads_line read) refused⟩
    · exact .inr ⟨⟨e, List.mem_cons_self, misread⟩, u, n + 1, leads_refused read⟩

/-- **The sections of a configuration are read one after the other.** -/
theorem read_sections (h : ∀ s ∈ ss, s.Writable) {done : List Section} (distinct : ((done ++ ss).map (·.name)).Nodup) (n : Nat) :
    ((∀ s ∈ ss, ∀ e ∈ s.entries, ¬ Misread e.value) ∧
      Leads fs (.reading ⟨done⟩ [⟨filename, linesFrom n (ss.flatMap Section.written)⟩]) (.ended (.ok ⟨done ++ ss⟩))) ∨
    ((∃ s ∈ ss, ∃ e ∈ s.entries, Misread e.value) ∧
      Refused fs filename (.reading ⟨done⟩ [⟨filename, linesFrom n (ss.flatMap Section.written)⟩])) := by
  induction ss generalizing done n with
  | nil =>
    refine .inl ⟨List.forall_mem_nil _, 2, ?_⟩
    rw [List.append_nil]
    rfl
  | cons s ss ih =>
    obtain ⟨writable, others⟩ := List.forall_mem_cons.1 h
    have new : s.name ∉ done.map (·.name) := by
      rw [List.map_append, List.map_cons, List.nodup_append] at distinct
      exact fun there => distinct.2.2 _ there _ List.mem_cons_self rfl
    have some : (Line.ofJoined (n + 1, s.header)).text ≠ [] := by
      rw [writable.ofJoined]
      exact List.cons_ne_nil _ _
    have inside : ((([] : List Entry) ++ s.entries).map (·.name)).Nodup := writable.distinct
    have moved : ((done ++ [s] ++ ss).map (·.name)).Nodup := by
      rw [List.append_assoc]
      exact distinct
    have header (ls : List Line) : Leads fs (.reading ⟨done⟩ [⟨filename, .ofJoined (n + 1, s.header) :: ls⟩])
        (.reading ⟨done ++ [⟨s.name, []⟩]⟩ [⟨filename, ls⟩]) :=
      leads_line (readLine_header filename writable new (n + 1))
    rw [List.flatMap_cons, Section.written, List.cons_append, linesFrom_cons writable.alone some]
    rcases read_entries fs filename writable.entries inside (n + 1) (ss.flatMap Section.written) with
      ⟨fine, read⟩ | ⟨⟨e, he, misread⟩, refused⟩
    · rcases ih others moved (n + 1 + s.entries.length) with ⟨rest, there⟩ | ⟨⟨s', hs', misread⟩, refused⟩
      · refine .inl ⟨List.forall_mem_cons.2 ⟨fine, rest⟩, (header _).trans (read.trans ?_)⟩
        rw [List.append_assoc] at there
        exact there
      · exact .inr ⟨⟨s', List.mem_cons_of_mem s hs', misread⟩, .of_leads ((header _).trans read) refused⟩
    · exact .inr ⟨⟨s, List.mem_cons_self, e, he, misread⟩, .of_leads (header _) refused⟩

variable {fs} {c : Config}

theorem Writable.alone (writable : c.Writable) : ∀ l ∈ c.sections.flatMap Section.written, Alone l := by
  intro l hl
  obtain ⟨s, hs, inside⟩ := List.mem_flatMap.1 hl
  have here := writable.sections s hs
  rcases List.mem_cons.1 inside with rfl | inside
  · exact here.alone
  · obtain ⟨e, he, rfl⟩ := List.mem_map.1 inside
    exact (here.entries e he).alone

/-- A file with a configuration is read line by line. -/
theorem reads_iff_lines (writable : c.Writable) (file : fs.openText 0 (fs.fullName name) = .ok c.written)
    {r : Except ReadError Config} :
    Reads fs name r ↔
      Leads fs (.reading ⟨[]⟩ [⟨fs.fullName name, linesFrom 0 (c.sections.flatMap Section.written)⟩]) (.ended r) := by
  have opened : openFile fs (fs.fullName name) ⟨[]⟩ [] = .reading ⟨[]⟩ [⟨fs.fullName name, lines c.written⟩] := by
    rw [openFile, List.length_nil, file]
  rw [reads_iff, opened, ← lines_feeds writable.alone]
  rfl

/-- **A configuration that is written to a file is read back, or refused.** It is read back if and only if no value in it
is misread. -/
theorem written_read_back_iff (writable : c.Writable) (file : fs.openText 0 (fs.fullName name) = .ok c.written) :
    (Reads fs name (.ok c) ∨ ∃ cause ∈ [LineCause.badQuotes, .badEscape .trailingBackslash], ∃ k,
      Reads fs name (.error (.line cause k (fs.fullName name)))) ∧
    (Reads fs name (.ok c) ↔ ∀ s ∈ c.sections, ∀ e ∈ s.entries, ¬ Misread e.value) := by
  have distinct : ((([] : List Section) ++ c.sections).map (·.name)).Nodup := writable.distinct
  simp only [reads_iff_lines writable file]
  rcases read_sections fs (fs.fullName name) writable.sections distinct 0 with
    ⟨fine, all⟩ | ⟨⟨s, hs, e, he, misread⟩, u, k, refused⟩
  · exact ⟨.inl all, fun _ => fine, fun _ => all⟩
  · refine ⟨.inr ⟨cutCause u, ?_, k, refused⟩, fun all => ?_, fun fine => absurd misread (fine s hs e he)⟩
    · unfold cutCause
      split <;> simp
    · cases all.unique refused

/-- Escapes of all kinds, hash marks in and out of what looks like quotes, and a section without entries. -/
theorem written_read_back_iff_escaped :
    let c : Config := ⟨[⟨"S", [⟨"x", "\"a\" # \\", []⟩, ⟨"include.y", "\"\\#\t\"#\n ", []⟩]⟩, ⟨"T", []⟩]⟩
    let fs := ((FileTree.empty ["W"]).add "/W/t.conf" (.text c.written) ⟨0, 0⟩).system 1
    c.Writable ∧ fs.openText 0 (fs.fullName "t.conf") = .ok c.written ∧
      (∀ s ∈ c.sections, ∀ e ∈ s.entries, ¬ Misread e.value) ∧ Reads fs "t.conf" (.ok c) := by
  intro c fs
  have writable : c.Writable := by decide
  have file : fs.openText 0 (fs.fullName "t.conf") = .ok c.written := by decide +kernel
  have fine : ∀ s ∈ c.sections, ∀ e ∈ s.entries, ¬ Misread e.value := by decide
  exact ⟨writable, file, fine, (written_read_back_iff writable file).2.2 fine⟩

/-- The hash mark after an escaped quote is taken for the start of a comment. -/
theorem escaped_quote_misread :
    let c : Config := ⟨[⟨"S", [⟨"x", "a\"#b", []⟩]⟩]⟩
    let fs := ((FileTree.empty ["W"]).add "/W/t.conf" (.text c.written) ⟨0, 0⟩).system 1
    c.Writable ∧ c.written = "[S]\nx = \"a\\\"#b\"\n" ∧ fs.openText 0 (fs.fullName "t.conf") = .ok c.written ∧
      Reads fs "t.conf" (.error (.line (.badEscape .trailingBackslash) 2 "/W/t.conf")) ∧ ¬ Reads fs "t.conf" (.ok c) := by
  intro c fs
  have writable : c.Writable := by decide
  have file : fs.openText 0 (fs.fullName "t.conf") = .ok c.written := by decide +kernel
  have ls : linesFrom 0 (c.sections.flatMap Section.written) = [⟨1, "[S]", []⟩, ⟨2, "x = \"a\\\"", "#b\""⟩] := by rfl
  have header : readLine "/W/t.conf" ⟨[]⟩ ⟨1, "[S]", []⟩ = .ok (⟨[⟨"S", []⟩]⟩, none) := by rfl
  have cut : readLine "/W/t.conf" ⟨[⟨"S", []⟩]⟩ ⟨2, "x = \"a\\\"", "#b\""⟩ =
      .error (.line (.badEscape .trailingBackslash) 2 "/W/t.conf") := by
    have noHeader : ((("x = \"a\\\"" : Text).head? == some ('[' : Byte)) = true) = False := eq_false nofun
    have noInclude : (isInclude "x = \"a\\\"" = true) = False := eq_false nofun
    have sign : Text.indexOf? "=" "x = \"a\\\"" = some 2 := rfl
    have name : Text.trim isBlank (("x = \"a\\\"" : Text).take 2) = "x" := rfl
    have valid : isValidName "x" = true := rfl
    have value : Text.trim isBlank (("x = \"a\\\"" : Text).drop (2 + 1)) = "\"a\\\"" := rfl
    have end_lost : readValue "\"a\\\"" = .error (.badEscape .trailingBackslash) := rfl
    simp only [readLine, noHeader, noInclude, if_false, readEntry, sign, name, valid, if_true, value, end_lost]
    rfl
  have place : fs.fullName "t.conf" = "/W/t.conf" := by rfl
  have refused : Reads fs "t.conf" (.error (.line (.badEscape .trailingBackslash) 2 "/W/t.conf")) := by
    rw [reads_iff_lines writable file, ls, place]
    exact (leads_line header).trans (leads_refused cut)
  refine ⟨writable, by decide, file, refused, fun read => ?_⟩
  cases (reads_iff.1 read).unique (reads_iff.1 refused)

end Config

end Stencil
