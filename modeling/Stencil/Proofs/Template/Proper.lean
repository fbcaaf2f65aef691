import Stencil.Proofs.Document.Pairing
import Stencil.Proofs.Template.Readings

/-!
# Directives that keep tags paired

Directives are applied to an element one after the other. Those that remove or keep the tags of the
element take its first and its last event for them, so they have to be applied to the element as a whole;
the others may be applied to any events whose tags are paired (`Directive.keepsPairs`). Events are proper
if this is so for every element with directives in them, however deep.

A document in which the tags are paired and no element carries both `strip` and `content` compiles to
proper events whose tags are paired (`Compile.proper_of_template`).
-/

namespace Stencil

/-- What an expansion relies upon: the slots in which only proper events with paired tags are captured, and
the number from which on the streams that are values are its own. -/
structure Trust where
  body : BodyId → Prop
  firstStream : Nat

/-- Directives, the one to be applied first in front, get the element as a whole where they need it. -/
def Directive.keepsPairs (whole : Bool) : List Directive → Bool
  | [] => true
  | .strip _ :: ds | .content _ :: ds => whole && keepsPairs false ds
  | .attributes _ :: ds => keepsPairs whole ds
  | .extension .. :: _ => false
  | _ :: ds => keepsPairs false ds

mutual

/-- The directives of the event keep its tags paired, also those inside of it, and their slots are trusted. -/
def Event.Proper (trust : Trust) : Event → Prop
  | .sub _ ds es =>
    ((Event.Whole es ∧ Directive.keepsPairs true ds.reverse = true) ∨
        (Event.Paired es ∧ Directive.keepsPairs false ds.reverse = true)) ∧
      Directive.AllProper trust ds ∧ Event.AllProper trust es
  | _ => True

def Event.AllProper (trust : Trust) : List Event → Prop
  | [] => True
  | e :: es => e.Proper trust ∧ Event.AllProper trust es

/-- The slot of the directive is trusted, and the tags of its matched events are paired, if it has some. -/
def Directive.Proper (trust : Trust) : Directive → Prop
  | .define _ body | .capture body => trust.body body
  | .expand body matched => trust.body body ∧ Event.Paired matched ∧ Event.AllProper trust matched
  | _ => True

def Directive.AllProper (trust : Trust) : List Directive → Prop
  | [] => True
  | d :: ds => d.Proper trust ∧ Directive.AllProper trust ds

end

/-- What the filter puts in the place of elements is trusted. -/
def Filter.Proper (trust : Trust) : Filter → Prop
  | .evaluate | .tidy => True
  | .substitute _ body => trust.body body
  | .inclusion _ => False

variable {trust : Trust}

theorem Event.allProper_iff {es : List Event} : AllProper trust es ↔ ∀ e ∈ es, e.Proper trust := by
  induction es with
  | nil => simp [AllProper]
  | cons e es ih => simp [AllProper, ih]

theorem Directive.allProper_iff {ds : List Directive} : AllProper trust ds ↔ ∀ d ∈ ds, d.Proper trust := by
  induction ds with
  | nil => simp [AllProper]
  | cons d ds ih => simp [AllProper, ih]

theorem Directive.allProper_reverse {ds : List Directive} : AllProper trust ds.reverse ↔ AllProper trust ds := by
  simp only [allProper_iff, List.mem_reverse]

theorem Event.allProper_append {es fs : List Event} : AllProper trust (es ++ fs) ↔ AllProper trust es ∧ AllProper trust fs := by
  simp only [allProper_iff, List.mem_append, or_imp, forall_and]

theorem Event.allProper_reverse {es : List Event} : AllProper trust es.reverse ↔ AllProper trust es := by
  simp only [allProper_iff, List.mem_reverse]

/-! ## Directives in the order of their rank -/

namespace Directive

/-- Where nothing needs the element as a whole, it need not be one. -/
theorem keepsPairs_of_others {ds : List Directive} (whole : Bool) (builtin : ∀ d ∈ ds, d.rank < DirectiveName.firstFreeRank)
    (others : ∀ d ∈ ds, d.rank ≠ DirectiveName.strip.rank ∧ d.rank ≠ DirectiveName.content.rank) :
    keepsPairs whole ds = true := by
  induction ds generalizing whole with
  | nil => rfl
  | cons d ds ih =>
    obtain ⟨rank, builtin⟩ := List.forall_mem_cons.1 builtin
    obtain ⟨⟨noStrip, noContent⟩, others⟩ := List.forall_mem_cons.1 others
    have rest := fun whole => ih whole builtin others
    cases d with
    | strip => exact absurd rfl noStrip
    | content => exact absurd rfl noContent
    | extension => exact absurd rank (Nat.not_lt.2 (Nat.le_add_right _ _))
    | _ => exact rest _

/-- Built-in directives of distinct ranks keep tags paired, if `strip` and `content` are not both among them. -/
theorem keepsPairs_of_ranks {ds : List Directive} (descending : ds.Pairwise fun d d' => d'.rank < d.rank)
    (builtin : ∀ d ∈ ds, d.rank < DirectiveName.firstFreeRank)
    (apart : ∀ d ∈ ds, ∀ d' ∈ ds, d.rank = DirectiveName.strip.rank → d'.rank ≠ DirectiveName.content.rank) :
    keepsPairs true ds = true := by
  induction ds with
  | nil => rfl
  | cons d ds ih =>
    obtain ⟨lower, restDescending⟩ := List.pairwise_cons.1 descending
    obtain ⟨rank, restBuiltin⟩ := List.forall_mem_cons.1 builtin
    -- what comes after a directive of the rank of `content` or a lower one does not need the element
    have others (le : d.rank ≤ 5) : keepsPairs false ds = true := by
      refine keepsPairs_of_others _ restBuiltin fun d' h => ?_
      have less := lower d' h
      change d'.rank ≠ 7 ∧ d'.rank ≠ 5
      omega
    cases d with
    | strip =>
      change keepsPairs false ds = true
      refine keepsPairs_of_others _ restBuiltin fun d' h => ⟨Nat.ne_of_lt (lower d' h), ?_⟩
      exact apart _ List.mem_cons_self d' (List.mem_cons_of_mem _ h) rfl
    | attributes =>
      change keepsPairs true ds = true
      exact ih restDescending restBuiltin fun d h d' h' => apart d (List.mem_cons_of_mem _ h) d' (List.mem_cons_of_mem _ h')
    | extension => exact absurd rank (Nat.not_lt.2 (Nat.le_add_right _ _))
    | expand => exact absurd rank (Nat.lt_irrefl _)
    | content => exact others (Nat.le_refl 5)
    | define | capture | loop | condition | replace => exact others (Nat.le_of_ble_eq_true rfl)

end Directive

/-! ## Compiling documents -/

namespace Compile

/-- The directives of a tag are built-in ones, and `strip` and `content` are not both among them. -/
structure Compatible (as : Attributes) : Prop where
  builtin : ∀ a ∈ as, isDirective a = true → ∃ n ∈ DirectiveName.builtins, n.spelling = a.name.base
  apart : ∀ a ∈ as, ∀ b ∈ as, isDirective a = true → isDirective b = true →
    a.name.base = DirectiveName.strip.spelling → b.name.base ≠ DirectiveName.content.spelling

instance (as : Attributes) : Decidable (Compatible as) :=
  decidable_of_iff (_ ∧ _) ⟨fun h => ⟨h.1, h.2⟩, fun h => ⟨h.builtin, h.apart⟩⟩

/-- The directives of the event are compatible, if it is a start tag. -/
def CompatibleTag : Event → Prop
  | .startTag _ _ as => Compatible as
  | _ => True

instance : DecidablePred CompatibleTag
  | .startTag _ _ as => inferInstanceAs (Decidable (Compatible as))
  | .endTag .. | .text .. | .startNamespace .. | .endNamespace .. | .comment .. | .instruction .. | .doctype .. | .blank
  | .expression .. | .sub .. => .isTrue trivial

/-- A document whose tags are paired, and the directives of each of its tags compatible. -/
structure PairedDocument (es : List Event) : Prop where
  readable : ∀ e ∈ es, e.Readable
  paired : Event.Paired es
  compatible : ∀ e ∈ es, CompatibleTag e

variable {t : Target} {index : Nat} {p : Position} {s s' : State}

theorem proper_readNamed {n : DirectiveName} {value : Text} {place : SourcePlace} {body : BodyId} {r : DirectiveReading}
    (trusted : trust.body body) (h : Directive.readNamed n value place body = .ok r) :
    r.directive.Proper trust ∧ ∀ f ∈ r.filters, f.Proper trust := by
  have none : ∀ f ∈ ([] : List Filter), f.Proper trust := by simp
  cases readsTo_of_readNamed h with
  | define => exact ⟨trusted, none⟩
  | capture => exact ⟨trusted, List.forall_mem_singleton.2 trusted⟩
  | _ => exact ⟨trivial, none⟩

/-- What is read of compatible directives keeps tags paired. -/
theorem proper_readings {as : Attributes} {rs : List DirectiveReading} (own : ∀ slot, trust.body ⟨t.id, slot⟩)
    (distinct : as.Distinct) (compatible : Compatible as)
    (h : (as.filter isDirective).mapM (readDirective t index p) = .ok rs) :
    Directive.keepsPairs true (sortByRank (rs.map (·.directive))).reverse = true ∧
      ∀ r ∈ rs, r.directive.Proper trust ∧ ∀ f ∈ r.filters, f.Proper trust := by
  obtain ⟨all, pairwise⟩ := readings_ranked (distinct.filter _) (fun a ha => (List.mem_filter.1 ha).2) h
  constructor
  · have sources {d : Directive} (hd : d ∈ (sortByRank (rs.map (·.directive))).reverse) :
        ∃ a ∈ as, isDirective a = true ∧ ∃ n : DirectiveName, n ∈ DirectiveName.builtins ∧ a.name.base = n.spelling ∧
          d.rank = n.rank := by
      obtain ⟨r, hr, rfl⟩ := List.mem_map.1 (mem_sortByRank.1 (List.mem_reverse.1 hd))
      obtain ⟨a, ha, n, spelling, rank, read⟩ := all r hr
      obtain ⟨mem, directive⟩ := List.mem_filter.1 ha
      obtain ⟨m, builtin, name⟩ := compatible.builtin a mem directive
      obtain ⟨n', spelling', known, named⟩ := readNamed_of_read read
      obtain rfl : n' = m := Registry.spelling_inj known (List.mem_append_left _ builtin) (spelling'.trans name.symm)
      exact ⟨a, mem, directive, n', builtin, name.symm, rank_readNamed named⟩
    refine Directive.keepsPairs_of_ranks ?_ ?_ ?_
    · exact List.pairwise_reverse.2 (ascending_sortByRank (List.pairwise_map.2 pairwise))
    · intro d hd
      obtain ⟨-, -, -, n, builtin, -, rank⟩ := sources hd
      have below : ∀ n ∈ DirectiveName.builtins, n.rank < DirectiveName.firstFreeRank := by decide
      exact rank ▸ below n builtin
    · have strip : DirectiveName.strip ∈ t.registry.names := List.mem_append_left _ (by decide)
      have content : DirectiveName.content ∈ t.registry.names := List.mem_append_left _ (by decide)
      intro d hd d' hd' strips fills
      obtain ⟨a, ha, isA, n, builtin, name, rank⟩ := sources hd
      obtain ⟨b, hb, isB, m, builtin', name', rank'⟩ := sources hd'
      obtain rfl : n = .strip := Registry.rank_inj (List.mem_append_left _ builtin) strip (rank.symm.trans strips)
      obtain rfl : m = .content := Registry.rank_inj (List.mem_append_left _ builtin') content (rank'.symm.trans fills)
      exact compatible.apart a ha b hb isA isB name name'
  · intro r hr
    obtain ⟨a, -, -, -, -, read⟩ := all r hr
    obtain ⟨n, -, -, named⟩ := readNamed_of_read read
    exact proper_readNamed (own _) named

theorem proper_textEvents (trust : Trust) (p : Position) (text : Text) :
    Event.AllProper trust (textEvents p text) ∧ ∀ ns, Event.pairAll ns (textEvents p text) = some ns := by
  unfold textEvents
  induction interpolate text with
  | nil => exact ⟨trivial, fun _ => rfl⟩
  | cons f fs ih => cases f <;> exact ⟨⟨trivial, ih.1⟩, ih.2⟩

/-! ### The compiler -/

/-- What is kept of the events read so far is proper: since each of the open elements with directives, which
starts the events that are kept since, and before all of them. The names of the open elements are given. -/
def Opened (trust : Trust) : List Carrier → List Event → Nat → List Text → Prop
  | [], output, _, ns => Event.AllProper trust output ∧ Event.pairAll [] output.reverse = some ns
  | c :: cs, output, level, ns =>
    Event.AllProper trust output ∧ Directive.keepsPairs true c.directives.reverse = true ∧
      Directive.AllProper trust c.directives ∧
      ∃ p name as inside inner outer, output.reverse = .startTag p name as :: inside ∧
        Event.pairAll [] inside = some inner ∧ level = inner.length ∧ ns = inner ++ name.qualified :: outer ∧
        Opened trust cs c.before c.level outer

variable {cs : List Carrier} {output : List Event} {level : Nat} {ns ns' : List Text}

/-- Events that are kept and open no element with directives. -/
theorem Opened.keep (h : Opened trust cs output level ns) (es : List Event) (opened : List Text)
    (proper : Event.AllProper trust es) (pairs : ∀ ns, Event.pairAll ns es = some (opened ++ ns)) :
    Opened trust cs (es.reverse ++ output) (level + opened.length) (opened ++ ns) := by
  cases cs with
  | nil =>
    obtain ⟨all, paired⟩ := h
    refine ⟨Event.allProper_append.2 ⟨Event.allProper_reverse.2 proper, all⟩, ?_⟩
    rw [List.reverse_append, List.reverse_reverse, Event.pairAll_append, paired]
    exact pairs ns
  | cons c cs =>
    obtain ⟨all, keeps, directives, p, name, as, inside, inner, outer, events, paired, rfl, rfl, before⟩ := h
    refine ⟨Event.allProper_append.2 ⟨Event.allProper_reverse.2 proper, all⟩, keeps, directives, p, name, as,
      inside ++ es, opened ++ inner, outer, ?_, ?_, ?_, ?_, before⟩
    · rw [List.reverse_append, List.reverse_reverse, events, List.cons_append]
    · rw [Event.pairAll_append, paired]
      exact pairs inner
    · rw [List.length_append, Nat.add_comm]
    · rw [List.append_assoc]

/-- The names of the open elements, and that all filters are proper. -/
structure OpenedState (trust : Trust) (s : State) (ns : List Text) : Prop where
  opened : Opened trust s.carriers s.output s.level ns
  filters : ∀ f ∈ s.filters, f.Proper trust

theorem OpenedState.push (h : OpenedState trust s ns) {e : Event} (proper : e.Proper trust)
    (noStart : e.isStart = false) (noEnd : e.isEnd = false) : OpenedState trust (s.push e) ns := by
  refine ⟨h.opened.keep [e] [] ⟨proper, trivial⟩ fun ns => ?_, h.filters⟩
  rw [Event.pairAll_cons, Event.pair_leaf noStart noEnd]
  rfl

theorem OpenedState.openElement (h : OpenedState trust s ns) (p : Position) (name : QName) (as : Attributes)
    {readings : List DirectiveReading}
    (keeps : Directive.keepsPairs true (sortByRank (readings.map (·.directive))).reverse = true)
    (proper : ∀ r ∈ readings, r.directive.Proper trust ∧ ∀ f ∈ r.filters, f.Proper trust) :
    OpenedState trust (s.openElement (.startTag p name as) readings) (name.qualified :: ns) := by
  have filters : ∀ f ∈ s.filters ++ readings.flatMap DirectiveReading.filters, f.Proper trust := by
    intro f hf
    rcases List.mem_append.1 hf with old | new
    · exact h.filters f old
    · obtain ⟨r, hr, hf⟩ := List.mem_flatMap.1 new
      exact (proper r hr).2 f hf
  unfold State.openElement
  dsimp only
  split
  · exact ⟨h.opened.keep [.startTag p name as] [name.qualified] ⟨trivial, trivial⟩ fun _ => rfl, filters⟩
  · refine ⟨⟨⟨trivial, trivial⟩, keeps, Directive.allProper_iff.2 fun d hd => ?_, p, name, as, [], [], ns, rfl, rfl, rfl, rfl,
      h.opened⟩, filters⟩
    obtain ⟨r, hr, rfl⟩ := List.mem_map.1 (mem_sortByRank.1 hd)
    exact (proper r hr).1

theorem OpenedState.closeElement (h : OpenedState trust s ns) {p : Position} {name : QName}
    (closes : (Event.endTag p name).pair ns = some ns') : OpenedState trust (s.closeElement (.endTag p name)) ns' := by
  have opened := h.opened
  have closed := Event.pair_endTag closes
  unfold State.closeElement
  split
  · -- the end tag is that of the innermost element with directives
    rename_i c cs carriers level
    rw [carriers, level] at opened
    obtain ⟨all, keeps, directives, q, start, as, inside, inner, outer, events, paired, length, same, before⟩ := opened
    obtain rfl : inner = [] := List.length_eq_zero_iff.1 length.symm
    rw [List.nil_append, closed, List.cons.injEq] at same
    obtain ⟨same, rfl⟩ := same
    have element : (Event.endTag p name :: s.output).reverse = .startTag q start as :: (inside ++ [.endTag p name]) := by
      rw [List.reverse_cons, events, List.cons_append]
    have proper : Event.AllProper trust (.endTag p name :: s.output).reverse := Event.allProper_reverse.2 ⟨trivial, all⟩
    have whole : Event.Whole (.endTag p name :: s.output).reverse :=
      ⟨q, start, as, inside, p, name, element, same.symm, paired⟩
    exact ⟨before.keep [.sub _ c.directives _] [] ⟨⟨.inl ⟨whole, keeps⟩, directives, proper⟩, trivial⟩ fun _ => rfl, h.filters⟩
  · -- an element without directives ends in the innermost one that has some
    rename_i carriers
    refine ⟨?_, h.filters⟩
    change Opened trust s.carriers (.endTag p name :: s.output) (s.level - 1) ns'
    cases carrier : s.carriers with
    | nil =>
      rw [carrier] at opened
      exact ⟨⟨trivial, opened.1⟩, Event.pairAll_reverse_cons opened.2 closes⟩
    | cons c cs =>
      rw [carrier] at opened
      obtain ⟨all, keeps, directives, q, start, as, inside, inner, outer, events, paired, length, same, before⟩ := opened
      cases inner with
      | nil => exact absurd length (carriers c cs carrier)
      | cons n inner =>
        rw [closed, List.cons_append, List.cons.injEq] at same
        obtain ⟨rfl, rfl⟩ := same
        refine ⟨⟨trivial, all⟩, keeps, directives, q, start, as, inside ++ [.endTag p name], inner, outer, ?_, ?_, ?_, rfl,
          before⟩
        · rw [List.reverse_cons, events, List.cons_append]
        · rw [Event.pairAll_append, paired, Option.bind_some, Event.pairAll_cons, Event.pair_endTag_self]
          rfl
        · rw [length, List.length_cons, Nat.add_sub_cancel]

theorem OpenedState.step {e : Event} (own : ∀ slot, trust.body ⟨t.id, slot⟩) (h : OpenedState trust s ns)
    (readable : e.Readable) (compatible : CompatibleTag e)
    (pairs : e.pair ns = some ns') (r : Compile.step t s (e, index) = .ok s') : OpenedState trust s' ns' := by
  cases e with
  | startTag p name as =>
    obtain ⟨readings, read, rfl⟩ := step_startTag_ok.1 r
    cases pairs
    obtain ⟨keeps, proper⟩ := proper_readings own (readable.distinct p name as rfl) compatible read
    exact h.openElement p name _ keeps proper
  | endTag p name =>
    cases r
    exact h.closeElement pairs
  | text p text =>
    cases r
    cases pairs
    obtain ⟨proper, neutral⟩ := proper_textEvents trust p text
    exact ⟨h.opened.keep _ [] proper neutral, h.filters⟩
  | startNamespace p pre uri =>
    cases r
    cases pairs
    split
    · exact ⟨h.opened, h.filters⟩
    · exact h.push trivial rfl rfl
  | endNamespace p pre =>
    cases r
    cases pairs
    split
    · exact ⟨h.opened, h.filters⟩
    · exact h.push trivial rfl rfl
  | comment | instruction | doctype =>
    cases r
    cases pairs
    exact h.push trivial rfl rfl
  | blank | expression | sub => cases readable.markup

theorem OpenedState.run (own : ∀ slot, trust.body ⟨t.id, slot⟩) {es : List Event} (readable : ∀ e ∈ es, e.Readable)
    (compatible : ∀ e ∈ es, CompatibleTag e) (h : OpenedState trust s ns)
    (pairs : Event.pairAll ns es = some ns') (r : Compile.run t s es index = .ok s') : OpenedState trust s' ns' := by
  induction es generalizing s ns index with
  | nil =>
    cases r
    cases pairs
    exact h
  | cons e es ih =>
    obtain ⟨first, rest⟩ := List.forall_mem_cons.1 readable
    obtain ⟨compatible, others⟩ := List.forall_mem_cons.1 compatible
    obtain ⟨mid, pair, pairs⟩ := Event.pairAll_cons_some pairs
    obtain ⟨s₁, read, r⟩ := run_cons_ok.1 r
    exact ih rest others (h.step own first compatible pair read) pairs r

/-- **A paired document compiles to paired and proper events**, and to proper filters. -/
theorem proper_of_template {es : List Event} {template : Template} (own : ∀ slot, trust.body ⟨t.id, slot⟩)
    (document : PairedDocument es) (compiled : Compile.template t es = .ok template) :
    Event.Paired template.events ∧ Event.AllProper trust template.events ∧
      (∀ f ∈ template.expansionFilters, f.Proper trust) ∧ template.postFilters = [.tidy] := by
  obtain ⟨s, read, rfl⟩ := template_ok compiled
  have initial : OpenedState trust .initial [] := ⟨⟨trivial, rfl⟩, by simp [State.initial]⟩
  have final := initial.run own document.readable document.compatible document.paired read
  have opened := final.opened
  cases carriers : s.carriers with
  | nil =>
    rw [carriers] at opened
    have events : s.events = s.output.reverse := by rw [State.events_eq, carriers]; simp
    change Event.Paired s.events ∧ Event.AllProper trust s.events ∧ _
    rw [events]
    exact ⟨opened.2, Event.allProper_reverse.2 opened.1, List.forall_mem_cons.2 ⟨trivial, final.filters⟩, rfl⟩
  | cons c cs =>
    -- an element with directives would still be open
    rw [carriers] at opened
    obtain ⟨-, -, -, _, name, -, -, inner, outer, -, -, -, same, -⟩ := opened
    cases inner <;> cases same

end Compile

end Stencil
