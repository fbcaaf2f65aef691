import Stencil.Proofs.Stream.ClosingRun
import Stencil.Proofs.Template.History

/-!
# Renderings have paired tags

A document whose tags are paired, and in which no element carries both `strip` and `content`, is rendered to
events whose tags are paired (`Template.expansion_paired`), whatever directives it has otherwise. This needs
what the context brings along to be paired as well, and a stream that is a value to be read in one place at
a time: a stream that reaches itself while it is being read yields there what should come after its open
elements (`Template.expansion_unpaired`).
-/

namespace Stencil

/-- Functions that replay or select paired events, the slots given being those that hold paired ones, and no
streams. -/
def Stock.handed (trust : Trust) : Stock := { Stock.paired trust with stream := fun _ => False }

/-- The context of a store to render against: it holds no streams, and its functions replay or select paired
events. -/
structure Store.Handed (trusted : BodyId → Prop) (s : Store) : Prop where
  context : s.context.From (.handed ⟨trusted, s.replays.size⟩)
  bodies : ∀ b es, trusted b → s.captured? b = some es → Event.Closing ⟨trusted, s.replays.size⟩ [] es

variable {trusted : BodyId → Prop} {s : Store}

theorem Stock.handed_le (trust : Trust) : Stock.handed trust ≤ Stock.paired trust where
  function := fun _ made => made
  stream := fun _ none => False.elim none

theorem Store.Handed.sound (h : s.Handed trusted) : s.Sound ⟨trusted, s.replays.size⟩ :=
  ⟨h.context.mono (Stock.handed_le _), h.bodies, Nat.le_refl _⟩

/-- No stream of an expansion is there before it. -/
theorem Store.idle_first (s : Store) : s.Idle ⟨trusted, s.replays.size⟩ [] := by
  intro id new _
  rw [Store.replay_absent (Nat.not_lt.2 new)]
  exact Replay.closes_finished

/-- A rendering that comes to an end can be tested. -/
theorem Stream.separate_of_everyState {u : Stream} {s : Store} {k n : Nat}
    (h : everyState (fun v _ => decide v.reads.Nodup) k n u s = true) (k' : Nat) : Separate k' u s :=
  fun _ _ _ run => of_decide_eq_true (test_of_everyState h run)

/-- In a document that has been read, the attributes of a tag are distinct. -/
theorem Compile.pairedDocument_of_read {document : List Callback} {es : List Event} (read : Document.read document = .ok es)
    (paired : Event.Paired es) (compatible : ∀ e ∈ es, CompatibleTag e) : PairedDocument es :=
  ⟨Document.readable_of_read read, paired, compatible⟩

namespace Template

variable {t : Template} {target : Compile.Target} {es : List Event} {fuel : Nat}

/-- The expansion of a paired document closes nothing, and reads no stream that is a value. -/
theorem closes_expansion (trust : Trust) (own : ∀ slot, trust.body ⟨target.id, slot⟩)
    (document : Compile.PairedDocument es) (compiled : Compile.template target es = .ok t) (s : Store) :
    t.expansion.Closes trust s [] ∧ t.expansion.reads = [] := by
  obtain ⟨paired, proper, filters, post⟩ := Compile.proper_of_template own document compiled
  have postProper : ∀ f ∈ t.postFilters, f.Proper trust := by
    rw [post]
    exact List.forall_mem_singleton.2 trivial
  have source : (Stream.ofEvents t.events).Closes trust s [] := (Stream.closesBare_ofEvents ⟨paired, proper⟩).closes s
  have expanded : (Stream.expanded t .zero t.source).Closes trust s [] :=
    ⟨filters, Stream.closes_filtered filters source⟩
  refine ⟨Stream.closes_filtered postProper expanded, ?_⟩
  exact (Stream.reads_filtered postProper _).trans (Stream.reads_filtered filters _)

/-- **Renderings have paired tags.** Take a document with paired tags in which no element carries both `strip`
and `content`, and a context without streams whose functions replay and select paired events. If in no state of
the rendering a stream is being read in two places, and the rendering comes to its end, then every end tag in it
closes the start tag of its name that was opened last, and none stays open. -/
theorem expansion_paired (document : Compile.PairedDocument es) (compiled : Compile.template target es = .ok t)
    (own : ∀ slot, trusted ⟨target.id, slot⟩) (handed : s.Handed trusted)
    (separate : Stream.Separate fuel t.expansion s) (ends : (t.expansion.collect fuel none s).stop? = none) :
    Event.Paired (t.expansion.collect fuel none s).events := by
  obtain ⟨closes, quiet⟩ := closes_expansion ⟨trusted, s.replays.size⟩ own document compiled s
  have completes : Stream.Completes fuel t.expansion s _ _ _ _ := Stream.completes_of_collect (by simp [ends])
  rw [ends] at completes
  refine Stream.completes_closes handed.sound ?_ closes separate completes
  rw [quiet]
  exact s.idle_first

/-- In a store in which nothing has been captured, all slots may be trusted. -/
theorem handed_firstStore (name : Text) (n : Int64) : (firstStore.against [(name, .int n)]).Handed fun _ => True where
  context := by
    intro f hf
    rw [List.mem_singleton.1 hf]
    exact .cons trivial .nil
  bodies := by
    intro b es _ captured
    cases captured

/-- A function that is called in a loop, and a match template that selects from what it replaces. -/
def callingDocument : List Callback :=
  [startOf "a" [], startOf "b" [("def", "f(x)")], startOf "c" [], characters "$x", endOf "c", endOf "b",
    startOf "m" [("match", "i"), ("strip", "")], characters "$\x7bselect('*')\x7d", endOf "m", startOf "i" [], startOf "e" [],
    endOf "e", endOf "i", startOf "e" [("for", "y in [f(1), f(n)]"), ("attrs", "\x7b'k': n\x7d")], characters "$y", endOf "e",
    endOf "a"]

/-- The streams of both calls are there when the first one of them is read. -/
theorem expansion_paired_calling :
    let s := firstStore.against [("n", .int 2)]
    ∃ es t, Document.read callingDocument = .ok es ∧ Compile.template ⟨0, "t.xml", .empty⟩ es = .ok t ∧
      (t.render 100 s).1.toOption =
        some "<a><e/><e k=\"2\"><b><c>1</c></b></e><e k=\"2\"><b><c>2</c></b></e></a>" ∧
      Event.Paired (t.expansion.collect 100 none s).events := by
  refine ⟨_, _, rfl, rfl, by decide +kernel, ?_⟩
  have document := Compile.pairedDocument_of_read (show Document.read callingDocument = _ from rfl)
    (by decide +kernel) (by decide +kernel)
  refine expansion_paired document rfl (fun _ => trivial) (handed_firstStore "n" 2) ?_ (by decide +kernel)
  exact Stream.separate_of_everyState (k := 100) (n := 200) (by decide +kernel) _

/-- The loop is over a stream that reads itself. -/
def selfReadingDocument : List Callback :=
  [startOf "a" [], startOf "b" [("def", "f()")], startOf "c" [("if", "True")], characters "$s", endOf "c", endOf "b",
    startOf "x" [("for", "s in [f()]")], characters "$s", endOf "x", endOf "a"]

/-- An element with both `strip` and `content`, in the body of a function. -/
def strippingDocument : List Callback :=
  [startOf "a" [], startOf "b" [("def", "f()")], startOf "e" [("content", "1"), ("strip", "")], startOf "c" [],
    endOf "c", startOf "d" [], endOf "d", endOf "e", endOf "b", endOf "a"]

def stripping : Template :=
  ⟨0, "t.xml", [.startTag ⟨1, 0⟩ (.plain "a") [],
    .sub ⟨1, 0⟩ [.define ⟨"f", []⟩ ⟨0, 2⟩]
      [.startTag ⟨1, 0⟩ (.plain "b") [],
        .sub ⟨1, 0⟩ [.content ⟨"1"⟩, .strip none]
          [.startTag ⟨1, 0⟩ (.plain "e") [], .startTag ⟨1, 0⟩ (.plain "c") [], .endTag ⟨1, 0⟩ (.plain "c"),
            .startTag ⟨1, 0⟩ (.plain "d") [], .endTag ⟨1, 0⟩ (.plain "d"), .endTag ⟨1, 0⟩ (.plain "e")],
        .endTag ⟨1, 0⟩ (.plain "b")],
    .endTag ⟨1, 0⟩ (.plain "a")], [.evaluate], [], [.tidy]⟩

/-- A call of the function, in another template. -/
def foreignCallDocument : List Callback := [startOf "a" [], characters "${f()}", endOf "a"]

/-- Tags are not paired if a stream is read in two places, or if the context has a function whose body is not
paired, left behind by the rendering of another template. -/
theorem expansion_unpaired :
    let s := firstStore.against [("n", .int 2)]
    let r := stripping.attempt 60 none s
    let noStreams : Stock := ⟨fun _ => True, fun _ => False⟩
    (∃ es t, Document.read selfReadingDocument = .ok es ∧ Compile.PairedDocument es ∧
      Compile.template ⟨0, "t.xml", .empty⟩ es = .ok t ∧ s.Handed (fun _ => True) ∧
      (t.expansion.collect 100 none s).stop? = none ∧ (t.render 100 s).1.toOption = some "<a><x><b><c/></c></x></a>" ∧
      ¬ Event.Paired (t.expansion.collect 100 none s).events) ∧
    (Compilation.ofDocument ⟨0, "t.xml", .empty⟩ strippingDocument).result = .ok stripping ∧
    (∃ es t, Document.read foreignCallDocument = .ok es ∧ Compile.PairedDocument es ∧
      Compile.template ⟨1, "u.xml", .empty⟩ es = .ok t ∧ r.context.From noStreams ∧
      (t.expansion.collect 100 none r).stop? = none ∧
      (t.render 100 r).1.toOption = some "<a><b><c>1</d></b></a>" ∧
      ¬ Event.Paired (t.expansion.collect 100 none r).events) := by
  intro s r noStreams
  have selfReading := Compile.pairedDocument_of_read (show Document.read selfReadingDocument = _ from rfl)
    (by decide +kernel) (by decide +kernel)
  have foreignCall := Compile.pairedDocument_of_read (show Document.read foreignCallDocument = _ from rfl)
    (by decide +kernel) (by decide +kernel)
  have context : r.context.From noStreams := by
    obtain ⟨f, bindings⟩ : ∃ f, r.context = .ofBase [("n", .int 2), ("f", .function f)] := ⟨_, rfl⟩
    rw [bindings]
    intro frame hf
    rw [List.mem_singleton.1 hf]
    exact .cons trivial (.cons trivial .nil)
  refine ⟨?_, rfl, ?_⟩
  · exact ⟨_, _, rfl, selfReading, rfl, handed_firstStore "n" 2, by decide +kernel, by decide +kernel, by decide +kernel⟩
  · exact ⟨_, _, rfl, foreignCall, rfl, context, by decide +kernel, by decide +kernel, by decide +kernel⟩

end Template

end Stencil
