import Stencil.Proofs.Expr.Argument
import Stencil.Proofs.Expr.Written
import Stencil.Proofs.Stream.Called
import Stencil.Proofs.Template.History
import Stencil.Proofs.Xml.Written

/-!
# Calls by themselves

A call whose functions are closed is computed from its arguments and the bodies of its functions, in a store with nothing else in
it (`Store.alone`), and its output is that of its stream there. Wherever the call stands in a rendering, and whatever has
happened before it or happens until it is read, the same comes out (`Function.call_isolated`).
-/

namespace Stencil

/-- A store with nothing but captured bodies in it, and the code of the host. -/
def Store.alone (host : Host) (bodies : List (BodyId × List Event)) : Store :=
  { ofContext (.ofBase []) (.empty []) with host, bodies }

/-- The bodies have been captured, and the code of the host is this one. -/
structure Store.Knows (s : Store) (h : Host) (bodies : List (BodyId × List Event)) : Prop where
  host : s.host = h
  captured : ∀ b es, (alone h bodies).captured? b = some es → s.captured? b = some es

/-- The streams that have been made from the one store to the next are as they were then. -/
def Store.Unread (s t r : Store) : Prop :=
  t.replays.size ≤ r.replays.size ∧ ∀ n, s.replays.size ≤ n → n < t.replays.size → r.replay n = t.replay n

namespace Stream

/-- The output of a stream that is a value, with its expressions computed and its directives expanded. -/
def output (id : Nat) : Stream := .expanded .bare .zero (.evaluated (.append (.shared id) .empty))

/-- All that comes out of the one stream, with its store, comes out of a template where the other one is at a site. At its end,
what is below it comes next there, with the frames that there were before. It fails there with the same message. -/
structure Reenacts (k : Nat) (u : Stream) (c : Store) (t : Template) (last : Position) (p : Site) (v : Stream) (s : Store) :
    Prop where
  runs : ∀ es u' d, Run k u c es u' d → ∃ v' x, Run k (.expanded t last (p.around v)) s es v' x
  ends : ∀ es u' d, Completes k u c es none u' d → ∃ q seen x,
    Run k (.expanded t last (p.around v)) s es (.expanded t q ((p.after seen).around p.below)) x ∧ x.context = s.context
  fails : ∀ es why u' d, Completes k u c es (some why) u' d → ∃ why' v' x,
    Completes k (.expanded t last (p.around v)) s es (some why') v' x ∧ why'.bare? = why.bare?

end Stream

namespace Embedding

/-- What all the filters pass, they pass with other attributes too. -/
theorem passes_startTag {fs : List Sieve} {p : Position} {name : QName} {as as' : Attributes}
    (h : ∀ f ∈ fs, f.Passes (.startTag p name as)) : ∀ f ∈ fs, f.Passes (.startTag p name as') := by
  intro f hf
  have passes := h f hf
  cases f <;> exact passes

/-- A store without streams lies inside of every store that knows its bodies. -/
def ofAlone (fs : List Sieve) (host : Host) (bodies : List (BodyId × List Event)) (s : Store) : Embedding where
  number id := id + s.replays.size
  different a b same := by simpa using same
  outer := s.context
  spared e := ∀ f ∈ fs, f.Passes e
  spares := passes_startTag
  captured := (Store.alone host bodies).captured?
  host := host

theorem holds_alone (fs : List Sieve) {host : Host} {bodies : List (BodyId × List Event)} {s : Store}
    (knows : s.Knows host bodies) : (ofAlone fs host bodies s).Holds [] (.alone host bodies) s where
  here := rfl
  there := rfl
  host := ⟨rfl, knows.host⟩
  begun := .nil
  idle id known := absurd known (Nat.not_lt_zero id)
  numbers n := by
    change 0 + n + s.replays.size = s.replays.size + n
    omega
  captured b es captured := ⟨captured, knows.captured b es captured⟩

end Embedding

open Stencil.Stream Stencil.Embedding

/-- **What is read of a call**, wherever it stands. -/
theorem Embedding.Holds.reenacts {w : Embedding} {c s : Store} (h : w.Holds [] c s) {id : Nat} (known : id < c.replays.size)
    {t : Template} (filtering : t.Sparing w.spared) {p : Site} (sparing : p.Sparing w.spared) (k : Nat) (last : Position) :
    Reenacts k (.output id) c t last p (.append (.shared (w.number id)) p.below) s := by
  have calls : Calls w (AtBottom p.below) c.replays.size [] (.append (.shared id) .empty)
      (.append (.shared (w.number id)) p.below) :=
    .pending (by simp [Nesting.Admits]) known (.bottom ⟨rfl, rfl, rfl⟩)
  have stack := Stack.base (p := p) [] calls
  rw [Site.after_nil] at stack
  have expanding : Expanding w p t c.replays.size [] (.output id)
      (.expanded t last (p.around (.append (.shared (w.number id)) p.below))) := .intro .zero last stack
  refine ⟨fun es u' d run => ?_, fun es u' d completes => ?_, fun es why u' d completes => ?_⟩
  · obtain ⟨-, v', x, run, -⟩ := expanding.run filtering h sparing run
    exact ⟨v', x, run⟩
  · obtain ⟨q, seen, x, run, context⟩ := expanding.ends filtering h sparing completes
    exact ⟨q, seen, x, run, context.trans h.there.symm⟩
  · exact expanding.fails filtering h sparing completes

/-- **Calls bind their own arguments, and what comes out of closed ones depends on nothing else.** If its parameters have
different names, a call binds exactly these. Let an expression make the calls of a tree of arguments, in whatever store, with
functions that are closed and whose events pass the filters around. It fails as the tree does by itself. Else, as long as its
streams are unread, whatever has been made and read besides, reading its value at a site of a template gives what the tree gives
by itself. -/
theorem Function.call_isolated :
    (∀ (k id : Nat) (signature : Signature) (body : BodyId) (a : Arguments) (s : Store),
      (signature.parameters.map (·.name)).Nodup →
      match call (k + 1) ⟨id, .template signature body⟩ a s with
      | .ok (v, t) => ∃ values, Signature.Binds k a s.context signature.parameters values ∧ t.context = s.context ∧
          ∃ made, v = .stream made ∧
            t.replay made = .waiting ((signature.parameters.map (·.name)).zip values) (s.body body)
      | .error why => Signature.Fails k a s.context signature.parameters why) ∧
    ∀ (host : Host) (bodies : List (BodyId × List Event)) (p : Site) (t : Template) (fs : List Sieve) (k : Nat) (a : Argument)
      (x : Expression) (e : Expr) (s : Store), t.expansionFilters = .evaluate :: fs.map Sieve.filter →
      a.Closed (fun e => ∀ f ∈ p.filters ++ fs, f.Passes e) (Store.alone host bodies).captured? →
      x.tree = .ok e → s.Knows host bodies → a.Of k e s →
      match a.eval k (.alone host bodies) with
      | .error why => x.eval k s = .error why
      | .ok (v, c) => ∃ v' m, x.eval k s = .ok (v', m) ∧ ∀ id, v = .stream id → ∃ id', v' = .stream id' ∧
          ∀ r, s.Unread m r → r.Knows host bodies → ∀ k' last,
            Reenacts k' (.output id) c t last p (.append (.shared id') p.below) r := by
  refine ⟨fun k id signature body a s different => call_binds k id signature body a s different, ?_⟩
  intro host bodies p t fs k a x e s filters closed tree knows of
  have follows := a.eval_follows (w := ofAlone (p.filters ++ fs) host bodies s) k closed of (holds_alone _ knows)
  have computes : x.eval k s = e.evalWith (call k) s := by rw [Expression.eval, Expression.evalWith, tree]
  rw [← computes] at follows
  generalize a.eval k (.alone host bodies) = here, x.eval k s = there at follows
  cases follows with
  | error => rfl
  | @ok v v' c m ρ different renumbers holds more value =>
    refine ⟨v', m, rfl, ?_⟩
    rintro id rfl
    obtain ⟨rfl, -, known⟩ := value
    refine ⟨ρ id, rfl, fun r ⟨larger, kept⟩ knows k' last => ?_⟩
    -- the streams of the call are above those that were there before it
    have above (n : Nat) : s.replays.size ≤ ρ n := renumbers.above _ (fun n => Nat.le_add_left _ _) n
    obtain ⟨ρ', different', renumbers', holds⟩ := holds.move larger (fun n hn => kept _ (above n) (holds.number_lt hn))
      knows.host knows.captured
    have same : ρ' id = ρ id := renumbers'.same id known
    have reenacts := holds.reenacts known (t := t) (p := p) ⟨fs, filters, fun f hf e he => he f (List.mem_append_right _ hf)⟩
      (fun f hf e he => he f (List.mem_append_left _ hf)) k' last
    rw [← same]
    exact reenacts

/-- A function of two parameters, the second one with a default. -/
def pairSignature : Signature := ⟨"f", [⟨"x", none⟩, ⟨"y", some ⟨"'d'"⟩⟩]⟩

def pairFunction : Function := ⟨7, .template pairSignature ⟨0, 2⟩⟩

def pairBody : List Event :=
  [.startTag ⟨2, 0⟩ (.plain "e") [], .expression ⟨2, 3⟩ ⟨"x"⟩, .endTag ⟨2, 9⟩ (.plain "e"), .expression ⟨2, 13⟩ ⟨"y"⟩]

/-- Another call of the function has been made before. -/
def pairStore : Store :=
  { Store.ofContext (.ofBase [("f", .function pairFunction)]) (.empty []) with
    bodies := [(⟨0, 2⟩, pairBody)], replays := #[.waiting [("x", .int 9), ("y", .none)] pairBody] }

/-- Elements `i` are substituted. -/
def pairSieve : Sieve := .substituted ⟨"i", [⟨false, [⟨.child, .element "i", none⟩]⟩]⟩ ⟨0, 9⟩ []

theorem closed_pairFunction :
    pairFunction.Closed (fun e => ∀ f ∈ [pairSieve, pairSieve], f.Passes e) (Store.alone pairStore.host pairStore.bodies).captured? := by
  have each {P : Sieve → Prop} (h : P pairSieve) : ∀ f ∈ [pairSieve, pairSieve], P f := by simpa using h
  have bound (name : Text) (known : name ∈ pairSignature.parameters.map (·.name)) (other : name ≠ "defined") :
      Names.ClosedIn (pairSignature.parameters.map (·.name)) [name] := by
    simpa [Names.ClosedIn] using And.intro known other
  refine ⟨?_, pairBody, rfl, ⟨each fun _ _ => rfl, by simp [Attributes.ClosedIn]⟩, bound "x" (by decide) (by decide),
    each trivial, bound "y" (by decide) (by decide), trivial⟩
  simp only [pairSignature, List.forall_mem_cons, Option.mem_def]
  exact ⟨by simp, by rintro _ ⟨⟩; rfl, by simp⟩

/-- A call of the function with a call of it as an argument. -/
theorem call_isolated_nested :
    let t : Template := ⟨0, "t", [], [.evaluate], [pairSieve.filter], [.tidy]⟩
    let p : Site := ⟨[pairSieve], .empty, none⟩
    let x : Expression := ⟨"f(f(1), y = 2)"⟩
    (pairSignature.parameters.map (·.name)).Nodup ∧
      (∃ values, Signature.Binds 4 ⟨[.int 1], []⟩ pairStore.context pairSignature.parameters values) ∧
      ∃ m id es, x.eval 5 pairStore = .ok (.stream id, m) ∧
        (Xml.Writer.fresh.writeAll none es).toOption = some "<e><e>1</e>d</e>2" ∧ ∃ q seen r,
          Run 40 (.expanded t .zero (p.around (.append (.shared id) p.below))) m es
            (.expanded t q ((p.after seen).around p.below)) r ∧ r.context = m.context := by
  intro t p x
  have distinct : (pairSignature.parameters.map (·.name)).Nodup := by decide
  refine ⟨distinct, ?_, ?_⟩
  · have binds := Function.call_isolated.1 4 7 pairSignature ⟨0, 2⟩ ⟨[.int 1], []⟩ pairStore distinct
    cases called : Function.call 5 ⟨7, .template pairSignature ⟨0, 2⟩⟩ ⟨[.int 1], []⟩ pairStore with
    | ok r =>
      rw [called] at binds
      obtain ⟨values, binds, -⟩ := binds
      exact ⟨values, binds⟩
    | error => cases called
  · let e : Expr := .call (.name "f") [.call (.name "f") [.literal (.int 1)] []] [("y", .literal (.int 2))]
    let a : Argument := .call pairFunction [.call pairFunction [.value (.int 1)] []] [("y", .value (.int 2))]
    have name (c : Byte) (start : Token.isNameStart c = true) (free : Keyword.ofSpelling? [c] = none) :
        (Lexeme.word [c]).IsWritten [c] := .word start (by simp) free
    have number (n : Int64) (k : Nat) (same : n.toInt = k) : Writes .conditional (Text.ofNat k) (.literal (.int n)) :=
      (writes_int same).loosen (by decide)
    have callee : Writes .access "f" (.name "f") := (writes_name (name 'f' (by decide) (by decide))).loosen (by decide)
    have inner : Writes .conditional "f(1)" _ :=
      (writes_call callee (writesArguments_last (number 1 1 rfl))).loosen (by decide)
    have outer : Writes .conditional x.source e := (writes_call callee (writesArguments_cons inner
      (writesArguments_keyword_last (name 'y' (by decide) (by decide)) (number 2 2 rfl)))).loosen (by decide)
    have closed := closed_pairFunction
    have of : a.Of 5 e pairStore :=
      ⟨_, rfl, ⟨⟨_, rfl, ⟨⟨_, rfl⟩, fun _ _ _ => rfl⟩, fun _ _ _ => rfl⟩, fun _ _ _ => rfl⟩,
        fun _ _ _ => ⟨rfl, ⟨_, rfl⟩, fun _ _ _ => rfl⟩⟩
    have isolated := Function.call_isolated.2 pairStore.host pairStore.bodies p t [pairSieve] 5 a x e pairStore rfl
      ⟨closed, ⟨⟨closed, ⟨trivial, trivial⟩, trivial⟩, trivial⟩, trivial, trivial⟩ outer.parse ⟨rfl, fun _ _ h => h⟩ of
    obtain ⟨c, here, ended, written⟩ : ∃ c, a.eval 5 (.alone pairStore.host pairStore.bodies) = .ok (.stream 1, c) ∧
        ((Stream.output 1).collect 40 none c).stop?.isNone = true ∧
        (Xml.Writer.fresh.writeAll none ((Stream.output 1).collect 40 none c).events).toOption = some "<e><e>1</e>d</e>2" :=
      ⟨_, rfl, by decide +kernel, by decide +kernel⟩
    have ended := Option.isNone_iff_eq_none.1 ended
    have enough : ((Stream.output 1).collect 40 none c).stop? ≠ some .outOfFuel := by simp [ended]
    have completes := completes_of_collect enough
    rw [ended] at completes
    rw [here] at isolated
    obtain ⟨v, m, computed, spliced⟩ := isolated
    obtain ⟨id, rfl, later⟩ := spliced 1 rfl
    have knows : m.Knows pairStore.host pairStore.bodies := by
      rw [(Expression.eval_made computed).only]
      exact ⟨rfl, fun _ _ h => h⟩
    have reenacts := later m ⟨Nat.le_refl _, fun _ _ _ => rfl⟩ knows 40 .zero
    exact ⟨m, id, _, computed, written, reenacts.ends _ _ _ completes⟩

namespace Template

/-! ## Calls that leave something behind -/

/-- The text of a document, rendered against an empty context. -/
def renderedText? (document : List Callback) : Option Text :=
  match (Compilation.ofDocument ⟨0, "t.xml", .empty⟩ document).result with
  | .ok t => (Template.render 200 { t with preFilters := [.evaluate] } (firstStore.against [])).1.toOption
  | .error _ => none

/-- A function with a match template in its body, whose attributes are computed when it is captured. -/
def capturingDefinition : List Callback :=
  [startOf "b" [("def", "f(x)")], startOf "m" [("match", "e"), ("attrs", "\x7b'k': x\x7d")], characters "M", endOf "m",
    startOf "e" [], endOf "e", endOf "b"]

/-- The function calls its argument. -/
def askingDefinition : List Callback :=
  [startOf "b" [("def", "f(h)")], characters "$\x7bh('q')\x7d", endOf "b"]

/-- **The output of a call may depend on more than its arguments**: on an earlier call, where a match template is captured in the
body; on the loops around it, where it asks what is defined; and on what else has been captured, where a match template of the
caller applies to its elements. -/
theorem calls_leak :
    renderedText? ([startOf "a" []] ++ capturingDefinition ++ [characters "${f(2)}", endOf "a"]) =
        some "<a><b><m k=\"2\">M</m></b></a>" ∧
      renderedText? ([startOf "a" []] ++ capturingDefinition ++ [characters "${f(1)}", characters "${f(2)}", endOf "a"]) =
        some "<a><b><m k=\"1\">M</m></b><b><m k=\"1\">M</m></b></a>" ∧
      renderedText? ([startOf "a" []] ++ askingDefinition ++ [characters "${f(defined)}", startOf "c" [("for", "q in [1]")],
        characters "${f(defined)}", endOf "c", endOf "a"]) = some "<a><b>False</b><c><b>True</b></c></a>" ∧
      renderedText? [startOf "a" [], startOf "b" [("def", "f()")], startOf "e" [], endOf "e", endOf "b", characters "${f()}",
        startOf "m" [("match", "e")], characters "M", endOf "m", characters "${f()}", endOf "a"] =
          some "<a><b/><b><m>M</m></b></a>" :=
  ⟨by decide +kernel, by decide +kernel, by decide +kernel, by decide +kernel⟩

end Template

end Stencil
