import Stencil.Stream.Basic
import Stencil.Stream.Tag
import Stencil.Library.Load

/-!
# Stepping a stream

A step yields an event, ends the stream, fails, or only gets on (`skip`). It goes down the stream,
which is finite, so it always returns; `fuel` is for the expressions on the way. Only as many steps
as a consumer asks for are made, and every effect on the store is that of a step.

`Stream.pull` makes steps up to the next event.
-/

namespace Stencil

/-- What a step comes to, with the stream and the store after it. -/
inductive Advance where
  | yield (e : Event) (stream : Stream) (store : Store)
  | skip (stream : Stream) (store : Store)
  | done (stream : Stream) (store : Store)
  | fail (why : Stop) (stream : Stream) (store : Store)

namespace Advance

/-- A step of a stream that hands on the events of another one. -/
def map (wrap : Stream → Stream) : Advance → Advance
  | yield e u s => yield e (wrap u) s
  | skip u s => skip (wrap u) s
  | done u s => done (wrap u) s
  | fail why u s => fail why (wrap u) s

end Advance

namespace Stream

/-! ## Elements with directives -/

/-- Goes on with what the first of the directives has made of the stream. -/
def proceed (rest : List Directive) (s : Stream) (store : Store) : Advance :=
  .skip (.directed rest [] s) store

/-- The stream is dropped, and nothing takes its place. -/
def drop (rest : List Directive) (u : Stream) (store : Store) : Advance :=
  proceed rest .empty (u.close store)

/-- The directives can't be applied. -/
def refuse (why : Stop) (u : Stream) (store : Store) : Advance := .fail why .empty (u.close store)

/-- Keeps the stream if the test comes to the wanted truth, else drops it. -/
def test (fuel : Nat) (wanted : Bool) (e : Expression) (rest : List Directive) (u : Stream) (store : Store) : Advance :=
  match e.eval fuel store with
  | .ok (v, store) => if v.isTrue = wanted then proceed rest u store else drop rest u store
  | .error why => refuse why u store

/-- Binds the function of a `def` directive, whose body has been captured. -/
def bindTemplate (signature : Signature) (body : BodyId) (store : Store) : Store :=
  let (f, store) := store.newFunction (.template signature body)
  store.bind signature.name (.function f)

/-- The events of the captured body, with `select` bound to the selection from the matched ones. -/
def expansionOf (body : BodyId) (matched : List Event) (store : Store) : Stream × Store :=
  let (f, store) := store.newFunction (.select matched)
  (.replay (.waiting [("select", .function f)] (store.body body)), store)

/-- What a directive does when all events of its element are known. -/
def complete (d : Directive) (rest : List Directive) (events : List Event) (u : Stream) (store : Store) : Advance :=
  match d with
  | .define signature body => drop rest u (bindTemplate signature body (store.capture body events))
  | .capture body => drop rest u (store.capture body events)
  | _ => proceed rest (.ofEvents (events ++ events)) (u.close store)

/-- The directive has to read the element before it can be applied. -/
def needsEvents (d : Directive) (store : Store) : Bool :=
  match d with
  | .define _ body | .capture body => (store.captured? body).isNone
  | .extension ⟨_, _, .twice⟩ _ => true
  | _ => false

/-- Applies a directive that need not read the element. -/
def applyDirective (fuel : Nat) (d : Directive) (rest : List Directive) (u : Stream) (store : Store) : Advance :=
  match d with
  | .loop targets items => proceed rest (.loop targets items u) store
  | .condition e => test fuel true e rest u store
  | .replace e => proceed rest (.replaced e u) store
  | .content e => proceed rest (.content e .start u) store
  | .attributes e => proceed rest (.attributes e u) store
  | .strip e? => proceed rest (.strip e? .untested u) store
  | .extension ⟨_, _, .unless⟩ (some e) => test fuel false e rest u store
  | .extension ⟨_, _, .unless⟩ none => proceed rest u store
  | .expand body matched =>
    let (s, store) := expansionOf body matched (u.close store)
    proceed rest s store
  | d => complete d rest [] u store

/-! ## Loops -/

/-- Starts a loop: its items are computed before its body is read. -/
def startLoop (fuel : Nat) (targets : List Text) (items : Expression) (u : Stream) (store : Store) : Advance :=
  match items.eval fuel store with
  | .error why => .fail why (.ended u) store
  | .ok (v, store) =>
    if v.isNull then .done (.ended u) store
    else match v.items with
      | .ok vs => .skip (.gathering targets vs [] u) store
      | .error e => .fail (.fault (.badEvaluation e none)) (.ended u) store

/-- Starts the iteration for an item. -/
def startIteration (targets : List Text) (item : Value) (items : List Value) (body? : Option (List Event))
    (u : Stream) (store : Store) : Advance :=
  match loopFrame targets item with
  | .error e => .fail (.fault (.badEvaluation e none)) (.looping targets items body? none u) store
  | .ok frame =>
    let store := store.pushFrame frame
    let started (body : List Event) : Stream :=
      .looping targets items body? (some (store.context.depth, body)) u
    match body? with
    | some body => .skip (started body) store
    | none => .fail (.fault .missingBody) (started []) store

/-- A step of a loop whose body has been read. -/
def stepLoop (targets : List Text) (items : List Value) (body? : Option (List Event))
    (current? : Option (Nat × List Event)) (u : Stream) (store : Store) : Advance :=
  match current?, items with
  | some (depth, e :: es), items => .yield e (.looping targets items body? (some (depth, es)) u) store
  | some (depth, []), items => .skip (.looping targets items body? none u) (store.releaseFrom depth)
  | none, [] => .done (.looping targets [] body? none u) store
  | none, item :: items => startIteration targets item items body? u store

/-! ## Attributes and tags of an element -/

/-- The first event of an element, its attributes merged with those an expression gives. -/
def mergeInto (fuel : Nat) (e : Expression) (first : Event) (u : Stream) (store : Store) : Advance :=
  match first with
  | .startTag p name as =>
    match e.eval fuel store with
    | .error why => .fail why u store
    | .ok (v, store) =>
      if v.isTrue then
        match Attributes.merge as v with
        | .ok as => .yield (.startTag p name as) u store
        | .error e => .fail (.fault (.badEvaluation e none)) u store
      else .yield first u store
  | first => .yield first u store

/-- A step towards an element whose content is replaced, given one of the element itself. -/
def stepContent (e : Expression) (phase : ContentPhase) (r : Advance) : Advance :=
  match phase, r with
  | .start, .yield first u s =>
    let next := Stream.content e (.expression first.position) u
    if first.isStart then .yield first next s else .skip next s
  | .last _, .yield latest u s => .skip (.content e (.last (some latest)) u) s
  | phase, .yield _ u s => .skip (.content e phase u) s
  | phase, .skip u s => .skip (.content e phase u) s
  | .last (some latest), .done u s => .yield latest (.ended u) s
  | _, .done u s => .done (.ended u) s
  | .start, .fail why u s => .fail why (.content e .start u) s
  | _, .fail why u s => .fail why (.ended u) s

/-- Decides whether the tags of an element are removed. -/
def testStrip (fuel : Nat) (test : Option Expression) (u : Stream) (store : Store) : Advance :=
  match test with
  | none => .skip (.strip test .first u) store
  | some e =>
    match e.eval fuel store with
    | .ok (v, store) => .skip (if v.isTrue then .strip test .first u else u) store
    | .error why => .fail why u store

/-- A step towards an element whose tags are removed, given one of the element itself. -/
def stepStrip (test : Option Expression) (phase : StripPhase) (r : Advance) : Advance :=
  match phase, r with
  | .holding held, .yield e u s => .yield held (.strip test (.holding e) u) s
  | .second, .yield e u s => .skip (.strip test (.holding e) u) s
  | _, .yield _ u s => .skip (.strip test .second u) s
  | phase, .skip u s => .skip (.strip test phase u) s
  | _, .done u s => .done (.ended u) s
  | .holding held, .fail why u s => .fail why (.strip test (.holding held) u) s
  | _, .fail why u s => .fail why (.strip test (.holding .blank) u) s

/-! ## Filters -/

/-- An event with its expressions computed. -/
def evaluateEvent (fuel : Nat) (e : Event) (u : Stream) (store : Store) : Advance :=
  match e with
  | .startTag p name as =>
    match Attributes.eval fuel as store with
    | .ok (as, store) => .yield (.startTag p name as) (.evaluated u) store
    | .error why => .fail (why.placedAt p) (.evaluated u) store
  | .expression p x =>
    match x.eval fuel store with
    | .error why => .fail (why.placedAt p) (.evaluated u) store
    | .ok (.stream id, store) => .skip (.evaluated (.append (.shared id) u)) store
    | .ok (v, store) =>
      if v.isNull then .skip (.evaluated u) store
      else .yield (.text p v.toText) (.evaluated u) store
  | e => .yield e (.evaluated u) store

/-- Adds a text to the text so far. -/
def addText (text? : Option (Position × Text)) (p : Position) (t : Text) : Position × Text :=
  match text? with
  | some (q, before) => (q, before ++ t)
  | none => (p, t)

/-- A step of a stream of tidied texts, given one of the texts. -/
def stepTidied (text? : Option (Position × Text)) (r : Advance) : Advance :=
  match r with
  | .yield (.text p t) u s => .skip (.tidied none (some (addText text? p t)) u) s
  | .yield e u s =>
    match text? with
    | some (p, t) => .yield (.text p t.tidy) (.tidied (some e) none u) s
    | none => .yield e (.tidied none none u) s
  | .skip u s => .skip (.tidied none text? u) s
  | .done u s =>
    match text? with
    | some (p, t) => .yield (.text p t.tidy) (.tidied none none u) s
    | none => .done (.tidied none none u) s
  | .fail why u s => .fail why (.tidied none none u) s

/-- The event that takes the place of a matched element. -/
def substitution (p : Position) (body : BodyId) (matched : List Event) : Event :=
  .sub p [.expand body matched] []

/-- A step of a stream with substituted elements, given one of the elements. -/
def stepSubstituted (path : Path) (body : BodyId) (openElements : List Event) (r : Advance) : Advance :=
  match r with
  | .yield e u s =>
    if e.isStart then
      if path.accepts (e :: openElements) then
        .skip (.matching path body openElements e.position 1 [e] u) s
      else .yield e (.substituted path body (e :: openElements) u) s
    else if e.isEnd then .yield e (.substituted path body openElements.tail u) s
    else .yield e (.substituted path body openElements u) s
  | r => r.map (.substituted path body openElements)

/-- A step while a matched element is read, given one of the element. -/
def stepMatching (path : Path) (body : BodyId) (openElements : List Event) (p : Position) (depth : Nat)
    (matched : List Event) (r : Advance) : Advance :=
  match r with
  | .yield e u s =>
    let matched := e :: matched
    let depth := if e.isStart then depth + 1 else if e.isEnd then depth - 1 else depth
    if depth = 0 then
      .yield (substitution p body matched.reverse) (.substituted path body openElements u) s
    else .skip (.matching path body openElements p depth matched u) s
  | .skip u s => .skip (.matching path body openElements p depth matched u) s
  | .done u s => .yield (substitution p body matched.reverse) (.substituted path body openElements u) s
  | .fail why u s => .fail why (.substituted path body openElements u) s

/-! ## Includes -/

/-- The names of include elements and their fallbacks. -/
def includeName : QName := ⟨Template.includeNamespace, [], "include"⟩

def fallbackName : QName := ⟨Template.includeNamespace, [], "fallback"⟩

/-- An include element of which only the start tag has been read. -/
def Inclusion.opened (p : Position) (as : Attributes) : Inclusion := ⟨p, as, 1, false, none⟩

/-- Reads an event inside of an include element. Only the content of its first-level fallbacks is
kept. -/
def Inclusion.read (i : Inclusion) (e : Event) : Inclusion :=
  let kept := if i.inFallback then some (e :: i.fallback?.getD []) else i.fallback?
  match e with
  | .startTag _ name _ =>
    if i.depth = 1 && !i.inFallback && name.same fallbackName then
      { i with depth := 2, inFallback := true, fallback? := some (i.fallback?.getD []) }
    else { i with depth := i.depth + 1, fallback? := kept }
  | .endTag .. =>
    if i.depth = 2 && i.inFallback then { i with depth := 1, inFallback := false }
    else { i with depth := i.depth - 1, fallback? := kept }
  | _ => { i with fallback? := kept }

/-- Puts the fallback of an include element in its place, if the template is missing. -/
def fallBack (filename : Text) (prefixes : List Text) (i : Inclusion) (f : Fault) (u : Stream) (s : Store) : Advance :=
  match f, i.fallback? with
  | .templateNotFound .., some events =>
    let s := s.report .warning (f.message ++ ", using the fallback content instead")
    .skip (.inserting filename prefixes 0 (.ofEvents events.reverse) u) s
  | f, _ => .fail (.fault f) (.included filename prefixes u) s

/-- Replaces an include element that has been read. The elements that the template it names
substitutes are from now on substituted here too. -/
def insert (filename : Text) (prefixes : List Text) (i : Inclusion) (u : Stream) (s : Store) : Advance :=
  let refuse (f : Fault) : Advance := .fail (.fault f) (.included filename prefixes u) s
  if i.attributes.has "href" then
    let reference := i.attributes.textOf "href"
    match s.library? with
    | none => refuse (.libraryClosed reference filename)
    | some library =>
      match s.load library reference filename with
      | (.ok t, s) =>
        .skip (.inserting filename prefixes i.position.column.toNat t.expansion (u.filtered t.filters)) s
      | (.error f, s) => fallBack filename prefixes i f u s
  else refuse (.missingReference filename i.position.line)

/-- A step of a stream with included templates, given one of the including one. -/
def stepIncluded (filename : Text) (prefixes : List Text) (r : Advance) : Advance :=
  match r with
  | .yield (.startNamespace p pre uri) u s =>
    if uri == Template.includeNamespace then
      .skip (.included filename (if prefixes.contains pre then prefixes else pre :: prefixes) u) s
    else .yield (.startNamespace p pre uri) (.included filename prefixes u) s
  | .yield (.endNamespace p pre) u s =>
    if prefixes.contains pre then .skip (.included filename (prefixes.erase pre) u) s
    else .yield (.endNamespace p pre) (.included filename prefixes u) s
  | .yield (.startTag p name as) u s =>
    if name.same includeName then .skip (.including filename prefixes (Inclusion.opened p as) u) s
    else .yield (.startTag p name as) (.included filename prefixes u) s
  | r => r.map (.included filename prefixes)

/-- A step while an include element is read. -/
def stepIncluding (filename : Text) (prefixes : List Text) (i : Inclusion) (r : Advance) : Advance :=
  match r with
  | .yield e u s =>
    let i := Inclusion.read i e
    if i.depth = 0 then insert filename prefixes i u s else .skip (.including filename prefixes i u) s
  | .skip u s => .skip (.including filename prefixes i u) s
  | .done u s => insert filename prefixes i u s
  | .fail why u s => .fail why (.included filename prefixes u) s

/-- A step while a template is inserted, given one of the inserted template. -/
def stepInserting (filename : Text) (prefixes : List Text) (indentation : Nat) (u : Stream) (r : Advance) : Advance :=
  match r with
  | .yield (.text p t) inserted s =>
    .yield (.text p (t.indent indentation)) (.inserting filename prefixes indentation inserted u) s
  | .done inserted s => .skip (.included filename prefixes u) (inserted.close s)
  | r => r.map fun inserted => .inserting filename prefixes indentation inserted u

/-! ## Templates -/

/-- A step of an expansion, given one of the stream that is expanded. An element with directives is
expanded before the rest of the stream, and what comes out is filtered like the template itself. -/
def stepExpanded (t : Template) (last : Position) (r : Advance) : Advance :=
  match r with
  | .yield (.sub p directives events) u s =>
    let element := Stream.directed directives.reverse [] (.ofEvents events)
    .skip (.expanded t p (.append (element.filtered t.expansionFilters) u)) s
  | .yield e u s => .yield e (.expanded t e.position u) s
  | .skip u s => .skip (.expanded t last u) s
  | .done u s => .done .empty (u.close s)
  | .fail why u s => .fail (why.locate t.filename last) (.expanded t last u) s

/-! ## All streams -/

/-- A step of a replay, `wrap` being the stream it belongs to. -/
def stepReplay (r : Replay) (wrap : Replay → Stream) (s : Store) : Advance :=
  match r.next s.context with
  | (some e, r, c) => .yield e (wrap r) { s with context := c }
  | (none, r, c) => .done (wrap r) { s with context := c }

/-- A step of a stream that is a value. -/
def stepShared (id : Nat) (s : Store) : Advance :=
  match (s.replay id).next s.context with
  | (some e, r, c) => .yield e (.shared id) { s.setReplay id r with context := c }
  | (none, r, c) => .done (.shared id) { s.setReplay id r with context := c }

/-- One step. -/
def step (fuel : Nat) : Stream → Store → Advance
  | replay r, s => stepReplay r .replay s
  | shared id, s => stepShared id s
  | append first rest, s =>
    match step fuel first s with
    | .done u s => .skip rest (u.close s)
    | r => r.map (.append · rest)
  | ended u, s => .done (.ended u) s
  | loop targets items u, s => startLoop fuel targets items u s
  | gathering targets items body u, s =>
    match step fuel u s with
    | .yield e u s => .skip (.gathering targets items (e :: body) u) s
    | .skip u s => .skip (.gathering targets items body u) s
    | .done u s => .skip (.looping targets items (some body.reverse) none u) s
    | .fail why u s => .fail why (.looping targets items none none u) s
  | looping targets items body? current? u, s => stepLoop targets items body? current? u s
  | attributes e u, s =>
    match step fuel u s with
    | .yield first u s => mergeInto fuel e first u s
    | .skip u s => .skip (.attributes e u) s
    | r => r
  | content e (.expression p) u, s => .yield (.expression p e) (.content e (.last none) u) s
  | content e phase u, s => stepContent e phase (step fuel u s)
  | replaced e u, s =>
    match step fuel u s with
    | .yield first u s => .yield (.expression first.position e) (.ended u) s
    | .skip u s => .skip (.replaced e u) s
    | r => r.map .ended
  | strip test .untested u, s => testStrip fuel test u s
  | strip test phase u, s => stepStrip test phase (step fuel u s)
  | directed [] _ u, s => .skip u s
  | directed (d :: rest) read u, s =>
    if needsEvents d s then
      match step fuel u s with
      | .yield e u s => .skip (.directed (d :: rest) (e :: read) u) s
      | .skip u s => .skip (.directed (d :: rest) read u) s
      | .done u s => complete d rest read.reverse u s
      | .fail why u s => refuse why u s
    else applyDirective fuel d rest u s
  | evaluated u, s =>
    match step fuel u s with
    | .yield e u s => evaluateEvent fuel e u s
    | .done u s => .done .empty (u.close s)
    | r => r.map .evaluated
  | tidied (some e) _ u, s => .yield e (.tidied none none u) s
  | tidied none text? u, s => stepTidied text? (step fuel u s)
  | substituted path body openElements u, s => stepSubstituted path body openElements (step fuel u s)
  | matching path body openElements p depth matched u, s =>
    stepMatching path body openElements p depth matched (step fuel u s)
  | included filename prefixes u, s => stepIncluded filename prefixes (step fuel u s)
  | including filename prefixes i u, s => stepIncluding filename prefixes i (step fuel u s)
  | inserting filename prefixes indentation inserted u, s =>
    stepInserting filename prefixes indentation u (step fuel inserted s)
  | expanded t last u, s => stepExpanded t last (step fuel u s)

end Stream

end Stencil
