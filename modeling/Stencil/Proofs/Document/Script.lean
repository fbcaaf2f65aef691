import Stencil.Document.Reader
import Stencil.Proofs.Document.Brackets

/-!
# Scripts of callbacks

The callbacks of a document come one after another. Those of a document without errors are the callbacks of
a forest of items (`exists_items`): of elements, pieces of character data, comments and so on, each with the
position where the callback before it left off. `Item.eventsOf` says which events such a forest has, before
the pieces of character data are joined.
-/

namespace Stencil

namespace Callback

/-- The position that is recorded at a callback. An error records none. -/
def recorded? : Callback → Option Position
  | startElement place .. | endElement place .. | characters place .. | comment place .. | instruction place ..
  | doctype place .. => some place.toPosition
  | error .. | fatal .. | malformed => none

def isStart : Callback → Bool
  | startElement .. => true
  | _ => false

def isEnd : Callback → Bool
  | endElement .. => true
  | _ => false

def isError : Callback → Bool
  | error .. | fatal .. | malformed => true
  | _ => false

end Callback

/-- A name is given by up to three texts. -/
def RawName.texts (n : RawName) : List Text := n.base :: (n.pre?.toList ++ n.uri?.toList)

def RawNamespace.texts (n : RawNamespace) : List Text := n.pre?.toList ++ n.uri?.toList

/-- The names, comments and identifiers of a callback. -/
def Callback.texts : Callback → List Text
  | startElement _ name namespaces raw =>
    name.texts ++ namespaces.flatMap RawNamespace.texts ++ raw.flatMap (·.name.texts)
  | endElement _ name => name.texts
  | comment _ text? => text?.toList
  | instruction _ target? _ => target?.toList
  | doctype _ name? publicId? systemId? => name?.toList ++ publicId?.toList ++ systemId?.toList
  | characters .. | error .. | fatal .. | malformed => []

/-- A callback that is no error, and in which no name, comment or identifier has a NUL. -/
structure Callback.Plain (c : Callback) : Prop where
  noError : c.isError = false
  noNul : ∀ t ∈ c.texts, (0 : Byte) ∉ t

instance (c : Callback) : Decidable c.Plain :=
  decidable_of_iff (c.isError = false ∧ ∀ t ∈ c.texts, (0 : Byte) ∉ t)
    ⟨fun ⟨noError, noNul⟩ => ⟨noError, noNul⟩, fun ⟨noError, noNul⟩ => ⟨noError, noNul⟩⟩

/-- A callback and the position where the one before it left off. -/
structure Report where
  start : Position
  callback : Callback

/-- The callbacks of a script, the first of which starts at `last`. -/
def reports (last : Position) : List Callback → List Report
  | [] => []
  | c :: cs => ⟨last, c⟩ :: reports (c.recorded?.getD last) cs

theorem map_callback_reports (last : Position) (script : List Callback) :
    (reports last script).map Report.callback = script := by
  induction script generalizing last with
  | nil => rfl
  | cons c cs ih => simp [reports, ih]

/-- What the tokenizer reports, in tree form, with the start of each callback. -/
inductive Item where
  | element (start : Position) (place : Place) (name : RawName) (namespaces : List RawNamespace)
      (attributes : List RawAttribute) (children : List Item) (endStart : Position) (endPlace : Place)
      (endName : RawName)
  /-- a piece of character data, which may be empty -/
  | characters (start : Position) (place : Place) (text : Text)
  | comment (start : Position) (place : Place) (text? : Option Text)
  | instruction (start : Position) (place : Place) (target? data? : Option Text)
  | doctype (start : Position) (place : Place) (name? publicId? systemId? : Option Text)

/-- A name as it is given, with empty texts for what is missing. -/
def RawName.given (n : RawName) : QName := ⟨n.uri?.getD [], n.pre?.getD [], n.base⟩

/-- Attributes as they are given; of two with the same name the later value stays. -/
def givenAttributes (raw : List RawAttribute) : Attributes :=
  raw.foldl (fun as a => as.setText a.name.given a.value) ([] : Attributes)

namespace Item

mutual

def reports : Item → List Report
  | element p place name namespaces raw children q endPlace endName =>
    ⟨p, .startElement place name namespaces raw⟩ :: (reportsOf children ++ [⟨q, .endElement endPlace endName⟩])
  | characters p place t => [⟨p, .characters place t⟩]
  | comment p place text? => [⟨p, .comment place text?⟩]
  | instruction p place target? data? => [⟨p, .instruction place target? data?⟩]
  | doctype p place name? publicId? systemId? => [⟨p, .doctype place name? publicId? systemId?⟩]

def reportsOf : List Item → List Report
  | [] => []
  | i :: is => i.reports ++ reportsOf is

end

mutual

/-- The events of an item. The namespaces an element declares surround its tags; each piece of character data
is a text of its own. -/
def events : Item → List Event
  | element p _ name namespaces raw children q _ endName =>
    namespaces.map (fun n => .startNamespace p (n.pre?.getD []) (n.uri?.getD []))
      ++ .startTag p name.given (givenAttributes raw)
      :: (eventsOf children
        ++ .endTag q endName.given :: namespaces.reverse.map (fun n => .endNamespace q (n.pre?.getD [])))
  | characters p _ t => [.text p t]
  | comment p _ text? => [.comment p (text?.getD [])]
  | instruction p _ target? data? => [.instruction p (target?.getD []) (Text.ofRaw data?)]
  | doctype p _ name? publicId? systemId? => [.doctype p (name?.getD []) (publicId?.getD []) (systemId?.getD [])]

def eventsOf : List Item → List Event
  | [] => []
  | i :: is => i.events ++ eventsOf is

end

end Item

/-! ## Scripts are forests -/

/-- Bracketed callbacks are those of items. -/
theorem items_of_bracketed {rs : List Report}
    (h : Bracketed (fun r => r.callback.isStart) (fun r => r.callback.isEnd) rs)
    (noError : ∀ r ∈ rs, r.callback.isError = false) : ∃ items, Item.reportsOf items = rs := by
  induction h with
  | nil => exact ⟨[], rfl⟩
  | @leaf r rs noStart noEnd _ ih =>
    simp only [List.mem_cons, forall_eq_or_imp] at noError
    obtain ⟨items, rfl⟩ := ih noError.2
    obtain ⟨p, c⟩ := r
    cases c with
    | startElement => cases noStart
    | endElement => cases noEnd
    | characters place t => exact ⟨.characters p place t :: items, rfl⟩
    | comment place text? => exact ⟨.comment p place text? :: items, rfl⟩
    | instruction place target? data? => exact ⟨.instruction p place target? data? :: items, rfl⟩
    | doctype place name? publicId? systemId? => exact ⟨.doctype p place name? publicId? systemId? :: items, rfl⟩
    | error | fatal | malformed => exact absurd noError.1 (by simp [Callback.isError])
  | @pair r s inner rs opened closed _ _ ihInside ihRest =>
    simp only [List.mem_cons, List.mem_append, or_imp, forall_and] at noError
    obtain ⟨-, inside, -, rest⟩ := noError
    obtain ⟨children, rfl⟩ := ihInside inside
    obtain ⟨items, rfl⟩ := ihRest rest
    obtain ⟨p, c⟩ := r
    obtain ⟨q, d⟩ := s
    cases c with
    | startElement place name namespaces raw =>
      cases d with
      | endElement endPlace endName =>
        exact ⟨.element p place name namespaces raw children q endPlace endName :: items, by
          simp [Item.reportsOf, Item.reports]⟩
      | _ => cases closed
    | _ => cases opened

/-- A script without errors, whose callbacks for start and end tags pair up, is that of a forest. -/
theorem exists_items {script : List Callback} (last : Position) (noError : ∀ c ∈ script, c.isError = false)
    (balanced : script.foldlM (bracketDepth Callback.isStart Callback.isEnd) 0 = some 0) :
    ∃ items, Item.reportsOf items = reports last script := by
  have callbacks := map_callback_reports last script
  refine items_of_bracketed (.of_depth ?_) fun r hr => noError _ (callbacks ▸ List.mem_map_of_mem hr)
  rw [← callbacks, List.foldlM_map] at balanced
  exact balanced

end Stencil
