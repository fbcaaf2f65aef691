import Mathlib.Data.List.DropRight
import Stencil.Proofs.Stream.Done
import Stencil.Proofs.Stream.Tidied
import Stencil.Proofs.Text.LineBreak

/-!
# The white space of a stream

What comes out of a stream whose texts are tidied, said of the events alone: all that are no texts, and between
them one text for each run of texts, whatever the pieces it came in (`Tidies`). The same comes out when it is
tidied again.
-/

open Stencil.Stream

namespace Stencil

/-- Events, and the same ones with each run of texts made one text and tidied. -/
inductive Tidies : List Event → List Event → Prop
  | nil : Tidies [] []
  | event {e : Event} {es fs : List Event} (other : e.isText = false) (rest : Tidies es fs) : Tidies (e :: es) (e :: fs)
  | run {p : Position} {t u : Text} {more : List (Position × Text)} {es fs : List Event}
      (ends : ∀ e ∈ es.head?, e.isText = false) (text : Text.Collapses [] (t ++ (more.map Prod.snd).flatten) u)
      (rest : Tidies es fs) :
      Tidies (.text p t :: (more.map (fun (q, x) => Event.text q x) ++ es)) (.text p u :: fs)

variable {stop? : Option Stop} {text? : Option (Position × Text)} {p : Position} {t : Text} {es fs : List Event}

/-! ## Runs of texts -/

theorem Event.text_or_other (e : Event) : (∃ p t, e = .text p t) ∨ e.isText = false := by
  cases e with
  | text p t => exact .inl ⟨p, t, rfl⟩
  | _ => exact .inr rfl

theorem tidyFrom_run (stop? : Option Stop) (more : List (Position × Text)) (es : List Event) :
    tidyFrom stop? (some (p, t)) (more.map (fun (q, x) => Event.text q x) ++ es) =
      tidyFrom stop? (some (p, t ++ (more.map Prod.snd).flatten)) es := by
  induction more generalizing t with
  | nil => simp
  | cons text more ih =>
    rw [List.map_cons, List.cons_append, tidyFrom, addText, ih]
    simp

/-- A text is handed on before an event that is none, and at the end. -/
theorem tidyFrom_some (ends : ∀ e ∈ es.head?, e.isText = false) :
    tidyFrom none (some (p, t)) es = .text p t.tidy :: tidyFrom none none es := by
  cases es with
  | nil => rfl
  | cons e es =>
    have other := ends e rfl
    rw [tidyFrom_cons other, tidyFrom_cons other]
    rfl

theorem Tidies.eq_tidyFrom (h : Tidies es fs) : fs = tidyFrom none none es := by
  induction h with
  | nil => rfl
  | event other _ ih =>
    rw [tidyFrom_cons other, ← ih]
    rfl
  | run ends text _ ih => rw [tidyFrom, addText, tidyFrom_run, tidyFrom_some ends, ← ih, ← Text.collapses_iff.1 text]

/-- A text before other events goes to the run that they begin with, if they do. -/
theorem Tidies.text (h : Tidies es fs) (p : Position) (t : Text) : ∃ fs, Tidies (.text p t :: es) fs := by
  have alone (ends : ∀ e ∈ es.head?, e.isText = false) : ∃ fs, Tidies (.text p t :: es) fs :=
    ⟨_, @Tidies.run p t _ [] es fs ends (Text.collapses_iff.2 rfl) h⟩
  cases h with
  | nil => exact alone (by simp)
  | event other => exact alone (by simpa using other)
  | @run q x _ more es fs ends _ rest => exact ⟨_, @Tidies.run p t _ ((q, x) :: more) es fs ends (Text.collapses_iff.2 rfl) rest⟩

theorem exists_tidies (es : List Event) : ∃ fs, Tidies es fs := by
  induction es with
  | nil => exact ⟨[], .nil⟩
  | cons e es ih =>
    obtain ⟨fs, rest⟩ := ih
    rcases e.text_or_other with ⟨p, t, rfl⟩ | other
    · exact rest.text p t
    · exact ⟨_, .event other rest⟩

/-- **Collecting texts up to the next event tidies each run of them.** -/
theorem tidies_iff : Tidies es fs ↔ fs = tidyFrom none none es := by
  refine ⟨Tidies.eq_tidyFrom, ?_⟩
  rintro rfl
  obtain ⟨fs, tidies⟩ := exists_tidies es
  rwa [← tidies.eq_tidyFrom]

/-! ## What comes out -/

theorem neat_of_mem_tidyFrom (h : .text p t ∈ tidyFrom stop? text? es) : t.Neat := by
  have held {text? : Option (Position × Text)} (h : .text p t ∈ tidyText text?) : t.Neat := by
    obtain ⟨⟨_, t⟩, -, same⟩ := List.mem_map.1 h
    cases same
    exact Text.neat_tidy t
  induction es generalizing text? with
  | nil =>
    rw [tidyFrom] at h
    split at h
    · exact held h
    · cases h
  | cons e es ih =>
    rcases e.text_or_other with ⟨q, x, rfl⟩ | other
    · exact ih h
    · rw [tidyFrom_cons other] at h
      rcases List.mem_append.1 h with h | h
      · exact held h
      · rcases List.mem_cons.1 h with rfl | h
        · cases other
        · exact ih h

/-- **What has been tidied stays as it is.** -/
theorem tidyFrom_tidyFrom (stop? : Option Stop) (text? : Option (Position × Text)) (es : List Event) :
    tidyFrom stop? none (tidyFrom stop? text? es) = tidyFrom stop? text? es := by
  induction es generalizing text? with
  | nil =>
    cases stop? with
    | some why => rfl
    | none =>
      cases text? with
      | none => rfl
      | some text => simp [tidyFrom, tidyText, addText, Text.tidy_tidy]
  | cons e es ih =>
    rcases e.text_or_other with ⟨p, t, rfl⟩ | other
    · exact ih _
    · rw [tidyFrom_cons other]
      cases text? with
      | none =>
        rw [tidyText, Option.toList, List.map_nil, List.nil_append, tidyFrom_cons other, ih]
        rfl
      | some text =>
        change tidyFrom stop? (some (text.1, text.2.tidy)) (e :: tidyFrom stop? none es) = _
        rw [tidyFrom_cons other, ih]
        simp [tidyText, Text.tidy_tidy]

/-- No text is handed on before a failure unless another event follows it. -/
theorem tidyFrom_texts (why : Stop) (text? : Option (Position × Text)) {texts : List Event} (all : ∀ e ∈ texts, e.isText = true) :
    tidyFrom (some why) text? texts = [] := by
  induction texts generalizing text? with
  | nil => rfl
  | cons e es ih =>
    obtain ⟨isText, rest⟩ := List.forall_mem_cons.1 all
    cases e with
    | text => exact ih _ rest
    | _ => cases isText

theorem tidyFrom_append (why : Stop) (text? : Option (Position × Text)) (front : List Event) {e : Event} {texts : List Event}
    (other : e.isText = false) (all : ∀ e ∈ texts, e.isText = true) :
    tidyFrom (some why) text? (front ++ e :: texts) = tidyFrom none text? (front ++ [e]) := by
  induction front generalizing text? with
  | nil =>
    rw [List.nil_append, List.nil_append, tidyFrom_cons other, tidyFrom_cons other, tidyFrom_texts why none all]
    rfl
  | cons x front ih =>
    rcases x.text_or_other with ⟨p, t, rfl⟩ | other
    · exact ih _
    · rw [List.cons_append, List.cons_append, tidyFrom_cons other, tidyFrom_cons other, ih]

/-- **Before a failure the last texts are lost**, and no more. -/
theorem tidyFrom_fails (why : Stop) (es : List Event) :
    tidyFrom (some why) none es = tidyFrom none none (es.rdropWhile Event.isText) := by
  have split : es.rdropWhile Event.isText ++ es.rtakeWhile Event.isText = es := List.rdropWhile_append_rtakeWhile ..
  have all : ∀ e ∈ es.rtakeWhile Event.isText, e.isText = true := fun _ => List.mem_rtakeWhile_imp
  rcases List.eq_nil_or_concat' (es.rdropWhile Event.isText) with none | ⟨front, e, last⟩
  · rw [none, List.nil_append] at split
    rw [← split, tidyFrom_texts why _ all, split, none]
    rfl
  · have other := List.rdropWhile_last_not Event.isText es (by simp [last])
    simp only [last, List.getLast_append_singleton, Bool.not_eq_true] at other
    rw [last, List.append_assoc] at split
    rw [last, ← tidyFrom_append why none front other all, ← List.singleton_append, split]

namespace Stream

variable {k : Nat} {u v w : Stream} {s r : Store}

/-- As far as a stream goes, the tidied one goes with it, and holds back the texts that may go on. -/
theorem Run.tidied (h : Run k u s es v r) (why : Stop) (text? : Option (Position × Text)) :
    ∃ held?, Run k (.tidied none text? u) s (tidyFrom (some why) text? es) (.tidied none held? v) r := by
  induction h generalizing text? with
  | refl => exact ⟨text?, .refl _ _⟩
  | skip first _ ih =>
    obtain ⟨held?, rest⟩ := ih text?
    exact ⟨held?, .skip (tidied_skip text? first) rest⟩
  | @yield u v _ s t _ e es first _ ih =>
    rcases e.text_or_other with ⟨p, b, rfl⟩ | other
    · obtain ⟨held?, rest⟩ := ih (some (addText text? p b))
      exact ⟨held?, .skip (tidied_text text? first) rest⟩
    · obtain ⟨held?, rest⟩ := ih none
      refine ⟨held?, ?_⟩
      rw [tidyFrom_cons other, ← List.singleton_append, ← List.append_assoc]
      exact (run_tidied_event text? other first).trans rest

theorem Completes.of_tidied (h : Completes k u s es stop? w r) :
    Completes k (Filter.tidy.apply u) s (tidyFrom stop? none es) stop? (.tidied none none w) r := by
  refine h.tidied ?_ none
  rintro rfl
  obtain ⟨_, _, -, last⟩ := h
  exact step_of_done last

end Stream

/-- The events that were pulled, without the texts that a failure has cut off. -/
def Collected.heard (c : Collected) : List Event :=
  if c.stop?.isNone then c.events else c.events.rdropWhile Event.isText

theorem Collected.tidyFrom_heard (c : Collected) : tidyFrom none none c.heard = tidyFrom c.stop? none c.events := by
  rw [heard]
  cases c.stop? with
  | none => rfl
  | some why => exact (tidyFrom_fails why c.events).symm

namespace Stream

/-- **Tidying a stream makes one tidied text of each run of texts**, and hands on all other events as they are.

However far events are pulled, those of the stream come out tidied up to the last one that is no text; at its end they all do.
In no text a blank or a line feed stands before a line feed, and tidying the stream twice comes to the same as tidying it once. -/
theorem tidies_of_tidy (u : Stream) (s : Store) :
    (∀ k es v r, Run k u s es v r →
      ∃ fs held? kept?, Run k (Filter.tidy.apply u) s fs (.tidied none held? v) r ∧
        Run k (Filter.tidy.apply (Filter.tidy.apply u)) s fs (.tidied none kept? (.tidied none held? v)) r ∧
        (∀ gs, Tidies (es.rdropWhile Event.isText) gs ↔ gs = fs) ∧ ∀ p t, .text p t ∈ fs → t.Neat) ∧
      ∀ fuel, (u.collect fuel none s).stop? ≠ some .outOfFuel → ∃ n, ∀ more, n ≤ more →
        let told := u.collect fuel none s
        let once := (Filter.tidy.apply u).collect more none s
        let twice := (Filter.tidy.apply (Filter.tidy.apply u)).collect more none s
        (once.stop? = told.stop? ∧ once.store = told.store) ∧ (∀ gs, Tidies told.heard gs ↔ gs = once.events) ∧
          (∀ p t, .text p t ∈ once.events → t.Neat) ∧
          twice.events = once.events ∧ twice.stop? = once.stop? ∧ twice.store = once.store := by
  refine ⟨fun k es v r run => ?_, fun fuel enough => ?_⟩
  · obtain ⟨held?, once⟩ := run.tidied .outOfFuel none
    obtain ⟨kept?, twice⟩ := once.tidied .outOfFuel none
    rw [tidyFrom_tidyFrom] at twice
    refine ⟨_, held?, kept?, once, twice, fun gs => ?_, fun p t => neat_of_mem_tidyFrom⟩
    rw [tidies_iff, tidyFrom_fails]
  · have told := completes_of_collect enough
    have once := told.of_tidied
    have twice := once.of_tidied
    obtain ⟨n, collected⟩ := collect_of_completes enough once
    obtain ⟨m, again⟩ := collect_of_completes enough twice
    refine ⟨max n m, fun more large => ?_⟩
    dsimp only
    rw [collected more (by omega), again more (by omega), tidyFrom_tidyFrom]
    refine ⟨⟨rfl, rfl⟩, fun gs => ?_, fun p t => neat_of_mem_tidyFrom, rfl, rfl, rfl⟩
    rw [tidies_iff, Collected.tidyFrom_heard]

/-- Blank lines in two pieces, with a comment after them. -/
theorem tidies_of_tidy_pieces :
    let s := Store.ofContext (.ofBase []) (.empty [])
    let u := Stream.ofEvents [.text ⟨1, 1⟩ "a \t", .text ⟨1, 4⟩ "\n\t\n", .comment ⟨3, 1⟩ "c", .text ⟨3, 9⟩ "\n"]
    (u.collect 7 none s).stop? ≠ some .outOfFuel ∧ ∃ n, ∀ more, n ≤ more →
      ((Filter.tidy.apply u).collect more none s).events =
        [.text ⟨1, 1⟩ "a\n", .comment ⟨3, 1⟩ "c", .text ⟨3, 9⟩ "\n"] := by
  intro s u
  have enough : (u.collect 7 none s).stop? ≠ some .outOfFuel := nofun
  obtain ⟨n, all⟩ := (tidies_of_tidy u s).2 7 enough
  exact ⟨enough, n, fun more large => (((all more large).2.1 _).1 (tidies_iff.2 rfl)).symm.trans rfl⟩

end Stream

end Stencil
