import Mathlib.Data.List.SplitBy
import Stencil.Document.Reader

/-!
# Texts that are joined

Each longest run of texts in a list of events becomes one text (`joinTexts`). The same is done from left to
right, with the text so far (`joinFrom`, `joinFrom_eq`), and no event gets a position that was not there
(`positions_joinTexts`).
-/

namespace Stencil

/-- The text of a text event. -/
def Event.text? : Event → Option Text
  | text _ t => some t
  | _ => none

@[simp] theorem Event.text?_text (p : Position) (t : Text) : (text p t).text? = some t := rfl

theorem Event.eq_text {e : Event} {t : Text} (h : e.text? = some t) : ∃ p, e = text p t := by
  cases e with
  | text p u => exact ⟨p, by simpa using h⟩
  | _ => cases h

/-- A text that follows another one belongs to the same run. -/
def sameRun (e f : Event) : Bool := e.text?.isSome && f.text?.isSome

/-- A run of texts becomes one, at the position of its first text that is not empty; if there is none, the run
has no event. An event of another kind stays. -/
def joinRun (es : List Event) : List Event :=
  match es.find? fun e => e.text?.any (!·.isEmpty) with
  | some e => [.text e.position (es.filterMap Event.text?).flatten]
  | none => es.filter (·.text?.isNone)

/-- Every longest run of texts is joined. -/
def joinTexts (es : List Event) : List Event := (es.splitBy sameRun).flatMap joinRun

/-- The text so far, unless it is empty. -/
def dueText (t : Text) (p : Position) : List Event := if t.isEmpty then [] else [.text p t]

/-- Joins texts from left to right, after the text `t` at `p`. -/
def joinFrom (t : Text) (p : Position) : List Event → List Event
  | [] => dueText t p
  | .text q u :: es => joinFrom (t ++ u) (if t.isEmpty then q else p) es
  | e :: es => dueText t p ++ e :: joinFrom [] p es

/-! ## From left to right -/

theorem joinFrom_other {e : Event} (other : e.text? = none) (t : Text) (p : Position) (es : List Event) :
    joinFrom t p (e :: es) = dueText t p ++ e :: joinFrom [] p es := by
  cases e with
  | text => cases other
  | _ => rfl

/-- A text ends before events of other kinds. -/
theorem joinFrom_others {before : List Event} (others : ∀ e ∈ before, e.text? = none) (t : Text) (p : Position)
    (es : List Event) (some : before ≠ []) :
    joinFrom t p (before ++ es) = dueText t p ++ (before ++ joinFrom [] p es) := by
  induction before generalizing t with
  | nil => exact absurd rfl some
  | cons e before ih =>
    simp only [List.mem_cons, forall_eq_or_imp] at others
    rw [List.cons_append, joinFrom_other others.1]
    cases before with
    | nil => rfl
    | cons f before =>
      rw [ih others.2 [] (by simp)]
      rfl

/-! ## Runs -/

theorem joinTexts_nil : joinTexts [] = [] := rfl

theorem joinTexts_other {e : Event} (other : e.text? = none) (es : List Event) :
    joinTexts (e :: es) = e :: joinTexts es := by
  have alone : (e :: es).splitBy sameRun = [e] :: es.splitBy sameRun :=
    List.splitBy_append (l := [e]) (by simp [sameRun, other])
  simp [joinTexts, alone, joinRun, other]

/-- The texts at the front of a list are one run. -/
theorem joinTexts_text (p : Position) (t : Text) (es : List Event) :
    joinTexts (.text p t :: es) =
      joinRun (.text p t :: es.takeWhile (·.text?.isSome)) ++ joinTexts (es.dropWhile (·.text?.isSome)) := by
  generalize hrun : Event.text p t :: es.takeWhile (·.text?.isSome) = run
  have texts : ∀ e ∈ run, e.text?.isSome = true := by
    rw [← hrun]
    exact List.forall_mem_cons.2 ⟨rfl, List.all_eq_true.1 List.all_takeWhile⟩
  have ends : ∀ e ∈ (es.dropWhile (·.text?.isSome)).head?, e.text?.isSome = false := by
    intro e he
    have first := List.head?_dropWhile_not (fun e : Event => e.text?.isSome) es
    rw [he] at first
    exact first
  have chain : run.IsChain fun e f => sameRun e f = true :=
    (List.pairwise_of_forall_mem_list fun e he f hf => by simp [sameRun, texts e he, texts f hf]).isChain
  have whole : .text p t :: es = run ++ es.dropWhile (·.text?.isSome) := by
    rw [← hrun, List.cons_append, List.takeWhile_append_dropWhile]
  have split : (run ++ es.dropWhile (·.text?.isSome)).splitBy sameRun =
      run :: (es.dropWhile (·.text?.isSome)).splitBy sameRun := by
    rw [List.splitBy_append fun _ _ e he => by simp [sameRun, ends e he],
      List.splitBy_of_isChain (by simp [← hrun]) chain]
    rfl
  rw [whole, joinTexts, split, List.flatMap_cons]
  rfl

theorem joinRun_text (p : Position) {t : Text} (some : t ≠ []) (es : List Event) :
    joinRun (.text p t :: es) = [.text p (t ++ (es.filterMap Event.text?).flatten)] := by
  have filled : t.isEmpty = false := by simpa using some
  simp [joinRun, filled, Event.position]

theorem joinRun_empty (p : Position) (es : List Event) : joinRun (.text p [] :: es) = joinRun es := by
  simp [joinRun]

/-- Two texts that follow each other can be made one before all others. -/
theorem joinTexts_text_text (p q : Position) {t : Text} (u : Text) (some : t ≠ []) (es : List Event) :
    joinTexts (.text p t :: .text q u :: es) = joinTexts (.text p (t ++ u) :: es) := by
  have both : t ++ u ≠ [] := by simp [some]
  simp [joinTexts_text, joinRun_text p some, joinRun_text p both, List.takeWhile_cons, List.dropWhile_cons]

/-- An empty text can be left out. -/
theorem joinTexts_empty (p : Position) (es : List Event) : joinTexts (.text p [] :: es) = joinTexts es := by
  rw [joinTexts_text, joinRun_empty]
  cases es with
  | nil => rfl
  | cons e es =>
    cases other : e.text? with
    | none =>
      simp [other, joinRun]
    | some u =>
      obtain ⟨q, rfl⟩ := Event.eq_text other
      simp [List.takeWhile_cons, List.dropWhile_cons, joinTexts_text]

/-- A text before an event of another kind is a run of its own. -/
theorem joinTexts_dueText (t : Text) (p : Position) {es : List Event} (others : ∀ e ∈ es.head?, e.text? = none) :
    joinTexts (dueText t p ++ es) = dueText t p ++ joinTexts es := by
  by_cases none : t = []
  · simp [dueText, none]
  · cases es with
    | nil => simp [dueText, none, joinTexts_text, joinRun_text p none, joinTexts_nil]
    | cons e es =>
      have other : e.text? = Option.none := others e rfl
      simp [dueText, none, joinTexts_text, joinRun_text p none, other]

/-- Joining from left to right joins every run. -/
theorem joinFrom_eq (t : Text) (p : Position) (es : List Event) :
    joinFrom t p es = joinTexts (dueText t p ++ es) := by
  induction es generalizing t p with
  | nil => rw [joinTexts_dueText t p (by simp), joinTexts_nil, List.append_nil, joinFrom]
  | cons e es ih =>
    cases other : e.text? with
    | none =>
      rw [joinFrom_other other, ih, joinTexts_dueText t p (by simpa using other), joinTexts_other other]
      rfl
    | some u =>
      obtain ⟨q, rfl⟩ := Event.eq_text other
      rw [joinFrom, ih]
      -- an empty text so far leaves no trace, not even its position
      by_cases none : t = []
      · by_cases empty : u = []
        · simp [dueText, none, empty, joinTexts_empty]
        · simp [dueText, none, empty]
      · simp [dueText, none, joinTexts_text_text]

/-! ## Positions -/

theorem positions_joinRun (run : List Event) :
    ((joinRun run).map Event.position).Sublist (run.map Event.position) := by
  unfold joinRun
  split
  · rename_i e first
    change List.Sublist [e.position] _
    exact List.singleton_sublist.2 (List.mem_map_of_mem (List.mem_of_find?_eq_some first))
  · exact List.filter_sublist.map _

/-- Joining texts leaves out positions and adds none. -/
theorem positions_joinTexts (es : List Event) :
    ((joinTexts es).map Event.position).Sublist (es.map Event.position) := by
  have runs : ∀ runs : List (List Event),
      ((runs.flatMap joinRun).map Event.position).Sublist (runs.flatten.map Event.position) := by
    intro runs
    induction runs with
    | nil => exact List.Sublist.slnil
    | cons run runs ih =>
      simp only [List.flatMap_cons, List.flatten_cons, List.map_append]
      exact (positions_joinRun run).append ih
  simpa [joinTexts] using runs (es.splitBy sameRun)

end Stencil
