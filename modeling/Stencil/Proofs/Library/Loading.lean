import Stencil.Library.Load
import Stencil.Proofs.File.System
import Stencil.Proofs.Template.Compilation

/-!
# What loading a template does

A request for a template comes to nothing if no candidate can be read (`Store.load_missing`). Otherwise it
comes to loading the first candidate that can be read (`Store.load_found`), under its canonical name: either
the library has a current template for it, which is given, or its content is compiled, and kept if that
succeeds (`Store.loadFile_spec`).
-/

namespace Stencil

/-! ## Failing alike -/

/-- The computations fail for the same reason, or both succeed. -/
def FailAlike {ε α β : Type} (r : Except ε α) (r' : Except ε β) : Prop := ∀ e, r = .error e ↔ r' = .error e

namespace FailAlike

variable {ε α β γ δ : Type} {r : Except ε α} {r' : Except ε β}

theorem refl (r : Except ε α) : FailAlike r r := fun _ => Iff.rfl

theorem ok (a : α) (b : β) : FailAlike (.ok a : Except ε α) (.ok b : Except ε β) := fun e => by simp

/-- Two computations that fail alike, followed by others that do. -/
theorem bind {f : α → Except ε γ} {g : β → Except ε δ} (h : FailAlike r r') (next : ∀ a b, FailAlike (f a) (g b)) :
    FailAlike (r >>= f) (r' >>= g) := by
  cases r with
  | error e =>
    rw [(h e).1 rfl]
    exact fun e' => ⟨fun same => by cases same; rfl, fun same => by cases same; rfl⟩
  | ok a =>
    cases r' with
    | error e => cases (h e).2 rfl
    | ok b => exact next a b

theorem mapM {f : γ → Except ε α} {g : γ → Except ε β} (h : ∀ x, FailAlike (f x) (g x)) (xs : List γ) :
    FailAlike (xs.mapM f) (xs.mapM g) := by
  induction xs with
  | nil => exact ok _ _
  | cons x xs ih =>
    rw [List.mapM_cons, List.mapM_cons]
    exact (h x).bind fun _ _ => ih.bind fun _ _ => ok _ _

end FailAlike

/-! ## Compiling under different numbers -/

namespace Compile

variable {t t' : Target}

end Compile

/-- The template of a file with some content, or why there is none. -/
def Content.compile (c : Content) (target : Compile.Target) : Except Fault Template :=
  match (Compilation.ofDocument target (Store.documentOf c)).result with
  | .ok t => .ok { t with preFilters := t.preFilters ++ [.inclusion target.filename] }
  | .error e => .error (.source e)

namespace FileSystem

variable {fs : FileSystem} {names : List Text} {path : Text} {c : Content} {time : Timestamp}

/-- The first of the names that is one of a readable file is a name of a file that holds `c` since it was modified at
`time`, and has the canonical form `path`. -/
def Finds (fs : FileSystem) (names : List Text) (path : Text) (c : Content) (time : Timestamp) : Prop :=
  ∃ before name after, names = before ++ name :: after ∧ (∀ n ∈ before, fs.isReadable n = false) ∧
    fs.Has name c time ∧ path = fs.fullName name

theorem finds_or_missing (lawful : fs.Lawful) (names : List Text) :
    (∀ n ∈ names, fs.isReadable n = false) ∨ ∃ path c time, fs.Finds names path c time := by
  cases first : names.find? fs.isReadable with
  | none => exact .inl fun n hn => Bool.eq_false_iff.2 (List.find?_eq_none.1 first n hn)
  | some name =>
    obtain ⟨readable, before, after, split, unreadable⟩ := List.find?_eq_some_iff_append.1 first
    obtain ⟨c, time, has⟩ := lawful.has name readable
    exact .inr ⟨_, c, time, before, name, after, split, fun n hn => by simpa using unreadable n hn, has, rfl⟩

theorem Finds.holds (lawful : fs.Lawful) (h : fs.Finds names path c time) : fs.Holds path c time := by
  obtain ⟨before, name, after, -, -, has, rfl⟩ := h
  exact ⟨lawful.straight name c time has, isFull_fullName lawful.working name⟩

/-- At most one file is found. -/
theorem Finds.unique {path' : Text} {c' : Content} {time' : Timestamp} (h : fs.Finds names path c time)
    (h' : fs.Finds names path' c' time') : path = path' ∧ c = c' ∧ time = time' := by
  have first {path : Text} {c : Content} {time : Timestamp} (h : fs.Finds names path c time) : ∃ name,
      names.find? fs.isReadable = some name ∧ fs.Has name c time ∧ path = fs.fullName name := by
    obtain ⟨before, name, after, split, unreadable, has, canonical⟩ := h
    exact ⟨name, List.find?_eq_some_iff_append.2 ⟨has.readable, before, after, split,
      fun n hn => by simp [unreadable n hn]⟩, has, canonical⟩
  obtain ⟨name, chosen, has, rfl⟩ := first h
  obtain ⟨name', chosen', has', rfl⟩ := first h'
  cases chosen.symm.trans chosen'
  exact ⟨rfl, has.unique has'⟩

end FileSystem

/-! ## What a library keeps -/

namespace Library

theorem find_keep (l : Library) (path other : Text) (h : Holding) :
    (l.keep path h).find? other = if other = path then some h else l.find? other := by
  have kept : (l.holdings.filter (·.1 != path)).find? (·.1 == other) =
      if other = path then none else l.holdings.find? (·.1 == other) := by
    rw [List.find?_filter]
    split
    · rename_i same
      exact List.find?_eq_none.2 fun x _ => by simp [same]
    · rename_i differs
      congr 1
      funext x
      by_cases hit : x.1 = other
      · simp [hit, differs]
      · simp [hit]
  unfold find? keep
  rw [List.find?_append, kept]
  split
  · rename_i same
    simp [same]
  · rename_i differs
    have unseen : [(path, h)].find? (·.1 == other) = none := List.find?_eq_none.2 fun x hx => by
      rw [List.mem_singleton.1 hx]
      simpa using Ne.symm differs
    rw [unseen, Option.or_none]

end Library

/-! ## Loading -/

namespace Store

variable {s : Store} {l : Library} {name relativeTo path : Text} {c : Content} {time : Timestamp}

/-- The store keeps its files, and its library keeps the template if there is one. -/
structure Retains (s : Store) (l : Library) (path : Text) (time : Timestamp) (outcome : Except Fault Template) (s' : Store) :
    Prop where
  files : s'.files = s.files
  library : s'.library? = match outcome with
    | .ok t => some (l.keep path ⟨t, time⟩)
    | .error _ => s.library?

theorem compileAndKeep_spec (found : s.files.content path = .ok c) (l : Library) (time : Timestamp) :
    (s.compileAndKeep l path time).1 = c.compile ⟨s.nextTemplate, path, s.registry⟩ ∧
      s.Retains l path time (c.compile ⟨s.nextTemplate, path, s.registry⟩) (s.compileAndKeep l path time).2 := by
  unfold compileAndKeep compileFile Content.compile
  rw [found]
  dsimp only
  cases (Compilation.ofDocument ⟨s.nextTemplate, path, s.registry⟩ (documentOf c)).result with
  | ok t => exact ⟨rfl, rfl, rfl⟩
  | error e => exact ⟨rfl, rfl, rfl⟩

/-- **Either the library has a current template, or the file is compiled.** -/
theorem loadFile_spec (found : s.files.content path = .ok c) (l : Library) (time : Timestamp) :
    (∃ h, l.find? path = some h ∧ l.isCurrent h time = true ∧ (s.loadFile l path time).1 = .ok h.template ∧
      (s.loadFile l path time).2.files = s.files ∧ (s.loadFile l path time).2.library? = s.library?) ∨
    ((∀ h, l.find? path = some h → l.isCurrent h time = false) ∧
      (s.loadFile l path time).1 = c.compile ⟨s.nextTemplate, path, s.registry⟩ ∧
      s.Retains l path time (c.compile ⟨s.nextTemplate, path, s.registry⟩) (s.loadFile l path time).2) := by
  have compiled (level : LogLevel) (message : Text) :
      ((s.report level message).compileAndKeep l path time).1 = c.compile ⟨s.nextTemplate, path, s.registry⟩ ∧
        s.Retains l path time (c.compile ⟨s.nextTemplate, path, s.registry⟩) ((s.report level message).compileAndKeep l path time).2 := by
    obtain ⟨outcome, keeps⟩ := compileAndKeep_spec (s := s.report level message) found l time
    exact ⟨outcome, keeps.files, keeps.library⟩
  unfold loadFile
  split
  · rename_i h kept
    split
    · rename_i current
      exact .inl ⟨h, kept, current, rfl, rfl, rfl⟩
    · rename_i outdated
      refine .inr ⟨?_, compiled _ _⟩
      intro h' kept'
      cases kept.symm.trans kept'
      exact Bool.eq_false_iff.2 outdated
  · rename_i none
    refine .inr ⟨?_, compiled _ _⟩
    intro h kept
    cases none.symm.trans kept

theorem load_missing (missing : ∀ n ∈ l.candidates name relativeTo, s.files.isReadable n = false) :
    s.load l name relativeTo = (.error (.templateNotFound name (l.tried name relativeTo)), s) := by
  have none : (l.candidates name relativeTo).findSome? s.present? = none :=
    List.findSome?_eq_none_iff.2 fun n hn => by simp [present?, missing n hn]
  rw [load, none]

theorem load_found (lawful : s.files.Lawful) (h : s.files.Finds (l.candidates name relativeTo) path c time) :
    s.load l name relativeTo = s.loadFile l path time ∧ s.files.content path = .ok c := by
  have holds := h.holds lawful
  obtain ⟨before, candidate, after, split, unreadable, has, rfl⟩ := h
  have first : (l.candidates name relativeTo).findSome? s.present? = some (s.files.fullName candidate, time) := by
    refine List.findSome?_eq_some_iff.2 ⟨before, candidate, after, split, ?_, fun n hn => by simp [present?, unreadable n hn]⟩
    simp [present?, has.readable, holds.modified]
  exact ⟨by rw [load, first], holds.content⟩

/-- A request adds no directives. -/
theorem registry_load (s : Store) (l : Library) (name relativeTo : Text) :
    (s.load l name relativeTo).2.registry = s.registry := by
  have compiled (s : Store) (path : Text) (time : Timestamp) : (s.compileAndKeep l path time).2.registry = s.registry := by
    have only : (s.compileFile path).2.registry = s.registry := by
      unfold compileFile
      split
      · rfl
      · dsimp only
        split <;> rfl
    unfold compileAndKeep
    split
    · rename_i outcome
      rw [outcome] at only
      exact only
    · exact only
  unfold load
  split
  · unfold loadFile
    split
    · split
      · rfl
      · exact compiled _ _ _
    · exact compiled _ _ _
  · rfl

/-- What a request for a template comes to, and the library after it: it is refused, a template that is kept is given, or
a file is compiled. -/
inductive Loads (s : Store) (l : Library) : Except Fault Template → Option Library → Prop
  | refused (e : Fault) : Loads s l (.error e) s.library?
  | kept {path : Text} {h : Holding} (found : l.find? path = some h) : Loads s l (.ok h.template) s.library?
  | compiled {path : Text} {c : Content} {number : Nat} {t : Template} (time : Timestamp)
      (content : s.files.content path = .ok c) (compiled : c.compile ⟨number, path, s.registry⟩ = .ok t) :
      Loads s l (.ok t) (some (l.keep path ⟨t, time⟩))

theorem compileAndKeep_loads (s : Store) (l : Library) (path : Text) (time : Timestamp) :
    (s.compileAndKeep l path time).2.files = s.files ∧
      s.Loads l (s.compileAndKeep l path time).1 (s.compileAndKeep l path time).2.library? := by
  cases content : s.files.content path with
  | error e =>
    unfold compileAndKeep compileFile
    rw [content]
    exact ⟨rfl, .refused _⟩
  | ok c =>
    obtain ⟨outcome, retains⟩ := compileAndKeep_spec content l time
    refine ⟨retains.files, ?_⟩
    rw [outcome, retains.library]
    cases compiled : c.compile ⟨s.nextTemplate, path, s.registry⟩ with
    | error e => exact .refused e
    | ok t => exact .compiled time content compiled

/-- **A request leaves the files as they are**, and gives a template that is kept, or of a file. -/
theorem load_loads (s : Store) (l : Library) (name relativeTo : Text) :
    (s.load l name relativeTo).2.files = s.files ∧
      s.Loads l (s.load l name relativeTo).1 (s.load l name relativeTo).2.library? := by
  have compiled {path : Text} {time : Timestamp} (level : LogLevel) (message : Text) :
      ((s.report level message).compileAndKeep l path time).2.files = s.files ∧
        s.Loads l ((s.report level message).compileAndKeep l path time).1
          ((s.report level message).compileAndKeep l path time).2.library? := by
    obtain ⟨files, loads⟩ := compileAndKeep_loads (s.report level message) l path time
    refine ⟨files, ?_⟩
    generalize ((s.report level message).compileAndKeep l path time).1 = outcome at loads ⊢
    generalize ((s.report level message).compileAndKeep l path time).2.library? = after at loads ⊢
    cases loads with
    | refused e => exact .refused e
    | kept found => exact .kept found
    | compiled time content compiled => exact .compiled time content compiled
  unfold load
  split
  · unfold loadFile
    split
    · rename_i kept
      split
      · exact ⟨rfl, .kept kept⟩
      · exact compiled _ _
    · exact compiled _ _
  · exact ⟨rfl, .refused _⟩

end Store

end Stencil
