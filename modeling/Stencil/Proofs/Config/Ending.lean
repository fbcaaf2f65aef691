import Mathlib.Logic.Function.Iterate
import Stencil.Config.Reader
import Stencil.File.Tree

/-!
# Files that include one another

Reading a configuration goes on in whatever way the files include one another, and nothing in it counts how many are
inside one another: from a system that opens a file that includes itself as often as it is asked to, the file is read for
ever (`Config.read_self`). It is the system that ends this. A process can only have so many files open at a time
(`FileSystem.IsBounded`), and those that include a file stay open while it is read. So the number of files that can still
be opened goes down from a file to those it includes, while each of them has finitely many lines: a file is read to its end
or there is an error (`Config.leaves_openFile`), and reading always ends (`Config.loading_ends`).
-/

namespace Stencil

/-- With so many files open, no other one can be opened: `open` gives `EMFILE`. -/
def FileSystem.IsBounded (fs : FileSystem) : Prop :=
  ∃ limit, ∀ opened, limit ≤ opened → ∀ name, ∃ e, fs.openText opened name = .error e

theorem FileTree.isBounded (t : FileTree) (limit : Nat) : (t.system limit).IsBounded :=
  ⟨limit, fun _ full _ => ⟨.tooManyOpen, if_pos full⟩⟩

namespace Config

variable {fs : FileSystem} {limit n fuel : Nat} {filename name : Text} {c c' : Config} {l : Line} {ls : List Line}
  {opened : List OpenFile} {m m' m'' : Reader} {r r' : Except ReadError Config}

/-! ## Runs -/

/-- From one state, reading comes to the other. -/
def Leads (fs : FileSystem) (m m' : Reader) : Prop := ∃ n, (step fs)^[n] m = m'

theorem Leads.refl (m : Reader) : Leads fs m m := ⟨0, rfl⟩

theorem Leads.head (h : Leads fs (step fs m) m') : Leads fs m m' := by
  obtain ⟨n, there⟩ := h
  exact ⟨n + 1, there⟩

theorem Leads.trans (h : Leads fs m m') (h' : Leads fs m' m'') : Leads fs m m'' := by
  obtain ⟨n, rfl⟩ := h
  obtain ⟨k, rfl⟩ := h'
  exact ⟨k + n, Function.iterate_add_apply _ k n m⟩

theorem iterate_ended (n : Nat) (r : Except ReadError Config) : (step fs)^[n] (.ended r) = .ended r :=
  Function.iterate_fixed rfl n

/-- There is one end at most. -/
theorem Leads.unique (h : Leads fs m (.ended r)) (h' : Leads fs m (.ended r')) : r = r' := by
  obtain ⟨n, ends⟩ := h
  obtain ⟨k, ends'⟩ := h'
  have later : (step fs)^[n + k] m = .ended r' := by rw [Function.iterate_add_apply, ends', iterate_ended]
  rw [Nat.add_comm, Function.iterate_add_apply, ends, iterate_ended] at later
  cases later
  rfl

/-- **What comes out is what the steps lead to.** -/
theorem run_eq_some_iff : run fs fuel m = some r ↔ (step fs)^[fuel] m = .ended r := by
  induction fuel generalizing m with
  | zero => cases m <;> simp [run]
  | succ fuel ih =>
    rw [Function.iterate_succ_apply]
    cases m with
    | ended r' =>
      rw [run, step, iterate_ended, Option.some_inj, Reader.ended.injEq]
    | reading c opened => rw [run, ih]

/-- With enough steps, `r` comes out of a file. -/
def Reads (fs : FileSystem) (name : Text) (r : Except ReadError Config) : Prop :=
  ∃ enough, ∀ fuel, enough ≤ fuel → read fs fuel name = some r

theorem reads_iff : Reads fs name r ↔ Leads fs (openFile fs (fs.fullName name) ⟨[]⟩ []) (.ended r) := by
  constructor
  · rintro ⟨enough, reads⟩
    exact ⟨enough, run_eq_some_iff.1 (reads enough (Nat.le_refl _))⟩
  · rintro ⟨enough, ends⟩
    refine ⟨enough, fun fuel h => run_eq_some_iff.2 ?_⟩
    rw [← Nat.sub_add_cancel h, Function.iterate_add_apply, ends, iterate_ended]

/-! ## Files are left -/

/-- Reading comes to where the files inside of those that are open have been read, or there is an error. -/
def Leaves (fs : FileSystem) (m : Reader) (opened : List OpenFile) : Prop :=
  (∃ c, Leads fs m (.reading c opened)) ∨ ∃ e, Leads fs m (.ended (.error e))

theorem Leads.leaves (h : Leads fs m m') (left : Leaves fs m' opened) : Leaves fs m opened :=
  left.imp (fun ⟨c, there⟩ => ⟨c, h.trans there⟩) (fun ⟨e, failed⟩ => ⟨e, h.trans failed⟩)

/-- A line that includes no file is read in one step. -/
theorem leads_line (read : readLine filename c l = .ok (c', none)) :
    Leads fs (.reading c (⟨filename, l :: ls⟩ :: opened)) (.reading c' (⟨filename, ls⟩ :: opened)) :=
  ⟨1, by rw [Function.iterate_one, step, read]⟩

theorem leads_refused {e : ReadError} (refused : readLine filename c l = .error e) :
    Leads fs (.reading c (⟨filename, l :: ls⟩ :: opened)) (.ended (.error e)) :=
  ⟨1, by rw [Function.iterate_one, step, refused]⟩

theorem leads_include (read : readLine filename c l = .ok (c', some name)) :
    Leads fs (.reading c (⟨filename, l :: ls⟩ :: opened)) (openFile fs name c' (⟨filename, ls⟩ :: opened)) :=
  ⟨1, by rw [Function.iterate_one, step, read]⟩

/-- A file is left if the files that it includes are left. -/
theorem leaves_lines
    (inner : ∀ name c ls, Leaves fs (openFile fs name c (⟨filename, ls⟩ :: opened)) (⟨filename, ls⟩ :: opened))
    (ls : List Line) (c : Config) : Leaves fs (.reading c (⟨filename, ls⟩ :: opened)) opened := by
  induction ls generalizing c with
  | nil => exact .inl ⟨c, 1, rfl⟩
  | cons l ls ih =>
    cases read : readLine filename c l with
    | error e => exact .inr ⟨e, leads_refused read⟩
    | ok next =>
      obtain ⟨c', included?⟩ := next
      cases included? with
      | none => exact (leads_line read).leaves (ih c')
      | some name =>
        refine (leads_include read).leaves ?_
        rcases inner name c' ls with ⟨c'', back⟩ | ⟨e, failed⟩
        · exact back.leaves (ih c'')
        · exact .inr ⟨e, failed⟩

/-- **A file that is opened is left again.** The induction is on the number of files that can still be opened. -/
theorem leaves_openFile (bounded : ∀ opened, limit ≤ opened → ∀ name, ∃ e, fs.openText opened name = .error e) (room : Nat)
    (filename : Text) (c : Config) (opened : List OpenFile) (h : limit ≤ opened.length + room) :
    Leaves fs (openFile fs filename c opened) opened := by
  induction room generalizing filename c opened with
  | zero =>
    obtain ⟨e, refused⟩ := bounded opened.length h filename
    rw [openFile, refused]
    exact .inr ⟨_, .refl _⟩
  | succ room ih =>
    rw [openFile]
    cases fs.openText opened.length filename with
    | error e => exact .inr ⟨_, .refl _⟩
    | ok t =>
      have inner (name : Text) (c : Config) (ls : List Line) := ih name c (⟨filename, ls⟩ :: opened)
        (by rw [List.length_cons]; omega)
      exact leaves_lines inner (lines t) c

/-- **Loading a configuration ends.** On a system that lets only so many files be open at a time, any file, whatever it
includes, is read or refused after finitely many steps. -/
theorem loading_ends (bounded : fs.IsBounded) (name : Text) : ∃ r, Reads fs name r := by
  obtain ⟨limit, full⟩ := bounded
  rcases leaves_openFile full limit (fs.fullName name) ⟨[]⟩ [] (Nat.le_add_left _ _) with ⟨c, all⟩ | ⟨e, failed⟩
  · exact ⟨.ok c, reads_iff.2 (all.trans ⟨1, rfl⟩)⟩
  · exact ⟨.error e, reads_iff.2 failed⟩

/-- Two files that include each other, on a system that lets two files be open. -/
theorem loading_ends_in_a_circle :
    let fs := (((FileTree.empty ["W"]).add "/W/a" (.text "include b") ⟨0, 0⟩).add "/W/b" (.text "include a") ⟨0, 0⟩).system 2
    fs.IsBounded ∧ (∃ r, Reads fs "a" r) ∧ Reads fs "a" (.error (.cantOpen "/W/a" .tooManyOpen)) := by
  intro fs
  have opens : openFile fs (fs.fullName "a") ⟨[]⟩ [] = .reading ⟨[]⟩ [⟨"/W/a", [⟨1, "include b", []⟩]⟩] := rfl
  have includes : step fs (.reading ⟨[]⟩ [⟨"/W/a", [⟨1, "include b", []⟩]⟩]) =
      .reading ⟨[]⟩ [⟨"/W/b", [⟨1, "include a", []⟩]⟩, ⟨"/W/a", []⟩] := rfl
  have refused : step fs (.reading ⟨[]⟩ [⟨"/W/b", [⟨1, "include a", []⟩]⟩, ⟨"/W/a", []⟩]) =
      .ended (.error (.cantOpen "/W/a" .tooManyOpen)) := rfl
  have bounded : fs.IsBounded := FileTree.isBounded _ 2
  refine ⟨bounded, loading_ends bounded "a", reads_iff.2 ⟨2, ?_⟩⟩
  rw [opens, Function.iterate_succ_apply, includes, Function.iterate_one, refused]

/-! ## A file that includes itself -/

/-- If it can be opened as often as it is asked for, reading never ends. -/
theorem read_self {t : Text} (text : ∀ opened, fs.openText opened (fs.fullName name) = .ok t) (first : lines t = l :: ls)
    (itself : ∀ c, readLine (fs.fullName name) c l = .ok (c, some (fs.fullName name))) (fuel : Nat) :
    read fs fuel name = none := by
  have opens (opened : List OpenFile) :
      openFile fs (fs.fullName name) ⟨[]⟩ opened = .reading ⟨[]⟩ (⟨fs.fullName name, l :: ls⟩ :: opened) := by
    rw [openFile, text]
    dsimp only
    rw [first]
  have again (fuel : Nat) (opened : List OpenFile) : run fs fuel (openFile fs (fs.fullName name) ⟨[]⟩ opened) = none := by
    induction fuel generalizing opened with
    | zero => rw [opens, run]
    | succ fuel ih =>
      rw [opens, run, step, itself]
      exact ih _
  exact again fuel []

end Config

end Stencil
