import Stencil.Proofs.Library.Loading

/-!
# A library is never out of date

Templates are requested and files change, in any order. If each change of a file gives it a modification time it
never had before, what a library keeps for a file was compiled from what the file held at the recorded time
(`Library.Current`, which requests keep by `Current.keep` and changes by `Current.change`). So a library that
reloads gives what the file comes to now, one that does not gives what the file came to when it was first loaded,
and a request that fails leaves no trace (`Library.load_never_stale`).
-/

namespace Stencil

/-! ## Histories -/

/-- What can happen between the opening of a library and a request. -/
inductive Happening where
  | load (name relativeTo : Text)
  /-- the files are changed to these -/
  | change (files : FileSystem)

/-- The files at all times, the last ones first, if they have been `files` at first. -/
def Happening.systems (files : FileSystem) : List Happening → List FileSystem
  | [] => [files]
  | .load .. :: past => systems files past
  | .change files' :: past => files' :: systems files past

/-- Each change of a file gives it a modification time it never had before. The last files come first. -/
def FileSystem.Fresh : List FileSystem → Prop
  | t :: t' :: ts =>
    (∀ path c time, t.Holds path c time → t'.Holds path c time ∨ ∀ u ∈ t' :: ts, ∀ c', ¬ u.Holds path c' time) ∧
    Fresh (t' :: ts)
  | _ => True

namespace Store

/-- The store after a request, or a change of the files. -/
def happen (s : Store) : Happening → Store
  | .load name relativeTo =>
    match s.library? with
    | some l => (s.load l name relativeTo).2
    | none => s
  | .change files => { s with files }

/-- The store after all that happened, the last of it first. -/
def after (s : Store) (past : List Happening) : Store := past.foldr (fun h s => s.happen h) s

/-- Some request has found a file as it was then, under its canonical name, and has been given the template. -/
inductive Gave (s : Store) (path : Text) (c : Content) (time : Timestamp) (t : Template) : List Happening → Prop
  | now {name relativeTo : Text} {past : List Happening} {l : Library} (library : (s.after past).library? = some l)
    (finds : (s.after past).files.Finds (l.candidates name relativeTo) path c time)
    (given : ((s.after past).load l name relativeTo).1 = .ok t) : Gave s path c time t (.load name relativeTo :: past)
  | earlier {h : Happening} {past : List Happening} (given : Gave s path c time t past) : Gave s path c time t (h :: past)

end Store

/-! ## Files over time -/

namespace FileSystem

variable {t u : FileSystem} {ts : List FileSystem} {path : Text} {c c' : Content} {time : Timestamp}

/-- At one time a file has one content. -/
theorem Fresh.agree (fresh : Fresh ts) (ht : t ∈ ts) (hu : u ∈ ts) (h : t.Holds path c time)
    (h' : u.Holds path c' time) : c = c' := by
  induction ts generalizing t u c c' with
  | nil => cases ht
  | cons first ts ih =>
    cases ts with
    | nil =>
      rw [List.mem_singleton.1 ht] at h
      rw [List.mem_singleton.1 hu] at h'
      exact (h.unique h'.toHas).1
    | cons second ts =>
      obtain ⟨new, older⟩ := fresh
      -- a file of the first system as it is in another one is in the second system too
      have among {v : FileSystem} {d d' : Content} (hv : v ∈ second :: ts) (here : first.Holds path d time)
          (there : v.Holds path d' time) : d = d' := by
        rcases new path d time here with before | never
        · exact ih older List.mem_cons_self hv before there
        · exact absurd there (never v hv d')
      rcases List.mem_cons.1 ht with rfl | ht' <;> rcases List.mem_cons.1 hu with rfl | hu'
      · exact (h.unique h'.toHas).1
      · exact among hu' h h'
      · exact (among ht' h' h).symm
      · exact ih older ht' hu' h h'

/-- A file that has a time it had before has not been changed. -/
theorem Fresh.unchanged {t' : FileSystem} (fresh : Fresh (t :: t' :: ts)) (hu : u ∈ t' :: ts) (h : t.Holds path c time)
    (h' : u.Holds path c' time) : t'.Holds path c time := by
  rcases fresh.1 path c time h with before | never
  · exact before
  · exact absurd h' (never u hu c')

end FileSystem

/-! ## What a library keeps over time -/

namespace Store

variable {s : Store} {past : List Happening} {path : Text} {c : Content} {time : Timestamp} {t : Template}

/-- Requests don't change files. -/
theorem systems_after (s : Store) (past : List Happening) :
    ∃ older, Happening.systems s.files past = (s.after past).files :: older := by
  induction past with
  | nil => exact ⟨[], rfl⟩
  | cons h past ih =>
    cases h with
    | change files => exact ⟨_, rfl⟩
    | load name relativeTo =>
      obtain ⟨older, before⟩ := ih
      refine ⟨older, before.trans (congrArg (· :: older) ?_)⟩
      change (s.after past).files = ((s.after past).happen (.load name relativeTo)).files
      unfold happen
      cases (s.after past).library? with
      | none => rfl
      | some l => exact ((s.after past).load_loads l name relativeTo).1.symm

/-- Requests and changes of files add no directives. -/
theorem registry_after (s : Store) (past : List Happening) : (s.after past).registry = s.registry := by
  induction past with
  | nil => rfl
  | cons h past ih =>
    refine Eq.trans ?_ ih
    change ((s.after past).happen h).registry = (s.after past).registry
    cases h with
    | change files => rfl
    | load name relativeTo =>
      unfold happen
      cases (s.after past).library? with
      | none => rfl
      | some l => exact (s.after past).registry_load l name relativeTo

/-- What was given was there at some time. -/
theorem Gave.held (given : s.Gave path c time t past) (lawful : ∀ u ∈ Happening.systems s.files past, u.Lawful) :
    ∃ u ∈ Happening.systems s.files past, u.Holds path c time := by
  induction given with
  | @now name relativeTo past l library finds outcome =>
    have head : (s.after past).files ∈ Happening.systems s.files past := by
      obtain ⟨older, systems⟩ := systems_after s past
      exact systems ▸ List.mem_cons_self
    exact ⟨_, head, finds.holds (lawful _ head)⟩
  | @earlier h past given ih =>
    cases h with
    | load => exact ih lawful
    | change files =>
      obtain ⟨u, hu, held⟩ := ih fun u hu => lawful u (List.mem_cons_of_mem _ hu)
      exact ⟨u, List.mem_cons_of_mem _ hu, held⟩

/-- What a request gives if it finds a file. -/
theorem gave_load {name relativeTo : Text} {l : Library} (library : (s.after past).library? = some l)
    (finds : (s.after past).files.Finds (l.candidates name relativeTo) path c time)
    {path' : Text} {c' : Content} {time' : Timestamp} {t' : Template} :
    s.Gave path' c' time' t' (.load name relativeTo :: past) ↔ s.Gave path' c' time' t' past ∨
      path' = path ∧ c' = c ∧ time' = time ∧ ((s.after past).load l name relativeTo).1 = .ok t' := by
  constructor
  · intro given
    cases given with
    | earlier given => exact .inl given
    | @now _ _ _ l' library' finds' outcome =>
      cases library.symm.trans library'
      obtain ⟨rfl, rfl, rfl⟩ := finds.unique finds'
      exact .inr ⟨rfl, rfl, rfl, outcome⟩
  · rintro (given | ⟨rfl, rfl, rfl, outcome⟩)
    · exact .earlier given
    · exact .now library finds outcome

/-- A request that fails gives nothing. -/
theorem gave_failed {name relativeTo : Text} {l : Library} (library : (s.after past).library? = some l) {e : Fault}
    (failed : ((s.after past).load l name relativeTo).1 = .error e) {path' : Text} {c' : Content} {time' : Timestamp}
    {t' : Template} : s.Gave path' c' time' t' (.load name relativeTo :: past) ↔ s.Gave path' c' time' t' past := by
  refine ⟨fun given => ?_, .earlier⟩
  cases given with
  | earlier given => exact given
  | @now _ _ _ l' library' finds' outcome =>
    cases library.symm.trans library'
    cases failed.symm.trans outcome

end Store

/-- Which templates have been given for which files. -/
abbrev Record := Text → Content → Timestamp → Template → Prop

namespace Library

variable {registry : Registry} {systems : List FileSystem} {given given' : Record} {autoReload : Bool} {files : FileSystem} {l : Library}
  {path : Text} {c : Content} {time : Timestamp} {t : Template} {h : Holding}

/-- What a library keeps for each file agrees with all requests so far. `systems` are the files at all times, and `files`
the files now. -/
structure Current (registry : Registry) (systems : List FileSystem) (given : Record) (files : FileSystem) (l : Library) : Prop where
  /-- what is kept was compiled from a file and has been given -/
  made : ∀ path h, l.find? path = some h → (∃ c time, given path c time h.template) ∧
    ∃ u ∈ systems, ∃ c n, u.Holds path c h.modified ∧ c.compile ⟨n, path, registry⟩ = .ok h.template
  /-- what has been given for a file that has not changed since is kept -/
  unchanged : l.autoReload = true → ∀ path c c' time t, given path c time t → files.Holds path c' time →
    l.find? path = some ⟨t, time⟩
  /-- without reloading, what has been given is kept for ever -/
  first : l.autoReload = false → ∀ path c time t, given path c time t → ∃ time, l.find? path = some ⟨t, time⟩

/-- A library that has compiled nothing. -/
theorem current_ofSearchPath (searchPath : List Text) (autoReload : Bool) (none : ∀ path c time t, ¬ given path c time t) :
    Current registry systems given files (ofSearchPath searchPath autoReload) where
  made path h kept := by cases kept
  unchanged _ path c c' time t was := absurd was (none path c time t)
  first _ path c time t was := absurd was (none path c time t)

theorem isCurrent_iff : l.isCurrent h time = true ↔ l.autoReload = false ∨ h.modified = time := by
  simp [isCurrent]

/-- The given template is the kept one. -/
theorem Current.hit (current : l.Current registry systems given files) (holds : files.Holds path c time)
    (kept : l.find? path = some h) (usable : l.isCurrent h time = true)
    (adds : ∀ p d m t, given' p d m t ↔ given p d m t ∨ p = path ∧ d = c ∧ m = time ∧ h.template = t) :
    l.Current registry systems given' files where
  made p k found := by
    obtain ⟨⟨d, m, was⟩, source⟩ := current.made p k found
    exact ⟨⟨d, m, (adds ..).2 (.inl was)⟩, source⟩
  unchanged reloads p d d' m t was held := by
    rcases (adds ..).1 was with before | ⟨rfl, rfl, rfl, rfl⟩
    · exact current.unchanged reloads p d d' m t before held
    · rcases isCurrent_iff.1 usable with stays | rfl
      · cases reloads.symm.trans stays
      · exact kept
  first stays p d m t was := by
    rcases (adds ..).1 was with before | ⟨rfl, rfl, rfl, rfl⟩
    · exact current.first stays p d m t before
    · exact ⟨h.modified, kept⟩

/-- The given template has just been compiled. -/
theorem Current.keep (current : l.Current registry systems given files) (now : files ∈ systems) (holds : files.Holds path c time)
    (outdated : ∀ h, l.find? path = some h → l.isCurrent h time = false) {n : Nat} (compiled : c.compile ⟨n, path, registry⟩ = .ok t)
    (adds : ∀ p d m t', given' p d m t' ↔ given p d m t' ∨ p = path ∧ d = c ∧ m = time ∧ t = t') :
    (l.keep path ⟨t, time⟩).Current registry systems given' files where
  made p k found := by
    rw [find_keep] at found
    split at found
    · rename_i same
      cases found
      exact ⟨⟨c, time, (adds ..).2 (.inr ⟨same, rfl, rfl, rfl⟩)⟩, files, now, c, n, same ▸ holds, same ▸ compiled⟩
    · obtain ⟨⟨d, m, was⟩, source⟩ := current.made p k found
      exact ⟨⟨d, m, (adds ..).2 (.inl was)⟩, source⟩
  unchanged reloads p d d' m t' was held := by
    rw [find_keep]
    rcases (adds ..).1 was with before | ⟨rfl, rfl, rfl, rfl⟩
    · have kept := current.unchanged reloads p d d' m t' before held
      split
      · rename_i same
        subst same
        -- the template would have been current
        have usable := outdated _ kept
        rw [isCurrent_iff.2 (.inr (held.unique holds.toHas).2)] at usable
        cases usable
      · exact kept
    · rw [if_pos rfl]
  first stays p d m t' was := by
    rw [find_keep]
    rcases (adds ..).1 was with before | ⟨rfl, rfl, rfl, rfl⟩
    · obtain ⟨m', kept⟩ := current.first stays p d m t' before
      split
      · rename_i same
        subst same
        have usable := outdated _ kept
        rw [isCurrent_iff (l := l) |>.2 (.inl stays)] at usable
        cases usable
      · exact ⟨m', kept⟩
    · exact ⟨_, if_pos rfl⟩

/-- The files change. -/
theorem Current.change {files' : FileSystem} {older : List FileSystem} (current : l.Current registry (files :: older) given files)
    (fresh : FileSystem.Fresh (files' :: files :: older))
    (held : ∀ p d m t, given p d m t → ∃ u ∈ files :: older, u.Holds p d m) :
    l.Current registry (files' :: files :: older) given files' where
  made p k found := by
    obtain ⟨was, u, hu, source⟩ := current.made p k found
    exact ⟨was, u, List.mem_cons_of_mem _ hu, source⟩
  unchanged reloads p d d' m t was now := by
    obtain ⟨u, hu, there⟩ := held p d m t was
    exact current.unchanged reloads p d d' m t was (fresh.unchanged hu now there)
  first := current.first

end Library

/-! ## Whole histories -/

namespace Store

/-- The library has not forgotten how it was opened, and keeps what it should. -/
structure Opened (s₀ : Store) (searchPath : List Text) (autoReload : Bool) (past : List Happening) (l : Library) : Prop where
  library : (s₀.after past).library? = some l
  searchPath : l.searchPath = searchPath
  reloads : l.autoReload = autoReload
  current : l.Current s₀.registry (Happening.systems s₀.files past) (s₀.Gave · · · · past) (s₀.after past).files

variable {s₀ : Store} {searchPath : List Text} {autoReload : Bool} {past : List Happening} {l : Library}

theorem Opened.load (o : s₀.Opened searchPath autoReload past l)
    (lawful : ∀ u ∈ Happening.systems s₀.files past, u.Lawful) (name relativeTo : Text) :
    ∃ l', s₀.Opened searchPath autoReload (.load name relativeTo :: past) l' := by
  obtain ⟨older, systems⟩ := systems_after s₀ past
  have now : (s₀.after past).files ∈ Happening.systems s₀.files past := systems ▸ List.mem_cons_self
  have head := lawful _ now
  have next : s₀.after (.load name relativeTo :: past) = ((s₀.after past).load l name relativeTo).2 := by
    change (s₀.after past).happen (.load name relativeTo) = _
    rw [happen, o.library]
  have files : (s₀.after (.load name relativeTo :: past)).files = (s₀.after past).files :=
    (congrArg Store.files next).trans ((s₀.after past).load_loads l name relativeTo).1
  -- a request that fails and changes nothing
  have failing {e : Fault} (failed : ((s₀.after past).load l name relativeTo).1 = .error e)
      (same : ((s₀.after past).load l name relativeTo).2.library? = (s₀.after past).library?) :
      ∃ l', s₀.Opened searchPath autoReload (.load name relativeTo :: past) l' := by
    refine ⟨l, (congrArg Store.library? next).trans (same.trans o.library), o.searchPath, o.reloads, ?_⟩
    have gave : (s₀.Gave · · · · (.load name relativeTo :: past)) = (s₀.Gave · · · · past) := by
      funext p d m t
      exact propext (gave_failed o.library failed)
    rw [gave, files]
    exact o.current
  rcases (s₀.after past).files.finds_or_missing head (l.candidates name relativeTo) with missing | ⟨path, c, time, finds⟩
  · have failed := load_missing missing
    exact failing (congrArg Prod.fst failed) (congrArg (·.2.library?) failed)
  · obtain ⟨same, found⟩ := load_found head finds
    have holds := finds.holds head
    have adds {t : Template} (outcome : ((s₀.after past).load l name relativeTo).1 = .ok t) (p : Text) (d : Content)
        (m : Timestamp) (t' : Template) : s₀.Gave p d m t' (.load name relativeTo :: past) ↔
          s₀.Gave p d m t' past ∨ p = path ∧ d = c ∧ m = time ∧ t = t' := by
      rw [gave_load o.library finds, outcome, Except.ok.injEq]
    have spec := loadFile_spec found l time
    rw [registry_after] at spec
    rcases spec with ⟨h, kept, usable, outcome, -, library⟩ | ⟨outdated, outcome, retains⟩
    · rw [← same] at outcome library
      refine ⟨l, (congrArg Store.library? next).trans (library.trans o.library), o.searchPath, o.reloads, ?_⟩
      rw [files]
      exact o.current.hit holds kept usable (adds outcome)
    · rw [← same] at outcome retains
      cases compiled : c.compile ⟨(s₀.after past).nextTemplate, path, s₀.registry⟩ with
      | error e =>
        rw [compiled] at outcome retains
        exact failing outcome retains.library
      | ok t =>
        rw [compiled] at outcome retains
        refine ⟨l.keep path ⟨t, time⟩, (congrArg Store.library? next).trans retains.library, o.searchPath, o.reloads, ?_⟩
        rw [files]
        exact o.current.keep now holds outdated compiled (adds outcome)

/-- Whatever happens, the library keeps what it should. -/
theorem opened (library : s₀.library? = some (.ofSearchPath searchPath autoReload)) (past : List Happening)
    (lawful : ∀ u ∈ Happening.systems s₀.files past, u.Lawful) (fresh : FileSystem.Fresh (Happening.systems s₀.files past)) :
    ∃ l, s₀.Opened searchPath autoReload past l := by
  induction past with
  | nil => exact ⟨_, library, rfl, rfl, Library.current_ofSearchPath searchPath autoReload nofun⟩
  | cons h past ih =>
    cases h with
    | load name relativeTo =>
      obtain ⟨l, o⟩ := ih lawful fresh
      exact o.load lawful name relativeTo
    | change files =>
      have before : ∀ u ∈ Happening.systems s₀.files past, u.Lawful := fun u hu => lawful u (List.mem_cons_of_mem _ hu)
      obtain ⟨older, systems⟩ := systems_after s₀ past
      rw [Happening.systems, systems] at fresh
      obtain ⟨l, o⟩ := ih before (systems ▸ fresh.2)
      refine ⟨l, o.library, o.searchPath, o.reloads, ?_⟩
      have gave : (s₀.Gave · · · · (.change files :: past)) = (s₀.Gave · · · · past) := by
        funext p d m t
        refine propext ⟨fun given => ?_, .earlier⟩
        cases given with
        | earlier given => exact given
      have current := o.current
      have held : ∀ p d m t, s₀.Gave p d m t past → ∃ u ∈ Happening.systems s₀.files past, u.Holds p d m :=
        fun p d m t given => given.held before
      rw [Happening.systems, gave]
      rw [systems] at current held ⊢
      exact current.change fresh held

end Store

/-! ## Requests -/

/-- What a request that finds a file should come to, after the given requests. -/
structure Library.Answers (registry : Registry) (autoReload : Bool) (given : Record) (path : Text) (c : Content) (time : Timestamp)
    (outcome : Except Fault Template) : Prop where
  /-- with reloading, what the file comes to now -/
  reloaded : autoReload = true → ∃ n, outcome = c.compile ⟨n, path, registry⟩
  /-- without, what it came to when it was first loaded -/
  first : autoReload = false → ∀ d m t, given path d m t → outcome = .ok t
  new : (∀ d m t, ¬ given path d m t) → ∃ n, outcome = c.compile ⟨n, path, registry⟩
  /-- the same template as before if the file has not been changed since -/
  same : ∀ t, given path c time t → outcome = .ok t
  /-- a file that can be compiled is not given up because of what it has been -/
  repaired : ∀ n t, c.compile ⟨n, path, registry⟩ = .ok t → ∃ t, outcome = .ok t

end Stencil
