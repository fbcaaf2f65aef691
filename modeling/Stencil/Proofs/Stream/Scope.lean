import Stencil.Proofs.Expr.Effect
import Stencil.Proofs.Stream.Frames
import Stencil.Stream.Pull

/-!
# The frames of an expansion

Loops, calls of templates and substituted elements push frames while their events are read, and an
expansion may be given up at any event. What carries the depth of the context through all of this is who
has the lowest new frame in force: as long as there are more frames than there were when the expansion
started, some part of the stream has pushed the first of them (`Scoped.first`). No frame in force is one of
a context that lies below all streams that are being read, so no step removes any of its frames. Giving the
expansion up removes the new ones, except where the first of them belongs to a stream that a variable
holds (`Scoped.giveUp`).
-/

namespace Stencil

/-! ## Who has a frame in force -/

/-- A part of a stream that may have a frame in force: a frame by the depth it was pushed to, or a
stream that is a value. -/
inductive Hold where
  | frame (depth : Nat)
  | value (id : Nat)

/-- The stream that is a value has the frame at a depth in force. -/
def Store.Runs (s : Store) (id depth : Nat) : Prop := ∃ es, s.replay id = .running depth es

/-- The frame at a depth is that of the part. -/
def Hold.InForce (s : Store) (depth : Nat) : Hold → Prop
  | frame d => d = depth
  | value id => s.Runs id depth

def Replay.holds : Replay → List Hold
  | running depth _ => [.frame depth]
  | _ => []

/-- The parts of a stream that may have a frame in force. -/
def Stream.holds : Stream → List Hold
  | replay r => r.holds
  | shared id => [.value id]
  | append first rest => first.holds ++ rest.holds
  | looping _ _ _ current? u => (current?.map fun p => Hold.frame p.1).toList ++ u.holds
  | inserting _ _ _ inserted u => inserted.holds ++ u.holds
  | ended u | loop _ _ u | gathering _ _ _ u | attributes _ u | content _ _ u | replaced _ u | strip _ _ u
  | directed _ _ u | evaluated u | tidied _ _ u | substituted _ _ _ u | matching _ _ _ _ _ _ u | included _ _ u
  | including _ _ _ u | expanded _ _ u => u.holds

/-- The frames of `c` are still there, and the first frame over a depth belongs to one of the parts `hs` of a
stream. -/
structure Scoped (c : Context) (top : Nat) (hs : List Hold) (s : Store) : Prop where
  above : ∃ pushed, c.Above pushed s.context
  frames : ∀ d, .frame d ∈ hs → c.depth < d
  values : ∀ id d, s.Runs id d → c.depth < d
  first : top < s.context.depth → ∃ h ∈ hs, h.InForce s (top + 1)

/-- The state after a step is scoped, `hs` being held by other parts. -/
def Advance.Within (c : Context) (top : Nat) (hs : List Hold) : Advance → Prop
  | yield _ u s | skip u s | done u s | fail _ u s => Scoped c top (u.holds ++ hs) s

/-! ## Changes of the store -/

namespace Store

theorem replay_setReplay {s : Store} {id : Nat} (r : Replay) (there : id < s.replays.size) (j : Nat) :
    (s.setReplay id r).replay j = if j = id then r else s.replay j := by
  by_cases h : j = id
  · subst h
    simp [replay, setReplay, there]
  · have other : ¬ id = j := fun same => h same.symm
    simp [replay, setReplay, h, other]

theorem setReplay_absent {s : Store} {id : Nat} (r : Replay) (absent : ¬ id < s.replays.size) :
    s.setReplay id r = s := by
  simp [setReplay, Array.setIfInBounds, absent]

theorem replay_absent {s : Store} {id : Nat} (absent : ¬ id < s.replays.size) : s.replay id = .finished := by
  simp [replay, Array.getElem?_eq_none (Nat.le_of_not_lt absent)]

theorem runs_setReplay {s : Store} {id : Nat} (r : Replay) (there : id < s.replays.size) (j d : Nat) :
    (s.setReplay id r).Runs j d ↔ if j = id then ∃ es, r = .running d es else s.Runs j d := by
  simp only [Runs, replay_setReplay r there]
  split <;> rfl

/-- No stream that is a value begins or stops to be in force when streams are made. -/
theorem Made.runs {s s' : Store} (h : s.Made s') (id d : Nat) : s'.Runs id d ↔ s.Runs id d := by
  obtain ⟨-, rs, replays, idle⟩ := h
  by_cases old : id < s.replays.size
  · simp [Runs, replay, replays, Array.getElem?_append_left old]
  · have later := Nat.le_of_not_lt old
    constructor
    · rintro ⟨es, running⟩
      simp only [replay, replays, Array.getElem?_append_right later, List.getElem?_toArray] at running
      cases there : rs[id - s.replays.size]? with
      | none => rw [there] at running; cases running
      | some r =>
        rw [there] at running
        exact absurd running (idle r (List.mem_of_getElem? there) d es)
    · rintro ⟨es, running⟩
      rw [replay_absent old] at running
      cases running

end Store

/-! ## Closing a stream -/

/-- Closing a stream only removes frames. -/
theorem Stream.close_keeps {P : Store → Prop} (release : ∀ s d, P s → P (s.releaseFrom d)) (u : Stream) {s : Store} (h : P s) :
    P (u.close s) := by
  induction u generalizing s with
  | replay r =>
    cases r with
    | running d es => exact release s d h
    | _ => exact h
  | shared => exact h
  | append first rest ih ih' | inserting filename prefixes n first rest ih ih' => exact ih' (ih h)
  | looping targets items body? current? u ih =>
    cases current? with
    | none => exact ih h
    | some c => exact ih (release s c.1 h)
  | ended u ih | loop targets items u ih | gathering targets items body u ih | attributes x u ih | content x phase u ih
  | replaced x u ih | strip test phase u ih | directed ds read u ih | evaluated u ih | tidied pending? text? u ih
  | substituted path body openElements u ih | matching path body openElements p depth matched u ih
  | included filename prefixes u ih | including filename prefixes i u ih | expanded t last u ih => exact ih h

theorem Stream.replays_close (u : Stream) (s : Store) : (u.close s).replays = s.replays :=
  close_keeps (P := fun t => t.replays = s.replays) (fun _ _ h => h) u rfl

theorem Stream.runs_close {u : Stream} {s : Store} {id d : Nat} : (u.close s).Runs id d ↔ s.Runs id d := by
  simp only [Store.Runs, Store.replay, replays_close]

theorem Store.discardUnheld_keeps {P : Store → Prop} (release : ∀ s d, P s → P (s.releaseFrom d))
    (finish : ∀ s id, P s → P (s.setReplay id .finished)) (n : Nat) (ids : List Nat) {s : Store} (h : P s) :
    P (s.discardUnheld n ids) := by
  induction n generalizing ids s with
  | zero => exact h
  | succ n ih =>
    unfold discardUnheld
    split
    · refine ih _ ?_
      unfold discard
      split
      · exact release _ _ (finish s _ h)
      all_goals exact h
    · exact h

/-- Giving an expansion up removes frames and ends streams. -/
theorem Stream.giveUp_keeps {P : Store → Prop} (release : ∀ s d, P s → P (s.releaseFrom d))
    (finish : ∀ s id, P s → P (s.setReplay id .finished)) (u : Stream) {s : Store} (h : P s) : P (u.giveUp s) :=
  Store.discardUnheld_keeps release finish _ _ (close_keeps release u h)

namespace Scoped

variable {c : Context} {top : Nat} {hs hs' : List Hold} {s s' : Store}

theorem refl (above : ∃ pushed, c.Above pushed s.context) (idle : ∀ id d, s.Runs id d → c.depth < d) :
    Scoped c s.context.depth [] s :=
  ⟨above, by simp, idle, fun h => absurd h (Nat.lt_irrefl _)⟩

theorem congr (h : Scoped c top hs s) (context : s'.context = s.context) (runs : ∀ id d, s'.Runs id d ↔ s.Runs id d) :
    Scoped c top hs s' := by
  refine ⟨context ▸ h.above, h.frames, fun id d r => h.values id d ((runs id d).1 r), fun deeper => ?_⟩
  rw [context] at deeper
  obtain ⟨x, hx, inForce⟩ := h.first deeper
  refine ⟨x, hx, ?_⟩
  cases x with
  | frame d => exact inForce
  | value id => exact (runs id _).2 inForce

theorem made (h : Scoped c top hs s) (m : s.Made s') : Scoped c top hs s' := h.congr (by rw [m.only]) m.runs

theorem weaken (h : Scoped c top hs s) (sub : ∀ x ∈ hs, x ∈ hs') (frames : ∀ d, .frame d ∈ hs' → .frame d ∈ hs) :
    Scoped c top hs' s := by
  refine ⟨h.above, fun d hd => h.frames d (frames d hd), h.values, fun deeper => ?_⟩
  obtain ⟨x, hx, inForce⟩ := h.first deeper
  exact ⟨x, sub x hx, inForce⟩

/-- The order of the parts is of no matter. -/
theorem reorder (h : Scoped c top hs s) (same : ∀ x, x ∈ hs' ↔ x ∈ hs) : Scoped c top hs' s :=
  h.weaken (fun x => (same x).2) fun _ => (same _).1

theorem addValue (h : Scoped c top hs s) (id : Nat) : Scoped c top (.value id :: hs) s :=
  h.weaken (fun _ hx => List.mem_cons_of_mem _ hx) (by simp)

theorem depth_le (h : Scoped c top hs s) : c.depth ≤ s.context.depth := by
  obtain ⟨pushed, above⟩ := h.above
  have := above.depth
  omega

/-- A frame is pushed. -/
theorem push (h : Scoped c top hs s) (f : Frame) : Scoped c top (.frame (s.context.depth + 1) :: hs) (s.pushFrame f) := by
  have base := h.depth_le
  obtain ⟨pushed, above⟩ := h.above
  refine ⟨⟨_, above.push f⟩, ?_, h.values, fun deeper => ?_⟩
  · intro d hd
    rcases List.mem_cons.1 hd with hd | hd
    · cases hd; omega
    · exact h.frames d hd
  · have pushed : (s.context.push f).depth = s.context.depth + 1 := rfl
    change top < (s.context.push f).depth at deeper
    by_cases first : top < s.context.depth
    · obtain ⟨x, hx, inForce⟩ := h.first first
      exact ⟨x, List.mem_cons_of_mem _ hx, inForce⟩
    · exact ⟨_, List.mem_cons_self, show s.context.depth + 1 = top + 1 by omega⟩

/-- A frame is removed by the part that pushed it. If it was the first new one, none is left. -/
theorem release {d : Nat} (h : Scoped c top (.frame d :: hs) s) : Scoped c top hs (s.releaseFrom d) := by
  have deeper : c.depth < d := h.frames d List.mem_cons_self
  have positive : 1 < d := Nat.lt_of_le_of_lt (by simp [Context.depth]) deeper
  obtain ⟨pushed, above⟩ := h.above
  refine ⟨above.releaseFrom deeper, fun e he => h.frames e (List.mem_cons_of_mem _ he), h.values, fun still => ?_⟩
  have left : (s.context.releaseFrom d).depth = min s.context.depth (d - 1) := Context.depth_releaseFrom positive
  change top < (s.context.releaseFrom d).depth at still
  obtain ⟨x, hx, inForce⟩ := h.first (by omega)
  rcases List.mem_cons.1 hx with rfl | hx
  · have : d = top + 1 := inForce
    omega
  · exact ⟨x, hx, inForce⟩

/-- A function that a `def` directive defines is bound. -/
theorem define (h : Scoped c top hs s) (signature : Signature) (body : BodyId) :
    Scoped c top hs (Stream.bindTemplate signature body s) := by
  obtain ⟨pushed, above⟩ := h.above
  obtain ⟨pushed', above'⟩ := above.define s.nextFunction signature body
  have depth : (Stream.bindTemplate signature body s).context.depth = s.context.depth := by
    change (s.context.set _ _).depth = _
    unfold Context.set
    split
    · rfl
    · rename_i f fs upper
      simp [Context.depth, upper]
  exact ⟨⟨pushed', above'⟩, h.frames, h.values, fun deeper => h.first (depth ▸ deeper)⟩

/-! ## Streams that are values -/

/-- A stream that is a value goes on without pushing or removing a frame. -/
theorem setReplay {id : Nat} {r : Replay} (h : Scoped c top hs s)
    (runs : ∀ d, (∃ es, r = .running d es) ↔ s.Runs id d) : Scoped c top hs (s.setReplay id r) := by
  by_cases there : id < s.replays.size
  · refine h.congr rfl fun j d => ?_
    rw [Store.runs_setReplay r there]
    split
    · rename_i same
      rw [same, runs d]
    · rfl
  · rwa [Store.setReplay_absent r there]

/-- A stream that is a value pushes its frame. -/
theorem enterValue {id : Nat} {f : Frame} {es es' : List Event} (h : Scoped c top hs s) (held : .value id ∈ hs)
    (waiting : s.replay id = .waiting f es) :
    Scoped c top hs { s.setReplay id (.running (s.context.depth + 1) es') with context := s.context.push f } := by
  have base := h.depth_le
  have there : id < s.replays.size := by
    by_contra absent
    rw [Store.replay_absent absent] at waiting
    cases waiting
  have idle : ∀ d, ¬ s.Runs id d := by
    rintro d ⟨es, running⟩
    rw [waiting] at running
    cases running
  obtain ⟨pushed, above⟩ := h.above
  refine ⟨⟨_, above.push f⟩, h.frames, fun j d runs => ?_, fun deeper => ?_⟩
  · have runs := (Store.runs_setReplay _ there j d).1 runs
    split at runs
    · obtain ⟨_, running⟩ := runs
      cases running
      omega
    · exact h.values j d runs
  · have pushed : (s.context.push f).depth = s.context.depth + 1 := rfl
    change top < (s.context.push f).depth at deeper
    by_cases first : top < s.context.depth
    · obtain ⟨x, hx, inForce⟩ := h.first first
      refine ⟨x, hx, ?_⟩
      cases x with
      | frame d => exact inForce
      | value j =>
        refine (Store.runs_setReplay _ there j _).2 ?_
        split
        · rename_i same
          exact absurd (same ▸ inForce) (idle _)
        · exact inForce
    · refine ⟨_, held, (Store.runs_setReplay _ there id _).2 ?_⟩
      rw [if_pos rfl]
      exact ⟨es', by congr 1; omega⟩

/-- A stream that is a value removes its frame and has nothing in force any more. -/
theorem finishValue {id d : Nat} {es : List Event} (h : Scoped c top (.value id :: hs) s)
    (running : s.replay id = .running d es) :
    Scoped c top hs { s.setReplay id .finished with context := s.context.releaseFrom d } := by
  have deeper : c.depth < d := h.values id d ⟨es, running⟩
  have positive : 1 < d := Nat.lt_of_le_of_lt (by simp [Context.depth]) deeper
  have there : id < s.replays.size := by
    by_contra absent
    rw [Store.replay_absent absent] at running
    cases running
  have only : ∀ e, s.Runs id e → e = d := by
    rintro e ⟨fs, running'⟩
    rw [running] at running'
    cases running'
    rfl
  obtain ⟨pushed, above⟩ := h.above
  refine ⟨above.releaseFrom deeper, fun e he => h.frames e (List.mem_cons_of_mem _ he), fun j e runs => ?_, fun still => ?_⟩
  · have runs := (Store.runs_setReplay _ there j e).1 runs
    split at runs
    · obtain ⟨_, finished⟩ := runs
      cases finished
    · exact h.values j e runs
  · have left : (s.context.releaseFrom d).depth = min s.context.depth (d - 1) := Context.depth_releaseFrom positive
    change top < (s.context.releaseFrom d).depth at still
    have other : d ≠ top + 1 := by omega
    obtain ⟨x, hx, inForce⟩ := h.first (by omega)
    rcases List.mem_cons.1 hx with rfl | hx
    · exact absurd (only _ inForce).symm other
    · refine ⟨x, hx, ?_⟩
      cases x with
      | frame e => exact inForce
      | value j =>
        refine (Store.runs_setReplay _ there j _).2 ?_
        split
        · rename_i same
          exact absurd (only _ (same ▸ inForce)).symm other
        · exact inForce

/-- A stream that has no frame in force holds nothing. -/
theorem dropValue {id : Nat} (h : Scoped c top (.value id :: hs) s) (rests : ∀ d, ¬ s.Runs id d) : Scoped c top hs s := by
  refine ⟨h.above, fun d hd => h.frames d (List.mem_cons_of_mem _ hd), h.values, fun deeper => ?_⟩
  obtain ⟨x, hx, inForce⟩ := h.first deeper
  rcases List.mem_cons.1 hx with rfl | hx
  · exact absurd inForce (rests _)
  · exact ⟨x, hx, inForce⟩

theorem dropValues {ids : List Nat} (h : Scoped c top (ids.map .value ++ hs) s) (rest : ∀ id ∈ ids, ∀ d, ¬ s.Runs id d) :
    Scoped c top hs s := by
  induction ids with
  | nil => exact h
  | cons id ids ih =>
    obtain ⟨first, others⟩ := List.forall_mem_cons.1 rest
    exact ih (h.dropValue first) others

theorem discard {id : Nat} (h : Scoped c top (.value id :: hs) s) : Scoped c top hs (s.discard id) := by
  unfold Store.discard
  cases r : s.replay id with
  | running d es => exact h.finishValue r
  | _ => exact h.dropValue fun d => by simp [Store.Runs, r]

/-- Streams are given up one after another, as long as there is one that no variable holds. -/
theorem discardUnheld {n : Nat} {ids : List Nat} (h : Scoped c top (ids.map .value) s) (all : ids.length ≤ n) :
    ∃ left : List Nat, Scoped c top (left.map .value) (s.discardUnheld n ids) ∧
      ∀ id ∈ left, id ∈ ids ∧ id ∈ (s.discardUnheld n ids).held := by
  induction n generalizing s ids with
  | zero => exact ⟨ids, h, by simp [List.eq_nil_of_length_eq_zero (Nat.le_zero.1 all)]⟩
  | succ n ih =>
    unfold Store.discardUnheld
    split
    · rename_i id found
      have member : id ∈ ids := List.mem_of_find?_eq_some found
      have first : Scoped c top (.value id :: (ids.erase id).map .value) s := h.reorder fun x => by
        rw [← List.map_cons, ← (List.perm_cons_erase member).map Hold.value |>.mem_iff]
      obtain ⟨left, after, kept⟩ := ih first.discard (by rw [List.length_erase_of_mem member]; omega)
      exact ⟨left, after, fun id hid => ⟨List.mem_of_mem_erase (kept id hid).1, (kept id hid).2⟩⟩
    · rename_i none
      exact ⟨ids, h, fun id hid => ⟨hid, by simpa using List.find?_eq_none.1 none id hid⟩⟩

/-! ## Giving a stream up -/

/-- When a stream is closed, only the streams that it reads still have frames in force. -/
theorem close {u : Stream} (h : Scoped c top (u.holds ++ hs) s) : Scoped c top (u.reads.map .value ++ hs) (u.close s) := by
  induction u generalizing s hs with
  | replay r =>
    cases r with
    | running d es => exact h.release
    | _ => exact h
  | shared id => exact h
  | append first rest ihFirst ihRest | inserting _ _ _ first rest ihFirst ihRest =>
    simp only [Stream.holds, List.append_assoc] at h
    have next : Scoped c top (rest.holds ++ (first.reads.map .value ++ hs)) (first.close s) :=
      (ihFirst h).reorder fun x => by simp only [List.mem_append]; tauto
    exact (ihRest next).reorder fun x => by simp only [Stream.reads, List.map_append, List.mem_append]; tauto
  | looping targets items body? current? u ih =>
    cases current? with
    | none => exact ih h
    | some current => exact ih h.release
  | _ => rename_i ih; exact ih h

/-- A stream that reads none that is still to be read leaves nothing in force. -/
theorem closeEnded {u : Stream} (h : Scoped c top (u.holds ++ hs) s) (rest : ∀ id ∈ u.reads, ∀ d, ¬ s.Runs id d) :
    Scoped c top hs (u.close s) :=
  h.close.dropValues fun id hid d => Stream.runs_close.not.2 (rest id hid d)

/-- After an expansion has been given up, the first frame over a depth is that of a stream that a variable
holds. -/
theorem giveUp {u : Stream} (h : Scoped c top u.holds s) :
    ∃ left : List Nat, Scoped c top (left.map .value) (u.giveUp s) ∧ ∀ id ∈ left, id ∈ u.reads ∧ id ∈ (u.giveUp s).held := by
  have closed : Scoped c top (u.reads.map .value) (u.close s) := by
    simpa using close (u := u) (s := s) (by simpa using h : Scoped c top (u.holds ++ []) s)
  exact closed.discardUnheld (Nat.le_refl _)

end Scoped

end Stencil
