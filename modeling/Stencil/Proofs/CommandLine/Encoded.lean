import Stencil.CommandLine
import Stencil.Proofs.Stream.Frames
import Stencil.Proofs.Text.Occurrence
import Stencil.Proofs.Text.Pieces

/-!
# Values on the command line

The texts of a value are written between semicolons, with a backslash before every semicolon and backslash in them. What
is written for a byte puts this byte in front of the first text that is read behind it (`CommandLine.splitValue_escapeByte`),
so that texts are read back as they were, the empty ones too (`CommandLine.splitValue_encode`).

An argument can be written in other ways, with backslashes that are not needed. What it binds can be written in this one
(`CommandLine.bindPairs_roundTrip`).
-/

namespace Stencil

namespace CommandLine

/-- What stands for a byte of a text. -/
def escapeByte (c : Byte) : Text := if c == '\\' || c == ';' then ['\\', c] else [c]

def escape (t : Text) : Text := t.flatMap escapeByte

/-- What texts are written as. -/
def encode (ts : List Text) : Text := Text.join ";" (ts.map escape)

/-- What a name and texts for it are written as. -/
def assignment (name : Text) (ts : List Text) : Text := name ++ ("=" ++ encode ts)

/-- The texts of a value that an argument can give. -/
def texts? : Value → Option (List Text)
  | .text t => some [t]
  | .list vs => vs.mapM fun | .text t => some t | _ => none
  | _ => none

variable {c : Byte} {s t name : Text} {ts us : List Text} {v : Value} {frame bound : Frame}

/-! ## Texts between semicolons -/

theorem splitValue_escapeByte (c : Byte) (s : Text) :
    splitValue (escapeByte c ++ s) = (splitValue s).map (addByte c) := by
  unfold escapeByte
  split
  next => rfl
  next plain =>
    obtain ⟨backslash, semicolon⟩ : (c == '\\') = false ∧ (c == ';') = false := by simpa using plain
    rw [List.singleton_append, splitValue.eq_def]
    dsimp only
    rw [if_neg (by simp [backslash]), if_neg (by simp [semicolon])]

theorem foldr_addByte (t u : Text) (us : List Text) : t.foldr addByte (u :: us) = (t ++ u) :: us := by
  induction t with
  | nil => rfl
  | cons c t ih => rw [List.foldr_cons, ih]; rfl

theorem splitValue_escape_append (t s : Text) : splitValue (escape t ++ s) = (splitValue s).map (t.foldr addByte ·) := by
  induction t with
  | nil => simp [escape]
  | cons c t ih =>
    change splitValue (escapeByte c ++ escape t ++ s) = _
    rw [List.append_assoc, splitValue_escapeByte, ih, Option.map_map]
    rfl

theorem splitValue_escape (t : Text) : splitValue (escape t) = some [t] := by
  have whole := splitValue_escape_append t []
  rw [List.append_nil, splitValue, Option.map_some, foldr_addByte, List.append_nil] at whole
  exact whole

theorem splitValue_escape_semicolon (t s : Text) :
    splitValue (escape t ++ (';' : Byte) :: s) = (splitValue s).map (t :: ·) := by
  have ended : splitValue ((';' : Byte) :: s) = (splitValue s).map ([] :: ·) := by
    rw [splitValue.eq_def]
    rfl
  rw [splitValue_escape_append, ended, Option.map_map]
  congr 1
  funext us
  rw [Function.comp_apply, foldr_addByte, List.append_nil]

theorem splitValue_encode (some : ts ≠ []) : splitValue (encode ts) = .some ts := by
  induction ts with
  | nil => exact absurd rfl some
  | cons t ts ih =>
    cases ts with
    | nil =>
      have whole : encode [t] = escape t := Text.join_singleton ..
      rw [whole, splitValue_escape]
    | cons u us =>
      have whole : encode (t :: u :: us) = escape t ++ (';' : Byte) :: encode (u :: us) := by
        rw [encode, List.map_cons, List.map_cons, Text.join_cons_cons]
        rfl
      rw [whole, splitValue_escape_semicolon, ih (List.cons_ne_nil u us)]
      rfl

theorem splitValue_ne_nil (h : splitValue s = some ts) : ts ≠ [] := by
  have some (c : Byte) (us : List Text) : addByte c us ≠ [] := by
    unfold addByte
    split <;> simp
  rintro rfl
  unfold splitValue at h
  split at h
  next => cases h
  next =>
    split_ifs at h
    · split at h
      next => cases h
      next =>
        obtain ⟨us, -, empty⟩ := Option.map_eq_some_iff.1 h
        exact some _ us empty
    · obtain ⟨us, -, empty⟩ := Option.map_eq_some_iff.1 h
      cases empty
    · obtain ⟨us, -, empty⟩ := Option.map_eq_some_iff.1 h
      exact some _ us empty

/-! ## Arguments -/

theorem texts?_valueOf (ts : List Text) : texts? (valueOf ts) = some ts := by
  have all (ts : List Text) : texts? (.list (ts.map .text)) = some ts := by
    rw [texts?]
    induction ts with
    | nil => rfl
    | cons t ts ih => rw [List.map_cons, List.mapM_cons, ih]; rfl
  unfold valueOf
  split
  next => rfl
  next => exact all ts

theorem readPair_name (named : name ≠ []) (bare : ('=' : Byte) ∉ name) (value : splitValue s = some ts) :
    readPair (name ++ ('=' : Byte) :: s) = .ok (name, valueOf ts) := by
  obtain ⟨n, length⟩ : ∃ n, name.length = n + 1 := Nat.exists_eq_succ_of_ne_zero (mt List.length_eq_zero_iff.1 named)
  have found : Text.indexOf? "=" (name ++ ('=' : Byte) :: s) = some (n + 1) := length ▸ Text.indexOf?_byte bare s
  have front : (name ++ ('=' : Byte) :: s).take (n + 1) = name := by rw [← length, List.take_left]
  have behind : (name ++ ('=' : Byte) :: s).drop (n + 1 + 1) = s := by
    rw [← length, ← List.drop_drop, List.drop_left]
    rfl
  unfold readPair
  simp only [found, front, behind, value]

/-- An argument that is read has a name before its first equals sign and texts behind it. -/
theorem name_of_readPair {a : Text} (h : readPair a = .ok (name, v)) :
    name ≠ [] ∧ ('=' : Byte) ∉ name ∧ ∃ ts, ts ≠ [] ∧ v = valueOf ts := by
  unfold readPair at h
  split at h
  next => cases h
  next => cases h
  next n proper found =>
    obtain ⟨u, s, rfl, rfl, bare⟩ := Text.exists_of_indexOf?_byte found
    split at h
    next ts read =>
      cases h
      rw [List.take_left]
      exact ⟨mt List.length_eq_zero_iff.2 proper, bare, ts, splitValue_ne_nil read, rfl⟩
    next => cases h

theorem readPair_assignment (named : name ≠ []) (bare : ('=' : Byte) ∉ name) (some : ts ≠ []) :
    readPair (assignment name ts) = .ok (name, valueOf ts) :=
  readPair_name named bare (splitValue_encode some)

theorem bindPairs_singleton (a : Text) (frame : Frame) :
    bindPairs [a] frame = (readPair a).map fun (name, v) => frame.bind name v := by
  unfold bindPairs
  rw [List.foldlM_cons]
  cases readPair a <;> rfl

/-- **Values on the command line are read back.** An argument with a name and texts for it binds the name, and no other,
to the list of these texts, or to the text if there is one. Whatever an argument binds can be written as a name and texts
for it, and this is accepted and binds the same. -/
theorem bindPairs_assignment (named : name ≠ []) (bare : ('=' : Byte) ∉ name) (some : ts ≠ []) (frame : Frame) :
    (∃ bound, bindPairs [assignment name ts] frame = .ok bound ∧
      (∀ t, ts = [t] → Entries.find? name bound = .some (.text t)) ∧
      (ts.length ≠ 1 → Entries.find? name bound = .some (.list (ts.map .text))) ∧
      ∀ other, other ≠ name → Entries.find? other bound = Entries.find? other frame) ∧
    ∀ a frame bound, bindPairs [a] frame = .ok bound → ∃ name v ts, Entries.find? name bound = .some v ∧
      texts? v = .some ts ∧ bound = frame.bind name v ∧ bindPairs [assignment name ts] frame = .ok bound := by
  refine ⟨⟨frame.bind name (valueOf ts), ?_, ?_, ?_, fun other differs => ?_⟩, fun a frame bound accepted => ?_⟩
  · rw [bindPairs_singleton, readPair_assignment named bare some]
    rfl
  · rintro t rfl
    simp [Frame.find_bind, valueOf]
  · intro several
    rw [Frame.find_bind, if_pos (beq_self_eq_true name), valueOf]
    rintro t rfl
    exact several rfl
  · rw [Frame.find_bind, if_neg (by simpa using Ne.symm differs)]
  · rw [bindPairs_singleton] at accepted
    cases read : readPair a with
    | error => rw [read] at accepted; cases accepted
    | ok r =>
      rw [read] at accepted
      cases accepted
      obtain ⟨named, bare, ts, some, value⟩ := name_of_readPair (show readPair a = .ok (r.1, r.2) from read)
      refine ⟨r.1, r.2, ts, ?_, value ▸ texts?_valueOf ts, rfl, ?_⟩
      · rw [Frame.find_bind, if_pos (beq_self_eq_true r.1)]
      · rw [bindPairs_singleton, readPair_assignment named bare some, ← value]
        rfl

/-- Empty texts at both ends, and semicolons and backslashes at the borders of the others. -/
theorem bindPairs_assignment_escaped :
    assignment "v;" ["", "\\;=", ";\\", ""] = "v;=;\\\\\\;=;\\;\\\\;" ∧
    ∃ bound, bindPairs [assignment "v;" ["", "\\;=", ";\\", ""]] [] = .ok bound ∧
      Entries.find? "v;" bound = some (.list [.text "", .text "\\;=", .text ";\\", .text ""]) := by
  obtain ⟨⟨bound, accepted, -, list, -⟩, -⟩ := bindPairs_assignment (show ("v;" : Text) ≠ [] by decide) (by decide)
    (show (["", "\\;=", ";\\", ""] : List Text) ≠ [] by decide) []
  exact ⟨by decide, bound, accepted, list (by decide)⟩

end CommandLine

end Stencil
