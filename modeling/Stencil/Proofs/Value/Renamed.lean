import Stencil.Proofs.Value.Stock

/-!
# Streams under other numbers

A stream that is a value is known by its number, and nothing is ever computed from the number but whether two streams are
the same. So an operation does the same to values in which the streams have other numbers (`Value.rename`), as long as
different streams keep different numbers.
-/

namespace Stencil

namespace Value

variable {ρ : Nat → Nat}

section

variable {k : Stock}

mutual

/-- A value without streams stays what it is. -/
theorem rename_of_from (streamless : ∀ id, ¬ k.stream id) : (v : Value) → v.From k → v.rename ρ = v
  | stream id, h => absurd h (streamless id)
  | list vs, h => congrArg list (renameAll_of_from streamless vs h)
  | dict es, h => congrArg dict (renameEntries_of_from streamless es h)
  | undefined, _ | none, _ | bool _, _ | int _, _ | float _, _ | text _, _ | function _, _ => rfl

theorem renameAll_of_from (streamless : ∀ id, ¬ k.stream id) : (vs : List Value) → AllFrom k vs → renameAll ρ vs = vs
  | [], _ => rfl
  | v :: vs, h => congrArg₂ _ (rename_of_from streamless v h.1) (renameAll_of_from streamless vs h.2)

theorem renameEntries_of_from (streamless : ∀ id, ¬ k.stream id) :
    (es : List (Text × Value)) → EntriesFrom k es → renameEntries ρ es = es
  | [], _ => rfl
  | (key, v) :: es, h => by
    rw [renameEntries, rename_of_from streamless v h.1, renameEntries_of_from streamless es h.2]

end

mutual

/-- Only the numbers of the streams in a value count. -/
theorem rename_congr {ρ' : Nat → Nat} (same : ∀ id, k.stream id → ρ' id = ρ id) :
    (v : Value) → v.From k → v.rename ρ' = v.rename ρ
  | stream id, h => congrArg stream (same id h)
  | list vs, h => congrArg list (renameAll_congr same vs h)
  | dict es, h => congrArg dict (renameEntries_congr same es h)
  | undefined, _ | none, _ | bool _, _ | int _, _ | float _, _ | text _, _ | function _, _ => rfl

theorem renameAll_congr {ρ' : Nat → Nat} (same : ∀ id, k.stream id → ρ' id = ρ id) :
    (vs : List Value) → AllFrom k vs → renameAll ρ' vs = renameAll ρ vs
  | [], _ => rfl
  | v :: vs, h => congrArg₂ List.cons (rename_congr same v h.1) (renameAll_congr same vs h.2)

theorem renameEntries_congr {ρ' : Nat → Nat} (same : ∀ id, k.stream id → ρ' id = ρ id) :
    (es : List (Text × Value)) → EntriesFrom k es → renameEntries ρ' es = renameEntries ρ es
  | [], _ => rfl
  | (key, v) :: es, h => by
    rw [renameEntries, renameEntries, rename_congr same v h.1, renameEntries_congr same es h.2]

end

end

/-! ## Looking at a value -/

@[simp] theorem type_rename (v : Value) : (v.rename ρ).type = v.type := by cases v <;> rfl

@[simp] theorem isNull_rename (v : Value) : (v.rename ρ).isNull = v.isNull := by cases v <;> rfl

@[simp] theorem isUndefined_rename (v : Value) : (v.rename ρ).isUndefined = v.isUndefined := by cases v <;> rfl

@[simp] theorem isTrue_rename (v : Value) : (v.rename ρ).isTrue = v.isTrue := by
  cases v <;> simp [isTrue, Entries.rename]

@[simp] theorem rank?_rename (v : Value) : (v.rename ρ).rank? = v.rank? := by cases v <;> rfl

@[simp] theorem asInt_rename (v : Value) : (v.rename ρ).asInt = v.asInt := by cases v <;> rfl

mutual

@[simp] theorem represent_rename : (v : Value) → (v.rename ρ).represent = v.represent
  | list vs => by rw [rename_list, represent, represent, representAll_rename vs]
  | dict es => by rw [rename_dict, represent, represent, representEntries_rename es]
  | undefined | none | bool _ | int _ | float _ | text _ | function _ | stream _ => rfl

theorem representAll_rename : (vs : List Value) → representAll (vs.map (rename ρ)) = representAll vs
  | [] => rfl
  | [v] => by simp only [List.map_cons, List.map_nil, representAll, represent_rename v]
  | v :: w :: vs => by
    have rest := representAll_rename (w :: vs)
    simp only [List.map_cons] at rest ⊢
    simp only [representAll, represent_rename v, rest]

theorem representEntries_rename : (es : List (Text × Value)) → representEntries (Entries.rename ρ es) = representEntries es
  | [] => rfl
  | [(k, v)] => by simp only [Entries.rename, List.map_cons, List.map_nil, representEntries, represent_rename v]
  | (k, v) :: e :: es => by
    have rest := representEntries_rename (e :: es)
    simp only [Entries.rename, List.map_cons] at rest ⊢
    simp only [representEntries, represent_rename v, rest]

end

@[simp] theorem toText_rename (v : Value) : (v.rename ρ).toText = v.toText := by
  cases v with
  | list | dict => exact represent_rename _
  | _ => rfl

/-! ## Comparing values -/

mutual

/-- Streams are the same as before. -/
theorem equal_rename (different : ρ.Injective) : (v w : Value) → (v.rename ρ).equal (w.rename ρ) = v.equal w
  | list vs, w => by
    cases w with
    | list ws => simp only [rename_list, equal, equalAll_rename different vs ws]
    | _ => simp [equal]
  | dict es, w => by
    cases w with
    | dict fs => simp only [rename_dict, equal, equalEntries_rename different es fs]
    | _ => simp [equal]
  | stream i, w => by
    cases w with
    | stream j => simp [equal, different.eq_iff]
    | _ => simp [equal]
  | undefined, w | none, w | bool _, w | int _, w | float _, w | text _, w | function _, w => by cases w <;> simp [equal]

theorem equalAll_rename (different : ρ.Injective) :
    (vs ws : List Value) → equalAll (vs.map (rename ρ)) (ws.map (rename ρ)) = equalAll vs ws
  | [], ws => by cases ws <;> rfl
  | v :: vs, [] => rfl
  | v :: vs, w :: ws => by
    simp only [List.map_cons, equalAll, equal_rename different v w, equalAll_rename different vs ws]

theorem equalEntries_rename (different : ρ.Injective) :
    (es fs : List (Text × Value)) → equalEntries (Entries.rename ρ es) (Entries.rename ρ fs) = equalEntries es fs
  | [], fs => by cases fs <;> rfl
  | (k, v) :: es, [] => rfl
  | (k, v) :: es, (l, w) :: fs => by
    have rest := equalEntries_rename different es fs
    simp only [Entries.rename, List.map_cons] at rest ⊢
    simp only [equalEntries, equal_rename different v w, rest]

end

mutual

theorem compare_rename : (v w : Value) → (v.rename ρ).compare (w.rename ρ) = v.compare w
  | list vs, w => by
    cases w with
    | list ws => simp only [rename_list, compare, compareAll_rename vs ws]
    | _ => simp [compare, type]
  | text t, w => by cases w <;> simp [compare, type]
  | undefined, w | none, w | bool _, w | int _, w | float _, w | function _, w => by
    simp only [rename_undefined, rename_none, rename_bool, rename_int, rename_float, rename_function, compare,
      rank?_rename, type_rename]
  | dict es, w => by
    have unranked (es : List (Text × Value)) : (dict es).rank? = Option.none := rfl
    simp only [rename_dict, compare, unranked, type_rename]
    rfl
  | stream id, w => by
    have unranked (id : Nat) : (stream id).rank? = Option.none := rfl
    simp only [rename_stream, compare, unranked, type_rename]
    rfl

theorem compareAll_rename : (vs ws : List Value) → compareAll (vs.map (rename ρ)) (ws.map (rename ρ)) = compareAll vs ws
  | [], ws => by cases ws <;> rfl
  | v :: vs, [] => rfl
  | v :: vs, w :: ws => by
    simp only [List.map_cons, compareAll, compare_rename v w, compareAll_rename vs ws]

end

end Value

/-! ## Entries and frames -/

namespace Entries

variable {ρ : Nat → Nat}

theorem find?_rename (key : Text) (es : List (Text × Value)) :
    find? key (rename ρ es) = (find? key es).map (Value.rename ρ) := by
  induction es with
  | nil => rfl
  | cons e es ih =>
    simp only [find?, rename, List.map_cons, List.find?_cons] at ih ⊢
    split
    · rfl
    · exact ih

theorem rename_congr {ρ' : Nat → Nat} {k : Stock} {es : List (Text × Value)} (same : ∀ id, k.stream id → ρ' id = ρ id)
    (h : From k es) : rename ρ' es = rename ρ es :=
  List.map_congr_left fun e he => Prod.ext rfl (Value.rename_congr same e.2 (h e he))

theorem insert_rename (key : Text) (v : Value) (es : List (Text × Value)) :
    insert key (v.rename ρ) (rename ρ es) = rename ρ (insert key v es) := by
  induction es with
  | nil => rfl
  | cons e es ih =>
    simp only [insert, rename, List.map_cons] at ih ⊢
    split
    · rfl
    · rfl
    · exact congrArg _ ih

end Entries

namespace Frame

variable {ρ : Nat → Nat}

theorem bind_rename (frame : Frame) (name : Text) (v : Value) :
    Frame.bind (Entries.rename ρ frame) name (v.rename ρ) = Entries.rename ρ (frame.bind name v) := by
  induction frame with
  | nil => rfl
  | cons e es ih =>
    simp only [bind, Entries.rename, List.map_cons] at ih ⊢
    split
    · rfl
    · exact congrArg _ ih

theorem bindAll_rename (ts : List Text) (vs : List Value) (frame : Frame) :
    (ts.zip (vs.map (Value.rename ρ))).foldl (fun f p => Frame.bind f p.1 p.2) (Entries.rename ρ frame) =
      Entries.rename ρ ((ts.zip vs).foldl (fun f p => Frame.bind f p.1 p.2) frame) := by
  induction ts generalizing vs frame with
  | nil => rfl
  | cons t ts ih =>
    cases vs with
    | nil => rfl
    | cons v vs =>
      simp only [List.map_cons, List.zip_cons_cons, List.foldl_cons, bind_rename]
      exact ih vs _

end Frame

/-! ## Computing with values -/

namespace Value

variable {ρ : Nat → Nat}

theorem member_rename (v : Value) (name : Text) : (v.rename ρ).member name = (v.member name).map (rename ρ) := by
  cases v with
  | dict es =>
    simp only [rename_dict, member, Entries.find?_rename]
    cases Entries.find? name es <;> rfl
  | _ => simp [member, Except.map, type]

theorem elementAt_map {α β : Type} (g : α → β) (es : List α) (i : Int64) :
    elementAt (es.map g) i = (elementAt es i).map g := by
  simp only [elementAt, List.length_map, List.getElem?_map]
  generalize (if i < 0 then i.toInt + es.length else i.toInt) = n
  split
  · rfl
  · cases es[n.toNat]? <;> rfl

theorem item_rename (v key : Value) : (v.rename ρ).item (key.rename ρ) = (v.item key).map (rename ρ) := by
  cases v with
  | undefined => rfl
  | dict es =>
    rw [rename_dict]
    cases key with
    | text k =>
      simp only [rename_text, item, Entries.find?_rename]
      cases Entries.find? k es <;> rfl
    | _ => simp [item, type, Except.map]
  | list vs =>
    rw [rename_list]
    cases key with
    | int i => exact elementAt_map _ _ _
    | _ => simp [item, type, Except.map]
  | text t =>
    cases key with
    | int i =>
      simp only [rename_text, rename_int, item]
      cases elementAt t i <;> rfl
    | _ => simp [item, type, Except.map]
  | _ => simp [item, type, Except.map]

theorem items_rename (v : Value) : (v.rename ρ).items = v.items.map (List.map (rename ρ)) := by
  cases v <;> simp [items, Except.map, Entries.rename, type]

theorem contains_rename (different : ρ.Injective) (v w : Value) : (v.rename ρ).contains (w.rename ρ) = v.contains w := by
  cases v with
  | list vs => simp [contains, equal_rename different, Function.comp_def]
  | dict es => cases w <;> simp [contains, Entries.find?_rename]
  | text t => cases w <;> simp [contains]
  | _ => simp [contains, type]

theorem identical_rename (different : ρ.Injective) (v w : Value) : (v.rename ρ).identical (w.rename ρ) = v.identical w := by
  simp only [identical, isNull_rename, type_rename, equal_rename different]

theorem applyUnary_rename (op : UnaryOperator) (v : Value) :
    (v.rename ρ).applyUnary op = (v.applyUnary op).map (rename ρ) := by
  cases op with
  | not => simp [applyUnary, Except.map]
  | identity => cases v <;> simp [applyUnary, Except.map, type]
  | negate =>
    cases v with
    | int n =>
      simp only [rename_int, applyUnary]
      cases Text.fitInt64? (-n.toInt) <;> rfl
    | _ => simp [applyUnary, Except.map, type]

theorem map_floatArithmetic (op : Operator) (x y : Float) :
    (floatArithmetic op x y).map (rename ρ) = floatArithmetic op x y := by
  cases h : floatArithmetic op x y with
  | error => rfl
  | ok w =>
    exact congrArg Except.ok (rename_of_from (k := ⟨fun _ => True, fun _ => False⟩) (by simp) w (from_floatArithmetic h))

theorem map_intArithmetic (op : Operator) (a b : Int64) :
    (intArithmetic op a b).map (rename ρ) = intArithmetic op a b := by
  cases h : intArithmetic op a b with
  | error => rfl
  | ok w =>
    exact congrArg Except.ok (rename_of_from (k := ⟨fun _ => True, fun _ => False⟩) (by simp) w (from_intArithmetic h))

theorem arithmetic_rename (op : Operator) (v w : Value) :
    arithmetic op (v.rename ρ) (w.rename ρ) = (arithmetic op v w).map (rename ρ) := by
  cases v with
  | int m =>
    cases w with
    | int n => exact (map_intArithmetic op m n).symm
    | float y => exact (map_floatArithmetic op _ y).symm
    | _ => rfl
  | float x =>
    cases w with
    | int n => exact (map_floatArithmetic op x _).symm
    | float y => exact (map_floatArithmetic op x y).symm
    | _ => rfl
  | text s =>
    cases w with
    | text t | int n =>
      simp only [rename_text, rename_int, arithmetic]
      split <;> rfl
    | _ => rfl
  | list vs =>
    cases w with
    | list ws =>
      simp only [rename_list, arithmetic]
      split
      · simp only [Except.map, rename_list, List.map_append]
      · rfl
    | _ => rfl
  | _ => cases w <;> rfl

theorem applyBinary_rename (different : ρ.Injective) (op : Operator) (v w : Value) :
    applyBinary op (v.rename ρ) (w.rename ρ) = (applyBinary op v w).map (rename ρ) := by
  have mapped {α : Type} (r : Result α) (g : α → Bool) :
      ((r.map fun a => bool (g a)).map (rename ρ)) = r.map fun a => bool (g a) := by
    cases r <;> rfl
  cases op with
  | equal | notEqual => simp only [applyBinary, equal_rename different]; rfl
  | is | isNot => simp only [applyBinary, identical_rename different]; rfl
  | less | lessEqual | greater | greaterEqual => simp only [applyBinary, compare_rename, mapped]
  | «in» => simp only [applyBinary, contains_rename different]; exact (mapped _ id).symm
  | notIn => simp only [applyBinary, contains_rename different, mapped]
  | and | or =>
    simp only [applyBinary, isTrue_rename]
    split <;> rfl
  | add | subtract | multiply | divide | modulo => exact arithmetic_rename _ v w

end Value

/-! ## Loops and attributes -/

/-- Both results are the same up to numbers, as `V` says, or both are errors with the same words. -/
inductive Value.Result.Alike {α β : Type} (V : α → β → Prop) : Value.Result α → Value.Result β → Prop
  | ok {a : α} {b : β} (same : V a b) : Alike V (.ok a) (.ok b)
  | error {e e' : EvalError} (same : e.wording = e'.wording) : Alike V (.error e) (.error e')

section

variable {ρ : Nat → Nat}

/-- The frame of an iteration has the renamed values, and what can't be unpacked looks the same. -/
theorem loopFrame_rename (targets : List Text) (item : Value) :
    Value.Result.Alike (fun frame frame' => frame' = Entries.rename ρ frame)
      (loopFrame targets item) (loopFrame targets (item.rename ρ)) := by
  have unpack (v : Value) :
      (EvalError.unpack v targets.length).wording = (EvalError.unpack (v.rename ρ) targets.length).wording := by
    simp only [EvalError.wording, Value.represent_rename]
  by_cases single : ∃ t, targets = [t]
  · obtain ⟨t, rfl⟩ := single
    exact .ok rfl
  · cases item with
    | list vs =>
      have several (vs : List Value) : loopFrame targets (.list vs) = if vs.length < targets.length then
          .error (.unpack (.list vs) targets.length)
          else .ok ((targets.zip vs).foldl (fun f p => Frame.bind f p.1 p.2) []) := by
        unfold loopFrame
        split
        · exact absurd ⟨_, rfl⟩ single
        · rename_i same; cases same; rfl
        · rename_i other; exact absurd rfl (other _)
      rw [Value.rename_list, several, several, List.length_map]
      split
      · exact .error (by simpa using unpack (.list vs))
      · exact .ok (Frame.bindAll_rename targets vs [])
    | _ =>
      have refused (v : Value) (unlisted : ∀ vs, v ≠ .list vs) :
          loopFrame targets v = .error (.unpack v targets.length) := by
        unfold loopFrame
        split
        · exact absurd ⟨_, rfl⟩ single
        · exact absurd rfl (unlisted _)
        · rfl
      rw [refused _ (by simp), refused _ (by simp)]
      exact .error (unpack _)

theorem Attributes.mergePair_rename (as : Attributes) (pair : Value) :
    Value.Result.Alike (fun as as' => as' = as) (as.mergePair pair) (as.mergePair (pair.rename ρ)) := by
  by_cases shape : ∃ name v, pair = .list [.text name, v]
  · obtain ⟨name, v, rfl⟩ := shape
    refine .ok ?_
    simp only [Value.isNull_rename, Value.toText_rename]
  · have refused (pair : Value) (h : ¬ ∃ name v, pair = .list [.text name, v]) :
        as.mergePair pair = .error (.badPair pair) := by
      unfold mergePair
      split
      · exact absurd ⟨_, _, rfl⟩ h
      · rfl
    have shape' : ¬ ∃ name v, pair.rename ρ = .list [.text name, v] := by
      rintro ⟨name, v, same⟩
      refine shape ?_
      match pair, same with
      | .list [.text t, w], same =>
        exact ⟨t, w, rfl⟩
    rw [refused pair shape, refused _ shape']
    exact .error (by simp only [EvalError.wording, Value.represent_rename])

/-- What is merged into attributes are texts. -/
theorem Attributes.merge_rename (as : Attributes) (v : Value) :
    Value.Result.Alike (fun as as' => as' = as) (as.merge v) (as.merge (v.rename ρ)) := by
  have pairs (vs : List Value) (as : Attributes) : Value.Result.Alike (fun as as' => as' = as)
      (vs.foldlM mergePair as) ((vs.map (Value.rename ρ)).foldlM mergePair as) := by
    induction vs generalizing as with
    | nil => exact .ok rfl
    | cons v vs ih =>
      have first := as.mergePair_rename (ρ := ρ) v
      rw [List.map_cons, List.foldlM_cons, List.foldlM_cons]
      generalize as.mergePair v = r, as.mergePair (v.rename ρ) = r' at first
      cases first with
      | ok same => exact same ▸ ih _
      | error same => exact .error same
  cases v with
  | list vs =>
    rw [Value.rename_list]
    exact pairs vs as
  | dict es =>
    have renamed : (Entries.rename ρ es).map (fun p => Value.list [.text p.1, p.2]) =
        (es.map fun p => Value.list [.text p.1, p.2]).map (Value.rename ρ) := by
      simp [Entries.rename, Function.comp_def]
    rw [Value.rename_dict]
    simp only [merge, pairsOf, renamed]
    exact pairs _ as
  | _ => exact .error rfl

end

end Stencil
