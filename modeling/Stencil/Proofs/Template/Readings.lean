import Stencil.Proofs.Document.Markup
import Stencil.Proofs.Template.Compilation

/-!
# What is read of the attributes of a tag

Each attribute in the namespace of directives is read to the directive of its name. No two names that are known, built-in
or added, have one rank (`Registry.rank_inj`), and the attributes of a tag have distinct names. So the directives of an
element have distinct ranks (`Compile.readings_ranked`).
-/

namespace Stencil

namespace Registry

variable {registry : Registry} {n m : DirectiveName}

theorem mem_names : n ∈ registry.names ↔ n ∈ DirectiveName.builtins ∨ ∃ kind ∈ registry.added, n = .extension kind := by
  rw [names, List.mem_append, List.mem_map]
  exact or_congr_right ⟨fun ⟨kind, hk, same⟩ => ⟨kind, hk, same.symm⟩, fun ⟨kind, hk, same⟩ => ⟨kind, hk, same.symm⟩⟩

/-- **The names of a registry are told apart by how they are spelled.** -/
theorem spelling_inj (hn : n ∈ registry.names) (hm : m ∈ registry.names) (same : n.spelling = m.spelling) : n = m := by
  have builtin : ∀ n ∈ DirectiveName.builtins, ∀ m ∈ DirectiveName.builtins, n.spelling = m.spelling → n = m := by decide
  rcases mem_names.1 hn with hn | ⟨kind, hk, rfl⟩ <;> rcases mem_names.1 hm with hm | ⟨kind', hk', rfl⟩
  · exact builtin n hn m hm same
  · exact absurd same (registry.foreign kind' hk' n hn)
  · exact absurd same.symm (registry.foreign kind hk m hm)
  · rw [List.inj_on_of_nodup_map registry.distinct hk hk' same]

/-- **And by their ranks**, as each name that was added got the next one. -/
theorem rank_inj (hn : n ∈ registry.names) (hm : m ∈ registry.names) (same : n.rank = m.rank) : n = m := by
  have builtin : ∀ n ∈ DirectiveName.builtins, ∀ m ∈ DirectiveName.builtins, n.rank = m.rank → n = m := by decide
  have before : ∀ n ∈ DirectiveName.builtins, n.rank < DirectiveName.firstFreeRank := by decide
  have numbers : (registry.added.map (·.number)).Nodup := registry.numbered ▸ List.nodup_range
  rcases mem_names.1 hn with hn | ⟨kind, hk, rfl⟩ <;> rcases mem_names.1 hm with hm | ⟨kind', hk', rfl⟩
  · exact builtin n hn m hm same
  · exact absurd (same ▸ before n hn) (Nat.not_lt.2 (Nat.le_add_right _ _))
  · exact absurd (same ▸ before m hm) (Nat.not_lt.2 (Nat.le_add_right _ _))
  · rw [List.inj_on_of_nodup_map numbers hk hk' (Nat.add_left_cancel same)]

end Registry

namespace Compile

variable {t : Target} {index : Nat} {p : Position} {place : SourcePlace} {body : BodyId} {n : DirectiveName}

/-- What the value of a directive of a name is read to. -/
inductive ReadsTo (value : Text) (body : BodyId) : DirectiveName → DirectiveReading → Prop
  | define (signature : Signature) : ReadsTo value body .define (.plain (.define signature body))
  | capture (path : Path) (log : List LogEntry) : ReadsTo value body .capture ⟨.capture body, [.substitute path body], log⟩
  | loop (targets : List Text) (items : Expression) : ReadsTo value body .loop (.plain (.loop targets items))
  | condition {x : Expression} (found : Directive.optionalExpression value = some x) :
      ReadsTo value body .condition (.plain (.condition x))
  | replace {x : Expression} (found : Directive.optionalExpression value = some x) :
      ReadsTo value body .replace (.plain (.replace x))
  | content {x : Expression} (found : Directive.optionalExpression value = some x) :
      ReadsTo value body .content (.plain (.content x))
  | attributes {x : Expression} (found : Directive.optionalExpression value = some x) :
      ReadsTo value body .attributes (.plain (.attributes x))
  | strip : ReadsTo value body .strip (.plain (.strip (Directive.optionalExpression value)))
  | extension (kind : Extension) :
      ReadsTo value body (.extension kind) (.plain (.extension kind (Directive.optionalExpression value)))

theorem optional_of_required {value : Text} {x : Expression} (h : Directive.requiredExpression n value = .ok x) :
    Directive.optionalExpression value = some x := by
  unfold Directive.requiredExpression at h
  split at h <;> cases h
  assumption

/-- **What a directive is read to.** -/
theorem readsTo_of_readNamed {value : Text} {r : DirectiveReading} (h : Directive.readNamed n value place body = .ok r) :
    ReadsTo value body n r := by
  unfold Directive.readNamed at h
  cases n with
  | define =>
    dsimp only at h
    split at h <;> cases h
    exact .define _
  | capture =>
    dsimp only at h
    split at h <;> cases h
    exact .capture _ _
  | loop =>
    cases x : Directive.readLoop value <;> rw [x] at h <;> cases h
    obtain ⟨-, targets, items, -, -, -, rfl⟩ := readLoop_ok x
    exact .loop targets items
  | condition =>
    cases x : Directive.requiredExpression .condition value <;> rw [x] at h <;> cases h
    exact .condition (optional_of_required x)
  | replace =>
    cases x : Directive.requiredExpression .replace value <;> rw [x] at h <;> cases h
    exact .replace (optional_of_required x)
  | content =>
    cases x : Directive.requiredExpression .content value <;> rw [x] at h <;> cases h
    exact .content (optional_of_required x)
  | attributes =>
    cases x : Directive.requiredExpression .attributes value <;> rw [x] at h <;> cases h
    exact .attributes (optional_of_required x)
  | strip =>
    cases h
    exact .strip
  | extension kind =>
    cases h
    exact .extension kind

/-- What is read of the value of a directive is of the rank of its name. -/
theorem rank_readNamed {value : Text} {r : DirectiveReading} (h : Directive.readNamed n value place body = .ok r) :
    r.directive.rank = n.rank := by
  cases readsTo_of_readNamed h <;> rfl

/-- The filter substitutes elements. -/
def Substitutes (f : Filter) : Prop := ∃ path body, f = .substitute path body

theorem ReadsTo.substitutes {value : Text} {r : DirectiveReading} (h : ReadsTo value body n r) :
    ∀ f ∈ r.filters, Substitutes f := by
  cases h with
  | capture => exact List.forall_mem_singleton.2 ⟨_, _, rfl⟩
  | _ => exact fun _ hf => nomatch hf

/-- What a directive of a name is read to. -/
theorem readNamed_of_read {a : Attribute} {r : DirectiveReading} (h : readDirective t index p a = .ok r) :
    ∃ n : DirectiveName, n.spelling = a.name.base ∧ n ∈ t.registry.names ∧
      Directive.readNamed n a.text (.ofPosition t.filename p) ⟨t.id, slot a.name.base index⟩ = .ok r := by
  unfold readDirective Directive.read at h
  split at h
  · rename_i n found
    exact ⟨n, by simpa using List.find?_some found, List.mem_of_find?_eq_some found, h⟩
  · cases h

/-- All attributes are read if each of them is, and what is read of them stays in order. -/
theorem mapM_eq_ok_iff {α β ε : Type} {f : α → Except ε β} {as : List α} {bs : List β} :
    as.mapM f = .ok bs ↔ List.Forall₂ (fun a b => f a = .ok b) as bs := by
  induction as generalizing bs with
  | nil => cases bs <;> simp [pure, Except.pure]
  | cons a as ih =>
    rw [List.mapM_cons]
    cases first : f a with
    | error e => cases bs <;> simp [bind, Except.bind, first]
    | ok b =>
      cases rest : as.mapM f with
      | error e => cases bs <;> simp [bind, Except.bind, first, rest, ← ih]
      | ok bs' => cases bs <;> simp [bind, Except.bind, pure, Except.pure, first, rest, ← ih]

theorem mem_readings {as : Attributes} {rs : List DirectiveReading}
    (h : as.mapM (readDirective t index p) = .ok rs) : ∀ r ∈ rs, ∃ a ∈ as, readDirective t index p a = .ok r := by
  have read := mapM_eq_ok_iff.1 h
  clear h
  induction read with
  | nil => simp
  | cons first _ ih =>
    refine List.forall_mem_cons.2 ⟨⟨_, List.mem_cons_self, first⟩, fun r hr => ?_⟩
    obtain ⟨a, ha, found⟩ := ih r hr
    exact ⟨a, List.mem_cons_of_mem _ ha, found⟩

/-- What is read of an attribute is of the rank of its name. -/
theorem rank_of_read {a : Attribute} {r : DirectiveReading} (h : readDirective t index p a = .ok r) :
    ∃ n ∈ t.registry.names, n.spelling = a.name.base ∧ r.directive.rank = n.rank := by
  obtain ⟨n, name, known, named⟩ := readNamed_of_read h
  exact ⟨n, known, name, rank_readNamed named⟩

/-- **The readings of distinct attributes have distinct ranks**, each that of the name of an attribute. -/
theorem readings_ranked {as : Attributes} {rs : List DirectiveReading} (distinct : as.Distinct)
    (directives : ∀ a ∈ as, isDirective a = true) (h : as.mapM (readDirective t index p) = .ok rs) :
    (∀ r ∈ rs, ∃ a ∈ as, ∃ n : DirectiveName, n.spelling = a.name.base ∧ r.directive.rank = n.rank ∧
        readDirective t index p a = .ok r) ∧
      rs.Pairwise fun r r' => r.directive.rank ≠ r'.directive.rank := by
  constructor
  · intro r hr
    obtain ⟨a, ha, read⟩ := mem_readings h r hr
    obtain ⟨n, -, name, rank⟩ := rank_of_read read
    exact ⟨a, ha, n, name, rank, read⟩
  · have read := mapM_eq_ok_iff.1 h
    clear h
    induction read with
    | nil => exact List.Pairwise.nil
    | cons first rest ih =>
      obtain ⟨others, distinct⟩ := List.pairwise_cons.1 distinct
      obtain ⟨directive, directives⟩ := List.forall_mem_cons.1 directives
      refine List.pairwise_cons.2 ⟨fun r hr same => ?_, ih distinct directives⟩
      -- two directives of one rank are attributes of one name
      obtain ⟨b, hb, second⟩ := mem_readings (mapM_eq_ok_iff.2 rest) r hr
      obtain ⟨n, known, name, rank⟩ := rank_of_read first
      obtain ⟨m, known', name', rank'⟩ := rank_of_read second
      obtain rfl : n = m := Registry.rank_inj known known' (rank ▸ rank' ▸ same)
      have apart := others b hb
      have uri := (beq_iff_eq.1 directive).trans (beq_iff_eq.1 (directives b hb)).symm
      simp [QName.same, uri, ← name, ← name'] at apart

theorem sortByRank_perm (ds : List Directive) : (sortByRank ds).Perm ds := by
  rw [sortByRank_eq]
  exact List.perm_insertionSort _ ds

/-- Directives of distinct ranks in the order of their rank. -/
theorem ascending_sortByRank {ds : List Directive} (distinct : ds.Pairwise (·.rank ≠ ·.rank)) :
    (sortByRank ds).Pairwise (·.rank < ·.rank) := by
  have distinct := ((sortByRank_perm ds).pairwise_iff (fun h => h.symm)).2 distinct
  rw [sortByRank_eq] at distinct ⊢
  have sorted := List.pairwise_insertionSort (fun a b : Directive => a.rank ≤ b.rank) ds
  exact (sorted.and distinct).imp fun h => Nat.lt_of_le_of_ne h.1 h.2

theorem mem_sortByRank {ds : List Directive} {d : Directive} : d ∈ sortByRank ds ↔ d ∈ ds :=
  (sortByRank_perm ds).mem_iff

end Compile

end Stencil
