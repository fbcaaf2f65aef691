import Stencil.Stream.Tag
import Mathlib.Data.List.Nodup

/-!
# Merging a dict into attributes

An attribute is removed by its qualified name, but set by its namespace URI and local part. Where the two notions pick
the same attributes, merging treats the names of a dict one by one: those of nothing go, the others get the trimmed text
of their value, and all other attributes stay as they are (`Attributes.merge_dict`). Where they do not, an attribute may
come twice (`Attributes.merge_repeats`).
-/

namespace Stencil.Attributes

variable {as : Attributes} {m n : Text} {v : Value} {es : List (Text × Value)}

/-- The qualified names, in order. -/
def names (as : Attributes) : List Text := as.map (·.name.qualified)

/-- The attributes with a qualified name; there is at most one if the names are distinct. -/
def allNamed (as : Attributes) (n : Text) : Attributes := as.filter (·.name.qualified == n)

/-- The attributes with none of some qualified names, in order. -/
def without (as : Attributes) (ns : List Text) : Attributes := as.filter fun a => !ns.contains a.name.qualified

theorem allNamed_eq_nil (absent : n ∉ as.names) : as.allNamed n = [] := by
  rw [allNamed, List.filter_eq_nil_iff]
  intro a member named
  exact absent (List.mem_map.2 ⟨a, member, beq_iff_eq.1 named⟩)

/-- What is left without some names has the same attributes of any other name. -/
theorem allNamed_without {ns : List Text} (other : n ∉ ns) (as : Attributes) :
    (as.without ns).allNamed n = as.allNamed n := by
  rw [allNamed, without, List.filter_filter]
  refine List.filter_congr fun a _ => ?_
  by_cases named : a.name.qualified = n <;> simp [named, other]

theorem without_cons (as : Attributes) (n : Text) (ns : List Text) : as.without (n :: ns) = (as.without [n]).without ns := by
  rw [without, without, without, List.filter_filter]
  refine List.filter_congr fun a _ => ?_
  by_cases named : a.name.qualified = n <;> simp [named]

theorem without_comm (as : Attributes) (ms ns : List Text) : (as.without ms).without ns = (as.without ns).without ms :=
  List.filter_comm ..

theorem names_without (as : Attributes) (ns : List Text) : (as.without ns).names.Sublist as.names :=
  List.filter_sublist.map _

/-! ## One name -/

/-- The attributes that setting a name would change are those of that qualified name. -/
def Agrees (as : Attributes) (n : Text) : Prop :=
  ∀ a ∈ as, a.name.same (.plain n) = (a.name.qualified == n)

theorem plain_same (m n : Text) : (QName.plain m).same (.plain n) = ((QName.plain m).qualified == n) := by
  simp [QName.same, QName.plain, QName.qualified]

/-- Removing takes one attribute, so all of a name if names are distinct. -/
theorem remove_eq_without (distinct : as.names.Nodup) (n : Text) : as.remove n = as.without [n] := by
  induction as with
  | nil => rfl
  | cons a as ih =>
    obtain ⟨fresh, distinct⟩ := List.nodup_cons.1 distinct
    by_cases named : a.name.qualified = n
    · have others : Attributes.without as [n] = as := by
        refine List.filter_eq_self.2 fun b member => ?_
        have : b.name.qualified ≠ n := fun same => fresh (List.mem_map.2 ⟨b, member, same.trans named.symm⟩)
        simpa using this
      simpa [remove, without, named] using others.symm
    · simpa [remove, without, named] using ih distinct

/-- Setting a name keeps the order of names; a new one comes last. -/
theorem names_set (agrees : as.Agrees n) (value : List Fragment) :
    (as.set (.plain n) value).names = if n ∈ as.names then as.names else as.names ++ [n] := by
  induction as with
  | nil => rfl
  | cons a as ih =>
    obtain ⟨here, rest⟩ := List.forall_mem_cons.1 agrees
    rw [set, here]
    by_cases named : a.name.qualified = n
    · simp [names, named]
    · rw [if_neg (by simpa using named)]
      change a.name.qualified :: names (set as (.plain n) value) =
        if n ∈ a.name.qualified :: names as then a.name.qualified :: names as else a.name.qualified :: names as ++ [n]
      rw [ih rest]
      by_cases member : n ∈ names as <;> simp [member, Ne.symm named]

theorem without_set (agrees : as.Agrees n) (value : List Fragment) :
    (as.set (.plain n) value).without [n] = as.without [n] := by
  induction as with
  | nil => simp [set, without, QName.plain, QName.qualified]
  | cons a as ih =>
    obtain ⟨here, rest⟩ := List.forall_mem_cons.1 agrees
    rw [set, here]
    by_cases named : a.name.qualified = n
    · simp [without, named]
    · have step := ih rest
      simp_all [without]

/-- What is set for a name is its one attribute. -/
theorem allNamed_set (agrees : as.Agrees n) (distinct : as.names.Nodup) (value : List Fragment) :
    ∃ name, (as.set (.plain n) value).allNamed n = [⟨name, value⟩] := by
  induction as with
  | nil => exact ⟨.plain n, by simp [set, allNamed, QName.plain, QName.qualified]⟩
  | cons a as ih =>
    obtain ⟨here, rest⟩ := List.forall_mem_cons.1 agrees
    obtain ⟨fresh, distinct⟩ := List.nodup_cons.1 distinct
    rw [set, here]
    by_cases named : a.name.qualified = n
    · have none : Attributes.allNamed as n = [] := allNamed_eq_nil (named ▸ (fresh : a.name.qualified ∉ names as))
      refine ⟨a.name, ?_⟩
      simpa [allNamed, named] using none
    · obtain ⟨name, found⟩ := ih rest distinct
      refine ⟨name, ?_⟩
      simpa [allNamed, named] using found

/-- Setting a name brings in no name but that, so what agreed on another one still does. -/
theorem Agrees.set (agrees : as.Agrees m) (n : Text) (value : List Fragment) : (as.set (.plain n) value).Agrees m := by
  induction as with
  | nil => simpa [Agrees, Attributes.set] using plain_same n m
  | cons a as ih =>
    obtain ⟨first, others⟩ := List.forall_mem_cons.1 agrees
    rw [Attributes.set]
    split
    · exact List.forall_mem_cons.2 ⟨first, others⟩
    · exact List.forall_mem_cons.2 ⟨first, ih others⟩

/-- The attributes with one entry of a dict merged in. -/
def put (as : Attributes) (e : Text × Value) : Attributes :=
  if e.2.isNull then as.remove e.1 else as.setText (.plain e.1) (Text.trimWhite e.2.toText)

/-- An entry that is not nothing is put in place of the attributes of its name. -/
def Fits (as : Attributes) (e : Text × Value) : Prop := e.2.isNull = false → as.Agrees e.1

variable {e f : Text × Value}

theorem names_put (fits : as.Fits e) (distinct : as.names.Nodup) : (as.put e).names.Nodup := by
  rw [put]
  split
  · rw [remove_eq_without distinct]
    exact distinct.sublist (names_without as [e.1])
  · rename_i something
    rw [setText, names_set (fits (Bool.eq_false_iff.2 something))]
    split
    · exact distinct
    · rename_i fresh
      simpa using distinct.concat fresh

theorem without_put (fits : as.Fits e) (distinct : as.names.Nodup) : (as.put e).without [e.1] = as.without [e.1] := by
  rw [put]
  split
  · rw [remove_eq_without distinct, without, without, List.filter_filter]
    exact List.filter_congr fun a _ => Bool.and_self _
  · rename_i something
    exact without_set (fits (Bool.eq_false_iff.2 something)) _

theorem Fits.put (fits : as.Fits f) (e : Text × Value) : (as.put e).Fits f := by
  intro something
  rw [Attributes.put]
  split
  · exact fun a member => fits something a (List.mem_of_mem_eraseP member)
  · exact (fits something).set e.1 _

/-- What one entry leaves of its name: nothing, or one attribute with the trimmed text of its value. -/
def Holds (as : Attributes) (e : Text × Value) : Prop :=
  if e.2.isNull then as.allNamed e.1 = []
  else ∃ name, as.allNamed e.1 = [⟨name, [.literal (Text.trimWhite e.2.toText)]⟩]

theorem holds_put (fits : as.Fits e) (distinct : as.names.Nodup) : (as.put e).Holds e := by
  rw [Holds, put]
  split
  · rw [remove_eq_without distinct]
    refine allNamed_eq_nil fun member => ?_
    obtain ⟨a, kept, named⟩ := List.mem_map.1 member
    have := (List.mem_filter.1 kept).2
    simp_all
  · rename_i something
    exact allNamed_set (fits (Bool.eq_false_iff.2 something)) distinct _

/-! ## All names -/

theorem merge_dict_eq (as : Attributes) (es : List (Text × Value)) : as.merge (.dict es) = .ok (es.foldl put as) := by
  change (es.map fun e => Value.list [.text e.1, e.2]).foldlM mergePair as = _
  rw [List.foldlM_map]
  exact List.foldlM_pure

/-- What merging a dict into attributes is to give. -/
structure Merged (as : Attributes) (es : List (Text × Value)) (bs : Attributes) : Prop where
  /-- no two attributes have the same qualified name -/
  distinct : bs.names.Nodup
  /-- a name is absent if its value is nothing, and otherwise there once with the trimmed text of its value -/
  entries : ∀ e ∈ es, bs.Holds e
  /-- the attributes of all other names are as they were, in the same order -/
  others : bs.without (es.map Prod.fst) = as.without (es.map Prod.fst)

theorem merged_foldl (keys : (es.map Prod.fst).Nodup) (fits : ∀ e ∈ es, as.Fits e) (distinct : as.names.Nodup) :
    Merged as es (es.foldl put as) := by
  induction es generalizing as with
  | nil => exact ⟨distinct, by simp, rfl⟩
  | cons e es ih =>
    obtain ⟨fresh, keys⟩ := List.nodup_cons.1 keys
    obtain ⟨first, fits⟩ := List.forall_mem_cons.1 fits
    have rest := ih keys (fun f member => (fits f member).put e) (names_put first distinct)
    -- the later entries do not touch the name of this one
    have here : (es.foldl put (as.put e)).allNamed e.1 = (as.put e).allNamed e.1 := by
      rw [← allNamed_without fresh, rest.others, allNamed_without fresh]
    refine ⟨rest.distinct, List.forall_mem_cons.2 ⟨?_, rest.entries⟩, ?_⟩
    · have put := holds_put first distinct
      rwa [Holds, ← here] at put
    · calc (es.foldl put (as.put e)).without (e.1 :: es.map Prod.fst)
          = ((es.foldl put (as.put e)).without (es.map Prod.fst)).without [e.1] := by rw [without_cons, without_comm]
        _ = ((as.put e).without [e.1]).without (es.map Prod.fst) := by rw [rest.others, without_comm]
        _ = as.without (e.1 :: es.map Prod.fst) := by rw [without_put first distinct, ← without_cons]

/-- **Merging a dict into attributes.**

Where the names of what the dict sets are those of the attributes they are set in, the result has no qualified name
twice, none of the names of nothing, one attribute with the trimmed text of its value for each other name of the dict,
and all other attributes as they were. -/
theorem merge_dict (as : Attributes) (es : List (Text × Value)) (distinct : as.names.Nodup) (keys : (es.map Prod.fst).Nodup)
    (fits : ∀ e ∈ es, as.Fits e) : ∃ bs, as.merge (.dict es) = .ok bs ∧ Merged as es bs :=
  ⟨es.foldl put as, merge_dict_eq as es, merged_foldl keys fits distinct⟩

/-- An attribute replaced, one removed, one added, and one with a prefix kept. -/
theorem merge_dict_mixed :
    let lang : Attribute := ⟨⟨"http://www.w3.org/XML/1998/namespace", "xml", "lang"⟩, [.literal "en"]⟩
    let as : Attributes := [⟨.plain "id", [.literal "i"]⟩, lang, ⟨.plain "class", [.literal "c"]⟩]
    let es : List (Text × Value) := [("class", .text " d "), ("id", .none), ("xml:lang", .undefined), ("rel", .int 1)]
    as.names.Nodup ∧ (es.map Prod.fst).Nodup ∧ (∀ e ∈ es, as.Fits e) ∧
      ∃ bs, as.merge (.dict es) = .ok bs ∧ Merged as es bs := by
  intro lang as es
  have distinct : as.names.Nodup := by decide
  have keys : (es.map Prod.fst).Nodup := by decide
  have fits : ∀ e ∈ es, as.Fits e := by
    simp only [Fits, Agrees]
    decide
  exact ⟨distinct, keys, fits, merge_dict as es distinct keys fits⟩

/-- Set by namespace and local part, an attribute with a prefix is not found: its name comes twice, with both texts. -/
theorem merge_repeats :
    let lang : Attribute := ⟨⟨"http://www.w3.org/XML/1998/namespace", "xml", "lang"⟩, [.literal "en"]⟩
    let as : Attributes := [lang]
    let es : List (Text × Value) := [("xml:lang", .text "de")]
    as.names.Nodup ∧ (es.map Prod.fst).Nodup ∧ as.merge (.dict es) = .ok [lang, ⟨.plain "xml:lang", [.literal "de"]⟩] ∧
      ¬ ∃ bs, as.merge (.dict es) = .ok bs ∧ Merged as es bs := by
  intro lang as es
  refine ⟨by decide, by decide, rfl, ?_⟩
  rintro ⟨bs, merged, result⟩
  cases merged
  exact absurd result.distinct (by decide)

end Stencil.Attributes
