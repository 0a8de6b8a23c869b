import FieldTypes.Proofs.Identifiers
import FieldTypes.Proofs.ReadBack
import FieldTypes.Property

/-!
# Properties and the values that describe them

Each field of a property is read from the member with its key and written under the same key, so
reading what was written gives the property back, with every name in it made an identifier. A
property that was read itself has no other names. No key is written twice, and no property is
written deeper than the value it was read from.

**Results.**
* `Property.ofMembers_eq`: where each field is read from.
* `Property.ofJson_toJson`: reading what was written.
* `Property.plain_toJson`, `Property.depth_toJson_ofJson_le`: what is written can be read back from
  its text, and is not nested more deeply than the source.
-/

namespace FieldTypes
namespace Property

section Lookup

variable {value : Json} {ms : List (String × Json)}

theorem lookup_cons_eq_ite (key k : String) (value : Json) (ms : List (String × Json)) :
    List.lookup k ((key, value) :: ms) = if key = k then some value else List.lookup k ms := by
  rw [List.lookup_cons]
  by_cases h : key = k
  · simp [h]
  · simp [h, beq_false_of_ne (Ne.symm h)]

/-- The keys that say something about a property. -/
def keys : List String :=
  ["name", "type", "jsonKey", "description", "format", "$ref", "isOptional", "isMutable", "items",
    "additionalProperties"]

/-- Each field of a property is read from the member with its key. -/
theorem ofMembers_eq (ms : List (String × Json)) :
    ofMembers ms =
      { name := ((ms.lookup "name").bind Json.string?).map declaredIdentifier
        declaredType := (ms.lookup "type").bind Json.string?
        jsonKey := (ms.lookup "jsonKey").bind Json.string?
        isOptional := ((ms.lookup "isOptional").bind Json.bool?).getD false
        isMutable := ((ms.lookup "isMutable").bind Json.bool?).getD false
        description := (ms.lookup "description").bind Json.string?
        format := (ms.lookup "format").bind Json.string?
        reference := (ms.lookup "$ref").bind Json.string?
        items := (ms.lookup "items").bind ofObject?
        values := (ms.lookup "additionalProperties").bind ofObject? } := by
  induction ms with
  | nil =>
      rfl
  | cons m ms ih =>
      obtain ⟨key, value⟩ := m
      by_cases hkey : key ∈ keys
      · simp only [keys, List.mem_cons, List.not_mem_nil, or_false] at hkey
        rcases hkey with rfl | rfl | rfl | rfl | rfl | rfl | rfl | rfl | rfl | rfl <;>
          simp only [ofMembers, ih, lookup_cons_eq_ite, String.reduceEq, if_true, if_false,
            Option.bind_some]
      · simp only [keys, List.mem_cons, List.not_mem_nil, or_false, not_or] at hkey
        simp only [ofMembers, ih, lookup_cons_eq_ite, hkey, if_false]

theorem ofObject?_eq_some_iff {p : Property} :
    ofObject? value = some p ↔ ∃ ms, value = .object ms ∧ p = ofMembers ms := by
  cases value <;> simp [ofObject?, eq_comm]

theorem items_ofMembers {p : Property} :
    (ofMembers ms).items = some p ↔
      ∃ inner, ms.lookup "items" = some (.object inner) ∧ p = ofMembers inner := by
  rw [ofMembers_eq, Option.bind_eq_some_iff]
  simp only [ofObject?_eq_some_iff]
  grind

theorem values_ofMembers {p : Property} :
    (ofMembers ms).values = some p ↔
      ∃ inner, ms.lookup "additionalProperties" = some (.object inner) ∧ p = ofMembers inner := by
  rw [ofMembers_eq, Option.bind_eq_some_iff]
  simp only [ofObject?_eq_some_iff]
  grind

end Lookup

/-- What is decoded lies no deeper than what it is decoded from. -/
theorem ofMembers_induction
    {motive : List (String × Json) → Prop}
    (step : ∀ ms, (∀ k inner, ms.lookup k = some (.object inner) → motive inner) → motive ms)
    (ms : List (String × Json)) :
    motive ms := by
  have hdepth : ∀ d ms, Json.membersDepth ms ≤ d → motive ms := by
    intro d
    induction d with
    | zero =>
        intro ms h
        refine step ms ?_
        intro k inner hinner
        have := Json.membersDepth_le.1 h (k, .object inner) (mem_of_lookup_eq_some hinner)
        simp [Json.depth] at this
    | succ d ih =>
        intro ms h
        refine step ms ?_
        intro k inner hinner
        have := Json.membersDepth_le.1 h (k, .object inner) (mem_of_lookup_eq_some hinner)
        exact ih inner (Nat.le_of_succ_le_succ this)
  exact hdepth _ ms (Nat.le_refl _)

mutual

/-- The property with the identifier of each name in it, at every depth. -/
def renamed : Property → Property
  | p@{ name, items, values, .. } =>
    { p with
      name := name.map declaredIdentifier
      items := renamedInside items
      values := renamedInside values }

/-- What lies inside a property, with the identifier of each name in it. -/
def renamedInside : Option Property → Option Property
  | some p => some (renamed p)
  | none => none

end

theorem renamed_eq (p : Property) :
    p.renamed =
      { p with
        name := p.name.map declaredIdentifier
        items := p.items.map renamed
        values := p.values.map renamed } := by
  obtain ⟨_, _, _, _, _, _, _, _, items, values⟩ := p
  cases items <;> cases values <;> rfl

theorem renamed_eq_self_iff {p : Property} :
    p.renamed = p ↔
      p.name.map declaredIdentifier = p.name ∧ p.items.map renamed = p.items ∧
        p.values.map renamed = p.values := by
  rw [renamed_eq]
  cases p
  simp

/-- The members that describe a property. -/
def written (p : Property) : List (String × Json) :=
  textMember "name" p.name ++ textMember "type" p.declaredType ++ textMember "jsonKey" p.jsonKey ++
    textMember "description" p.description ++ textMember "format" p.format ++
    textMember "$ref" p.reference ++
    [("isOptional", .bool p.isOptional), ("isMutable", .bool p.isMutable)] ++
    inside "items" p.items ++ inside "additionalProperties" p.values

theorem toJson_eq (p : Property) : p.toJson = .object p.written := by
  cases p
  rfl

section Written

variable {p : Property}

theorem lookup_textMember (key k : String) (o : Option String) :
    (textMember k o).lookup key = if k = key then o.map Json.string else none := by
  cases o with
  | none =>
      simp [textMember]
  | some s =>
      simp [textMember, lookup_cons_eq_ite]

theorem lookup_inside (key k : String) (o : Option Property) :
    (inside k o).lookup key = if k = key then o.map toJson else none := by
  cases o with
  | none =>
      simp [inside]
  | some q =>
      simp [inside, lookup_cons_eq_ite]

theorem bind_string?_map (o : Option String) : (o.map Json.string).bind Json.string? = o := by
  cases o <;> rfl

theorem bind_ofObject?_map (o : Option Property) :
    (o.map toJson).bind ofObject? = o.map fun q => ofJson q.toJson := by
  cases o with
  | none =>
      rfl
  | some q =>
      simp [toJson_eq, ofObject?, ofJson]

/-- What is written of a property reads as the property itself, with the identifiers of its names. -/
theorem ofJson_toJson (p : Property) : ofJson p.toJson = p.renamed := by
  induction p using tree_induction with
  | step p hitems hvalues =>
      rw [toJson_eq, ofJson, ofMembers_eq, renamed_eq]
      simp only [written, List.lookup_append, lookup_textMember, lookup_inside, lookup_cons_eq_ite,
        String.reduceEq, if_true, if_false, Option.or_none, Option.none_or, List.lookup_nil,
        bind_string?_map, bind_ofObject?_map]
      rw [Option.map_congr (f := fun q => ofJson q.toJson) (g := renamed) fun q hq => hitems q hq,
        Option.map_congr (f := fun q => ofJson q.toJson) (g := renamed) fun q hq => hvalues q hq]
      rfl

/-- In a property that was read every name is an identifier. -/
theorem renamed_ofMembers (ms : List (String × Json)) : (ofMembers ms).renamed = ofMembers ms := by
  induction ms using ofMembers_induction with
  | step ms ih =>
      have hname : (ofMembers ms).name.map declaredIdentifier = (ofMembers ms).name := by
        rw [ofMembers_eq]
        simp [Function.comp_def]
      have hitems : (ofMembers ms).items.map renamed = (ofMembers ms).items := by
        refine (Option.map_congr ?_).trans Option.map_id'
        intro q hq
        obtain ⟨inner, hinner, rfl⟩ := items_ofMembers.1 hq
        exact ih _ inner hinner
      have hvalues : (ofMembers ms).values.map renamed = (ofMembers ms).values := by
        refine (Option.map_congr ?_).trans Option.map_id'
        intro q hq
        obtain ⟨inner, hinner, rfl⟩ := values_ofMembers.1 hq
        exact ih _ inner hinner
      exact renamed_eq_self_iff.2 ⟨hname, hitems, hvalues⟩

theorem renamed_ofJson (value : Json) : (ofJson value).renamed = ofJson value := by
  cases value with
  | object ms =>
      exact renamed_ofMembers ms
  | null | bool b | number n | string s | array vs =>
      rfl

theorem textMember_sublist (key : String) (o : Option String) :
    ((textMember key o).map (·.1)).Sublist [key] := by
  cases o <;> simp [textMember]

theorem inside_sublist (key : String) (o : Option Property) :
    ((inside key o).map (·.1)).Sublist [key] := by
  cases o <;> simp [inside]

/-- A property is written with each key at most once. -/
theorem nodup_written (p : Property) : (p.written.map (·.1)).Nodup := by
  have hkeys : keys.Nodup := by decide
  refine List.Nodup.sublist ?_ hkeys
  simp only [written, List.map_append]
  exact ((((((((textMember_sublist _ _).append (textMember_sublist _ _)).append
    (textMember_sublist _ _)).append (textMember_sublist _ _)).append
    (textMember_sublist _ _)).append (textMember_sublist _ _)).append
    (List.Sublist.refl ["isOptional", "isMutable"])).append (inside_sublist _ _)).append
    (inside_sublist _ _)

/-- What is written of a property: texts, truth values, and what lies inside. -/
theorem eq_of_mem_written {m : String × Json} (h : m ∈ p.written) :
    (∃ s, m.2 = .string s) ∨ (∃ b, m.2 = .bool b) ∨
      ∃ q, (p.items = some q ∨ p.values = some q) ∧ m.2 = q.toJson := by
  have htext : ∀ {key o}, m ∈ textMember key o → ∃ s, m.2 = .string s := by
    intro key o hm
    cases o with
    | none =>
        cases hm
    | some s =>
        exact ⟨s, by rw [List.mem_singleton.1 hm]⟩
  have hinside : ∀ {key o}, m ∈ inside key o → ∃ q, o = some q ∧ m.2 = q.toJson := by
    intro key o hm
    cases o with
    | none =>
        cases hm
    | some q =>
        exact ⟨q, rfl, by rw [List.mem_singleton.1 hm]⟩
  simp only [written, List.mem_append, List.mem_cons, List.not_mem_nil, or_false] at h
  rcases h with ((((((((h | h) | h) | h) | h) | h) | h) | h) | h)
  · exact Or.inl (htext h)
  · exact Or.inl (htext h)
  · exact Or.inl (htext h)
  · exact Or.inl (htext h)
  · exact Or.inl (htext h)
  · exact Or.inl (htext h)
  · rcases h with rfl | rfl <;> exact Or.inr (Or.inl ⟨_, rfl⟩)
  · obtain ⟨q, hq, hm⟩ := hinside h
    exact Or.inr (Or.inr ⟨q, Or.inl hq, hm⟩)
  · obtain ⟨q, hq, hm⟩ := hinside h
    exact Or.inr (Or.inr ⟨q, Or.inr hq, hm⟩)

/-- What is written of a property can be read back from its text. -/
theorem plain_toJson (p : Property) : p.toJson.Plain := by
  induction p using tree_induction with
  | step p hitems hvalues =>
      rw [toJson_eq]
      refine .object (nodup_written p) ?_
      intro m hm
      rcases eq_of_mem_written hm with ⟨s, hs⟩ | ⟨b, hb⟩ | ⟨q, hq | hq, hm⟩
      · rw [hs]
        exact .string s
      · rw [hb]
        exact .bool b
      · rw [hm]
        exact hitems q hq
      · rw [hm]
        exact hvalues q hq

theorem depth_toJson_le {d : Nat}
    (hitems : ∀ q, p.items = some q → q.toJson.depth ≤ d)
    (hvalues : ∀ q, p.values = some q → q.toJson.depth ≤ d) :
    p.toJson.depth ≤ d + 1 := by
  rw [toJson_eq]
  refine Nat.succ_le_succ (Json.membersDepth_le.2 ?_)
  intro m hm
  rcases eq_of_mem_written hm with ⟨s, hs⟩ | ⟨b, hb⟩ | ⟨q, hq | hq, hm⟩
  · rw [hs]
    exact Nat.zero_le d
  · rw [hb]
    exact Nat.zero_le d
  · rw [hm]
    exact hitems q hq
  · rw [hm]
    exact hvalues q hq

/-- A property is not nested deeper than the members it was read from. -/
theorem depth_toJson_ofMembers_le (ms : List (String × Json)) :
    (ofMembers ms).toJson.depth ≤ Json.membersDepth ms + 1 := by
  induction ms using ofMembers_induction with
  | step ms ih =>
      have hinner : ∀ k inner, ms.lookup k = some (.object inner) →
          (ofMembers inner).toJson.depth ≤ Json.membersDepth ms := by
        intro k inner hinner
        refine Nat.le_trans (ih k inner hinner) ?_
        exact Json.membersDepth_le.1 (Nat.le_refl _) (k, .object inner)
          (mem_of_lookup_eq_some hinner)
      refine depth_toJson_le ?_ ?_
      · intro q hq
        obtain ⟨inner, hlookup, rfl⟩ := items_ofMembers.1 hq
        exact hinner _ inner hlookup
      · intro q hq
        obtain ⟨inner, hlookup, rfl⟩ := values_ofMembers.1 hq
        exact hinner _ inner hlookup

/-- A property is not nested deeper than the value it was read from, apart from the one object that
it always is. -/
theorem depth_toJson_ofJson_le (value : Json) :
    (ofJson value).toJson.depth ≤ max 1 value.depth := by
  cases value with
  | object ms =>
      exact Nat.le_trans (depth_toJson_ofMembers_le ms) (Nat.le_max_right _ _)
  | null | bool b | number n | string s | array vs =>
      exact Nat.le_max_left _ _

end Written

end Property
end FieldTypes
