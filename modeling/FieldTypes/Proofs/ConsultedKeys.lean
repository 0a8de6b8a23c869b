import FieldTypes.Proofs.Decoding
import FieldTypes.Proofs.Faults

/-!
# The keys that resolution consults

Of all that a schema says of a field little counts for its type: a reference, and where there is
none the declared type, with the format of a string and what a container holds. That much is the
outline of a field. It can be read off a JSON value without making it a property, and a property
resolves like the sparsest one with its outline. So values with one outline are resolved alike,
whatever else they say and whatever is wrong with the rest of them.

Names have no part in the outline. A property that was not read but made may have names that are no
identifiers. Writing it and reading it back makes identifiers of them, at every depth, and changes
nothing else. So a property comes back as it was exactly where all its names are identifiers
already, and in any case it resolves as before.

**Main definitions.**
* `Outline`, `Json.outline`: what counts of a value for its type.
* `Outline.property`: the property that says no more than an outline.
* `Property.names`: the names in a property, at every depth.

**Results.**
* `Property.outline_ofJson`: reading a value keeps its outline.
* `resolveType_outline`: a property resolves like its outline.
* `resolveType_eq_of_outline_eq`: values with one outline resolve alike.
* `Property.renamed_eq_self_iff_names`: the properties in which nothing is to be renamed.
* `Property.outline_renamed`: names have no part in the outline.
* `Property.ofJson_toJson_renames`: what comes back, and how it resolves.
-/

namespace FieldTypes

/-- What counts of a field for its type. -/
inductive Outline where
  /-- There is neither a reference nor a type. -/
  | empty
  | reference (text : String)
  /-- A container that nothing is said to lie in. -/
  | bare (c : Container)
  | holding (c : Container) (inner : Outline)
  | string (format : Option StringFormat)
  /-- A type that is no container and no string, or none of the vocabulary. -/
  | other (token : String)
deriving DecidableEq, Repr

namespace Outline

/-- The outline of a container, given that of what it holds. -/
def container (c : Container) : Option Outline → Outline
  | none => .bare c
  | some inner => .holding c inner

/-- The outline of a field, given the texts of its keys and the outlines of what lies inside. -/
def ofKeys (reference declared format : Option String) (items values : Option Outline) : Outline :=
  match reference, declared with
  | some r, _ => .reference r
  | none, none => .empty
  | none, some token =>
    if token = "array" then container .array items
    else if token = "object" then container .dictionary values
    else if token = "string" then .string (format.bind StringFormat.ofToken?)
    else .other token

/-- The property that says no more than an outline. -/
def property : Outline → Property
  | empty => {}
  | reference text => { reference := some text }
  | bare .array => { declaredType := some "array" }
  | bare .dictionary => { declaredType := some "object" }
  | holding .array inner => { declaredType := some "array", items := some inner.property }
  | holding .dictionary inner => { declaredType := some "object", values := some inner.property }
  | string format => { declaredType := some "string", format := format.map StringFormat.token }
  | other token => { declaredType := some token }

end Outline

namespace Json

/-- Whether a value is an object. -/
def isObject : Json → Bool
  | object _ => true
  | _ => false

mutual

/-- The outline of the field that a value describes. -/
def outline : Json → Outline
  | object ms =>
    .ofKeys ((ms.lookup "$ref").bind string?) ((ms.lookup "type").bind string?)
      ((ms.lookup "format").bind string?) (outlineAt "items" ms)
      (outlineAt "additionalProperties" ms)
  | _ => .empty

/-- The outline of the value of a key, if that is an object. -/
def outlineAt (key : String) : List (String × Json) → Option Outline
  | [] => none
  | (k, value) :: ms =>
    if k = key then if value.isObject then some value.outline else none
    else outlineAt key ms

end

theorem outlineAt_eq_some_iff {key : String} {ms : List (String × Json)} {o : Outline} :
    outlineAt key ms = some o ↔
      ∃ inner, ms.lookup key = some (.object inner) ∧ o = outline (.object inner) := by
  induction ms with
  | nil =>
      simp [outlineAt]
  | cons m ms ih =>
      obtain ⟨k, value⟩ := m
      rw [outlineAt, Property.lookup_cons_eq_ite]
      by_cases hk : k = key
      · rw [if_pos hk, if_pos hk]
        cases value <;> simp [isObject, eq_comm]
      · rw [if_neg hk, if_neg hk]
        exact ih

end Json

namespace Property

mutual

/-- The outline of a property. -/
def outline : Property → Outline
  | { reference, declaredType, format, items, values, .. } =>
    .ofKeys reference declaredType format (outlineInside items) (outlineInside values)

/-- The outline of what may lie inside a property. -/
def outlineInside : Option Property → Option Outline
  | some p => some p.outline
  | none => none

end

theorem outline_eq (p : Property) :
    p.outline =
      .ofKeys p.reference p.declaredType p.format (p.items.map outline) (p.values.map outline) := by
  obtain ⟨_, _, _, _, _, _, _, _, items, values⟩ := p
  cases items <;> cases values <;> rfl

theorem map_outline_ofObject? {key : String} {ms : List (String × Json)}
    (h : ∀ inner, ms.lookup key = some (.object inner) →
      (ofMembers inner).outline = (Json.object inner).outline) :
    ((ms.lookup key).bind ofObject?).map outline = Json.outlineAt key ms := by
  ext o
  simp only [Option.map_eq_some_iff, Option.bind_eq_some_iff, ofObject?_eq_some_iff,
    Json.outlineAt_eq_some_iff]
  constructor
  · rintro ⟨p, ⟨value, hlookup, inner, rfl, rfl⟩, rfl⟩
    exact ⟨inner, hlookup, h inner hlookup⟩
  · rintro ⟨inner, hlookup, rfl⟩
    exact ⟨_, ⟨_, hlookup, inner, rfl, rfl⟩, h inner hlookup⟩

theorem outline_ofMembers (ms : List (String × Json)) :
    (ofMembers ms).outline = (Json.object ms).outline := by
  induction ms using ofMembers_induction with
  | step ms ih =>
      rw [outline_eq, ofMembers_eq, Json.outline]
      simp only [map_outline_ofObject? (ih _)]

/-- Reading a value keeps its outline. -/
theorem outline_ofJson (value : Json) : (ofJson value).outline = value.outline := by
  cases value with
  | object ms =>
      exact outline_ofMembers ms
  | null | bool b | number n | string s | array vs =>
      rfl

section WayDown

variable {p q : Property} {c : Container}

/-- The outline of a container that holds something has that inside. -/
theorem outline_of_inner? (h : p.inner? = some (c, q)) :
    p.outline = .holding c q.outline := by
  obtain ⟨hreference, ⟨rfl, htype, hq⟩ | ⟨rfl, htype, hq⟩⟩ := eq_of_inner? h
  · rw [DeclaredType.bind_ofToken?_eq_some_iff] at htype
    rw [outline_eq, hreference, htype, hq]
    rfl
  · rw [DeclaredType.bind_ofToken?_eq_some_iff] at htype
    rw [outline_eq, hreference, htype, hq]
    rfl

theorem inner?_property_holding (c : Container) (o : Outline) :
    (Outline.holding c o).property.inner? = some (c, o.property) := by
  cases c with
  | array =>
      exact inner?_of_items rfl rfl rfl
  | dictionary =>
      exact inner?_of_values rfl rfl rfl

/-- What the outline of a property can be. -/
theorem outline_cases (p : Property) :
    (∃ r, p.reference = some r ∧ p.outline = .reference r) ∨
      p.reference = none ∧
        (p.declaredType = none ∧ p.outline = .empty ∨
          p.declaredType = some "array" ∧
            p.outline = .container .array (p.items.map outline) ∨
          p.declaredType = some "object" ∧
            p.outline = .container .dictionary (p.values.map outline) ∨
          p.declaredType = some "string" ∧
            p.outline = .string (p.format.bind StringFormat.ofToken?) ∨
          ∃ token, p.declaredType = some token ∧ token ≠ "string" ∧ p.outline = .other token) := by
  rw [outline_eq]
  cases p.reference with
  | some r =>
      exact Or.inl ⟨r, rfl, rfl⟩
  | none =>
      refine Or.inr ⟨rfl, ?_⟩
      cases p.declaredType with
      | none =>
          exact Or.inl ⟨rfl, rfl⟩
      | some token =>
          refine Or.inr ?_
          simp only [Outline.ofKeys]
          split_ifs with harray hobject hstring
          · exact Or.inl ⟨congrArg some harray, rfl⟩
          · exact Or.inr (Or.inl ⟨congrArg some hobject, rfl⟩)
          · exact Or.inr (Or.inr (Or.inl ⟨congrArg some hstring, rfl⟩))
          · exact Or.inr (Or.inr (Or.inr ⟨token, rfl, hstring, rfl⟩))

theorem inner?_outline (h : p.inner? = none) : p.outline.property.inner? = none := by
  obtain ⟨hitems, hvalues⟩ := inner?_eq_none_iff.1 h
  rcases p.outline_cases with ⟨r, -, ho⟩ | ⟨hreference, ⟨-, ho⟩ | ⟨htype, ho⟩ | ⟨htype, ho⟩ |
    ⟨-, ho⟩ | ⟨token, -, -, ho⟩⟩
  · rw [ho]
    rfl
  · rw [ho]
    rfl
  · rw [ho, hitems hreference htype]
    rfl
  · rw [ho, hvalues hreference htype]
    rfl
  · rw [ho]
    rfl
  · rw [ho]
    exact inner?_eq_none_iff.2 ⟨fun _ _ => rfl, fun _ _ => rfl⟩

theorem reference_outline (h : p.inner? = none) :
    p.outline.property.reference = p.reference := by
  obtain ⟨hitems, hvalues⟩ := inner?_eq_none_iff.1 h
  rcases p.outline_cases with ⟨r, hr, ho⟩ | ⟨hreference, ⟨-, ho⟩ | ⟨htype, ho⟩ | ⟨htype, ho⟩ |
    ⟨-, ho⟩ | ⟨token, -, -, ho⟩⟩
  · rw [ho, hr]
    rfl
  · rw [ho, hreference]
    rfl
  · rw [ho, hitems hreference htype, hreference]
    rfl
  · rw [ho, hvalues hreference htype, hreference]
    rfl
  · rw [ho, hreference]
    rfl
  · rw [ho, hreference]
    rfl

/-- The known format of a string is all that counts of it. -/
theorem baseTypeOf_token (format : Option String) :
    StringFormat.baseTypeOf ((format.bind StringFormat.ofToken?).map StringFormat.token) =
      StringFormat.baseTypeOf format := by
  unfold StringFormat.baseTypeOf
  cases format.bind StringFormat.ofToken? with
  | none =>
      rfl
  | some f =>
      cases f <;> rfl

theorem ownType_outline (l : Language) (h : p.inner? = none) (hreference : p.reference = none) :
    p.outline.property.ownType l = p.ownType l := by
  obtain ⟨hitems, hvalues⟩ := inner?_eq_none_iff.1 h
  unfold ownType
  rcases p.outline_cases with ⟨r, hr, -⟩ | ⟨-, ⟨htype, ho⟩ | ⟨htype, ho⟩ | ⟨htype, ho⟩ |
    ⟨htype, ho⟩ | ⟨token, htype, hstring, ho⟩⟩
  · rw [hr] at hreference
    cases hreference
  · rw [ho, htype]
    rfl
  · rw [ho, hitems hreference htype, htype]
    rfl
  · rw [ho, hvalues hreference htype, htype]
    rfl
  · have htoken : DeclaredType.ofToken? "string" = some .string :=
      DeclaredType.ofToken?_eq_some_iff.2 rfl
    simp only [ho, htype, Outline.property, htoken, baseTypeOf_token]
  · simp only [ho, htype, Outline.property]
    cases htoken : DeclaredType.ofToken? token with
    | none =>
        rfl
    | some t =>
        obtain rfl := DeclaredType.ofToken?_eq_some_iff.1 htoken
        cases t with
        | string =>
            exact absurd rfl hstring
        | object | array | integer | number | boolean =>
            rfl

end WayDown

end Property

section Resolve

variable {s : Source} {l : Language} {document : Path} {j : Journal}

/-- A property resolves like the one that says no more than its outline. -/
theorem resolveType_outline (p : Property) :
    resolveType s l document p.outline.property j = resolveType s l document p j := by
  induction p using Property.descent_induction with
  | leaf p h =>
      rw [resolveType_of_inner?_eq_none h,
        resolveType_of_inner?_eq_none (Property.inner?_outline h), resolveLeaf, resolveLeaf,
        Property.reference_outline h]
      cases hreference : p.reference with
      | some r =>
          rfl
      | none =>
          simp only [Property.ownType_outline l h hreference]
  | inner p c q h ih =>
      rw [Property.outline_of_inner? h, resolveType_of_inner? h,
        resolveType_of_inner? (Property.inner?_property_holding c q.outline), ih]

end Resolve

/-- Only the keys that make up the outline count. Values with one outline have the same type, or the
same fault, in every language, and leave the same behind. They may differ in whatever else they say:
in the order of their keys, in keys that are not consulted, and in those that have no meaning where
they stand. -/
theorem resolveType_eq_of_outline_eq
    (v w : Json)
    (houtline : v.outline = w.outline)
    (s : Source)
    (l : Language)
    (document : Path)
    (j : Journal) :
    resolveType s l document (.ofJson v) j = resolveType s l document (.ofJson w) j := by
  rw [← resolveType_outline (.ofJson v), ← resolveType_outline (.ofJson w),
    Property.outline_ofJson, Property.outline_ofJson, houtline]

/-- An array of dictionaries of references, with nothing else said. -/
def tersely (r : String) : Json :=
  .object [("type", .string "array"), ("items", .object [("type", .string "object"),
    ("additionalProperties", .object [("$ref", .string r)])])]

/-- The same array, with much else said that does not count. -/
def verbosely (r : String) : Json :=
  .object [("format", .string "date"), ("name", .string "9 lives"), ("$ref", .number "3"),
    ("items", .object [("items", .object [("type", .string "widget")]), ("isOptional", .null),
      ("additionalProperties", .object [("type", .string "array"), ("items", .bool true),
        ("description", .array []), ("$ref", .string r)]),
      ("type", .string "object")]),
    ("type", .string "array"), ("additionalProperties", .object [("$ref", .string r)])]

theorem resolveType_eq_of_outline_eq_verbosely :
    (tersely "tail.json").outline = (verbosely "tail.json").outline ∧
    resolveType circlingAliases.documents .rust ⟨"m.json"⟩ (.ofJson (tersely "tail.json")) {} =
      resolveType circlingAliases.documents .rust ⟨"m.json"⟩ (.ofJson (verbosely "tail.json")) {} ∧
    (resolveType circlingAliases.documents .rust ⟨"m.json"⟩
      (.ofJson (verbosely "tail.json")) {}).1 = .error (.cyclicReference ⟨"a.json"⟩) := by
  have houtline : (tersely "tail.json").outline = (verbosely "tail.json").outline := by
    decide +kernel
  refine ⟨houtline, ?_, by decide +kernel⟩
  exact resolveType_eq_of_outline_eq _ _ houtline circlingAliases.documents .rust ⟨"m.json"⟩ {}

namespace Property

mutual

/-- The names in a property, at every depth. -/
def names : Property → List String
  | { name, items, values, .. } => name.toList ++ namesInside items ++ namesInside values

/-- The names in what may lie inside a property. -/
def namesInside : Option Property → List String
  | some p => p.names
  | none => []

end

section Renaming

variable {p : Property} {n : String}

theorem mem_namesInside_iff {o : Option Property} :
    n ∈ namesInside o ↔ ∃ q, o = some q ∧ n ∈ q.names := by
  cases o <;> simp [namesInside]

theorem mem_names_iff :
    n ∈ p.names ↔
      p.name = some n ∨ (∃ q, p.items = some q ∧ n ∈ q.names) ∨
        ∃ q, p.values = some q ∧ n ∈ q.names := by
  obtain ⟨name, _, _, _, _, _, _, _, items, values⟩ := p
  simp only [names, List.mem_append, Option.mem_toList, mem_namesInside_iff, or_assoc]

theorem map_eq_self_iff {α : Type} {f : α → α} {o : Option α} :
    o.map f = o ↔ ∀ a, o = some a → f a = a := by
  cases o <;> simp

/-- Nothing is renamed in a property exactly where all its names are identifiers. -/
theorem renamed_eq_self_iff_names (p : Property) :
    p.renamed = p ↔ ∀ n ∈ p.names, isIdentifier n = true := by
  induction p using tree_induction with
  | step p hitems hvalues =>
      rw [renamed_eq_self_iff]
      simp only [map_eq_self_iff, declaredIdentifier_eq_self_iff]
      constructor
      · rintro ⟨hname, hinItems, hinValues⟩ n hn
        rcases mem_names_iff.1 hn with hn | ⟨q, hq, hn⟩ | ⟨q, hq, hn⟩
        · exact hname n hn
        · exact (hitems q hq).1 (hinItems q hq) n hn
        · exact (hvalues q hq).1 (hinValues q hq) n hn
      · intro h
        refine ⟨fun n hn => h n (mem_names_iff.2 (Or.inl hn)), ?_, ?_⟩
        · intro q hq
          refine (hitems q hq).2 fun n hn => ?_
          exact h n (mem_names_iff.2 (Or.inr (Or.inl ⟨q, hq, hn⟩)))
        · intro q hq
          refine (hvalues q hq).2 fun n hn => ?_
          exact h n (mem_names_iff.2 (Or.inr (Or.inr ⟨q, hq, hn⟩)))

/-- Names have no part in the outline of a property. -/
theorem outline_renamed (p : Property) : p.renamed.outline = p.outline := by
  induction p using tree_induction with
  | step p hitems hvalues =>
      have hinItems : (p.items.map renamed).map outline = p.items.map outline := by
        rw [Option.map_map]
        exact Option.map_congr hitems
      have hinValues : (p.values.map renamed).map outline = p.values.map outline := by
        rw [Option.map_map]
        exact Option.map_congr hvalues
      rw [outline_eq, outline_eq p, renamed_eq]
      simp only [hinItems, hinValues]

end Renaming

/-- Writing a property and reading it back makes an identifier of each name in it, at every depth,
and changes nothing else. It is the same property then exactly where all these names were
identifiers. It resolves as before: it has the same type or the same fault in every language, with
whatever documents there are and whatever is in the cache, and leaves the same behind. -/
theorem ofJson_toJson_renames (p : Property) :
    ofJson p.toJson = p.renamed ∧
    (ofJson p.toJson = p ↔ ∀ n ∈ p.names, isIdentifier n = true) ∧
    ∀ (s : Source) (l : Language) (document : Path) (j : Journal),
      resolveType s l document (ofJson p.toJson) j = resolveType s l document p j := by
  refine ⟨ofJson_toJson p, ?_, ?_⟩
  · rw [ofJson_toJson]
    exact renamed_eq_self_iff_names p
  · intro s l document j
    rw [ofJson_toJson, ← resolveType_outline p.renamed, outline_renamed, resolveType_outline]

end Property
end FieldTypes
