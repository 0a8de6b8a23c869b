import FieldTypes.Proofs.Decoding
import FieldTypes.Report

/-!
# Properties and documents written and read again

A property that was read from a text is written as a text that reads as the same property, and is
then written as the same text again. Whatever limit on the nesting accepts the source accepts the
new text as well, unless it allows no object at all.

A document is described by its path, its title and the list of its properties. However its
properties were given, as a list or under keys, well-formed or not, the description lists them in
one form, in which every name is an identifier and every key that differs from its name is written
out. Reading a description gives the same title and properties again, so it is a normal form.

**Results.**
* `Property.parse_compact`: reading a property, writing it and reading again.
* `Document.renamed_of_mem_properties`: the names of a document's properties are identifiers.
* `Document.ofJson_toJson`: what is read from a description.
* `Document.describe_normal`: a description says all that a report needs, and describes itself.
-/

namespace FieldTypes

theorem Json.parseAt_eq_ok_iff {path : Path} {source : String} {v : Json} :
    Json.parseAt path source = .ok v ↔ Json.documentWithin Json.maxDepth source.toList = .ok v := by
  rw [← Json.document_eq_documentWithin]
  cases h : Json.document source.toList <;> simp [Json.parseAt, Json.parse, h]

namespace Property

theorem parse_eq_ok_iff {path : Path} {source : String} {p : Property} :
    Property.parse path source = .ok p ↔
      ∃ v, Json.parseAt path source = .ok v ∧ p = ofJson v := by
  cases h : Json.parseAt path source <;> simp [Property.parse, Except.map, h, eq_comm]

/-- What is written of the property of a value is accepted by each limit that the value keeps, where
it is at least one. -/
theorem documentWithin_compact (v : Json) {d : Nat} (h : v.depth ≤ d) :
    Json.documentWithin (max 1 d) (ofJson v).toJson.compact.toList = .ok (ofJson v).toJson := by
  rw [Json.compact, Json.render, String.toList_ofList]
  have hdepth := depth_toJson_ofJson_le v
  exact Json.documentWithin_write .compact (plain_toJson _) (by omega)

/-- A property that was read is written as a text that reads as the property itself, equal at every
depth; so writing it again gives the same text, and properties that were read have the same text
only where they are equal. A limit on the nesting that accepts the source accepts the text, where it
is at least one. -/
theorem parse_compact
    (origin : Path)
    (source : String)
    (p : Property)
    (h : Property.parse origin source = .ok p) :
    (∀ other : Path, ∃ q, Property.parse other p.toJson.compact = .ok q ∧ q = p ∧
      q.toJson.compact = p.toJson.compact) ∧
    (∀ other source' q, Property.parse other source' = .ok q →
      (q.toJson.compact = p.toJson.compact ↔ q = p)) ∧
    (∀ depth v, Json.documentWithin depth source.toList = .ok v →
      p.toJson.depth ≤ max 1 v.depth ∧
        Json.documentWithin (max 1 depth) p.toJson.compact.toList = .ok p.toJson) := by
  have hread : ∀ origin source q, Property.parse origin source = .ok q →
      ∀ other, Property.parse other q.toJson.compact = .ok q := by
    intro origin source q hq other
    obtain ⟨v, hv, rfl⟩ := parse_eq_ok_iff.1 hq
    have hdepth := Json.depth_le_of_documentWithin (Json.parseAt_eq_ok_iff.1 hv)
    have htext := documentWithin_compact v hdepth
    exact parse_eq_ok_iff.2 ⟨_, Json.parseAt_eq_ok_iff.2 htext,
      by rw [ofJson_toJson, renamed_ofJson]⟩
  refine ⟨?_, ?_, ?_⟩
  · intro other
    exact ⟨p, hread origin source p h other, rfl, rfl⟩
  · intro other source' q hq
    constructor
    · intro hsame
      have hp := hread origin source p h other
      rw [← hsame, hread other source' q hq other] at hp
      exact Except.ok.inj hp
    · rintro rfl
      rfl
  · intro depth w hw
    obtain ⟨v, hv, rfl⟩ := parse_eq_ok_iff.1 h
    obtain rfl := Json.eq_of_documentWithin (Json.parseAt_eq_ok_iff.1 hv) hw
    exact ⟨depth_toJson_ofJson_le v, documentWithin_compact v (Json.depth_le_of_documentWithin hw)⟩

/-- An array whose name is no identifier, with a key that says nothing. The reference of its elements
has a quote, a backslash, a control character and a surrogate pair. -/
def unwieldyText : String :=
  "\x7b\"name\": \"a.b-\\u00e9\", \"type\": \"array\", \"extra\": 1.5e3, " ++
    "\"items\": \x7b\"$ref\": \"\\\"\\\\\\u0001\\ud83d\\ude00\"\x7d\x7d"

theorem parse_compact_unwieldyText :
    ∃ p : Property,
      Property.parse ⟨"a.json"⟩ unwieldyText = .ok p ∧
      (p.name, p.items.bind (·.reference)) = (some "b__", some "\"\\\x01😀") ∧
      Property.parse ⟨"b.json"⟩ p.toJson.compact = .ok p ∧
      Json.documentWithin 2 p.toJson.compact.toList = .ok p.toJson := by
  have hfields : ((Property.parse ⟨"a.json"⟩ unwieldyText).toOption.map fun p =>
      (p.name, p.items.bind (·.reference))) = some (some "b__", some "\"\\\x01😀") := by
    decide +kernel
  have haccepted : (Json.documentWithin 2 unwieldyText.toList).isOk = true := by
    decide +kernel
  cases h : Property.parse ⟨"a.json"⟩ unwieldyText with
  | error e =>
      rw [h] at hfields
      cases hfields
  | ok p =>
      rw [h] at hfields
      cases hv : Json.documentWithin 2 unwieldyText.toList with
      | error e =>
          rw [hv] at haccepted
          cases haccepted
      | ok v =>
          obtain ⟨hread, -, hwithin⟩ := parse_compact ⟨"a.json"⟩ unwieldyText p h
          obtain ⟨q, hq, rfl, -⟩ := hread ⟨"b.json"⟩
          exact ⟨q, rfl, Option.some.inj hfields, hq, (hwithin 2 v hv).2⟩

variable {p : Property} {key : String}

/-- A key that names a property does so by its identifier. -/
theorem renamed_named (h : p.renamed = p) :
    (p.named key).renamed = p.named key := by
  obtain ⟨-, hitems, hvalues⟩ := renamed_eq_self_iff.1 h
  unfold named
  cases hname : p.name with
  | some name =>
      exact h
  | none =>
      refine renamed_eq_self_iff.2 ⟨?_, hitems, hvalues⟩
      exact congrArg some (declaredIdentifier_of_isIdentifier (isIdentifier_identifier key))

end Property

namespace Document

theorem renamed_of_mem_propertiesOf {value : Option Json} {p : Property}
    (hp : p ∈ propertiesOf value) :
    p.renamed = p := by
  unfold propertiesOf at hp
  split at hp
  · obtain ⟨item, -, rfl⟩ := List.mem_map.1 hp
    exact Property.renamed_ofJson item
  · obtain ⟨m, -, rfl⟩ := List.mem_map.1 hp
    exact Property.renamed_named (Property.renamed_ofJson m.2)
  · cases hp

/-- The names of a document's properties are identifiers, at every depth. -/
theorem renamed_of_mem_properties {path : Path} {value : Json} {p : Property}
    (hp : p ∈ (ofJson path value).properties) :
    p.renamed = p :=
  renamed_of_mem_propertiesOf hp

section Description

variable (path : Path) (d : Document)

/-- What is read from a description: the title, and the properties with the identifiers of their
names. -/
theorem ofJson_toJson :
    ofJson path d.toJson =
      { path, title := d.title, description := none, reference := none,
        properties := d.properties.map Property.renamed } := by
  have htitle : (Json.ofString? d.title).string? = d.title := by
    cases d.title <;> rfl
  have hproperties : (d.properties.map Property.toJson).map Property.ofJson =
      d.properties.map Property.renamed := by
    rw [List.map_map]
    exact List.map_congr_left fun p _ => p.ofJson_toJson
  rw [← htitle, ← hproperties]
  rfl

end Description

/-- The description of a document is a normal form of it. Read again at the same path it gives the
same title and the same properties, in whatever form the document gave them; it is reported alike,
in every language and over every source of documents; and it is described by itself. -/
theorem describe_normal (path : Path) (value : Json) :
    (ofJson path (ofJson path value).toJson).title = (ofJson path value).title ∧
    (ofJson path (ofJson path value).toJson).properties = (ofJson path value).properties ∧
    (∀ (s : Source) (l : Language) (j : Journal),
      (ofJson path (ofJson path value).toJson).report s l j = (ofJson path value).report s l j) ∧
    (ofJson path (ofJson path value).toJson).toJson = (ofJson path value).toJson := by
  have hproperties : (ofJson path value).properties.map Property.renamed =
      (ofJson path value).properties := by
    refine (List.map_congr_left ?_).trans (List.map_id _)
    intro p hp
    exact renamed_of_mem_properties hp
  rw [ofJson_toJson, hproperties]
  exact ⟨rfl, rfl, fun s l j => rfl, rfl⟩

end Document
end FieldTypes
