import FieldTypes.Proofs.Describing

/-!
# Wire keys of properties under keys

Where the properties of a document are given under keys, each entry makes one property. It has a
name that is an identifier, be it the entry's own or made from the key, and making the name never
costs the key: the field is found in the data under the key that the entry gives, else under the
name that it gives, and else under the very key that it stands at. Different keys may come to one
name; without names and keys of their own their fields stay apart all the same, also once they were
written and read back.

**Main definitions.**
* `Json.wireKeyUnder`: the key of the field that an entry stands for.
* `Json.GivesNoKey`: the entries that say nothing of the matter.

**Results.**
* `Property.name_named`, `Property.wireKey?_named`: the name and the key of a property under a key.
* `Document.properties_under_keys`: the properties of a document that has them under keys.
-/

namespace FieldTypes
namespace Json

/-- The key, in the data, of the field that an entry under a key stands for. -/
def wireKeyUnder (key : String) (entry : Json) : String :=
  match (entry.member? "jsonKey").bind string?, (entry.member? "name").bind string? with
  | some given, _ => given
  | none, some name => declaredIdentifier name
  | none, none => key

/-- An entry gives neither a name nor a key, or nothing that is a text. -/
def GivesNoKey (entry : Json) : Prop :=
  (entry.member? "name").bind string? = none ∧ (entry.member? "jsonKey").bind string? = none

theorem wireKeyUnder_of_givesNoKey {entry : Json} (h : entry.GivesNoKey) (key : String) :
    entry.wireKeyUnder key = key := by
  rw [wireKeyUnder, h.1, h.2]

end Json

namespace Property

section Named

variable (key : String) (p : Property) (entry : Json)

/-- A property under a key keeps its name, and else has one that the key makes. -/
theorem name_named : (p.named key).name = some (p.name.getD (identifier key)) := by
  unfold named
  cases hname : p.name with
  | some name =>
      exact hname
  | none =>
      rfl

/-- The key is written out wherever the name does not say it. -/
theorem wireKey?_named : (p.named key).wireKey? = some (p.wireKey?.getD key) := by
  unfold named wireKey?
  cases hname : p.name with
  | some name =>
      cases p.jsonKey <;> simp [hname]
  | none =>
      cases hjson : p.jsonKey with
      | some given =>
          simp
      | none =>
          by_cases hkey : identifier key = key
          · simp [hkey]
          · simp [hkey]

theorem name_ofJson :
    (ofJson entry).name = ((entry.member? "name").bind Json.string?).map declaredIdentifier := by
  cases entry with
  | object ms =>
      rw [ofJson, ofMembers_eq]
      rfl
  | null | bool b | number n | string s | array vs =>
      rfl

theorem jsonKey_ofJson :
    (ofJson entry).jsonKey = (entry.member? "jsonKey").bind Json.string? := by
  cases entry with
  | object ms =>
      rw [ofJson, ofMembers_eq]
      rfl
  | null | bool b | number n | string s | array vs =>
      rfl

theorem getD_wireKey?_ofJson : (ofJson entry).wireKey?.getD key = entry.wireKeyUnder key := by
  rw [wireKey?, name_ofJson, jsonKey_ofJson, Json.wireKeyUnder]
  cases (entry.member? "jsonKey").bind Json.string? with
  | some given =>
      rfl
  | none =>
      cases (entry.member? "name").bind Json.string? <;> rfl

/-- Whatever names a property under a key, the name is an identifier. -/
theorem isIdentifier_name_named :
    isIdentifier ((ofJson entry).name.getD (identifier key)) = true := by
  rw [name_ofJson]
  cases (entry.member? "name").bind Json.string? with
  | some name =>
      exact isIdentifier_declaredIdentifier name
  | none =>
      exact isIdentifier_identifier key

end Named

end Property

namespace Document

section UnderKeys

variable {path : Path} {value : Json} {members : List (String × Json)} {i : Nat} {key : String}
  {entry : Json} {p : Property}

theorem properties_ofJson_of_object (h : value.member? "properties" = some (.object members)) :
    (ofJson path value).properties =
      members.map fun m => (Property.ofJson m.2).named m.1 := by
  rw [ofJson, h, propertiesOf]

theorem eq_named_of_getElem?
    (h : value.member? "properties" = some (.object members))
    (hmember : members[i]? = some (key, entry))
    (hp : (ofJson path value).properties[i]? = some p) :
    p = (Property.ofJson entry).named key := by
  rw [properties_ofJson_of_object h, List.getElem?_map, hmember] at hp
  exact (Option.some.inj hp).symm

theorem ofJson_toJson_of_getElem? (hp : (ofJson path value).properties[i]? = some p) :
    Property.ofJson p.toJson = p := by
  rw [Property.ofJson_toJson]
  exact renamed_of_mem_properties (List.mem_of_getElem? hp)

end UnderKeys

/-- The properties of a document that has them under keys: one for each key, in their order. Each
has a name, which is an identifier. The key of its field in the data is the text that the entry
gives for it, else the name that the entry gives, and else exactly the key that the entry stands at.
So different keys whose entries say nothing of the matter are the keys of different fields, however
alike their names. Writing a property and reading it back changes nothing of this. -/
theorem properties_under_keys
    (path : Path)
    (value : Json)
    (members : List (String × Json))
    (h : value.member? "properties" = some (.object members)) :
    (ofJson path value).properties.length = members.length ∧
    (∀ (i : Nat) (key : String) (entry : Json) (p : Property),
      members[i]? = some (key, entry) →
      (ofJson path value).properties[i]? = some p →
      (∃ name, p.name = some name ∧ isIdentifier name = true) ∧
        p.wireKey? = some (entry.wireKeyUnder key) ∧
        Property.ofJson p.toJson = p) ∧
    ∀ (i i' : Nat) (key key' : String) (entry entry' : Json) (p p' : Property),
      members[i]? = some (key, entry) →
      members[i']? = some (key', entry') →
      (ofJson path value).properties[i]? = some p →
      (ofJson path value).properties[i']? = some p' →
      entry.GivesNoKey →
      entry'.GivesNoKey →
      key ≠ key' →
      p.wireKey? ≠ p'.wireKey? ∧
        (Property.ofJson p.toJson).wireKey? ≠ (Property.ofJson p'.toJson).wireKey? := by
  have hkey : ∀ (i : Nat) (key : String) (entry : Json) (p : Property),
      members[i]? = some (key, entry) →
      (ofJson path value).properties[i]? = some p →
      p.wireKey? = some (entry.wireKeyUnder key) := by
    intro i key entry p hmember hp
    rw [eq_named_of_getElem? h hmember hp, Property.wireKey?_named, Property.getD_wireKey?_ofJson]
  refine ⟨by rw [properties_ofJson_of_object h, List.length_map], ?_, ?_⟩
  · intro i key entry p hmember hp
    refine ⟨⟨_, ?_, Property.isIdentifier_name_named key entry⟩, hkey i key entry p hmember hp,
      ofJson_toJson_of_getElem? hp⟩
    rw [eq_named_of_getElem? h hmember hp, Property.name_named]
  · intro i i' key key' entry entry' p p' hmember hmember' hp hp' hsilent hsilent' hne
    have hapart : p.wireKey? ≠ p'.wireKey? := by
      rw [hkey i key entry p hmember hp, hkey i' key' entry' p' hmember' hp',
        Json.wireKeyUnder_of_givesNoKey hsilent, Json.wireKeyUnder_of_givesNoKey hsilent']
      simpa using hne
    rw [ofJson_toJson_of_getElem? hp, ofJson_toJson_of_getElem? hp']
    exact ⟨hapart, hapart⟩

/-- Properties under keys: two that come to one name, one that is no object, one with a key and a
name of the wrong kind, and one with a dotted name. -/
def entriesUnderKeys : List (String × Json) :=
  [("a-b", .object [("type", .string "integer")]),
    ("a_b", .number "3"),
    ("é", .object [("jsonKey", .string "k"), ("name", .bool true)]),
    ("9", .object [("jsonKey", .null), ("name", .string "n.m-o")])]

/-- The document with these properties. -/
def keyedDocument : Json :=
  .object [("title", .string "keyed"), ("properties", .object entriesUnderKeys)]

theorem properties_under_keys_keyedDocument :
    (ofJson ⟨"a.json"⟩ keyedDocument).properties.map (·.name) =
      [some "a_b", some "a_b", some "_", some "m_o"] ∧
    (ofJson ⟨"a.json"⟩ keyedDocument).properties.length = 4 ∧
    (∀ p, (ofJson ⟨"a.json"⟩ keyedDocument).properties[3]? = some p → p.wireKey? = some "m_o") ∧
    ∀ p p', (ofJson ⟨"a.json"⟩ keyedDocument).properties[0]? = some p →
      (ofJson ⟨"a.json"⟩ keyedDocument).properties[1]? = some p' →
      p.wireKey? ≠ p'.wireKey? := by
  obtain ⟨hlength, hentry, hapart⟩ :=
    properties_under_keys ⟨"a.json"⟩ keyedDocument entriesUnderKeys rfl
  refine ⟨by decide +kernel, hlength, ?_, ?_⟩
  · intro p hp
    have hkey : (Json.object [("jsonKey", .null), ("name", .string "n.m-o")]).wireKeyUnder "9" =
        "m_o" := by
      decide +kernel
    exact (hentry 3 "9" _ p rfl hp).2.1.trans (congrArg some hkey)
  · intro p p' hp hp'
    exact (hapart 0 1 "a-b" "a_b" _ _ p p' rfl rfl hp hp' ⟨by decide, by decide⟩
      ⟨by decide, by decide⟩ (by decide)).1

end Document
end FieldTypes
