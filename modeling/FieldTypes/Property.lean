import FieldTypes.Json

/-!
# Properties

A property is what a schema says of one field. It is a tree: an array's property holds the
property of its elements, a dictionary's that of its values. Nothing is required of it here; what
a property lacks shows when its type is resolved.

Reading a property never fails. A key that is absent, or whose value has another kind than the key
wants, says nothing, and a value that is no object is a property that says nothing at all. Written,
a property has the keys it says something about, and the two flags always.

A declared name may be dotted and hold any character. It is read as an identifier over `A`–`Z`,
`a`–`z`, `0`–`9` and `_` that is not empty and starts with no digit.

**Main definitions.**
* `isIdentifier`: the shape of an identifier.
* `identifier`: the identifier of a name.
* `declaredIdentifier`: the identifier of the last dotted segment of a declared name.
* `Property`: the properties, with decidable equality.
* `Property.wireKey?`: the key of the field in the data that the schema describes.
* `Property.ofJson`, `Property.ofMembers`: the property of a value, and of an object's members.
* `Property.toJson`: the value of a property.
-/

namespace FieldTypes

/-- The characters of identifiers. Identifiers are plain ASCII, whatever the name holds. -/
def isIdentifierChar (c : Char) : Bool :=
  ('A' ≤ c && c ≤ 'Z') || ('a' ≤ c && c ≤ 'z') || ('0' ≤ c && c ≤ '9') || c == '_'

/-- The digits that may not begin an identifier. -/
def isDecimalDigit (c : Char) : Bool :=
  '0' ≤ c && c ≤ '9'

/-- Identifiers: not empty, of identifier characters alone, and not led by a digit. -/
def isIdentifier (s : String) : Bool :=
  match s.toList with
  | [] => false
  | c :: cs => !isDecimalDigit c && (c :: cs).all isIdentifierChar

/-- Every character that identifiers do not have becomes an underscore. -/
def underscored (cs : List Char) : List Char :=
  cs.map fun c => if isIdentifierChar c then c else '_'

/-- The identifier of a name: foreign characters become underscores, and an empty name or one led
by a digit takes an underscore in front. -/
def identifier (s : String) : String :=
  match underscored s.toList with
  | [] => "_"
  | c :: cs => String.ofList (if isDecimalDigit c then '_' :: c :: cs else c :: cs)

/-- The last dotted segment of a name: all of it where it holds no dot. -/
def lastSegment (s : String) : String :=
  String.ofList ((s.toList.splitOn '.').getLastD [])

/-- The identifier that a declared name stands for: `com.example.user-id` is `user_id`. -/
def declaredIdentifier (s : String) : String :=
  identifier (lastSegment s)

/-- What a schema says of one field. -/
structure Property where
  /-- The identifier of the field. -/
  name : Option String := none
  /-- The token of the type that is declared. -/
  declaredType : Option String := none
  /-- The key of the field in the data, where it is given. -/
  jsonKey : Option String := none
  isOptional : Bool := false
  isMutable : Bool := false
  description : Option String := none
  /-- The format of a string. -/
  format : Option String := none
  /-- The document whose title is the type. It takes precedence over the declared type. -/
  reference : Option String := none
  /-- The property of an array's elements. -/
  items : Option Property := none
  /-- The property of a dictionary's values. -/
  values : Option Property := none
deriving Inhabited, Repr

namespace Property

/-- Whether all that two properties say of themselves is the same, whatever lies inside. -/
def agrees (p q : Property) : Bool :=
  p.name == q.name && p.declaredType == q.declaredType && p.jsonKey == q.jsonKey &&
    p.isOptional == q.isOptional && p.isMutable == q.isMutable &&
    p.description == q.description && p.format == q.format && p.reference == q.reference

mutual

/-- Whether two properties are equal. -/
def same : Property → Property → Bool
  | p@{ items, values, .. }, q =>
    p.agrees q && sameInside items q.items && sameInside values q.values

/-- Whether what may lie inside two properties is equal. -/
def sameInside : Option Property → Option Property → Bool
  | none, none => true
  | some p, some q => same p q
  | _, _ => false

end

theorem agrees_self (p : Property) : p.agrees p = true := by
  simp [agrees]

mutual

theorem eq_of_same : (p q : Property) → same p q = true → p = q
  | ⟨_, _, _, _, _, _, _, _, i, v⟩, ⟨_, _, _, _, _, _, _, _, j, w⟩, h => by
    simp only [same, agrees, Bool.and_eq_true, beq_iff_eq] at h
    have hi := eq_of_sameInside i j h.1.2
    have hv := eq_of_sameInside v w h.2
    simp_all

theorem eq_of_sameInside : (p q : Option Property) → sameInside p q = true → p = q
  | none, none, _ => rfl
  | some p, some q, h => congrArg some (eq_of_same p q h)
  | none, some _, h => by simp [sameInside] at h
  | some _, none, h => by simp [sameInside] at h

end

mutual

theorem same_self : (p : Property) → same p p = true
  | ⟨_, _, _, _, _, _, _, _, i, v⟩ => by
    simp only [same, agrees_self, sameInside_self i, sameInside_self v, Bool.and_self]

theorem sameInside_self : (p : Option Property) → sameInside p p = true
  | none => rfl
  | some p => same_self p

end

instance : DecidableEq Property := fun p q =>
  if h : same p q = true then isTrue (eq_of_same p q h)
  else isFalse fun e => h (e ▸ same_self p)

/-- Induction from what lies inside a property. -/
theorem tree_induction {motive : Property → Prop}
    (step : ∀ p : Property,
      (∀ q, p.items = some q → motive q) → (∀ q, p.values = some q → motive q) → motive p)
    (p : Property) : motive p := by
  refine Property.rec (motive_1 := motive) (motive_2 := fun o => ∀ q, o = some q → motive q)
    ?_ ?_ ?_ p
  · intro _ _ _ _ _ _ _ _ items values hitems hvalues
    exact step _ hitems hvalues
  · intro q hq
    cases hq
  · intro v hv q hq
    cases hq
    exact hv

/-- The key of the field in the data: the one that is given, and else the field's name. -/
def wireKey? (p : Property) : Option String :=
  p.jsonKey.or p.name

/-- Whether the key of the field is given. -/
def hasOwnKey (p : Property) : Bool :=
  p.jsonKey.isSome

mutual

/-- The property that a value stands for. -/
def ofJson : Json → Property
  | .object members => ofMembers members
  | _ => {}

/-- The property that the members of an object stand for. Of two members with one key the first
counts. -/
def ofMembers : List (String × Json) → Property
  | [] => {}
  | (key, value) :: members =>
    let p := ofMembers members
    if key = "name" then { p with name := value.string?.map declaredIdentifier }
    else if key = "type" then { p with declaredType := value.string? }
    else if key = "jsonKey" then { p with jsonKey := value.string? }
    else if key = "isOptional" then { p with isOptional := value.bool?.getD false }
    else if key = "isMutable" then { p with isMutable := value.bool?.getD false }
    else if key = "description" then { p with description := value.string? }
    else if key = "format" then { p with format := value.string? }
    else if key = "$ref" then { p with reference := value.string? }
    else if key = "items" then { p with items := ofObject? value }
    else if key = "additionalProperties" then { p with values := ofObject? value }
    else p

/-- The property that lies inside another one: only an object is one. -/
def ofObject? : Json → Option Property
  | .object members => some (ofMembers members)
  | _ => none

end

/-- A member, where there is a text for it. -/
def textMember (key : String) : Option String → List (String × Json)
  | some s => [(key, .string s)]
  | none => []

mutual

/-- The value of a property. -/
def toJson : Property → Json
  | { name, declaredType, jsonKey, isOptional, isMutable, description, format, reference, items,
      values } =>
    .object
      (textMember "name" name ++ textMember "type" declaredType ++ textMember "jsonKey" jsonKey ++
        textMember "description" description ++ textMember "format" format ++
        textMember "$ref" reference ++
        [("isOptional", .bool isOptional), ("isMutable", .bool isMutable)] ++
        inside "items" items ++ inside "additionalProperties" values)

/-- The member of a property that lies inside another one. -/
def inside (key : String) : Option Property → List (String × Json)
  | some p => [(key, toJson p)]
  | none => []

end

end Property
end FieldTypes
