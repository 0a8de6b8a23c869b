import FieldTypes.Proofs.Reaching

/-!
# Why a property has no type

The way down of a property is described here by its keys alone: it leads into the elements of an
array and into the values of an object, unless there is a reference, and it ends where it cannot go
on. What the end lacks is the fault of the whole property. There is no other fault, and no fault is
changed on its way out through the containers. A document that cannot be loaded is no fault: its
reference has the empty name.

**Main definitions.**
* `Property.EndsAt`: where the way down ends.
* `Property.FailsWith`: what a property lacks for a type.

**Results.**
* `Property.endsAt_iff`: the way down ends at the leaf, and nowhere else.
* `resolveLeaf_eq_error_iff`: the faults of a property where the way down ends.
* `resolveType_faults`: the faults of any property.
-/

namespace FieldTypes

/-- The way down from a property ends at another one. -/
inductive Property.EndsAt : Property → Property → Prop where
  | items {p q r : Property}
      (hreference : p.reference = none)
      (htype : p.declaredType = some "array")
      (hitems : p.items = some q)
      (hends : EndsAt q r) :
      EndsAt p r
  | values {p q r : Property}
      (hreference : p.reference = none)
      (htype : p.declaredType = some "object")
      (hvalues : p.values = some q)
      (hends : EndsAt q r) :
      EndsAt p r
  | here {p : Property}
      (hitems : p.reference = none → p.declaredType = some "array" → p.items = none)
      (hvalues : p.reference = none → p.declaredType = some "object" → p.values = none) :
      EndsAt p p

/-- What a property where the way down ends lacks for a type. -/
inductive Property.FailsWith (s : Source) (document : Path) (j : Journal) (p : Property) :
    TypeError → Prop where
  | missingType
      (hreference : p.reference = none)
      (htype : p.declaredType = none) :
      FailsWith s document j p .missingType
  | unknownType {token : String}
      (hreference : p.reference = none)
      (htype : p.declaredType = some token)
      (hunknown : ∀ t : DeclaredType, token ≠ t.token) :
      FailsWith s document j p (.unknownType token)
  | missingItems
      (hreference : p.reference = none)
      (htype : p.declaredType = some "array")
      (hitems : p.items = none) :
      FailsWith s document j p .missingItems
  | missingValues
      (hreference : p.reference = none)
      (htype : p.declaredType = some "object")
      (hvalues : p.values = none) :
      FailsWith s document j p .missingValues
  | cyclicReference {r : String} {path : Path}
      (hreference : p.reference = some r)
      (hcyclic : (followReference s r document j).1 = .error (.cyclic path)) :
      FailsWith s document j p (.cyclicReference path)

namespace DeclaredType

theorem bind_ofToken?_eq_some_iff {declared : Option String} {t : DeclaredType} :
    declared.bind ofToken? = some t ↔ declared = some t.token := by
  simp only [Option.bind_eq_some_iff, ofToken?_eq_some_iff, exists_eq_right]

theorem ofToken?_eq_none_iff {token : String} :
    ofToken? token = none ↔ ∀ t : DeclaredType, token ≠ t.token := by
  simp only [Option.eq_none_iff_forall_ne_some, ne_eq, ofToken?_eq_some_iff]

end DeclaredType

namespace Property

section Ends

variable {p q r : Property} {c : Container}

theorem inner?_of_items
    (hreference : p.reference = none)
    (htype : p.declaredType = some "array")
    (hitems : p.items = some q) :
    p.inner? = some (.array, q) := by
  have harray : p.declaredType.bind DeclaredType.ofToken? = some .array :=
    DeclaredType.bind_ofToken?_eq_some_iff.2 htype
  rw [inner?, hreference, harray, hitems]

theorem inner?_of_values
    (hreference : p.reference = none)
    (htype : p.declaredType = some "object")
    (hvalues : p.values = some q) :
    p.inner? = some (.dictionary, q) := by
  have hobject : p.declaredType.bind DeclaredType.ofToken? = some .object :=
    DeclaredType.bind_ofToken?_eq_some_iff.2 htype
  rw [inner?, hreference, hobject, hvalues]

/-- The way down ends at an array without elements, at an object without values, and at whatever
holds nothing. -/
theorem inner?_eq_none_iff :
    p.inner? = none ↔
      (p.reference = none → p.declaredType = some "array" → p.items = none) ∧
      (p.reference = none → p.declaredType = some "object" → p.values = none) := by
  constructor
  · intro h
    refine ⟨fun hreference htype => ?_, fun hreference htype => ?_⟩
    · by_contra hitems
      obtain ⟨q, hq⟩ := Option.ne_none_iff_exists'.1 hitems
      rw [inner?_of_items hreference htype hq] at h
      cases h
    · by_contra hvalues
      obtain ⟨q, hq⟩ := Option.ne_none_iff_exists'.1 hvalues
      rw [inner?_of_values hreference htype hq] at h
      cases h
  · rintro ⟨hitems, hvalues⟩
    by_contra h
    obtain ⟨⟨c, q⟩, hcq⟩ := Option.ne_none_iff_exists'.1 h
    obtain ⟨hreference, ⟨-, htype, hq⟩ | ⟨-, htype, hq⟩⟩ := eq_of_inner? hcq
    · rw [hitems hreference (DeclaredType.bind_ofToken?_eq_some_iff.1 htype)] at hq
      cases hq
    · rw [hvalues hreference (DeclaredType.bind_ofToken?_eq_some_iff.1 htype)] at hq
      cases hq

theorem inner?_leaf (p : Property) : p.leaf.inner? = none := by
  induction p using descent_induction with
  | leaf p h =>
      rwa [leaf_of_inner?_eq_none h]
  | inner p c q h ih =>
      rwa [leaf_of_inner? h]

theorem endsAt_leaf (p : Property) :
    p.EndsAt p.leaf := by
  induction p using descent_induction with
  | leaf p h =>
      rw [leaf_of_inner?_eq_none h]
      exact .here (inner?_eq_none_iff.1 h).1 (inner?_eq_none_iff.1 h).2
  | inner p c q h ih =>
      rw [leaf_of_inner? h]
      obtain ⟨hreference, ⟨-, harray, hitems⟩ | ⟨-, hobject, hvalues⟩⟩ := eq_of_inner? h
      · exact .items hreference (DeclaredType.bind_ofToken?_eq_some_iff.1 harray) hitems ih
      · exact .values hreference (DeclaredType.bind_ofToken?_eq_some_iff.1 hobject) hvalues ih

/-- The way down ends at the leaf, and nowhere else. -/
theorem endsAt_iff : p.EndsAt r ↔ r = p.leaf := by
  constructor
  · intro h
    induction h with
    | items hreference htype hitems _ ih =>
        rw [ih, leaf_of_inner? (inner?_of_items hreference htype hitems)]
    | values hreference htype hvalues _ ih =>
        rw [ih, leaf_of_inner? (inner?_of_values hreference htype hvalues)]
    | here hitems hvalues =>
        exact (leaf_of_inner?_eq_none (inner?_eq_none_iff.2 ⟨hitems, hvalues⟩)).symm
  · rintro rfl
    exact p.endsAt_leaf

end Ends

end Property

section Faults

variable {s : Source} {l : Language} {document : Path} {p : Property} {j : Journal} {e : TypeError}

/-- A reference fails where it comes to a cycle, and on no other account. -/
theorem resolveReference_eq_error_iff {r : String} :
    (resolveReference s r document j).1 = .error e ↔
      ∃ path, (followReference s r document j).1 = .error (.cyclic path) ∧
        e = .cyclicReference path := by
  rw [resolveReference_fst]
  cases (followReference s r document j).1 with
  | ok name =>
      simp
  | error cause =>
      cases cause with
      | cyclic path =>
          simp [eq_comm]
      | unloadable error =>
          simp

/-- A property without a reference has the fault that its declared type makes. -/
theorem Property.failsWith_of_ownType
    (hreference : p.reference = none)
    (hinner : p.inner? = none)
    (h : p.ownType l = .error e) :
    p.FailsWith s document j e := by
  obtain ⟨hitems, hvalues⟩ := Property.inner?_eq_none_iff.1 hinner
  unfold Property.ownType at h
  cases htype : p.declaredType with
  | none =>
      rw [htype] at h
      cases h
      exact .missingType hreference htype
  | some token =>
      rw [htype] at h
      simp only at h
      cases htoken : DeclaredType.ofToken? token with
      | none =>
          rw [htoken] at h
          cases h
          exact .unknownType hreference htype (DeclaredType.ofToken?_eq_none_iff.1 htoken)
      | some t =>
          rw [htoken] at h
          obtain rfl := DeclaredType.ofToken?_eq_some_iff.1 htoken
          cases t with
          | object =>
              cases h
              exact .missingValues hreference htype (hvalues hreference htype)
          | array =>
              cases h
              exact .missingItems hreference htype (hitems hreference htype)
          | string | integer | number | boolean =>
              cases h

/-- The faults of a property where the way down ends. -/
theorem resolveLeaf_eq_error_iff (hinner : p.inner? = none) :
    (resolveLeaf s l document p j).1 = .error e ↔ p.FailsWith s document j e := by
  constructor
  · intro h
    cases hreference : p.reference with
    | none =>
        rw [resolveLeaf, hreference] at h
        exact Property.failsWith_of_ownType hreference hinner h
    | some r =>
        rw [resolveLeaf, hreference] at h
        obtain ⟨path, hcyclic, rfl⟩ := resolveReference_eq_error_iff.1 h
        exact .cyclicReference hreference hcyclic
  · intro h
    rw [resolveLeaf]
    cases h with
    | missingType hreference htype =>
        simp [Property.ownType, hreference, htype]
    | unknownType hreference htype hunknown =>
        simp [Property.ownType, hreference, htype, DeclaredType.ofToken?_eq_none_iff.2 hunknown]
    | missingItems hreference htype hitems =>
        have htoken : DeclaredType.ofToken? "array" = some .array :=
          DeclaredType.ofToken?_eq_some_iff.2 rfl
        simp [Property.ownType, hreference, htype, htoken]
    | missingValues hreference htype hvalues =>
        have htoken : DeclaredType.ofToken? "object" = some .object :=
          DeclaredType.ofToken?_eq_some_iff.2 rfl
        simp [Property.ownType, hreference, htype, htoken]
    | cyclicReference hreference hcyclic =>
        rw [hreference]
        exact resolveReference_eq_error_iff.2 ⟨_, hcyclic, rfl⟩

/-- The faults of a property are those of its leaf. -/
theorem resolveType_eq_error_iff :
    (resolveType s l document p j).1 = .error e ↔ p.leaf.FailsWith s document j e := by
  rw [← resolveLeaf_eq_error_iff (l := l) p.inner?_leaf, resolveType_eq]
  cases (resolveLeaf s l document p.leaf j).1 <;> simp [Except.map]

end Faults

/-- The faults of a property. Its way down ends at one place. What the property there lacks is the
fault of the whole, with nothing added on the way out, and where it lacks nothing there is a type.
A reference to what cannot be loaded is no fault: the containers are put around the empty name. -/
theorem resolveType_faults
    (s : Source)
    (l : Language)
    (document : Path)
    (p : Property)
    (j : Journal) :
    ∃ q, (∀ r, p.EndsAt r ↔ r = q) ∧
      (∀ e, (resolveType s l document p j).1 = .error e ↔ q.FailsWith s document j e) ∧
      ((∃ T, (resolveType s l document p j).1 = .ok T) ↔ ∀ e, ¬ q.FailsWith s document j e) ∧
      (∀ r e, q.reference = some r →
        (followReference s r document j).1 = .error (.unloadable e) →
        (resolveType s l document p j).1 = .ok (l.wrapAll p.containers "")) ∧
      ∀ e, (resolveType s l document p j).1 = .error e ↔
        (resolveType s l document q j).1 = .error e := by
  refine ⟨p.leaf, fun r => Property.endsAt_iff, fun e => resolveType_eq_error_iff, ?_, ?_, ?_⟩
  · simp only [← resolveType_eq_error_iff (l := l) (p := p)]
    cases (resolveType s l document p j).1 <;> simp
  · intro r e hr hunloadable
    have hleaf : (resolveLeaf s l document p.leaf j).1 = .ok "" := by
      rw [resolveLeaf, hr]
      simp only [resolveReference_fst, hunloadable]
    rw [resolveType_eq, hleaf]
    rfl
  · intro e
    rw [resolveType_eq_error_iff, resolveType_eq_error_iff,
      Property.leaf_of_inner?_eq_none p.inner?_leaf]

/-- An array of dictionaries of what is given. -/
def arrayOfDictionariesOf (p : Property) : Property :=
  { declaredType := some "array"
    items := some { declaredType := some "object", values := some p } }

theorem endsAt_arrayOfDictionariesOf {p : Property} (hreference : p.reference ≠ none) :
    (arrayOfDictionariesOf p).EndsAt p :=
  .items rfl rfl rfl (.values rfl rfl rfl
    (.here (fun h => absurd h hreference) (fun h => absurd h hreference)))

theorem resolveType_faults_circlingAliases :
    (resolveType circlingAliases.documents .swift ⟨"m.json"⟩
      (arrayOfDictionariesOf { declaredType := some "widget", reference := some "tail.json" })
      {}).1 = .error (.cyclicReference ⟨"a.json"⟩) ∧
    (resolveType circlingAliases.documents .swift ⟨"m.json"⟩
      (arrayOfDictionariesOf { declaredType := some "array", reference := some "missing.json" })
      {}).1 = .ok "[[String: ]]" := by
  constructor
  · obtain ⟨q, hends, hfaults, -⟩ := resolveType_faults circlingAliases.documents .swift
      ⟨"m.json"⟩ (arrayOfDictionariesOf
        { declaredType := some "widget", reference := some "tail.json" }) {}
    obtain rfl := (hends _).1 (endsAt_arrayOfDictionariesOf (by simp))
    exact (hfaults _).2 (.cyclicReference rfl (by decide +kernel))
  · obtain ⟨q, hends, -, -, hunloadable, -⟩ := resolveType_faults circlingAliases.documents .swift
      ⟨"m.json"⟩ (arrayOfDictionariesOf
        { declaredType := some "array", reference := some "missing.json" }) {}
    obtain rfl := (hends _).1 (endsAt_arrayOfDictionariesOf (by simp))
    exact (hunloadable "missing.json" (.unreadable ⟨"missing.json"⟩ .notFound) rfl
      (by decide +kernel)).trans (by decide +kernel)

end FieldTypes
