import FieldTypes.Resolution
import Mathlib.Tactic.Cases

/-!
# The way down to the type of a property

Resolving a property goes down through containers to the property that it ends at. That one has
a reference, a type of its own, or a fault; the containers on the way are then put around it, the
innermost first.

**Results.**
* `Property.descent_induction`: induction along the way down.
* `resolveType_eq`: resolving a property is resolving its leaf and wrapping the result.
-/

namespace FieldTypes

/-- A container on the way down. -/
inductive Container where
  | array
  | dictionary
deriving DecidableEq, Repr

namespace Language

/-- The type of a container with the type `inner` inside. -/
def wrap (l : Language) : Container → String → String
  | .array => l.arrayOf
  | .dictionary => l.dictionaryOf

/-- The type of containers inside each other, outermost first, around the type `inner`. -/
def wrapAll (l : Language) (cs : List Container) (inner : String) : String :=
  cs.foldr l.wrap inner

end Language

namespace Property

/-- The container that a property is and the property inside, unless the way down ends here. -/
def inner? (p : Property) : Option (Container × Property) :=
  match p.reference, p.declaredType.bind DeclaredType.ofToken?, p.items, p.values with
  | none, some .array, some q, _ => some (.array, q)
  | none, some .object, _, some q => some (.dictionary, q)
  | _, _, _, _ => none

/-- The containers on the way down, outermost first, and the property where it ends. -/
def descent : Property → List Container × Property
  | ⟨name, declaredType, jsonKey, isOptional, isMutable, description, format, reference, items,
      values⟩ =>
    match reference, declaredType.bind DeclaredType.ofToken?, items, values with
    | none, some .array, some q, _ => (.array :: (descent q).1, (descent q).2)
    | none, some .object, _, some q => (.dictionary :: (descent q).1, (descent q).2)
    | _, _, _, _ =>
      ([], ⟨name, declaredType, jsonKey, isOptional, isMutable, description, format, reference,
        items, values⟩)

/-- The containers on the way down, outermost first. -/
def containers (p : Property) : List Container :=
  p.descent.1

/-- The property where the way down ends. -/
def leaf (p : Property) : Property :=
  p.descent.2

section Descent

variable {p q : Property} {c : Container}

theorem descent_eq (p : Property) :
    p.descent =
      match p.inner? with
      | some (c, q) => (c :: q.containers, q.leaf)
      | none => ([], p) := by
  obtain ⟨_, declared, _, _, _, _, _, reference, items, values⟩ := p
  rw [descent.eq_def]
  simp only [inner?]
  cases reference with
  | some r =>
      rfl
  | none =>
      cases declared.bind DeclaredType.ofToken? with
      | none =>
          rfl
      | some t =>
          cases t <;> cases items <;> cases values <;> rfl

theorem containers_of_inner? (h : p.inner? = some (c, q)) :
    p.containers = c :: q.containers := by
  rw [containers, descent_eq, h]

theorem leaf_of_inner? (h : p.inner? = some (c, q)) :
    p.leaf = q.leaf := by
  rw [leaf, descent_eq, h]

theorem containers_of_inner?_eq_none (h : p.inner? = none) :
    p.containers = [] := by
  rw [containers, descent_eq, h]

theorem leaf_of_inner?_eq_none (h : p.inner? = none) :
    p.leaf = p := by
  rw [leaf, descent_eq, h]

/-- What a container holds lies directly inside it. -/
theorem eq_of_inner? (h : p.inner? = some (c, q)) :
    p.reference = none ∧
      (c = .array ∧ p.declaredType.bind DeclaredType.ofToken? = some .array ∧ p.items = some q ∨
        c = .dictionary ∧ p.declaredType.bind DeclaredType.ofToken? = some .object ∧
          p.values = some q) := by
  obtain ⟨_, declared, _, _, _, _, _, reference, items, values⟩ := p
  simp only [inner?] at h ⊢
  cases reference with
  | some r =>
      cases h
  | none =>
      cases ht : declared.bind DeclaredType.ofToken? with
      | none =>
          rw [ht] at h
          cases h
      | some t =>
          rw [ht] at h
          cases t <;> cases items <;> cases values <;> simp_all

/-- Induction along the way down: from where it ends up to the containers around. -/
theorem descent_induction
    {motive : Property → Prop}
    (leaf : ∀ p, p.inner? = none → motive p)
    (inner : ∀ p c q, p.inner? = some (c, q) → motive q → motive p)
    (p : Property) :
    motive p := by
  induction p using tree_induction with
  | step p hitems hvalues =>
      cases h : p.inner? with
      | none =>
          exact leaf p h
      | some cq =>
          obtain ⟨c, q⟩ := cq
          obtain ⟨-, ⟨-, -, hq⟩ | ⟨-, -, hq⟩⟩ := eq_of_inner? h
          · exact inner p c q h (hitems q hq)
          · exact inner p c q h (hvalues q hq)

/-- The type that a property without a reference has of its own, if it is no container that
something lies in. -/
def ownType (l : Language) (p : Property) : Except TypeError String :=
  match p.declaredType with
  | none => .error .missingType
  | some token =>
    match DeclaredType.ofToken? token with
    | none => .error (.unknownType token)
    | some .object => .error .missingValues
    | some .array => .error .missingItems
    | some .string => .ok (l.scalar (StringFormat.baseTypeOf p.format))
    | some .integer => .ok (l.scalar .integer)
    | some .number => .ok (l.scalar .float)
    | some .boolean => .ok (l.scalar .boolean)

end Descent

end Property

/-- The type of a property where the way down ends. -/
def resolveLeaf (s : Source) (l : Language) (document : Path) (p : Property) :
    Resolving (Except TypeError String) := fun j =>
  match p.reference with
  | some r => resolveReference s r document j
  | none => (p.ownType l, j)

section Resolve

variable {s : Source} {l : Language} {document : Path} {p q : Property} {c : Container}
  {j : Journal}

theorem resolveType_of_inner? (h : p.inner? = some (c, q)) :
    resolveType s l document p j =
      ((resolveType s l document q j).1.map (l.wrap c), (resolveType s l document q j).2) := by
  obtain ⟨hr, hc⟩ := Property.eq_of_inner? h
  obtain ⟨_, declared, _, _, _, _, _, reference, items, values⟩ := p
  simp only at hr hc
  subst hr
  rw [resolveType.eq_def]
  rcases hc with ⟨rfl, ht, rfl⟩ | ⟨rfl, ht, rfl⟩
  · obtain ⟨token, rfl, htoken⟩ := Option.bind_eq_some_iff.1 ht
    simp only [htoken]
    rfl
  · obtain ⟨token, rfl, htoken⟩ := Option.bind_eq_some_iff.1 ht
    simp only [htoken]
    rfl

theorem resolveType_of_inner?_eq_none (h : p.inner? = none) :
    resolveType s l document p j = resolveLeaf s l document p j := by
  obtain ⟨_, declared, _, _, _, _, _, reference, items, values⟩ := p
  rw [resolveType.eq_def, resolveLeaf]
  cases reference with
  | some r =>
      rfl
  | none =>
      cases declared with
      | none =>
          rfl
      | some token =>
          simp only [Property.ownType]
          cases ht : DeclaredType.ofToken? token with
          | none =>
              rfl
          | some t =>
              cases t with
              | object =>
                  cases values with
                  | none =>
                      rfl
                  | some v =>
                      simp [Property.inner?, ht] at h
              | array =>
                  cases items with
                  | none =>
                      rfl
                  | some i =>
                      simp [Property.inner?, ht] at h
              | string | integer | number | boolean =>
                  rfl

/-- Resolving a property is resolving its leaf, with the containers around what comes out. -/
theorem resolveType_eq (p : Property) :
    resolveType s l document p j =
      ((resolveLeaf s l document p.leaf j).1.map (l.wrapAll p.containers),
        (resolveLeaf s l document p.leaf j).2) := by
  induction p using Property.descent_induction with
  | leaf p h =>
      rw [resolveType_of_inner?_eq_none h, Property.leaf_of_inner?_eq_none h,
        Property.containers_of_inner?_eq_none h]
      generalize resolveLeaf s l document p j = r
      obtain ⟨a | a, k⟩ := r <;> rfl
  | inner p c q h ih =>
      rw [resolveType_of_inner? h, ih, Property.leaf_of_inner? h,
        Property.containers_of_inner? h]
      cases (resolveLeaf s l document q.leaf j).1 <;> rfl

end Resolve
end FieldTypes
