import FieldTypes.Proofs.Rendering

/-!
# Types that are written alike

The text of a type that has no reference tells which containers it has and what lies inside, up to
the base types that a language spells alike: TypeScript has one number and one text, and in a
container Objective-C has one box. In Swift an array of something could begin like a dictionary, if
only there were something that begins with `String: `. There is not: what lies inside a container is
a base type, which does not, or a container again, and that begins with a bracket.

**Main definitions.**
* `Language.merges`: the base types that a language spells alike.
* `Language.IsBottom`: texts that are not taken for containers.

**Results.**
* `Language.templates_eq_iff`: containers and what lies inside are read off the text.
* `Language.innermost_eq_iff`: what is told of a base type by its spelling.
* `resolveType_unambiguous`: which properties have the same type.
-/

namespace FieldTypes
namespace Language

/-- The base types that a language spells alike, bare or inside a container. -/
def merges : Language → Bool → List (List BaseType)
  | typescript, _ => [[.integer, .float], [.string, .uri]]
  | objc, true => [BaseType.bare]
  | _, _ => []

/-- Two base types are spelled alike. -/
def Identifies (l : Language) (nested : Bool) (a b : BaseType) : Prop :=
  a = b ∨ ∃ m ∈ l.merges nested, a ∈ m ∧ b ∈ m

instance (l : Language) (nested : Bool) (a b : BaseType) : Decidable (l.Identifies nested a b) :=
  inferInstanceAs (Decidable (_ ∨ _))

/-- The text of a base type, bare or inside a container. -/
def innermost (l : Language) (nested : Bool) (b : BaseType) : String :=
  if l = objc ∧ nested = true ∧ b ∈ BaseType.bare then boxed else l.scalar b

/-- A text is not that of a container, and does not make an array look like a dictionary. -/
structure IsBottom (l : Language) (x : String) : Prop where
  not_opening : ∀ c, ¬ l.opening c <+: x.toList
  not_dictionary : ¬ l.opening .dictionary <+: (l.template .array x).toList

section Bottom

variable {l : Language} {nested : Bool} {b : BaseType}

theorem isBottom_scalar (hb : b.isContainer = false) : l.IsBottom (l.scalar b) := by
  refine ⟨fun c => ?_, ?_⟩
  · cases b <;> cases hb <;> cases l <;> cases c <;> decide
  · cases b <;> cases hb <;> cases l <;> decide

theorem isBottom_innermost (hb : b.isContainer = false) : l.IsBottom (l.innermost nested b) := by
  unfold innermost
  split_ifs with hboxed
  · obtain ⟨rfl, -, -⟩ := hboxed
    refine ⟨fun c => ?_, by decide⟩
    cases c <;> decide
  · exact isBottom_scalar hb

/-- The spelling of a base type tells which one it is, up to those that are spelled alike. -/
theorem innermost_eq_iff {a : BaseType} (ha : a.isContainer = false) (hb : b.isContainer = false) :
    l.innermost nested a = l.innermost nested b ↔ l.Identifies nested a b := by
  cases a <;> cases ha <;> cases b <;> cases hb <;> cases l <;> cases nested <;> decide

end Bottom

section Containers

variable {l : Language} {c d : Container} {cs ds : List Container} {x y : String}

theorem opening_prefix_template (c : Container) (x : String) :
    l.opening c <+: (l.template c x).toList := by
  rw [toList_template, List.append_assoc]
  exact List.prefix_append _ _

/-- No array is spelled like a dictionary, whatever containers lie in it. -/
theorem not_dictionary_prefix_array (hx : l.IsBottom x) (cs : List Container) :
    ¬ l.opening .dictionary <+: (l.template .array (l.templates cs x)).toList := by
  cases cs with
  | nil =>
      exact hx.not_dictionary
  | cons c cs =>
      intro h
      have harray : l.opening .array ++ l.opening c <+:
          (l.template .array (l.templates (c :: cs) x)).toList := by
        obtain ⟨rest, hrest⟩ := l.opening_prefix_template c (l.templates cs x)
        have hinner : l.templates (c :: cs) x = l.template c (l.templates cs x) := rfl
        refine ⟨rest ++ l.closing .array, ?_⟩
        rw [hinner, l.toList_template .array, ← hrest]
        simp
      have hcomparable := List.prefix_or_prefix_of_prefix h harray
      revert hcomparable
      cases l <;> cases c <;> decide

theorem not_opening_template (hx : l.IsBottom x) (c : Container) (cs : List Container) :
    x ≠ l.template c (l.templates cs y) := by
  rintro rfl
  exact hx.not_opening c (l.opening_prefix_template c _)

/-- The outermost container is read off the text. -/
theorem template_eq_template
    (hx : l.IsBottom x)
    (hy : l.IsBottom y)
    (h : l.template c (l.templates cs x) = l.template d (l.templates ds y)) :
    c = d := by
  cases c with
  | array =>
      cases d with
      | array =>
          rfl
      | dictionary =>
          refine absurd ?_ (not_dictionary_prefix_array hx cs)
          rw [h]
          exact l.opening_prefix_template .dictionary _
  | dictionary =>
      cases d with
      | array =>
          refine absurd ?_ (not_dictionary_prefix_array hy ds)
          rw [← h]
          exact l.opening_prefix_template .dictionary _
      | dictionary =>
          rfl

/-- The containers and what lies inside are read off the text. -/
theorem templates_eq_iff (hx : l.IsBottom x) (hy : l.IsBottom y) :
    l.templates cs x = l.templates ds y ↔ cs = ds ∧ x = y := by
  constructor
  · intro h
    induction cs generalizing ds with
    | nil =>
        cases ds with
        | nil =>
            exact ⟨rfl, h⟩
        | cons d ds =>
            exact absurd h (not_opening_template hx d ds)
    | cons c cs ih =>
        cases ds with
        | nil =>
            exact absurd h.symm (not_opening_template hy c cs)
        | cons d ds =>
            obtain rfl := template_eq_template hx hy h
            obtain ⟨rfl, hxy⟩ := ih (template_inj.1 h)
            exact ⟨rfl, hxy⟩
  · rintro ⟨rfl, rfl⟩
    rfl

/-- A base type with containers around it is the templates around its text. -/
theorem wrapAll_scalar (l : Language) (cs : List Container) (b : BaseType) :
    l.wrapAll cs (l.scalar b) = l.templates cs (l.innermost (!cs.isEmpty) b) := by
  rw [wrapAll_eq_templates, element_scalar, innermost]
  cases cs with
  | nil =>
      simp
  | cons c cs =>
      simp

end Containers
end Language

/-- No property has a container for its base type. -/
theorem Property.isContainer_of_baseType? {p : Property} {b : BaseType}
    (h : p.baseType? = some b) :
    b.isContainer = false := by
  unfold baseType? at h
  cases hdeclared : p.declaredType.bind DeclaredType.ofToken? with
  | none =>
      rw [hdeclared] at h
      cases h
  | some t =>
      rw [hdeclared] at h
      cases t with
      | object | array =>
          cases h
      | integer | number | boolean =>
          cases h
          rfl
      | string =>
          cases h
          unfold StringFormat.baseTypeOf
          cases p.format.bind StringFormat.ofToken? with
          | none =>
              rfl
          | some f =>
              cases f <;> rfl

section Plain

variable {s : Source} {l : Language} {document : Path} {p : Property} {j : Journal} {T : String}

/-- A property without a reference that resolves in one language has a base type, and resolves in
every language to its text in its containers. -/
theorem exists_baseType_of_resolveType
    (hreference : p.leaf.reference = none)
    (h : (resolveType s l document p j).1 = .ok T) :
    ∃ b, p.leaf.baseType? = some b ∧ b.isContainer = false ∧
      ∀ l, (resolveType s l document p j).1 =
        .ok (l.templates p.containers (l.innermost (!p.containers.isEmpty) b)) := by
  have hleaf : ∀ l, (resolveLeaf s l document p.leaf j).1 = p.leaf.ownType l := by
    intro l
    rw [resolveLeaf, hreference]
  obtain ⟨L, hL, -⟩ := resolveType_fst_eq_ok_iff.1 h
  rw [hleaf] at hL
  obtain ⟨b, hb, -⟩ := Property.ownType_eq_ok_iff.1 hL
  refine ⟨b, hb, Property.isContainer_of_baseType? hb, ?_⟩
  intro l
  rw [← l.wrapAll_scalar]
  refine resolveType_fst_eq_ok_iff.2 ⟨l.scalar b, ?_, rfl⟩
  rw [hleaf]
  exact Property.ownType_eq_ok_iff.2 ⟨b, hb, rfl⟩

end Plain

/-- Properties without references, that resolve. They have the same type in a language exactly
where they have the same containers and the language spells their base types alike, inside these
containers. Swift and Rust spell no two of them alike, so what has one type in either of them has
one type in every language. -/
theorem resolveType_unambiguous
    (s s' : Source)
    (document document' : Path)
    (p q : Property)
    (j j' : Journal)
    (hp : p.leaf.reference = none)
    (hq : q.leaf.reference = none)
    (hresolves : ∃ l T, (resolveType s l document p j).1 = .ok T)
    (hresolves' : ∃ l T, (resolveType s' l document' q j').1 = .ok T) :
    ∃ a b, p.leaf.baseType? = some a ∧ q.leaf.baseType? = some b ∧
      (∀ l : Language,
        (resolveType s l document p j).1 = (resolveType s' l document' q j').1 ↔
          p.containers = q.containers ∧ l.Identifies (!p.containers.isEmpty) a b) ∧
      ∀ l ∈ [Language.swift, .rust],
        ((resolveType s l document p j).1 = (resolveType s' l document' q j').1 ↔
          p.containers = q.containers ∧ a = b) ∧
        ((resolveType s l document p j).1 = (resolveType s' l document' q j').1 →
          ∀ l', (resolveType s l' document p j).1 = (resolveType s' l' document' q j').1) := by
  obtain ⟨_, _, hT⟩ := hresolves
  obtain ⟨_, _, hT'⟩ := hresolves'
  obtain ⟨a, ha, hca, htext⟩ := exists_baseType_of_resolveType hp hT
  obtain ⟨b, hb, hcb, htext'⟩ := exists_baseType_of_resolveType hq hT'
  have hsame : ∀ l : Language,
      (resolveType s l document p j).1 = (resolveType s' l document' q j').1 ↔
        p.containers = q.containers ∧ l.Identifies (!p.containers.isEmpty) a b := by
    intro l
    rw [htext, htext', Except.ok.injEq, Language.templates_eq_iff
      (Language.isBottom_innermost hca) (Language.isBottom_innermost hcb)]
    refine and_congr_right fun hcontainers => ?_
    rw [← hcontainers, Language.innermost_eq_iff hca hcb]
  refine ⟨a, b, ha, hb, hsame, ?_⟩
  intro l hl
  have hexact : (resolveType s l document p j).1 = (resolveType s' l document' q j').1 ↔
      p.containers = q.containers ∧ a = b := by
    rw [hsame]
    simp only [List.mem_cons, List.not_mem_nil, or_false] at hl
    rcases hl with rfl | rfl <;> simp [Language.Identifies, Language.merges]
  refine ⟨hexact, ?_⟩
  intro h l'
  obtain ⟨hcontainers, rfl⟩ := hexact.1 h
  exact (hsame l').2 ⟨hcontainers, Or.inl rfl⟩

/-- An array of a declared type. -/
def arrayOfDeclared (token : String) : Property :=
  { declaredType := some "array"
    items := some { declaredType := some token } }

theorem resolveType_unambiguous_arrayOfDeclared :
    (∀ l ∈ [Language.objc, .typescript],
      (resolveType bracedModel.documents l ⟨"m.json"⟩ (arrayOfDeclared "integer") {}).1 =
        (resolveType bracedModel.documents l ⟨"w.json"⟩ (arrayOfDeclared "number") {}).1) ∧
    ∀ l ∈ [Language.swift, .rust],
      (resolveType bracedModel.documents l ⟨"m.json"⟩ (arrayOfDeclared "integer") {}).1 ≠
        (resolveType bracedModel.documents l ⟨"w.json"⟩ (arrayOfDeclared "number") {}).1 := by
  obtain ⟨a, b, ha, hb, hsame, hexact⟩ := resolveType_unambiguous bracedModel.documents
    bracedModel.documents ⟨"m.json"⟩ ⟨"w.json"⟩ (arrayOfDeclared "integer")
    (arrayOfDeclared "number") {} {} (by decide) (by decide) ⟨.swift, "[Int]", by decide⟩
    ⟨.swift, "[Float]", by decide⟩
  obtain rfl : .integer = a := Option.some.inj ha
  obtain rfl : .float = b := Option.some.inj hb
  refine ⟨?_, ?_⟩
  · intro l hl
    rw [hsame]
    revert l
    decide
  · intro l hl
    rw [ne_eq, (hexact l hl).1]
    decide

end FieldTypes
