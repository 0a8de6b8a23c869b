import FieldTypes.Proofs.Boxing

/-!
# The text of a type, container by container

The text of a type is what the templates of its containers have before their holes, from the
outside in, then the text of what lies inside, then what the templates have behind their holes, from
the inside out. What lies inside is the spelling of a base type or the name of a model, and is not
looked at: it may be empty, or have braces of its own.

In Objective-C a bare number or truth value inside a container is boxed. That is decided once, at
the innermost container; the text of a container is never boxed.

**Results.**
* `Language.toList_templates`: the text around the text inside.
* `Language.wrapAll_eq_templates`: containers are their templates, in every language.
* `Property.ownType_eq_ok_iff`: which properties have a type of their own.
* `resolveType_composed`: the text of every type that is resolved.
-/

namespace FieldTypes

/-- The base types whose values are bare numbers and truth values in Objective-C. -/
def BaseType.bare : List BaseType :=
  [integer, float, boolean]

namespace Language

/-- What the templates of containers have before their holes, the outermost one first. -/
def openings (l : Language) (cs : List Container) : List Char :=
  cs.flatMap l.opening

/-- What the templates of containers have behind their holes, the innermost one first. -/
def closings (l : Language) (cs : List Container) : List Char :=
  cs.reverse.flatMap l.closing

section Containers

variable (l : Language) (c : Container) (cs : List Container) (inner : String)

theorem opening_not_mem : '{' ∉ l.opening c := by
  cases l <;> cases c <;> decide

/-- Templates inside each other put text on both sides of the text inside. -/
theorem toList_templates :
    (l.templates cs inner).toList = l.openings cs ++ inner.toList ++ l.closings cs := by
  induction cs with
  | nil =>
      simp [templates, openings, closings]
  | cons c cs ih =>
      have houter : l.templates (c :: cs) inner = l.template c (l.templates cs inner) := rfl
      rw [houter, toList_template, ih]
      simp [openings, closings]

theorem element_of_ne_objc (hl : l ≠ objc) : l.element inner = inner := by
  cases l with
  | objc =>
      exact absurd rfl hl
  | swift | rust | typescript =>
      rfl

/-- Containers are their templates around what lies inside, which is looked at once if there are
any. -/
theorem wrapAll_eq_templates :
    l.wrapAll cs inner = l.templates cs (if cs = [] then inner else l.element inner) := by
  by_cases hl : l = objc
  · subst hl
    exact wrapAll_objc cs inner
  · have hwrap : l.wrap = l.template := by
      funext c inner
      cases c with
      | array =>
          exact congrArg (l.spelling .array).fill (l.element_of_ne_objc inner hl)
      | dictionary =>
          exact congrArg (l.spelling .dictionary).fill (l.element_of_ne_objc inner hl)
    rw [element_of_ne_objc l inner hl, ite_self, wrapAll, templates, hwrap]

/-- The spellings that are boxed are those of bare numbers and truth values in Objective-C. -/
theorem element_scalar (b : BaseType) :
    l.element (l.scalar b) = if l = objc ∧ b ∈ BaseType.bare then boxed else l.scalar b := by
  cases l <;> cases b <;> decide

/-- A container inside another one is not boxed. -/
theorem element_wrapAll_cons :
    objc.element (objc.wrapAll (c :: cs) inner) = objc.wrapAll (c :: cs) inner := by
  have houter : objc.wrapAll (c :: cs) inner =
      objc.template c (objc.element (objc.wrapAll cs inner)) :=
    wrap_objc c (objc.wrapAll cs inner)
  rw [houter, element_objc_of_not_bare (isBare_template c _)]

end Containers

end Language

/-- The base type that a property has of its own: that of the type that it declares, unless this is
a container. The format of a string counts where it is a known one. -/
def Property.baseType? (p : Property) : Option BaseType :=
  match p.declaredType.bind DeclaredType.ofToken? with
  | some .string => some (StringFormat.baseTypeOf p.format)
  | some .integer => some .integer
  | some .number => some .float
  | some .boolean => some .boolean
  | some .object | some .array | none => none

section Leaf

variable {s : Source} {l : Language} {document : Path} {p : Property} {j : Journal} {T : String}

/-- A property has a type of its own where it has a base type, and is spelled like that. -/
theorem Property.ownType_eq_ok_iff :
    p.ownType l = .ok T ↔ ∃ b, p.baseType? = some b ∧ T = l.scalar b := by
  unfold ownType baseType?
  cases p.declaredType with
  | none =>
      simp
  | some token =>
      simp only [Option.bind_some]
      cases DeclaredType.ofToken? token with
      | none =>
          simp
      | some t =>
          cases t <;> simp [eq_comm]

/-- A property resolves where its way down ends at something that does, with the containers around
it. -/
theorem resolveType_fst_eq_ok_iff :
    (resolveType s l document p j).1 = .ok T ↔
      ∃ L, (resolveLeaf s l document p.leaf j).1 = .ok L ∧ T = l.wrapAll p.containers L := by
  rw [resolveType_eq]
  cases (resolveLeaf s l document p.leaf j).1 <;> simp [Except.map, eq_comm]

end Leaf

/-- The text of a type. The template of a container has one hole, which divides it into an opening
and a closing. A property without a reference at its end resolves exactly where it ends at a base
type, and a property with one where the reference does; the text is that of all openings, what lies
inside, and all closings. In Objective-C a number or truth value in a container is boxed, and no
container ever is. -/
theorem resolveType_composed
    (s : Source)
    (document : Path)
    (p : Property)
    (j : Journal) :
    (∀ (l : Language) (c : Container),
      (l.spelling c.baseType).text.toList = l.opening c ++ '{' :: '}' :: l.closing c ∧
        '{' ∉ l.opening c) ∧
    (∀ (l : Language) (T : String),
      p.leaf.reference = none →
      ((resolveType s l document p j).1 = .ok T ↔
        ∃ b, p.leaf.baseType? = some b ∧
          T.toList =
            l.openings p.containers ++
              (if l = .objc ∧ p.containers ≠ [] ∧ b ∈ BaseType.bare then "NSNumber *"
                else (l.spelling b).text).toList ++
              l.closings p.containers)) ∧
    (∀ (l : Language) (T r : String),
      l ≠ .objc →
      p.leaf.reference = some r →
      ((resolveType s l document p j).1 = .ok T ↔
        ∃ N, (resolveReference s r document j).1 = .ok N ∧
          T.toList = l.openings p.containers ++ N.toList ++ l.closings p.containers)) ∧
    (∀ (c : Container) (cs : List Container) (inner : String),
      Language.objc.element (Language.objc.wrapAll (c :: cs) inner) =
        Language.objc.wrapAll (c :: cs) inner) := by
  refine ⟨fun l c => ⟨l.toList_spelling c, l.opening_not_mem c⟩, ?_, ?_, ?_⟩
  · intro l T hr
    have hinside : ∀ b, (if p.containers = [] then l.scalar b else l.element (l.scalar b)) =
        if l = .objc ∧ p.containers ≠ [] ∧ b ∈ BaseType.bare then "NSNumber *"
          else (l.spelling b).text := by
      intro b
      rw [l.element_scalar]
      by_cases hnil : p.containers = []
      · simp [hnil, Language.scalar]
      · simp [hnil, Language.scalar, Language.boxed]
    have hleaf : (resolveLeaf s l document p.leaf j).1 = p.leaf.ownType l := by
      rw [resolveLeaf, hr]
    rw [resolveType_fst_eq_ok_iff, hleaf]
    constructor
    · rintro ⟨L, hL, rfl⟩
      obtain ⟨b, hb, rfl⟩ := Property.ownType_eq_ok_iff.1 hL
      refine ⟨b, hb, ?_⟩
      rw [l.wrapAll_eq_templates, l.toList_templates, hinside]
    · rintro ⟨b, hb, hT⟩
      refine ⟨l.scalar b, Property.ownType_eq_ok_iff.2 ⟨b, hb, rfl⟩, String.toList_inj.1 ?_⟩
      rw [hT, l.wrapAll_eq_templates, l.toList_templates, hinside]
  · intro l T r hl hr
    have hleaf : (resolveLeaf s l document p.leaf j).1 = (resolveReference s r document j).1 := by
      rw [resolveLeaf, hr]
    rw [resolveType_fst_eq_ok_iff, hleaf]
    refine exists_congr fun N => and_congr_right fun _ => ?_
    rw [← String.toList_inj, l.wrapAll_eq_templates, l.element_of_ne_objc N hl, ite_self,
      l.toList_templates]
  · exact fun c cs inner => Language.element_wrapAll_cons c cs inner

/-- A model with a hole for its name. -/
def bracedModel : FileTree where
  workingDirectory := []
  nodes := [(["w.json"], .file "\x7b\"title\": \"\x7b\x7d\"\x7d".toUTF8)]

/-- An array of dictionaries of truth values. -/
def arrayOfDictionaries : Property :=
  { declaredType := some "array"
    items := some
      { declaredType := some "object"
        values := some { declaredType := some "boolean" } } }

theorem resolveType_composed_bracedModel :
    (resolveType bracedModel.documents .rust ⟨"m.json"⟩ (dictionaryOfArrays "w.json") {}).1 =
      .ok "std::collections::HashMap<String, Vec<\x7b\x7d>>" ∧
    (resolveType bracedModel.documents .objc ⟨"m.json"⟩ arrayOfDictionaries {}).1 =
      .ok "NSArray<NSDictionary<NSString *, NSNumber *> *> *" := by
  have hname : (resolveReference bracedModel.documents "w.json" ⟨"m.json"⟩ {}).1 =
      .ok "\x7b\x7d" := by
    decide +kernel
  constructor
  · obtain ⟨-, -, hreference, -⟩ := resolveType_composed bracedModel.documents ⟨"m.json"⟩
      (dictionaryOfArrays "w.json") {}
    exact (hreference .rust _ "w.json" (by decide) (by decide)).2 ⟨_, hname, by decide⟩
  · obtain ⟨-, hdeclared, -⟩ := resolveType_composed bracedModel.documents ⟨"m.json"⟩
      arrayOfDictionaries {}
    exact (hdeclared .objc _ (by decide)).2 ⟨.boolean, by decide, by decide⟩

end FieldTypes
