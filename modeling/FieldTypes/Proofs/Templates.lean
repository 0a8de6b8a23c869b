import FieldTypes.Proofs.Descent

/-!
# Templates of containers

A container is spelled by a template with one hole. What stands before and behind the hole is
fixed, so the containers around a type only add text on both of its sides, whatever that type's
text is: braces inside it are never taken for a hole.

In Objective-C the element of a container may be boxed first. A container's own text is never that
of a bare number or truth value, so of containers inside each other only the innermost one has an
element that is boxed.

**Results.**
* `Language.toList_template`: the text of a filled template.
* `Language.templates_inj`: the text inside can be read off the text of the whole.
* `Language.wrapAll_objc`: in Objective-C boxing is a matter of the innermost container.
-/

namespace FieldTypes

/-- The base type that a container's template spells. -/
def Container.baseType : Container → BaseType
  | .array => .array
  | .dictionary => .dictionary

namespace Spelling

theorem fillFirst_append {before : List Char} (h : '{' ∉ before) (inner behind : List Char) :
    fillFirst inner (before ++ '{' :: '}' :: behind) = before ++ inner ++ behind := by
  induction before with
  | nil =>
      simp [fillFirst]
  | cons c before ih =>
      rw [List.mem_cons, not_or] at h
      obtain ⟨hc, hbefore⟩ := h
      have hskip : fillFirst inner (c :: (before ++ '{' :: '}' :: behind)) =
          c :: fillFirst inner (before ++ '{' :: '}' :: behind) := by
        rw [fillFirst]
        rintro rest rfl
        exact absurd rfl hc
      rw [List.cons_append, hskip, ih hbefore]
      simp

end Spelling

namespace Language

/-- The template of a container with `inner` in its hole. -/
def template (l : Language) (c : Container) (inner : String) : String :=
  (l.spelling c.baseType).fill inner

/-- The templates of containers inside each other, outermost first, around `inner`. -/
def templates (l : Language) (cs : List Container) (inner : String) : String :=
  cs.foldr l.template inner

/-- What a container's template has before its hole. -/
def opening (l : Language) (c : Container) : List Char :=
  (l.spelling c.baseType).text.toList.takeWhile (· ≠ '{')

/-- What a container's template has behind its hole. -/
def closing (l : Language) (c : Container) : List Char :=
  ((l.spelling c.baseType).text.toList.dropWhile (· ≠ '{')).drop 2

section Templates

variable {l : Language} {c : Container} {cs : List Container} {a b : String}

theorem toList_spelling (l : Language) (c : Container) :
    (l.spelling c.baseType).text.toList = l.opening c ++ '{' :: '}' :: l.closing c := by
  cases l <;> cases c <;> decide

@[simp] theorem toList_template (l : Language) (c : Container) (inner : String) :
    (l.template c inner).toList = l.opening c ++ inner.toList ++ l.closing c := by
  have hopening : '{' ∉ l.opening c := by
    cases l <;> cases c <;> decide
  rw [template, Spelling.fill, String.toList_ofList, toList_spelling,
    Spelling.fillFirst_append hopening]

theorem template_inj : l.template c a = l.template c b ↔ a = b := by
  constructor
  · intro h
    have hlist := congrArg String.toList h
    rw [toList_template, toList_template, List.append_cancel_right_eq,
      List.append_cancel_left_eq] at hlist
    exact String.toList_inj.1 hlist
  · rintro rfl
    rfl

/-- The text inside the templates is determined by the text of the whole. -/
theorem templates_inj : l.templates cs a = l.templates cs b ↔ a = b := by
  induction cs with
  | nil =>
      rfl
  | cons c cs ih =>
      exact template_inj.trans ih

end Templates

section Objc

variable {c : Container} {cs : List Container} {inner : String}

/-- Whether a text is the spelling of a bare number or truth value in Objective-C. -/
def isBare (inner : String) : Bool :=
  [BaseType.integer, .float, .boolean].any fun b => objc.scalar b == inner

theorem element_objc_of_bare (h : isBare inner = true) : objc.element inner = boxed :=
  if_pos h

theorem element_objc_of_not_bare (h : isBare inner = false) : objc.element inner = inner := by
  simp only [element]
  rw [if_neg]
  simpa [isBare] using h

theorem isBare_iff :
    isBare inner = true ↔ inner = "NSInteger" ∨ inner = "double" ∨ inner = "BOOL" := by
  have hinteger : objc.scalar .integer = "NSInteger" := rfl
  have hfloat : objc.scalar .float = "double" := rfl
  have hboolean : objc.scalar .boolean = "BOOL" := rfl
  simp only [isBare, List.any_cons, List.any_nil, Bool.or_false, Bool.or_eq_true, beq_iff_eq,
    hinteger, hfloat, hboolean]
  exact or_congr eq_comm (or_congr eq_comm eq_comm)

/-- No container is spelled like a bare number or truth value. -/
theorem isBare_template (c : Container) (inner : String) :
    isBare (objc.template c inner) = false := by
  have hhead : (objc.template c inner).toList.take 3 = (objc.opening c).take 3 := by
    rw [toList_template, List.append_assoc, List.take_append_of_le_length]
    cases c <;> decide
  rw [Bool.eq_false_iff, ne_eq, isBare_iff]
  rintro (h | h | h) <;> rw [h] at hhead <;> cases c <;> revert hhead <;> decide

theorem wrap_objc (c : Container) (inner : String) :
    objc.wrap c inner = objc.template c (objc.element inner) := by
  cases c <;> rfl

/-- Of containers inside each other the innermost one decides on boxing. -/
theorem wrapAll_objc (cs : List Container) (inner : String) :
    objc.wrapAll cs inner =
      objc.templates cs (if cs = [] then inner else objc.element inner) := by
  induction cs with
  | nil =>
      rfl
  | cons c cs ih =>
      have hwrap : objc.wrapAll (c :: cs) inner =
          objc.template c (objc.element (objc.wrapAll cs inner)) :=
        wrap_objc c (objc.wrapAll cs inner)
      rw [hwrap, ih, if_neg (List.cons_ne_nil c cs)]
      cases cs with
      | nil =>
          rfl
      | cons d ds =>
          rw [if_neg (List.cons_ne_nil d ds)]
          exact congrArg (objc.template c) (element_objc_of_not_bare (isBare_template d _))

end Objc

end Language
end FieldTypes
