import FieldTypes.Property
import Mathlib.Tactic.SplitIfs

/-!
# The shape of identifiers

Making an identifier out of a name gives an identifier, and leaves what is one already. An
identifier holds no dot, so it is its own last segment.

**Results.**
* `isIdentifier_iff`: the shape of an identifier in terms of ASCII letters and digits.
* `isIdentifier_declaredIdentifier`: what a declared name stands for is an identifier.
* `declaredIdentifier_of_isIdentifier`: an identifier stands for itself.
* `declaredIdentifier_append`: what stands before a dot has no part in a declared name.
* `identifier_fixes_identifiers`: the laws of making identifiers.
-/

namespace FieldTypes

variable {s : String}

theorem isIdentifierChar_eq (c : Char) :
    isIdentifierChar c = (c.isAlphanum || c == '_') := by
  have hupper : c.isUpper = ('A' ≤ c && c ≤ 'Z') := Bool.decide_and _ _
  have halphanum : c.isAlphanum = (c.isUpper || c.isLower || c.isDigit) := rfl
  rw [halphanum, hupper]
  rfl

/-- An identifier has a character, has letters, digits and underscores alone, all of them ASCII, and
has no digit in front. -/
theorem isIdentifier_iff :
    isIdentifier s = true ↔
      s ≠ "" ∧ s.toList.all (fun c => c.isAlphanum || c == '_') = true ∧
        s.toList.head?.any Char.isDigit = false := by
  have hchar : (fun c : Char => c.isAlphanum || c == '_') = isIdentifierChar :=
    funext fun c => (isIdentifierChar_eq c).symm
  rw [hchar, isIdentifier]
  cases hs : s.toList with
  | nil =>
      have hempty : s = "" := String.toList_inj.1 hs
      simp [hempty]
  | cons c cs =>
      have hne : s ≠ "" := by
        rintro rfl
        cases hs
      simp only [List.head?_cons, Option.any_some, Bool.and_eq_true, Bool.not_eq_true']
      constructor
      · rintro ⟨hdigit, hall⟩
        exact ⟨hne, hall, hdigit⟩
      · rintro ⟨-, hall, hdigit⟩
        exact ⟨hdigit, hall⟩

/-- Whatever characters a name has, underscored they are those of identifiers. -/
theorem all_underscored (cs : List Char) :
    (underscored cs).all isIdentifierChar = true := by
  rw [List.all_eq_true]
  intro c hc
  obtain ⟨d, -, rfl⟩ := List.mem_map.1 hc
  split_ifs with h
  · exact h
  · decide

theorem underscored_of_all {cs : List Char} (h : cs.all isIdentifierChar = true) :
    underscored cs = cs := by
  rw [List.all_eq_true] at h
  refine (List.map_congr_left ?_).trans (List.map_id cs)
  intro c hc
  rw [if_pos (h c hc), id]

theorem isIdentifier_ofList_cons (c : Char) (cs : List Char) :
    isIdentifier (String.ofList (c :: cs)) =
      (!isDecimalDigit c && (c :: cs).all isIdentifierChar) := by
  rw [isIdentifier, String.toList_ofList]

theorem isIdentifier_identifier (s : String) :
    isIdentifier (identifier s) = true := by
  have hall := all_underscored s.toList
  unfold identifier
  cases hcs : underscored s.toList with
  | nil =>
      decide
  | cons c cs =>
      rw [hcs] at hall
      cases hdigit : isDecimalDigit c with
      | true =>
          have hunderscore : (!isDecimalDigit '_' && isIdentifierChar '_') = true := by decide
          simp only [hdigit, if_true]
          rw [isIdentifier_ofList_cons, List.all_cons, ← Bool.and_assoc, hunderscore, hall]
          rfl
      | false =>
          simp only [hdigit, Bool.false_eq_true, if_false]
          rw [isIdentifier_ofList_cons, hdigit, hall]
          rfl

theorem identifier_of_isIdentifier (h : isIdentifier s = true) :
    identifier s = s := by
  unfold isIdentifier at h
  cases hcs : s.toList with
  | nil =>
      rw [hcs] at h
      cases h
  | cons c cs =>
      simp only [hcs, Bool.and_eq_true, Bool.not_eq_true'] at h
      simp only [identifier, hcs, underscored_of_all h.2, h.1, Bool.false_eq_true, if_false]
      rw [← hcs, String.ofList_toList]

theorem identifier_eq_self_iff :
    identifier s = s ↔ isIdentifier s = true := by
  constructor
  · intro h
    rw [← h]
    exact isIdentifier_identifier s
  · exact identifier_of_isIdentifier

@[simp] theorem identifier_identifier (s : String) :
    identifier (identifier s) = identifier s :=
  identifier_of_isIdentifier (isIdentifier_identifier s)

/-- An identifier has identifier characters alone. -/
theorem not_mem_of_isIdentifier {c : Char}
    (h : isIdentifier s = true) (hc : isIdentifierChar c = false) :
    c ∉ s.toList := by
  intro hmem
  unfold isIdentifier at h
  cases hcs : s.toList with
  | nil =>
      simp [hcs] at hmem
  | cons d cs =>
      simp only [hcs, Bool.and_eq_true, List.all_eq_true] at h hmem
      rw [h.2 c hmem] at hc
      cases hc

/-- An identifier has no dot. -/
theorem lastSegment_of_isIdentifier (h : isIdentifier s = true) :
    lastSegment s = s := by
  have hdot : '.' ∉ s.toList := not_mem_of_isIdentifier h (by decide)
  simp [lastSegment, List.splitOn_eq_singleton hdot]

/-- What a declared name stands for is an identifier. -/
theorem isIdentifier_declaredIdentifier (s : String) :
    isIdentifier (declaredIdentifier s) = true :=
  isIdentifier_identifier (lastSegment s)

/-- An identifier stands for itself. -/
theorem declaredIdentifier_of_isIdentifier (h : isIdentifier s = true) :
    declaredIdentifier s = s := by
  rw [declaredIdentifier, lastSegment_of_isIdentifier h, identifier_of_isIdentifier h]

theorem declaredIdentifier_eq_self_iff :
    declaredIdentifier s = s ↔ isIdentifier s = true := by
  constructor
  · intro h
    rw [← h]
    exact isIdentifier_declaredIdentifier s
  · exact declaredIdentifier_of_isIdentifier

@[simp] theorem declaredIdentifier_declaredIdentifier (s : String) :
    declaredIdentifier (declaredIdentifier s) = declaredIdentifier s :=
  declaredIdentifier_of_isIdentifier (isIdentifier_declaredIdentifier s)

theorem lastSegment_append (t s : String) :
    lastSegment (t ++ "." ++ s) = lastSegment s := by
  have htext : (t ++ "." ++ s).toList = t.toList ++ '.' :: s.toList := by
    simp
  obtain ⟨f, fs, hcut⟩ := List.exists_cons_of_ne_nil (List.splitOn_ne_nil '.' s.toList)
  rw [lastSegment, lastSegment, htext, List.splitOn_append_cons_self, hcut]
  simp [List.getLast?_cons]

/-- What stands before a dot has no part in a declared name. -/
theorem declaredIdentifier_append (t s : String) :
    declaredIdentifier (t ++ "." ++ s) = declaredIdentifier s := by
  rw [declaredIdentifier, lastSegment_append, declaredIdentifier]

/-- Making an identifier of a name, dotted or not, gives a text of ASCII letters, digits and
underscores with something in it and no digit in front. The texts of that shape are the ones that
it leaves alone, so making it again changes nothing, and what is in front of a dot has no part. -/
theorem identifier_fixes_identifiers (s : String) :
    (isIdentifier s = true ↔
        s ≠ "" ∧ s.toList.all (fun c => c.isAlphanum || c == '_') = true ∧
          s.toList.head?.any Char.isDigit = false) ∧
      isIdentifier (identifier s) = true ∧ isIdentifier (declaredIdentifier s) = true ∧
      (identifier s = s ↔ isIdentifier s = true) ∧
      (declaredIdentifier s = s ↔ isIdentifier s = true) ∧
      identifier (identifier s) = identifier s ∧
      declaredIdentifier (declaredIdentifier s) = declaredIdentifier s ∧
      declaredIdentifier (identifier s) = identifier s ∧
      ∀ t : String, declaredIdentifier (t ++ "." ++ s) = declaredIdentifier s := by
  refine ⟨isIdentifier_iff, isIdentifier_identifier s, isIdentifier_declaredIdentifier s,
    identifier_eq_self_iff, declaredIdentifier_eq_self_iff, identifier_identifier s,
    declaredIdentifier_declaredIdentifier s, ?_, ?_⟩
  · exact declaredIdentifier_of_isIdentifier (isIdentifier_identifier s)
  · intro t
    exact declaredIdentifier_append t s

end FieldTypes
