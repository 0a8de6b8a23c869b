import FieldTypes.Json.Parser
import FieldTypes.Proofs.Answers
import Mathlib.Tactic.SplitIfs

/-!
# What readers accept

Each reader of arrays, objects and values, as a statement of what it accepts: an array is its end,
or an element and what may stand behind it. What a reader says where it gives up is left out.

**Results.**
* `Json.moreElements_eq_ok_iff`, `Json.arrayBody_eq_ok_iff`: the elements of an array.
* `Json.moreMembers_eq_ok_iff`, `Json.objectBody_eq_ok_iff`: the members of an object.
* `Json.valueOf_eq_ok_iff`: a value is an array, an object, or one that needs no reader of others.
-/

namespace FieldTypes
namespace Json

variable {α β : Type} {n i : Nat} {value : Reader Json} {cs rest : List Char} {v : Json}
  {m : String × Json} {vs : List Json} {ms : List (String × Json)}

theorem inside_eq_ok_iff {step : Step} {x : Except Stop α} {a : α} :
    inside step x = .ok a ↔ x = .ok a := by
  cases x <;> simp [inside]

/-- An element stands in front: what is read of it, and what is left behind it. -/
def ElementAt (value : Reader Json) (cs : List Char) (v : Json) (rest : List Char) : Prop :=
  ∃ c after, skipBlanks cs = c :: after ∧ c ≠ ']' ∧ value (c :: after) = .ok (v, rest)

/-- A member stands in front: what is read of it, and what is left behind it. -/
def MemberAt (value : Reader Json) (cs : List Char) (m : String × Json) (rest : List Char) : Prop :=
  ∃ after, skipBlanks cs = '"' :: after ∧ member value after = .ok (m, rest)

theorem moreElements_eq_ok_iff :
    moreElements value (n + 1) i cs = .ok (vs, rest) ↔
      skipBlanks cs = ']' :: rest ∧ vs = [] ∨
        ∃ after v behind ws, skipBlanks cs = ',' :: after ∧ ElementAt value after v behind ∧
          moreElements value n (i + 1) behind = .ok (ws, rest) ∧ vs = v :: ws := by
  constructor
  · intro h
    unfold moreElements at h
    split at h
    · cases h
    · next hcs =>
        cases h
        exact Or.inl ⟨hcs, rfl⟩
    · next after hcs =>
        right
        cases hafter : skipBlanks after with
        | nil =>
            simp only [hafter] at h
            cases h
        | cons c tail =>
            simp only [hafter] at h
            split at h
            · next heq =>
                cases heq
            · cases h
            · next hend =>
                obtain ⟨⟨v, behind⟩, hv, h⟩ := exists_of_bind_eq_ok h
                obtain ⟨⟨ws, behind'⟩, hws, h⟩ := exists_of_bind_eq_ok h
                cases h
                refine ⟨after, v, behind, ws, hcs, ⟨c, tail, hafter, ?_, inside_eq_ok_iff.1 hv⟩,
                  hws, rfl⟩
                rintro rfl
                exact hend tail rfl
    · cases h
  · rintro (⟨hcs, rfl⟩ | ⟨after, v, behind, ws, hcs, ⟨c, tail, htail, hc, hv⟩, hws, rfl⟩)
    · rw [moreElements, hcs]
      rfl
    · rw [moreElements, hcs]
      simp only [htail]
      split
      · next heq =>
          cases heq
      · next heq =>
          cases heq
          exact absurd rfl hc
      · simp only [hv, inside, bind, Except.bind, hws]

theorem arrayBody_eq_ok_iff :
    arrayBody value n cs = .ok (vs, rest) ↔
      skipBlanks cs = ']' :: rest ∧ vs = [] ∨
        ∃ v behind ws, ElementAt value cs v behind ∧
          moreElements value n 1 behind = .ok (ws, rest) ∧ vs = v :: ws := by
  constructor
  · intro h
    unfold arrayBody at h
    cases hcs : skipBlanks cs with
    | nil =>
        simp only [hcs] at h
        cases h
    | cons c tail =>
        simp only [hcs] at h
        split at h
        · next heq =>
            cases heq
        · next heq =>
            cases heq
            cases h
            exact Or.inl ⟨rfl, rfl⟩
        · next hend =>
            right
            obtain ⟨⟨v, behind⟩, hv, h⟩ := exists_of_bind_eq_ok h
            obtain ⟨⟨ws, behind'⟩, hws, h⟩ := exists_of_bind_eq_ok h
            cases h
            refine ⟨v, behind, ws, ⟨c, tail, hcs, ?_, inside_eq_ok_iff.1 hv⟩, hws, rfl⟩
            rintro rfl
            exact hend tail rfl
  · rintro (⟨hcs, rfl⟩ | ⟨v, behind, ws, ⟨c, tail, htail, hc, hv⟩, hws, rfl⟩)
    · rw [arrayBody, hcs]
      rfl
    · rw [arrayBody, htail]
      split
      · next heq =>
          cases heq
      · next heq =>
          cases heq
          exact absurd rfl hc
      · simp only [hv, inside, bind, Except.bind, hws]

theorem member_eq_ok_iff :
    member value cs = .ok (m, rest) ↔
      ∃ colon after, text cs = .ok (m.1, colon) ∧ skipBlanks colon = ':' :: after ∧
        value after = .ok (m.2, rest) := by
  constructor
  · intro h
    obtain ⟨⟨key, colon⟩, hkey, h⟩ := exists_of_bind_eq_ok h
    simp only at h
    split at h
    · cases h
    · next after hcolon =>
        obtain ⟨⟨v, behind⟩, hv, h⟩ := exists_of_bind_eq_ok h
        cases h
        exact ⟨colon, after, inside_eq_ok_iff.1 hkey, hcolon, inside_eq_ok_iff.1 hv⟩
    · cases h
  · rintro ⟨colon, after, hkey, hcolon, hv⟩
    simp only [member, hkey, inside, bind, Except.bind]
    rw [hcolon]
    simp only [hv]

theorem moreMembers_eq_ok_iff :
    moreMembers value (n + 1) cs = .ok (ms, rest) ↔
      skipBlanks cs = '\x7d' :: rest ∧ ms = [] ∨
        ∃ after m behind ms', skipBlanks cs = ',' :: after ∧ MemberAt value after m behind ∧
          moreMembers value n behind = .ok (ms', rest) ∧ ms = m :: ms' := by
  constructor
  · intro h
    unfold moreMembers at h
    split at h
    · cases h
    · next hcs =>
        cases h
        exact Or.inl ⟨hcs, rfl⟩
    · next after hcs =>
        right
        split at h
        · cases h
        · next tail htail =>
            obtain ⟨⟨m, behind⟩, hm, h⟩ := exists_of_bind_eq_ok h
            obtain ⟨⟨ms', behind'⟩, hms, h⟩ := exists_of_bind_eq_ok h
            cases h
            exact ⟨after, m, behind, ms', hcs, ⟨tail, htail, hm⟩, hms, rfl⟩
        · cases h
        · cases h
    · cases h
  · rintro (⟨hcs, rfl⟩ | ⟨after, m, behind, ms', hcs, ⟨tail, htail, hm⟩, hms, rfl⟩)
    · rw [moreMembers, hcs]
      rfl
    · rw [moreMembers, hcs]
      simp only [htail, hm, bind, Except.bind, hms]

theorem objectBody_eq_ok_iff :
    objectBody value n cs = .ok (ms, rest) ↔
      skipBlanks cs = '\x7d' :: rest ∧ ms = [] ∨
        ∃ m behind ms', MemberAt value cs m behind ∧
          moreMembers value n behind = .ok (ms', rest) ∧ ms = m :: ms' := by
  constructor
  · intro h
    unfold objectBody at h
    split at h
    · cases h
    · next hcs =>
        cases h
        exact Or.inl ⟨hcs, rfl⟩
    · next tail htail =>
        obtain ⟨⟨m, behind⟩, hm, h⟩ := exists_of_bind_eq_ok h
        obtain ⟨⟨ms', behind'⟩, hms, h⟩ := exists_of_bind_eq_ok h
        cases h
        exact Or.inr ⟨m, behind, ms', ⟨tail, htail, hm⟩, hms, rfl⟩
    · cases h
  · rintro (⟨hcs, rfl⟩ | ⟨m, behind, ms', ⟨tail, htail, hm⟩, hms, rfl⟩)
    · rw [objectBody, hcs]
      rfl
    · rw [objectBody, htail]
      simp only [hm, bind, Except.bind, hms]

theorem valueOf_of_bracket {inner : Option (Reader Json)} {after : List Char}
    (hcs : skipBlanks cs = '[' :: after) :
    valueOf n inner cs = .ok (v, rest) ↔
      ∃ value vs, inner = some value ∧ arrayBody value n after = .ok (vs, rest) ∧
        v = .array vs := by
  rw [valueOf, hcs]
  cases inner with
  | none =>
      simp
  | some value =>
      constructor
      · intro h
        obtain ⟨⟨vs, behind⟩, hvs, h⟩ := exists_of_bind_eq_ok h
        cases h
        exact ⟨value, vs, rfl, hvs, rfl⟩
      · rintro ⟨_, vs, ⟨⟩, hvs, rfl⟩
        simp only [hvs, bind, Except.bind]

theorem valueOf_of_brace {inner : Option (Reader Json)} {after : List Char}
    (hcs : skipBlanks cs = '\x7b' :: after) :
    valueOf n inner cs = .ok (v, rest) ↔
      ∃ value ms, inner = some value ∧ objectBody value n after = .ok (ms, rest) ∧
        v = .ofMembers ms := by
  rw [valueOf, hcs]
  cases inner with
  | none =>
      simp
  | some value =>
      constructor
      · intro h
        obtain ⟨⟨ms, behind⟩, hms, h⟩ := exists_of_bind_eq_ok h
        cases h
        exact ⟨value, ms, rfl, hms, rfl⟩
      · rintro ⟨_, ms, ⟨⟩, hms, rfl⟩
        simp only [hms, bind, Except.bind]

/-- Without a bracket or a brace in front no reader of the values inside is asked for. -/
theorem valueOf_of_neither {inner : Option (Reader Json)}
    (harray : ∀ after, skipBlanks cs ≠ '[' :: after)
    (hobject : ∀ after, skipBlanks cs ≠ '\x7b' :: after) :
    valueOf n inner cs = valueOf n none cs := by
  unfold valueOf
  split
  case h_6 after hcs =>
      exact absurd hcs (harray after)
  case h_7 after hcs =>
      exact absurd hcs (hobject after)
  all_goals rfl

/-- A value is an array or an object, if there is a reader for what is inside, or else one that is
read without such a reader. -/
theorem valueOf_eq_ok_iff {inner : Option (Reader Json)} :
    valueOf n inner cs = .ok (v, rest) ↔
      (∃ value after vs, inner = some value ∧ skipBlanks cs = '[' :: after ∧
        arrayBody value n after = .ok (vs, rest) ∧ v = .array vs) ∨
      (∃ value after ms, inner = some value ∧ skipBlanks cs = '\x7b' :: after ∧
        objectBody value n after = .ok (ms, rest) ∧ v = .ofMembers ms) ∨
      valueOf n none cs = .ok (v, rest) := by
  constructor
  · intro h
    by_cases harray : ∃ after, skipBlanks cs = '[' :: after
    · obtain ⟨after, hcs⟩ := harray
      obtain ⟨value, vs, hinner, hvs, hv⟩ := (valueOf_of_bracket hcs).1 h
      exact Or.inl ⟨value, after, vs, hinner, hcs, hvs, hv⟩
    by_cases hobject : ∃ after, skipBlanks cs = '\x7b' :: after
    · obtain ⟨after, hcs⟩ := hobject
      obtain ⟨value, ms, hinner, hms, hv⟩ := (valueOf_of_brace hcs).1 h
      exact Or.inr (Or.inl ⟨value, after, ms, hinner, hcs, hms, hv⟩)
    · rw [valueOf_of_neither (not_exists.1 harray) (not_exists.1 hobject)] at h
      exact Or.inr (Or.inr h)
  · rintro (⟨value, after, vs, hinner, hcs, hvs, hv⟩ | ⟨value, after, ms, hinner, hcs, hms, hv⟩ | h)
    · exact (valueOf_of_bracket hcs).2 ⟨value, vs, hinner, hvs, hv⟩
    · exact (valueOf_of_brace hcs).2 ⟨value, ms, hinner, hms, hv⟩
    · rw [valueOf_of_neither, h]
      · intro after hcs
        obtain ⟨_, _, ⟨⟩, -⟩ := (valueOf_of_bracket hcs).1 h
      · intro after hcs
        obtain ⟨_, _, ⟨⟩, -⟩ := (valueOf_of_brace hcs).1 h

end Json
end FieldTypes
