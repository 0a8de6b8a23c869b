/-!
# Answers and tables

Readers, file trees and loaders give an answer or a reason why there is none. What is computed in
steps has an answer if each step has; what is computed for a list, if it has one for each of its
entries. What a table has for a key is one of its entries.

**Results.**
* `exists_of_bind_eq_ok`: the answer of the first step.
* `mapM_eq_ok_iff`, `mapM_ok_or_error`: answers for a whole list, or a reason from one of its
  entries.
* `mem_of_lookup_eq_some`: the entry that a look-up comes upon.
-/

namespace FieldTypes

section Answers

variable {ε α β : Type}

theorem exists_of_isOk {x : Except ε α} (h : x.isOk = true) :
    ∃ a, x = .ok a := by
  cases x with
  | error e =>
      cases h
  | ok a =>
      exact ⟨a, rfl⟩

/-- A computation that has an answer comes to it together with its last state. -/
theorem exists_fst_eq_ok {r : Except ε α × β} (h : r.1.isOk = true) :
    ∃ a, r = (.ok a, r.2) := by
  obtain ⟨a, ha⟩ := exists_of_isOk h
  exact ⟨a, Prod.ext ha rfl⟩

theorem exists_of_bind_eq_ok {x : Except ε α} {f : α → Except ε β} {b : β}
    (h : x >>= f = .ok b) :
    ∃ a, x = .ok a ∧ f a = .ok b := by
  cases x with
  | error e =>
      cases h
  | ok a =>
      exact ⟨a, rfl, h⟩

/-- A list is mapped to the answers for its entries, and to nothing where one of them has none. -/
theorem mapM_eq_ok_iff {f : α → Except ε β} {xs : List α} {ys : List β} :
    xs.mapM f = .ok ys ↔ xs.map f = ys.map .ok := by
  induction xs generalizing ys with
  | nil =>
      cases ys <;> simp [pure, Except.pure]
  | cons x xs ih =>
      rw [List.mapM_cons, List.map_cons]
      cases hx : f x with
      | error e =>
          cases ys <;> simp [bind, Except.bind]
      | ok y =>
          cases hys : xs.mapM f with
          | error e =>
              cases ys <;> simp [bind, Except.bind, ← ih, hys]
          | ok zs =>
              cases ys <;> simp [bind, Except.bind, pure, Except.pure, ← ih, hys]

/-- What a list is mapped to are the answers for its entries. -/
theorem answers_of_mapM_eq_ok {f : α → Except ε β} {xs : List α} {ys : List β}
    (h : xs.mapM f = .ok ys) :
    (∀ x ∈ xs, ∃ y ∈ ys, f x = .ok y) ∧ ∀ y ∈ ys, ∃ x ∈ xs, f x = .ok y := by
  have hmap := mapM_eq_ok_iff.1 h
  constructor
  · intro x hx
    have hanswer : f x ∈ ys.map .ok := hmap ▸ List.mem_map_of_mem hx
    obtain ⟨y, hy, hxy⟩ := List.mem_map.1 hanswer
    exact ⟨y, hy, hxy.symm⟩
  · intro y hy
    have hanswer : .ok y ∈ xs.map f := hmap ▸ List.mem_map_of_mem hy
    exact List.mem_map.1 hanswer

theorem exists_of_mapM_eq_error {f : α → Except ε β} {xs : List α} {e : ε}
    (h : xs.mapM f = .error e) :
    ∃ x ∈ xs, f x = .error e := by
  induction xs with
  | nil =>
      cases h
  | cons x xs ih =>
      rw [List.mapM_cons] at h
      cases hx : f x with
      | error e' =>
          rw [hx] at h
          cases h
          exact ⟨x, by simp, hx⟩
      | ok y =>
          rw [hx] at h
          cases hys : xs.mapM f with
          | error e' =>
              rw [hys] at h
              cases h
              obtain ⟨x', hx', he⟩ := ih hys
              exact ⟨x', by simp [hx'], he⟩
          | ok ys =>
              rw [hys] at h
              cases h

/-- Either all are mapped, or one of them fails and so do all. -/
theorem mapM_ok_or_error (f : α → Except ε β) (xs : List α) :
    (∃ ys, xs.mapM f = .ok ys ∧ (∀ x ∈ xs, ∃ y ∈ ys, f x = .ok y) ∧
      ∀ y ∈ ys, ∃ x ∈ xs, f x = .ok y) ∨
    ∃ x ∈ xs, ∃ e, f x = .error e ∧ xs.mapM f = .error e := by
  cases h : xs.mapM f with
  | ok ys =>
      exact Or.inl ⟨ys, rfl, answers_of_mapM_eq_ok h⟩
  | error e =>
      obtain ⟨x, hx, he⟩ := exists_of_mapM_eq_error h
      exact Or.inr ⟨x, hx, e, he, rfl⟩

end Answers

theorem mem_of_lookup_eq_some {α β : Type} [BEq α] [LawfulBEq α] {entries : List (α × β)} {a : α}
    {b : β} (h : entries.lookup a = some b) :
    (a, b) ∈ entries := by
  obtain ⟨before, after, rfl, -⟩ := List.lookup_eq_some_iff.1 h
  simp

end FieldTypes
