import Mathlib.Tactic.Cases
import Mathlib.Tactic.Ring

/-!
# Walks that come back to themselves

A walk hops from one element to the next one as long as there is a next one. Either it ends, or it
comes back to an element that it has visited. From the first such return on it goes round in a
circle.

**Results.**
* `FirstReturn.cycle`, `FirstReturn.endless`: the walk goes round and never ends.
* `FirstReturn.once`: what lies before the circle is visited once.
* `FirstReturn.eq_start`: a walk from an element of a circle returns first to that element.
-/

namespace FieldTypes

section Hops

variable {α : Type} {next : α → Option α}

/-- The element after a number of hops. -/
def hops (next : α → Option α) : Nat → α → Option α
  | 0, a => some a
  | k + 1, a => (next a).bind (hops next k)

theorem hops_succ_of_next {a b : α} (h : next a = some b) (k : Nat) :
    hops next (k + 1) a = hops next k b := by
  simp [hops, h]

theorem hops_add (m n : Nat) (a : α) :
    hops next (m + n) a = (hops next m a).bind (hops next n) := by
  induction m generalizing a with
  | zero =>
      simp [hops]
  | succ m ih =>
      rw [Nat.succ_add, hops, hops]
      cases next a with
      | none =>
          rfl
      | some b =>
          exact ih b

theorem hops_add_of_hops {m : Nat} {a b : α} (h : hops next m a = some b) (n : Nat) :
    hops next (m + n) a = hops next n b := by
  rw [hops_add, h]
  rfl

theorem hops_succ_of_hops {k : Nat} {a b : α} (h : hops next k a = some b) :
    hops next (k + 1) a = next b := by
  rw [hops_add_of_hops h, hops]
  cases next b <;> rfl

/-- A walk that gets somewhere has made all the hops before. -/
theorem hops_ne_none_of_le {m n : Nat} (hmn : m ≤ n) {a : α} (h : hops next n a ≠ none) :
    hops next m a ≠ none := by
  intro hm
  obtain ⟨k, rfl⟩ := Nat.exists_eq_add_of_le hmn
  rw [hops_add, hm] at h
  exact h rfl

theorem hops_mul_of_cycle {m : Nat} {a : α} (h : hops next m a = some a) (c : Nat) :
    hops next (c * m) a = some a := by
  induction c with
  | zero =>
      simp [hops]
  | succ c ih =>
      rw [Nat.succ_mul, hops_add_of_hops ih, h]

theorem hops_ne_none_of_cycle {m : Nat} (hm : 0 < m) {a : α} (h : hops next m a = some a)
    (k : Nat) :
    hops next k a ≠ none := by
  have hround : hops next (k * m) a ≠ none := by
    rw [hops_mul_of_cycle h]
    simp
  exact hops_ne_none_of_le (Nat.le_mul_of_pos_right k hm) hround

/-- From every element of a circle there is a way back to it. -/
theorem exists_cycle_of_hops {m k : Nat} (hm : 0 < m) {a b : α} (h : hops next m a = some a)
    (hb : hops next k a = some b) :
    ∃ n, 0 < n ∧ hops next n b = some b := by
  have hk : k ≤ (k + 1) * m :=
    (Nat.le_succ k).trans (Nat.le_mul_of_pos_right (k + 1) hm)
  obtain ⟨r, hr⟩ := Nat.exists_eq_add_of_le hk
  refine ⟨r + k, ?_, ?_⟩
  · have : k + 1 ≤ (k + 1) * m := Nat.le_mul_of_pos_right (k + 1) hm
    omega
  · have hback : hops next r b = some a := by
      rw [← hops_add_of_hops hb, ← hr, hops_mul_of_cycle h]
    rw [hops_add_of_hops hback, hb]

/-- The walk from `a` comes back to an element for the first time after `n` hops. The element is
`b`, which it visited after `i` hops. -/
structure FirstReturn (next : α → Option α) (a : α) (i n : Nat) (b : α) : Prop where
  lt : i < n
  before : hops next i a = some b
  back : hops next n a = some b
  injective : ∀ k l, k < n → l < n → hops next k a = hops next l a → k = l

namespace FirstReturn

variable {a b : α} {i n : Nat}

theorem cycle (h : FirstReturn next a i n b) :
    hops next (n - i) b = some b := by
  rw [← hops_add_of_hops h.before, Nat.add_sub_cancel' h.lt.le, h.back]

theorem endless (h : FirstReturn next a i n b) (k : Nat) :
    hops next k a ≠ none := by
  have hround : hops next (i + k) a ≠ none := by
    rw [hops_add_of_hops h.before]
    exact hops_ne_none_of_cycle (Nat.sub_pos_of_lt h.lt) h.cycle k
  exact hops_ne_none_of_le (Nat.le_add_left k i) hround

/-- What comes after the first return came before it on the circle. -/
theorem exists_before (h : FirstReturn next a i n b) (k : Nat) (hk : i ≤ k) :
    ∃ l, i ≤ l ∧ l < n ∧ hops next k a = hops next l a := by
  induction k using Nat.strong_induction_on with
  | _ k ih =>
      by_cases hkn : k < n
      · exact ⟨k, hk, hkn, rfl⟩
      · have hlt := h.lt
        have hround : hops next k a = hops next (i + (k - n)) a := by
          rw [hops_add_of_hops h.before, ← hops_add_of_hops h.back]
          congr 1
          omega
        obtain ⟨l, hil, hln, heq⟩ := ih (i + (k - n)) (by omega) (by omega)
        exact ⟨l, hil, hln, hround.trans heq⟩

/-- The elements before the circle are visited once. -/
theorem once (h : FirstReturn next a i n b) {k : Nat} (hk : k < i) {l : Nat}
    (heq : hops next l a = hops next k a) :
    l = k := by
  have hkn : k < n := hk.trans h.lt
  by_cases hl : l < i
  · exact h.injective l k (hl.trans h.lt) hkn heq
  · obtain ⟨m, him, hmn, hm⟩ := h.exists_before l (Nat.le_of_not_lt hl)
    have : m = k := h.injective m k hmn hkn (hm.symm.trans heq)
    omega

/-- A walk that starts on a circle returns first to its start. -/
theorem eq_start (h : FirstReturn next a i n b) {m : Nat} (hm : 0 < m)
    (ha : hops next m a = some a) :
    b = a := by
  by_cases hi : i = 0
  · have := h.before
    rw [hi, hops, Option.some.injEq] at this
    exact this.symm
  · -- Otherwise the start would be visited again after `n - i` hops, before the first return.
    have hlt := h.lt
    have hback : hops next (n - i) a = some a := by
      have hround : hops next (i * m - i) b = some a := by
        rw [← hops_add_of_hops h.before, Nat.add_sub_cancel' (Nat.le_mul_of_pos_right i hm),
          hops_mul_of_cycle ha]
      have hlong : hops next (n + (i * m - i)) a = some a := by
        rw [hops_add_of_hops h.back, hround]
      have hsplit : n + (i * m - i) = i * m + (n - i) := by
        have := Nat.le_mul_of_pos_right i hm
        omega
      rw [hsplit, hops_add_of_hops (hops_mul_of_cycle ha i)] at hlong
      exact hlong
    have : n - i = 0 := h.injective (n - i) 0 (by omega) (by omega) hback
    omega

end FirstReturn

end Hops
end FieldTypes
