import FieldTypes.Proofs.Answers
import FieldTypes.Proofs.NormalForm
import FieldTypes.Resolution
import Mathlib.Data.List.Nodup

/-!
# What resolution does to a journal

All that a computation does to its journal is loading documents and giving warnings, one after the
other. `Journal.Reaches` is the relation that this makes. What one loading keeps is therefore kept
by every computation: the answers that the cache would give (its view), and the uses of the cache
that were noted.

**Results.**
* `Cache.view_load`, `Cache.WellFormed.load`: loading changes no answer and keeps a cache
  well-formed.
* `Cache.loadsAtMost`: how many paths can have a document.
* `Journal.Reaches.view_eq`, `Journal.Reaches.lookups`: what every computation keeps.
-/

namespace FieldTypes

/-- Among the answers, no more than `n` are documents. -/
def LoadsAtMost (v : Path → Except LoadError Document) (n : Nat) : Prop :=
  ∀ ps : List Path, ps.Nodup → (∀ p ∈ ps, ∃ d, v p = .ok d) → ps.length ≤ n

theorem LoadsAtMost.mono {v : Path → Except LoadError Document} {m n : Nat}
    (h : LoadsAtMost v m) (hmn : m ≤ n) :
    LoadsAtMost v n :=
  fun ps hnodup hloads => Nat.le_trans (h ps hnodup hloads) hmn

namespace Cache

/-- What the cache of a resolver is like at every moment. -/
structure WellFormed (c : Cache) : Prop where
  nodup : c.keys.Nodup
  normal : ∀ k ∈ c.keys, k.normalize = k
  path_eq : ∀ {k d}, (k, Except.ok d) ∈ c.entries → d.path = k

theorem WellFormed.empty : WellFormed {} where
  nodup := by simp [keys]
  normal := by simp [keys]
  path_eq := by simp

section Load

variable {s : Source} {c : Cache} {p k : Path}

theorem mem_entries_of_find? {a : Except LoadError Document} (h : c.find? k = some a) :
    (k, a) ∈ c.entries :=
  mem_of_lookup_eq_some h

theorem find?_eq_none_iff : c.find? k = none ↔ k ∉ c.keys := by
  rw [find?, List.lookup_eq_none_iff]
  simp only [keys, List.mem_map, not_exists, not_and]
  constructor
  · intro h e he hk
    have := h e he
    simp [hk] at this
  · intro h e he
    simpa using fun hk => h e he hk.symm

theorem load_of_find? {a : Except LoadError Document} (h : c.find? p.normalize = some a) :
    c.load s p = (a, c) := by
  simp [load, h]

theorem load_of_find?_eq_none (h : c.find? p.normalize = none) :
    c.load s p =
      (s.fetch p.normalize, ⟨c.entries ++ [(p.normalize, s.fetch p.normalize)]⟩) := by
  simp [load, h]

theorem view_of_find? {a : Except LoadError Document} (h : c.find? k = some a) :
    c.view s k = a := by
  simp [view, h]

theorem view_of_find?_eq_none (h : c.find? k = none) :
    c.view s k = s.fetch k := by
  simp [view, h]

/-- After loading a path, the cache keeps the answer for it, and nothing else is new. -/
theorem find?_load :
    (c.load s p).2.find? k = if k = p.normalize then some (c.view s k) else c.find? k := by
  cases h : c.find? p.normalize with
  | some a =>
      rw [load_of_find? h]
      split_ifs with hk
      · rw [hk, h, view_of_find? h]
      · rfl
  | none =>
      rw [load_of_find?_eq_none h]
      simp only [find?, List.lookup_append]
      split_ifs with hk
      · subst hk
        rw [show c.entries.lookup p.normalize = none from h, view_of_find?_eq_none h]
        simp
      · have hne : (k == p.normalize) = false := by simpa using hk
        simp [List.lookup_cons, hne]

/-- Loading changes no answer. -/
theorem view_load :
    (c.load s p).2.view s = c.view s := by
  funext k
  rw [view, find?_load]
  split_ifs with hk
  · rfl
  · rfl

theorem entries_prefix_load :
    c.entries <+: (c.load s p).2.entries := by
  cases h : c.find? p.normalize with
  | some a =>
      have hsame : (c.load s p).2 = c := by
        rw [load_of_find? h]
      exact ⟨[], by rw [hsame, List.append_nil]⟩
  | none =>
      rw [load_of_find?_eq_none h]
      exact List.prefix_append _ _

theorem mem_keys_load :
    k ∈ (c.load s p).2.keys ↔ k ∈ c.keys ∨ k = p.normalize := by
  rw [← not_iff_not, ← find?_eq_none_iff, find?_load, not_or, ← find?_eq_none_iff]
  split_ifs with hk
  · simp [hk]
  · simp [hk]

theorem mem_entries_load {e : Path × Except LoadError Document}
    (h : e ∈ (c.load s p).2.entries) :
    e ∈ c.entries ∨ e = (p.normalize, c.view s p.normalize) := by
  cases hfind : c.find? p.normalize with
  | some a =>
      rw [load_of_find? hfind] at h
      exact Or.inl h
  | none =>
      rw [load_of_find?_eq_none hfind, List.mem_append, List.mem_singleton] at h
      rwa [view_of_find?_eq_none hfind]

/-- The entry at the position of a path is the one for its normal form. -/
theorem getElem?_position {a : Except LoadError Document} (h : c.find? p.normalize = some a) :
    c.entries[c.position p]? = some (p.normalize, a) := by
  obtain ⟨l₁, l₂, heq, hnew⟩ := List.lookup_eq_some_iff.1 h
  have hkeys : p.normalize ∉ l₁.map (·.1) := by
    intro hin
    obtain ⟨e, he, hkey⟩ := List.mem_map.1 hin
    simpa [hkey] using hnew e he
  have hposition : c.position p = l₁.length := by
    rw [position, keys, heq, List.map_append, List.idxOf_append_of_notMem hkeys]
    simp
  rw [hposition, heq]
  simp

theorem WellFormed.load (hc : c.WellFormed) :
    (c.load s p).2.WellFormed := by
  cases h : c.find? p.normalize with
  | some a =>
      rw [load_of_find? h]
      exact hc
  | none =>
      rw [load_of_find?_eq_none h]
      refine ⟨?_, ?_, ?_⟩
      · have hkeys : p.normalize ∉ c.keys := find?_eq_none_iff.1 h
        simp only [keys, List.map_append, List.map_cons, List.map_nil]
        exact List.nodup_append.2 ⟨hc.nodup, by simp, by
          intro k hk l hl
          rw [List.mem_singleton] at hl
          rintro rfl
          exact hkeys (hl ▸ hk)⟩
      · intro k hk
        simp only [keys, List.map_append, List.map_cons, List.map_nil, List.mem_append,
          List.mem_singleton] at hk
        rcases hk with hk | rfl
        · exact hc.normal k hk
        · exact p.normalize_normalize
      · intro k d hd
        rw [List.mem_append, List.mem_singleton] at hd
        rcases hd with hd | hd
        · exact hc.path_eq hd
        · rw [Prod.mk.injEq] at hd
          rw [hd.1]
          exact s.path_of_fetch hd.2.symm

/-- A document that a cache answers with is the one that was asked for. -/
theorem WellFormed.path_of_view
    (hc : c.WellFormed) {d : Document} (h : c.view s k = .ok d) :
    d.path = k := by
  cases hk : c.find? k with
  | none =>
      rw [view_of_find?_eq_none hk] at h
      exact s.path_of_fetch h
  | some a =>
      rw [view_of_find? hk] at h
      subst h
      exact hc.path_eq (mem_entries_of_find? hk)

end Load

/-- Different paths that have a document are kept in the cache or are in the source. -/
theorem loadsAtMost (s : Source) (c : Cache) :
    LoadsAtMost (c.view s) (c.size + s.capacity) := by
  intro ps hnodup hloads
  have hkept : (ps.filter (· ∈ c.keys)).length ≤ c.size := by
    have hsub : ps.filter (· ∈ c.keys) ⊆ c.keys := by
      intro p hp
      simpa using (List.mem_filter.1 hp).2
    have := (hnodup.filter _).length_le_of_subset hsub
    simpa [keys, size] using this
  have hnew : (ps.filter fun p => !decide (p ∈ c.keys)).length ≤ s.capacity := by
    refine s.length_le_capacity (hnodup.filter _) ?_
    intro p hp
    obtain ⟨hp, hkey⟩ := List.mem_filter.1 hp
    obtain ⟨d, hd⟩ := hloads p hp
    have hnone : c.find? p = none := find?_eq_none_iff.2 (by simpa using hkey)
    exact ⟨d, by rw [← hd, view_of_find?_eq_none hnone]⟩
  have hsplit := List.length_eq_length_filter_add (l := ps) (· ∈ c.keys)
  omega

end Cache

namespace Journal

/-- The answers that loading from the journal would give. -/
def view (s : Source) (j : Journal) : Path → Except LoadError Document :=
  j.cache.view s

theorem loadsAtMost (s : Source) (j : Journal) :
    LoadsAtMost (j.view s) (j.cache.size + s.capacity) :=
  j.cache.loadsAtMost s

/-- The journals that loading documents and giving warnings leads to. -/
inductive Reaches (s : Source) (j : Journal) : Journal → Prop
  | refl : Reaches s j j
  | load {k : Journal} (p : Path) : Reaches s j k → Reaches s j (Resolving.load s p k).2
  | warn {k : Journal} (w : Warning) : Reaches s j k → Reaches s j (Resolving.warn w k).2

end Journal

namespace Resolving

variable {s : Source} {p : Path} {j : Journal} {a : Except LoadError Document}

theorem load_fst :
    (load s p j).1 = j.view s p.normalize :=
  Cache.load_fst s j.cache p

/-- What loading gives, with the answer read off the view. -/
theorem load_eq (h : j.view s p.normalize = a) :
    load s p j = (a, (load s p j).2) :=
  Prod.ext (load_fst.trans h) rfl

theorem cache_load :
    (load s p j).2.cache = (j.cache.load s p).2 :=
  rfl

end Resolving

namespace Journal

section Reaches

variable {s : Source} {i j k : Journal}

theorem Reaches.trans (hij : i.Reaches s j) (hjk : j.Reaches s k) :
    i.Reaches s k := by
  induction hjk with
  | refl =>
      exact hij
  | load p _ ih =>
      exact ih.load p
  | warn w _ ih =>
      exact ih.warn w

theorem Reaches.view_eq (h : j.Reaches s k) :
    k.view s = j.view s := by
  induction h with
  | refl =>
      rfl
  | load p _ ih =>
      rw [← ih]
      exact Cache.view_load
  | warn w _ ih =>
      exact ih

theorem Reaches.lookups (h : j.Reaches s k) :
    j.lookups <+: k.lookups := by
  induction h with
  | refl =>
      exact List.prefix_refl _
  | load p _ ih =>
      exact ih.trans (List.prefix_append _ _)
  | warn w _ ih =>
      exact ih

end Reaches

end Journal
end FieldTypes
