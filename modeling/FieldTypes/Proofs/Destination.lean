import FieldTypes.FileTree
import FieldTypes.Proofs.NormalForm

/-!
# Where paths lead

Without links, the place that a path leads to can be computed from its components and the working
directory: a name goes further in, a `..` goes out, and at the root there is no way out. The file
tree only decides whether the path leads anywhere. Folding takes a name away together with the `..`
behind it, so a path and its normal form lead to one place.

The converse does not hold: a relative path and an absolute one may lead to one place, and so may
relative paths that climb to different directories first. Where a path begins to go down is its
anchor, and paths with one anchor that lead to one place have the same normal form.

**Results.**
* `FileTree.follow_eq_destination`: the place that a path leads to, where it leads anywhere.
* `Path.destination_normalize`: a path and its normal form lead to one place.
* `Path.normalize_eq_iff`: when two paths have one normal form.
-/

namespace FieldTypes

/-- The place that one more component leads to. -/
def Component.move (place : Place) : Component → Place
  | .root => []
  | .here => place
  | .up => place.dropLast
  | .name n => place ++ [n]

namespace Path

/-- The place that a path leads to from the directory `start`, by its components alone. -/
def destination (start : Place) (p : Path) : Place :=
  p.components.foldl Component.move start

/-- Where the normal form of a path begins to go down: at the root, or that many directories above
the working directory. -/
def anchor (p : Path) : Option Nat :=
  if p.isAbsolute then none else some (p.normalComponents.count .up)

end Path

section Follow

variable {t : FileTree} {place place' : Place} {p : Path}

theorem FileTree.step_eq_move {s : List Char} (h : t.step place s = .ok place') :
    place' = (Component.ofSegment? s).elim place (Component.move place) := by
  unfold step at h
  cases hnode : t.nodeAt place with
  | none =>
      rw [hnode] at h
      cases h
  | some n =>
      rw [hnode] at h
      cases n with
      | file bytes =>
          cases h
      | directory =>
          simp only at h
          unfold Component.ofSegment?
          split_ifs at h ⊢ with hidle hup <;> cases h <;> rfl

theorem FileTree.foldlM_step_eq_foldl {ss : List (List Char)}
    (h : ss.foldlM t.step place = .ok place') :
    place' = (ss.filterMap Component.ofSegment?).foldl Component.move place := by
  induction ss generalizing place with
  | nil =>
      cases h
      rfl
  | cons s ss ih =>
      rw [List.foldlM_cons] at h
      cases hs : t.step place s with
      | error e =>
          rw [hs] at h
          cases h
      | ok next =>
          rw [hs] at h
          have hnext := step_eq_move hs
          rw [ih h, List.filterMap_cons]
          cases hc : Component.ofSegment? s with
          | none =>
              rw [hc] at hnext
              rw [hnext]
              rfl
          | some c =>
              rw [hc] at hnext
              rw [hnext]
              rfl

/-- An absolute path has an empty segment in front, and others behind it. -/
theorem Path.isAbsolute_iff_segments :
    p.isAbsolute = true ↔ ∃ s ss, p.segments = [] :: s :: ss := by
  unfold isAbsolute
  constructor
  · intro h
    cases htext : p.text.toList with
    | nil =>
        simp [htext] at h
    | cons c body =>
        obtain rfl : c = '/' := by simpa [htext] using h
        obtain ⟨s, ss, hbody⟩ := List.exists_cons_of_ne_nil (List.splitOn_ne_nil '/' body)
        exact ⟨s, ss, by simp [segments, htext, List.splitOn_cons_eq_if_modifyHead, hbody]⟩
  · rintro ⟨s, ss, h⟩
    rw [← p.intercalate_segments, h]
    simp

theorem Path.components_of_isAbsolute (h : p.isAbsolute = true) :
    p.components = .root :: p.segments.filterMap Component.ofSegment? := by
  obtain ⟨s, ss, hsegments⟩ := isAbsolute_iff_segments.1 h
  have hempty : Component.ofSegment? [] = none := rfl
  simp only [components, hsegments]
  rw [List.filterMap_cons_none hempty]
  rfl

/-- What a relative path says is what its segments stand for, apart from a leading `.`. -/
theorem Path.components_of_not_isAbsolute (h : p.isAbsolute = false) :
    p.components = p.segments.filterMap Component.ofSegment? ∨
      p.components = .here :: p.segments.filterMap Component.ofSegment? := by
  cases hsegments : p.segments with
  | nil =>
      exact absurd hsegments (List.splitOn_ne_nil '/' _)
  | cons s ss =>
      have hfirst : ¬ (s = [] ∧ ss ≠ []) := by
        rintro ⟨rfl, hss⟩
        obtain ⟨s', ss', rfl⟩ := List.exists_cons_of_ne_nil hss
        rw [isAbsolute_iff_segments.2 ⟨s', ss', hsegments⟩] at h
        cases h
      simp only [components, hsegments, Component.ofFirstSegment?, if_neg hfirst]
      split_ifs with hhere
      · subst hhere
        exact Or.inr rfl
      · left
        cases hs : Component.ofSegment? s with
        | none =>
            rw [List.filterMap_cons_none hs]
            rfl
        | some c =>
            rw [List.filterMap_cons_some hs]
            rfl

/-- Where a path leads anywhere, it leads to the place that its components say. -/
theorem FileTree.follow_eq_destination (h : t.follow p = .ok place) :
    place = p.destination t.workingDirectory := by
  have hsegments : p.segments.foldlM t.step (t.start p) = .ok place := by
    unfold follow at h
    cases hvet : vet p with
    | error e =>
        rw [hvet] at h
        cases h
    | ok u =>
        rw [hvet] at h
        exact h
  rw [foldlM_step_eq_foldl hsegments, Path.destination, start]
  cases habsolute : p.isAbsolute with
  | true =>
      rw [Path.components_of_isAbsolute habsolute]
      rfl
  | false =>
      rcases Path.components_of_not_isAbsolute habsolute with hcomponents | hcomponents <;>
        rw [hcomponents] <;> rfl

end Follow

namespace Path

section Anchor

variable {p q : Path} {start : Place}

/-- Folding one more component leads to where the component itself does. -/
theorem foldl_move_fold (start : Place) (kept : List Component) (c : Component) :
    (fold kept c).reverse.foldl Component.move start =
      Component.move (kept.reverse.foldl Component.move start) c := by
  unfold fold
  split
  · rfl
  · simp [Component.move]
  · rfl
  · simp

theorem foldl_move_foldl_fold (start : Place) (cs kept : List Component) :
    (cs.foldl fold kept).reverse.foldl Component.move start =
      cs.foldl Component.move (kept.reverse.foldl Component.move start) := by
  induction cs generalizing kept with
  | nil =>
      rfl
  | cons c cs ih =>
      rw [List.foldl_cons, ih, foldl_move_fold, List.foldl_cons]

theorem destination_eq (start : Place) (p : Path) :
    p.destination start = p.normalComponents.foldl Component.move start :=
  (foldl_move_foldl_fold start p.components []).symm

/-- A path and its normal form lead to one place. -/
@[simp] theorem destination_normalize (start : Place) (p : Path) :
    p.normalize.destination start = p.destination start := by
  rw [destination_eq, normalComponents_normalize, destination_eq]

theorem root_mem_fold {kept : List Component} (h : .root ∈ kept) (c : Component) :
    .root ∈ fold kept c := by
  unfold fold
  split
  · exact h
  · simpa using h
  · exact h
  · exact List.mem_cons_of_mem _ h

theorem root_mem_foldl {kept : List Component} (h : .root ∈ kept) (cs : List Component) :
    .root ∈ cs.foldl fold kept := by
  induction cs generalizing kept with
  | nil =>
      exact h
  | cons c cs ih =>
      exact ih (root_mem_fold h c)

theorem root_notMem_filterMap (segments : List (List Char)) :
    .root ∉ segments.filterMap Component.ofSegment? := by
  intro h
  obtain ⟨s, -, hs⟩ := List.mem_filterMap.1 h
  unfold Component.ofSegment? at hs
  split_ifs at hs <;> cases hs

/-- The normal form of an absolute path has the root, and that of a relative path does not. -/
theorem root_mem_normalComponents :
    .root ∈ p.normalComponents ↔ p.isAbsolute = true := by
  rw [normalComponents, List.mem_reverse]
  cases h : p.isAbsolute with
  | true =>
      rw [components_of_isAbsolute h, List.foldl_cons]
      exact iff_of_true (root_mem_foldl (by simp [fold]) _) rfl
  | false =>
      refine iff_of_false ?_ (by simp)
      intro hroot
      have hcomponents : Component.root ∈ p.components := by
        simpa using mem_of_mem_foldl hroot
      rcases components_of_not_isAbsolute h with heq | heq <;> rw [heq] at hcomponents
      · exact root_notMem_filterMap _ hcomponents
      · exact root_notMem_filterMap _ (by simpa using hcomponents)

@[simp] theorem isAbsolute_normalize (p : Path) :
    p.normalize.isAbsolute = p.isAbsolute := by
  rw [Bool.eq_iff_iff, ← root_mem_normalComponents, normalComponents_normalize,
    root_mem_normalComponents]

@[simp] theorem anchor_normalize (p : Path) :
    p.normalize.anchor = p.anchor := by
  rw [anchor, isAbsolute_normalize, normalComponents_normalize, ← anchor]

/-- A folded stack has names above the root, or above a run of `..`. -/
theorem Folded.exists_names {cs : List Component} (h : Folded cs) :
    ∃ names : List String,
      cs.reverse = .root :: names.map .name ∨
        ∃ n, cs.reverse = List.replicate n .up ++ names.map .name := by
  induction h with
  | empty =>
      exact ⟨[], Or.inr ⟨0, rfl⟩⟩
  | root =>
      exact ⟨[], Or.inl rfl⟩
  | @up cs _ hall _ =>
      refine ⟨[], Or.inr ⟨cs.length + 1, ?_⟩⟩
      rw [List.map_nil, List.append_nil, List.reverse_cons, List.replicate_succ',
        List.eq_replicate_of_mem hall, List.reverse_replicate, List.length_replicate]
  | @name n cs _ ih =>
      rcases ih with ⟨names, heq | ⟨k, heq⟩⟩
      · exact ⟨names ++ [n], Or.inl (by simp [heq])⟩
      · exact ⟨names ++ [n], Or.inr ⟨k, by simp [heq]⟩⟩

/-- The normal form goes to its anchor, and on from there by names. -/
theorem exists_names (p : Path) :
    ∃ names : List String,
      p.normalComponents =
        (p.anchor.elim [.root] fun n => List.replicate n .up) ++ names.map .name := by
  obtain ⟨names, heq | ⟨n, heq⟩⟩ := p.folded_foldl.1.exists_names <;>
    rw [← normalComponents] at heq
  · have habsolute : p.isAbsolute = true := by
      rw [← root_mem_normalComponents, heq]
      exact List.mem_cons_self
    exact ⟨names, by simp [anchor, habsolute, heq]⟩
  · have hrelative : p.isAbsolute = false := by
      rw [← Bool.not_eq_true, ← root_mem_normalComponents, heq]
      simp [List.mem_replicate]
    have hcount : p.normalComponents.count .up = n := by
      rw [heq, List.count_append, List.count_replicate_self, Nat.add_eq_left, List.count_eq_zero]
      simp
    rw [anchor, hrelative, if_neg (by simp), hcount]
    exact ⟨names, heq⟩

theorem foldl_move_names (place : Place) (names : List String) :
    (names.map Component.name).foldl Component.move place = place ++ names := by
  induction names generalizing place with
  | nil =>
      simp
  | cons n names ih =>
      rw [List.map_cons, List.foldl_cons, ih]
      simp [Component.move]

/-- Paths have one normal form where they go down from one anchor and lead to one place. -/
theorem normalize_eq_iff (start : Place) (p q : Path) :
    p.normalize = q.normalize ↔
      p.anchor = q.anchor ∧ p.destination start = q.destination start := by
  constructor
  · intro h
    rw [← anchor_normalize p, ← destination_normalize start p, h]
    exact ⟨anchor_normalize q, destination_normalize start q⟩
  · rintro ⟨hanchor, hplace⟩
    obtain ⟨names, hp⟩ := p.exists_names
    obtain ⟨names', hq⟩ := q.exists_names
    rw [destination_eq, destination_eq, hp, hq, hanchor, List.foldl_append, List.foldl_append,
      foldl_move_names, foldl_move_names] at hplace
    have hnames : names = names' := List.append_cancel_left hplace
    rw [normalize, normalize, hp, hq, hanchor, hnames]

end Anchor

end Path
end FieldTypes
