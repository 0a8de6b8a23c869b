import FieldTypes.Path
import Mathlib.Tactic.SplitIfs

/-!
# The normal form is a normal form

Folding keeps its components on a stack, innermost first. The stack is always folded: a run of
`..`, or the root alone, lies at its bottom, and there are names above. What a folded stack spells
is read back as the same components, and folding them once more changes nothing.

**Results.**
* `folded_foldl`: folding the components of a path makes a folded stack.
* `normalComponents_ofComponents`: a folded stack survives being written and read.
* `normalize_normalize`, `normalize_locate`: the normal form of a path, and the path that a
  reference points at, are in normal form.
-/

namespace FieldTypes

/-- What a list is cut into has no separator in it. -/
theorem notMem_of_mem_splitOn {α : Type} [BEq α] [LawfulBEq α] {a : α} {f xs : List α}
    (h : f ∈ xs.splitOn a) :
    a ∉ f := by
  induction xs generalizing f with
  | nil =>
      simp_all
  | cons x xs ih =>
      rw [List.splitOn_cons_eq_if_modifyHead] at h
      split_ifs at h with hx
      · rcases List.mem_cons.1 h with rfl | h
        · simp
        · exact ih h
      · obtain ⟨g, gs, hsplit⟩ := List.exists_cons_of_ne_nil (List.splitOn_ne_nil a xs)
        rw [hsplit, List.modifyHead_cons, List.mem_cons] at h
        rcases h with rfl | h
        · have hg : a ∉ g := ih (by simp [hsplit])
          have hne : a ≠ x := fun heq => hx (beq_iff_eq.2 heq.symm)
          simp [hg, hne]
        · exact ih (by simp [hsplit, h])

namespace Component

/-- Whether the component is what a segment behind the first one stands for. -/
def IsSegment (c : Component) : Prop :=
  ofSegment? c.text = some c ∧ '/' ∉ c.text

theorem isSegment_of_ofSegment?
    {s : List Char} {c : Component}
    (hs : '/' ∉ s)
    (h : ofSegment? s = some c) :
    c.IsSegment := by
  unfold ofSegment? at h
  split_ifs at h with hidle hup
  · cases h
    exact ⟨rfl, by decide⟩
  · cases h
    refine ⟨?_, by simpa [text] using hs⟩
    simp [ofSegment?, text, hidle, hup]

theorem IsSegment.ne_root
    {c : Component}
    (h : c.IsSegment) :
    c ≠ .root := by
  rintro rfl
  have := h.1
  simp [ofSegment?, text] at this

theorem IsSegment.text_ne_nil
    {c : Component}
    (h : c.IsSegment) :
    c.text ≠ [] := by
  intro hnil
  have := h.1
  simp [ofSegment?, hnil] at this

theorem IsSegment.ofFirstSegment?
    {c : Component}
    (h : c.IsSegment)
    (others : List (List Char)) :
    Component.ofFirstSegment? c.text others = some c := by
  have hdot : c.text ≠ ['.'] := by
    intro hdot
    have := h.1
    simp [ofSegment?, hdot] at this
  simp only [Component.ofFirstSegment?, h.text_ne_nil, false_and, hdot, if_false]
  exact h.1

end Component

namespace Path

/-- The stacks that folding makes, innermost component first. -/
inductive Folded : List Component → Prop
  | empty : Folded []
  | root : Folded [.root]
  | up {cs : List Component} :
      Folded cs → (∀ c ∈ cs, c = .up) → Folded (.up :: cs)
  | name {n : String} {cs : List Component} :
      Folded cs → Folded (.name n :: cs)

/-- One more component, unless it is the root, leaves a folded stack folded. -/
theorem Folded.fold
    {kept : List Component} (h : Folded kept)
    {c : Component} (hc : c ≠ .root) :
    Folded (fold kept c) := by
  cases c with
  | root =>
      exact absurd rfl hc
  | here =>
      simpa [Path.fold] using h
  | name n =>
      simpa [Path.fold] using h.name
  | up =>
      cases h with
      | empty =>
          exact .up .empty (by simp)
      | root =>
          exact .root
      | name outer =>
          exact outer
      | up outer hall =>
          refine .up (.up outer hall) ?_
          intro c hc
          rcases List.mem_cons.1 hc with rfl | hc
          · rfl
          · exact hall c hc

theorem Folded.foldl
    {kept : List Component} (h : Folded kept)
    {cs : List Component} (hcs : ∀ c ∈ cs, c ≠ .root) :
    Folded (cs.foldl Path.fold kept) := by
  induction cs generalizing kept with
  | nil =>
      exact h
  | cons c cs ih =>
      exact ih (h.fold (hcs c (by simp))) fun d hd => hcs d (by simp [hd])

/-- A folded stack is what its own components, outermost first, are folded to. -/
theorem Folded.foldl_reverse
    {cs : List Component} (h : Folded cs) :
    cs.reverse.foldl Path.fold [] = cs := by
  induction h with
  | empty =>
      rfl
  | root =>
      rfl
  | name _ ih =>
      rw [List.reverse_cons, List.foldl_append, ih]
      rfl
  | up _ hall ih =>
      rw [List.reverse_cons, List.foldl_append, ih]
      rename_i cs _
      cases cs with
      | nil =>
          rfl
      | cons c cs =>
          rw [hall c (by simp)]
          rfl

/-- The components behind a path's first one are those of segments. -/
theorem components_eq
    (p : Path) :
    ∃ first rest,
      p.components = first ++ rest ∧
      (first = [] ∨ first = [.root] ∨ first = [.here]) ∧
      ∀ c ∈ rest, c.IsSegment := by
  have hslash : ∀ s ∈ p.segments, '/' ∉ s := fun s hs =>
    notMem_of_mem_splitOn hs
  unfold components
  cases hp : p.segments with
  | nil =>
      exact ⟨[], [], by simp⟩
  | cons s ss =>
      rw [hp] at hslash
      have hrest : ∀ c ∈ ss.filterMap Component.ofSegment?, c.IsSegment := by
        intro c hc
        obtain ⟨t, ht, htc⟩ := List.mem_filterMap.1 hc
        exact Component.isSegment_of_ofSegment? (hslash t (by simp [ht])) htc
      simp only [Component.ofFirstSegment?]
      split_ifs with hroot hhere
      · exact ⟨[.root], _, rfl, by simp, hrest⟩
      · exact ⟨[.here], _, rfl, by simp, hrest⟩
      · refine ⟨[], _, rfl, by simp, ?_⟩
        intro c hc
        rcases List.mem_append.1 hc with hc | hc
        · exact Component.isSegment_of_ofSegment? (hslash s (by simp)) (by simpa using hc)
        · exact hrest c hc

/-- Folding keeps no component that was not there. -/
theorem mem_of_mem_fold
    {kept : List Component} {c d : Component}
    (h : d ∈ fold kept c) :
    d ∈ kept ∨ d = c := by
  unfold fold at h
  split at h
  · exact Or.inl h
  · exact Or.inl (List.mem_cons_of_mem _ h)
  · exact Or.inl h
  · exact (List.mem_cons.1 h).symm

theorem mem_of_mem_foldl
    {kept cs : List Component} {d : Component}
    (h : d ∈ cs.foldl fold kept) :
    d ∈ kept ∨ d ∈ cs := by
  induction cs generalizing kept with
  | nil =>
      exact Or.inl h
  | cons c cs ih =>
      rcases ih h with h | h
      · rcases mem_of_mem_fold h with h | rfl
        · exact Or.inl h
        · exact Or.inr (by simp)
      · exact Or.inr (by simp [h])

/-- Folding the components of a path makes a folded stack of segments, perhaps on the root. -/
theorem folded_foldl
    (p : Path) :
    Folded (p.components.foldl fold []) ∧
      ∀ c ∈ p.components.foldl fold [], c = .root ∨ c.IsSegment := by
  obtain ⟨first, rest, heq, hfirst, hrest⟩ := p.components_eq
  have hne : ∀ c ∈ rest, c ≠ .root := fun c hc => (hrest c hc).ne_root
  have hstart : Folded (first.foldl fold []) ∧ ∀ c ∈ first.foldl fold [], c = .root := by
    rcases hfirst with rfl | rfl | rfl
    · exact ⟨.empty, by simp⟩
    · exact ⟨.root, by simp [fold]⟩
    · exact ⟨.empty, by simp [fold]⟩
  rw [heq, List.foldl_append]
  refine ⟨hstart.1.foldl hne, ?_⟩
  intro c hc
  rcases mem_of_mem_foldl hc with hc | hc
  · exact Or.inl (hstart.2 c hc)
  · exact Or.inr (hrest c hc)

theorem filterMap_ofSegment?_text
    {cs : List Component} (h : ∀ c ∈ cs, c.IsSegment) :
    (cs.map Component.text).filterMap Component.ofSegment? = cs := by
  induction cs with
  | nil =>
      rfl
  | cons c cs ih =>
      have hc := (h c (by simp)).1
      simp [hc, ih fun d hd => h d (by simp [hd])]

/-- Components of segments are read as they were written. -/
theorem components_ofComponents
    {cs : List Component} (h : ∀ c ∈ cs, c.IsSegment) :
    (ofComponents cs).components = cs := by
  cases cs with
  | nil =>
      decide
  | cons c cs =>
      have hc := h c (by simp)
      have hof : ofComponents (c :: cs) =
          ⟨String.ofList (['/'].intercalate ((c :: cs).map Component.text))⟩ := by
        unfold ofComponents
        split
        · next heq =>
            cases heq
            exact absurd rfl hc.ne_root
        · rfl
      have hsegments : (ofComponents (c :: cs)).segments = (c :: cs).map Component.text := by
        rw [hof, segments, String.toList_ofList]
        refine List.splitOn_intercalate '/' ?_ (by simp)
        intro f hf
        obtain ⟨d, hd, rfl⟩ := List.mem_map.1 hf
        exact (h d hd).2
      simp only [components, hsegments, List.map_cons]
      rw [hc.ofFirstSegment?, filterMap_ofSegment?_text fun d hd => h d (by simp [hd])]
      rfl

/-- The root and components of segments behind it are read as they were written. -/
theorem components_ofComponents_root
    {cs : List Component} (h : ∀ c ∈ cs, c.IsSegment) :
    (ofComponents (.root :: cs)).components = .root :: cs := by
  cases cs with
  | nil =>
      decide
  | cons c cs =>
      have hsegments : (ofComponents (.root :: c :: cs)).segments =
          [] :: (c :: cs).map Component.text := by
        rw [ofComponents, segments, String.toList_ofList]
        · refine List.splitOn_intercalate '/' ?_ (by simp)
          intro f hf
          simp only [List.map_cons, List.mem_cons] at hf
          rcases hf with rfl | rfl | hf
          · simp [Component.text]
          · exact (h c (by simp)).2
          · obtain ⟨d, hd, rfl⟩ := List.mem_map.1 hf
            exact (h d (by simp [hd])).2
        · simp
      simp only [components, hsegments]
      rw [filterMap_ofSegment?_text h]
      simp [Component.ofFirstSegment?]

/-- The root is at the bottom of a folded stack, if it is anywhere. -/
theorem Folded.reverse_eq
    {cs : List Component} (h : Folded cs)
    (hcs : ∀ c ∈ cs, c = .root ∨ c.IsSegment) :
    (∀ c ∈ cs.reverse, c.IsSegment) ∨
      ∃ rest, cs.reverse = .root :: rest ∧ ∀ c ∈ rest, c.IsSegment := by
  induction h with
  | empty =>
      exact Or.inl (by simp)
  | root =>
      exact Or.inr ⟨[], by simp⟩
  | up _ hall _ =>
      refine Or.inl ?_
      intro c hc
      simp only [List.mem_reverse, List.mem_cons] at hc
      have hup : c = .up := by
        rcases hc with rfl | hc
        · rfl
        · exact hall c hc
      subst hup
      exact ⟨rfl, by decide⟩
  | @name n cs _ ih =>
      have hn : (Component.name n).IsSegment := by simpa using hcs (.name n) (by simp)
      rcases ih fun c hc => hcs c (by simp [hc]) with hseg | ⟨rest, heq, hrest⟩
      · refine Or.inl ?_
        intro c hc
        rw [List.reverse_cons, List.mem_append, List.mem_singleton] at hc
        rcases hc with hc | rfl
        · exact hseg c hc
        · exact hn
      · refine Or.inr ⟨rest ++ [.name n], by simp [heq], ?_⟩
        intro c hc
        rw [List.mem_append, List.mem_singleton] at hc
        rcases hc with hc | rfl
        · exact hrest c hc
        · exact hn

theorem Folded.components_ofComponents
    {cs : List Component} (h : Folded cs)
    (hcs : ∀ c ∈ cs, c = .root ∨ c.IsSegment) :
    (ofComponents cs.reverse).components = cs.reverse := by
  rcases h.reverse_eq hcs with hseg | ⟨rest, heq, hrest⟩
  · exact Path.components_ofComponents hseg
  · rw [heq]
    exact components_ofComponents_root hrest

/-- The normal form says the folded components. -/
theorem components_normalize
    (p : Path) :
    p.normalize.components = p.normalComponents :=
  p.folded_foldl.1.components_ofComponents p.folded_foldl.2

theorem normalComponents_normalize
    (p : Path) :
    p.normalize.normalComponents = p.normalComponents := by
  rw [normalComponents, components_normalize, normalComponents, p.folded_foldl.1.foldl_reverse]

@[simp] theorem normalize_normalize
    (p : Path) :
    p.normalize.normalize = p.normalize := by
  rw [normalize, normalComponents_normalize, ← normalize]

@[simp] theorem normalize_locate
    (document : Path) (reference : String) :
    (document.locate reference).normalize = document.locate reference := by
  unfold locate
  by_cases h : withoutFragment reference = ""
  · simp [h]
  · simp [h]

end Path
end FieldTypes
