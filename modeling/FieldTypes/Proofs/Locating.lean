import FieldTypes.Proofs.Joining
import Mathlib.Data.List.TakeWhile

/-!
# The canonical form of paths, and locating references

Whatever a path says, its normal form says the root or a run of `..`, and names behind it. Such
components lie folded on the stack as they are, so they are the ones that folding leaves alone. And
folding can be put off: what is joined to a directory is folded on from where the directory was
folded to, so that it makes no difference whether the directory was folded before.

A reference is found from the directory of the document that holds it, and the directory is cut off
the text of the document's path before anything is folded. A name at the end of a path is folded to
nothing but itself, so cutting it off and folding can change places: where a reference leads does
not depend on how the path of the document is spelled. The same holds for the path that a reference
led to, and hops from document to document come to one join of their directories.

**Main definition.**
* `Path.IsCanonical`: the root or a run of `..`, and names.

**Results.**
* `Path.IsCanonical.foldl_fold`: folding leaves components in canonical form alone.
* `Path.components_normalize_eq_iff`: the paths that the normal form says the same as.
* `Path.normalize_join_normalize`: folding the directory first makes no difference to a join.
* `Path.normalize_canonical`: the laws of the normal form.
* `Path.steps_directory`: the directory says all that the path does, but for what it says last.
* `Path.directory_normalize`: the directory of the normal form is the normal form of the directory.
* `Path.locate_normalize`: a document's references lead where they lead from its normal form.
* `Path.locate_locate`: two hops are one.
* `Path.locate_independent_of_spelling`: the laws of locating references.
-/

namespace FieldTypes
namespace Path

/-- Components in canonical form: the root or a run of `..`, and behind it names, each of them one
that a path can have. -/
def IsCanonical (cs : List Component) : Prop :=
  ∃ names : List String,
    (∀ n ∈ names, (Component.name n).IsSegment) ∧
      (cs = .root :: names.map .name ∨ ∃ k, cs = List.replicate k .up ++ names.map .name)

section Canonical

variable {cs kept : List Component}

/-- Names can be put on every folded stack. -/
theorem Folded.append_names (h : Folded kept) (names : List String) :
    Folded ((names.map .name).reverse ++ kept) := by
  induction names generalizing kept with
  | nil =>
      exact h
  | cons n names ih =>
      rw [List.map_cons, List.reverse_cons, List.append_assoc, List.singleton_append]
      exact ih h.name

theorem folded_replicate_up (k : Nat) :
    Folded (List.replicate k .up) := by
  induction k with
  | zero =>
      exact .empty
  | succ k ih =>
      exact .up ih fun c hc => List.eq_of_mem_replicate hc

theorem IsCanonical.folded (h : IsCanonical cs) :
    Folded cs.reverse := by
  obtain ⟨names, -, rfl | ⟨k, rfl⟩⟩ := h
  · rw [List.reverse_cons]
    exact Folded.root.append_names names
  · rw [List.reverse_append, List.reverse_replicate]
    exact (folded_replicate_up k).append_names names

/-- Folding leaves components in canonical form alone. -/
theorem IsCanonical.foldl_fold (h : IsCanonical cs) :
    cs.foldl fold [] = cs.reverse := by
  have hreverse := h.folded.foldl_reverse
  rwa [List.reverse_reverse] at hreverse

theorem isCanonical_normalComponents (p : Path) :
    IsCanonical p.normalComponents := by
  obtain ⟨names, hnames⟩ := p.exists_names
  refine ⟨names, ?_, ?_⟩
  · intro n hn
    have hmem : Component.name n ∈ p.normalComponents := by
      rw [hnames]
      exact List.mem_append_right _ (List.mem_map_of_mem hn)
    simpa using eq_root_or_isSegment hmem
  · cases hanchor : p.anchor with
    | none =>
        rw [hanchor] at hnames
        exact Or.inl hnames
    | some k =>
        rw [hanchor] at hnames
        exact Or.inr ⟨k, hnames⟩

/-- The normal form says the same as a path exactly where the path's components are in canonical
form already. -/
theorem components_normalize_eq_iff {p : Path} :
    p.normalize.components = p.components ↔ IsCanonical p.components := by
  rw [components_normalize]
  constructor
  · intro h
    rw [← h]
    exact p.isCanonical_normalComponents
  · intro h
    rw [normalComponents, h.foldl_fold, List.reverse_reverse]

/-- What is joined to a directory is found from the directory's normal form as well. -/
@[simp] theorem normalize_join_normalize (p q : Path) :
    (p.normalize.join q).normalize = (p.join q).normalize := by
  cases hq : q.isAbsolute with
  | true =>
      -- An absolute path stands for itself in every directory.
      rw [join, join, if_pos hq, if_pos hq]
  | false =>
      have hcomponents : (p.normalize.join q).normalComponents = (p.join q).normalComponents := by
        rw [normalComponents_join_of_relative hq, normalComponents_join_of_relative hq,
          normalComponents_normalize]
      rw [normalize, hcomponents, ← normalize]

/-- The normal form of a path is spelled by its components, and these are the root or a run of `..`
and names behind it. It is absolute where the path is, is its own normal form, says the same as the
path exactly where that is in canonical form already, and can be taken before or after joining. -/
theorem normalize_canonical (p : Path) :
    (IsCanonical p.normalize.components ∧ p.normalize = ofComponents p.normalize.components) ∧
      (p.normalize.isAbsolute = true ↔ p.isAbsolute = true) ∧
      p.normalize.normalize = p.normalize ∧
      (p.normalize.components = p.components ↔ IsCanonical p.components) ∧
      ∀ q : Path, (p.join q).normalize = (p.normalize.join q).normalize := by
  refine ⟨⟨?_, ?_⟩, ?_, p.normalize_normalize, components_normalize_eq_iff, ?_⟩
  · rw [components_normalize]
    exact p.isCanonical_normalComponents
  · rw [components_normalize, ← normalize]
  · rw [isAbsolute_normalize]
  · intro q
    rw [normalize_join_normalize]

end Canonical

section Stem

variable {p : Path} {lead rest body : List Char}

/-- What may stand before the rest of a text without being said in the rest: nothing, the slash of
the root, or a `.` that ends where the rest begins. -/
def IsStem (lead rest : List Char) : Prop :=
  lead = [] ∨ lead = ['/'] ∨ lead = ['.'] ∧ (rest.splitOn '/').head? = some []

theorem IsStem.filterMap_splitOn (h : IsStem lead rest) :
    ((lead ++ rest).splitOn '/').filterMap Component.ofSegment? =
      (rest.splitOn '/').filterMap Component.ofSegment? := by
  obtain rfl | rfl | ⟨rfl, hhead⟩ := h
  · rfl
  · rfl
  · obtain ⟨ss, hss⟩ := List.head?_eq_some_iff.1 hhead
    rw [List.singleton_append, List.splitOn_cons_eq_if_modifyHead, hss]
    rfl

/-- The stem of a path is at the front of its text, and says whether the path is absolute. -/
theorem isStem_of_stem (h : p.stem = (lead, body)) :
    p.text.toList = lead ++ body ∧ IsStem lead body ∧ (p.isAbsolute = true ↔ lead = ['/']) := by
  unfold stem at h
  split at h
  · next body' htext =>
      cases h
      exact ⟨htext, Or.inr (Or.inl rfl), by simp [isAbsolute, htext]⟩
  · next htext =>
      cases h
      exact ⟨htext, Or.inr (Or.inr ⟨rfl, rfl⟩), by simp [isAbsolute, htext]⟩
  · next body' htext =>
      cases h
      exact ⟨htext, Or.inr (Or.inr ⟨rfl, rfl⟩), by simp [isAbsolute, htext]⟩
  · next hroot _ _ =>
      cases h
      refine ⟨rfl, Or.inl rfl, iff_of_false ?_ (by simp)⟩
      intro habsolute
      obtain ⟨tail, htail⟩ := List.head?_eq_some_iff.1 (eq_of_beq habsolute)
      exact hroot tail htail

end Stem

section Directory

variable {p : Path} {lead body : List Char}

theorem ofSegment?_eq_none_iff {s : List Char} :
    Component.ofSegment? s = none ↔ isIdle s = true := by
  have hidle : isIdle s = true ↔ s = [] ∨ s = ['.'] := by
    simp [isIdle]
  rw [hidle, Component.ofSegment?]
  split_ifs with h
  · exact iff_of_true rfl h
  · exact iff_of_false (by simp) h
  · exact iff_of_false (by simp) h

/-- Idle segments stand for nothing, so dropping them leaves what is said. -/
theorem filterMap_dropIdle (ss : List (List Char)) :
    (dropIdle ss).filterMap Component.ofSegment? = ss.filterMap Component.ofSegment? := by
  induction ss with
  | nil =>
      rfl
  | cons s ss ih =>
      cases hs : isIdle s with
      | true =>
          rw [dropIdle, List.dropWhile_cons_of_pos hs, ← dropIdle, ih,
            List.filterMap_cons_none (ofSegment?_eq_none_iff.2 hs)]
      | false =>
          rw [dropIdle, List.dropWhile_cons_of_neg (by simp [hs])]

/-- A path either says nothing behind its stem, or its directory keeps what stands in front of the
last segment that says something. -/
theorem directory_cases (hstem : p.stem = (lead, body)) :
    p.directory = ⟨""⟩ ∧ (body.splitOn '/').filterMap Component.ofSegment? = [] ∨
      ∃ kept c, kept <+: body.splitOn '/' ∧
        (body.splitOn '/').filterMap Component.ofSegment? =
          kept.filterMap Component.ofSegment? ++ [c] ∧
        p.directory = ⟨String.ofList (lead ++ ['/'].intercalate kept)⟩ := by
  have hreverse : (body.splitOn '/').filterMap Component.ofSegment? =
      ((dropIdle (body.splitOn '/').reverse).filterMap Component.ofSegment?).reverse := by
    rw [filterMap_dropIdle, List.filterMap_reverse, List.reverse_reverse]
  cases hrest : dropIdle (body.splitOn '/').reverse with
  | nil =>
      rw [hrest] at hreverse
      refine Or.inl ⟨?_, hreverse⟩
      simp only [directory, parent?, hstem, hrest]
      split_ifs <;> rfl
  | cons s outer =>
      have hs : isIdle s = false := by
        have hhead := List.head?_dropWhile_not isIdle (body.splitOn '/').reverse
        rw [← dropIdle, hrest] at hhead
        simpa using hhead
      have hsaid : Component.ofSegment? s ≠ none := by
        rw [Ne, ofSegment?_eq_none_iff, hs]
        simp
      obtain ⟨c, hc⟩ := Option.ne_none_iff_exists'.1 hsaid
      refine Or.inr ⟨(dropIdle outer).reverse, c, ?_, ?_, ?_⟩
      · have hsuffix : dropIdle outer <:+ (body.splitOn '/').reverse := by
          refine (List.dropWhile_suffix isIdle).trans ((List.suffix_cons s outer).trans ?_)
          rw [← hrest]
          exact List.dropWhile_suffix isIdle
        rw [← List.reverse_reverse (body.splitOn '/')]
        exact List.reverse_prefix.2 hsuffix
      · rw [hreverse, hrest, List.filterMap_cons_some hc, List.reverse_cons,
          ← filterMap_dropIdle outer, List.filterMap_reverse]
      · simp only [directory, parent?, hstem, hrest, Option.getD_some]

/-- What a path says is what is said behind its stem. -/
theorem steps_of_stem (hstem : p.stem = (lead, body)) :
    p.steps = (body.splitOn '/').filterMap Component.ofSegment? := by
  obtain ⟨htext, hlead, -⟩ := isStem_of_stem hstem
  rw [steps, segments, htext, hlead.filterMap_splitOn]

/-- Some of the parts of a text, from the first one on, are cut as they were. -/
theorem splitOn_intercalate_of_front
    {kept : List (List Char)} (h : kept <+: body.splitOn '/') (hne : kept ≠ []) :
    (['/'].intercalate kept).splitOn '/' = kept :=
  List.splitOn_intercalate '/' (fun _ hf => notMem_of_mem_splitOn (h.subset hf)) hne

theorem IsStem.of_front
    (hlead : IsStem lead body)
    {kept : List (List Char)} (h : kept <+: body.splitOn '/') :
    IsStem lead (['/'].intercalate kept) := by
  obtain rfl | rfl | ⟨rfl, hhead⟩ := hlead
  · exact Or.inl rfl
  · exact Or.inr (Or.inl rfl)
  · refine Or.inr (Or.inr ⟨rfl, ?_⟩)
    cases kept with
    | nil =>
        rfl
    | cons s ss =>
        obtain ⟨dropped, hdropped⟩ := h
        rw [splitOn_intercalate_of_front ⟨dropped, hdropped⟩ (by simp), ← hhead, ← hdropped]
        rfl

/-- The directory says all that the path does, but for what it says last. -/
theorem steps_directory (p : Path) :
    p.directory.steps = p.steps.dropLast := by
  cases hstem : p.stem with
  | mk lead body =>
    have hlead := (isStem_of_stem hstem).2.1
    rw [steps_of_stem hstem]
    obtain ⟨hdirectory, hnil⟩ | ⟨kept, c, hfront, hsteps, hdirectory⟩ := directory_cases hstem
    · rw [hdirectory, hnil]
      rfl
    · rw [hdirectory, hsteps, List.dropLast_concat, steps, segments, String.toList_ofList,
        (hlead.of_front hfront).filterMap_splitOn]
      by_cases hkept : kept = []
      · rw [hkept]
        rfl
      · rw [splitOn_intercalate_of_front hfront hkept]

/-- A path that says anything behind its stem is absolute where its directory is. -/
theorem isAbsolute_directory_of_steps (hne : p.steps ≠ []) :
    p.directory.isAbsolute = p.isAbsolute := by
  cases hstem : p.stem with
  | mk lead body =>
    obtain ⟨htext, hlead, habsolute⟩ := isStem_of_stem hstem
    obtain ⟨-, hnil⟩ | ⟨kept, c, hfront, -, hdirectory⟩ := directory_cases hstem
    · rw [steps_of_stem hstem] at hne
      exact absurd hnil hne
    · rw [Bool.eq_iff_iff, habsolute, hdirectory]
      obtain rfl | rfl | ⟨rfl, -⟩ := hlead
      · -- Without a stem the directory's first segments are the path's own.
        refine iff_of_false ?_ (by simp)
        intro hslash
        obtain ⟨s, ss, hsegments⟩ := isAbsolute_iff_segments.1 hslash
        rw [segments, String.toList_ofList, List.nil_append] at hsegments
        have hkept : kept ≠ [] := by
          rintro rfl
          cases hsegments
        rw [splitOn_intercalate_of_front hfront hkept] at hsegments
        obtain ⟨dropped, hdropped⟩ := hfront
        have hroot : p.isAbsolute = true := by
          refine isAbsolute_iff_segments.2 ⟨s, ss ++ dropped, ?_⟩
          rw [segments, htext, List.nil_append, ← hdropped, hsegments]
          rfl
        exact absurd (habsolute.1 hroot) (by simp)
      · simp [isAbsolute]
      · simp [isAbsolute]

end Directory

section Named

variable {p q : Path} {n : String}

/-- The name that a path ends with is what it says last. -/
theorem getLast?_steps_of_fileName? (h : p.fileName? = some n) :
    p.steps.getLast? = some (.name n) := by
  have hlast : p.components.getLast? = some (.name n) := by
    unfold fileName? at h
    split at h
    · next m hm =>
        cases h
        exact hm
    · cases h
  have hcons : ∀ first : Component, first ≠ .name n →
      (first :: p.steps).getLast? = some (.name n) → p.steps.getLast? = some (.name n) := by
    intro first hfirst hcons
    cases hsteps : p.steps with
    | nil =>
        rw [hsteps, List.getLast?_singleton] at hcons
        exact absurd (Option.some.inj hcons) hfirst
    | cons c cs =>
        rwa [hsteps, List.getLast?_cons_cons] at hcons
  cases habsolute : p.isAbsolute with
  | true =>
      rw [components_of_isAbsolute habsolute] at hlast
      exact hcons .root (by simp) hlast
  | false =>
      rcases components_of_not_isAbsolute habsolute with hcomponents | hcomponents <;>
        rw [hcomponents] at hlast
      · exact hlast
      · exact hcons .here (by simp) hlast

theorem steps_of_fileName? (h : p.fileName? = some n) :
    p.steps = p.directory.steps ++ [.name n] := by
  obtain ⟨cs, hcs⟩ := List.getLast?_eq_some_iff.1 (getLast?_steps_of_fileName? h)
  rw [steps_directory, hcs, List.dropLast_concat]

theorem isAbsolute_directory_of_fileName? (h : p.fileName? = some n) :
    p.directory.isAbsolute = p.isAbsolute := by
  refine isAbsolute_directory_of_steps ?_
  intro hnil
  have hlast := getLast?_steps_of_fileName? h
  rw [hnil] at hlast
  cases hlast

/-- A name goes on every stack as it is. -/
theorem fold_name (kept : List Component) (n : String) :
    fold kept (.name n) = .name n :: kept := by
  simp [fold]

/-- Cutting the name off and folding can change places. -/
theorem normalComponents_of_fileName? (h : p.fileName? = some n) :
    p.normalComponents = p.directory.normalComponents ++ [.name n] := by
  rw [normalComponents_eq p, normalComponents_eq p.directory, steps_of_fileName? h,
    isAbsolute_directory_of_fileName? h, List.foldl_append, List.foldl_cons, List.foldl_nil,
    fold_name, List.reverse_cons]

theorem normalComponents_join_of_fileName?
    (hrelative : q.isAbsolute = false) (h : q.fileName? = some n) :
    (p.join q).normalComponents = (p.join q.directory).normalComponents ++ [.name n] := by
  have hdirectory : q.directory.isAbsolute = false := by
    rw [isAbsolute_directory_of_fileName? h, hrelative]
  rw [normalComponents_join_of_relative hrelative, normalComponents_join_of_relative hdirectory,
    steps_of_fileName? h, List.foldl_append, List.foldl_cons, List.foldl_nil, fold_name,
    List.reverse_cons]

/-- A normal form with one more name than another one has that for its directory. -/
theorem directory_normalize_of_append (h : p.normalComponents = q.normalComponents ++ [.name n]) :
    p.normalize.directory = q.normalize := by
  rw [← normalComponents_normalize] at h
  exact (directory_of_normalComponents p.normalize_normalize (by simp) h).1

theorem directory_normalize (h : p.fileName? = some n) :
    p.normalize.directory = p.directory.normalize :=
  directory_normalize_of_append (normalComponents_of_fileName? h)

end Named

section Locate

variable {d : Path} {f r r₁ r₂ m n : String}

theorem forall_ne_hash (h : '#' ∉ f.toList) :
    ∀ c ∈ f.toList, decide (c ≠ '#') = true := by
  intro c hc
  rw [decide_eq_true_eq]
  rintro rfl
  exact h hc

theorem withoutFragment_of_notMem (h : '#' ∉ f.toList) :
    withoutFragment f = f := by
  rw [withoutFragment, List.takeWhile_eq_self_iff.2 (forall_ne_hash h), String.ofList_toList]

theorem withoutFragment_append (h : '#' ∉ f.toList) (x : String) :
    withoutFragment (f ++ "#" ++ x) = f := by
  have htext : (f ++ "#" ++ x).toList = f.toList ++ '#' :: x.toList := by
    simp
  rw [withoutFragment, htext, List.takeWhile_append_of_pos (forall_ne_hash h),
    List.takeWhile_cons_of_neg (by simp), List.append_nil, String.ofList_toList]

theorem locate_append_fragment (h : '#' ∉ f.toList) (x : String) :
    d.locate (f ++ "#" ++ x) = d.locate f := by
  unfold locate
  rw [withoutFragment_append h, withoutFragment_of_notMem h]

theorem locate_of_notMem (hr : '#' ∉ r.toList) (hne : r ≠ "") :
    d.locate r = (d.directory.join ⟨r⟩).normalize := by
  unfold locate
  rw [withoutFragment_of_notMem hr]
  exact if_neg hne

/-- References are found from a document's path as they are from its normal form. -/
theorem locate_normalize (h : d.fileName? = some n) (r : String) :
    d.normalize.locate r = d.locate r := by
  simp only [locate, normalize_normalize, directory_normalize h, normalize_join_normalize]

/-- Two hops are one, taken from the directory of the first document to that of the second one and
on from there. -/
theorem locate_locate
    (h₁ : '#' ∉ r₁.toList) (hrelative : (Path.mk r₁).isAbsolute = false)
    (hname : (Path.mk r₁).fileName? = some m)
    (h₂ : '#' ∉ r₂.toList) (hne : r₂ ≠ "") :
    (d.locate r₁).locate r₂ =
      ((d.directory.join (Path.mk r₁).directory).join ⟨r₂⟩).normalize := by
  have hne₁ : r₁ ≠ "" := by
    rintro rfl
    cases hname
  have hdirectory := directory_normalize_of_append
    (normalComponents_join_of_fileName? (p := d.directory) hrelative hname)
  rw [locate_of_notMem h₂ hne, locate_of_notMem h₁ hne₁, hdirectory, normalize_join_normalize]

/-- A document's references are found from its path however the path is spelled, and what they lead
to is in canonical form. A fragment has no part in it, a reference that is nothing else leads to the
document itself, and a hop from where a reference leads is one join of directories. -/
theorem locate_independent_of_spelling (hd : d.fileName? = some n) :
    (∀ r : String, d.locate r = d.normalize.locate r) ∧
      (∀ r : String, IsCanonical (d.locate r).components ∧ (d.locate r).normalize = d.locate r) ∧
      (∀ f x : String, '#' ∉ f.toList → d.locate (f ++ "#" ++ x) = d.locate f) ∧
      d.locate "" = d.normalize ∧ (∀ x : String, d.locate ("#" ++ x) = d.normalize) ∧
      ∀ r₁ r₂ m : String,
        '#' ∉ r₁.toList → (Path.mk r₁).isAbsolute = false → (Path.mk r₁).fileName? = some m →
        '#' ∉ r₂.toList → r₂ ≠ "" →
          (d.locate r₁).locate r₂ =
            ((d.directory.join (Path.mk r₁).directory).join ⟨r₂⟩).normalize := by
  have hself : d.locate "" = d.normalize := rfl
  refine ⟨?_, ?_, ?_, hself, ?_, ?_⟩
  · intro r
    exact (locate_normalize hd r).symm
  · intro r
    refine ⟨?_, d.normalize_locate r⟩
    rw [← d.normalize_locate r, components_normalize]
    exact isCanonical_normalComponents _
  · intro f x hf
    exact locate_append_fragment hf x
  · intro x
    rw [← hself]
    exact locate_append_fragment (f := "") (by simp) x
  · intro r₁ r₂ m h₁ hrelative hname h₂ hne
    exact locate_locate h₁ hrelative hname h₂ hne

/-- A document whose path climbs out of the working directory, and hops that climb further. -/
theorem locate_independent_of_spelling_climbing :
    (Path.mk "w/../../up/./m.json").fileName? = some "m.json" ∧
      (Path.mk "w/../../up/./m.json").locate "..//x/./b.json#/a" =
        (Path.mk "w/../../up/./m.json").normalize.locate "..//x/./b.json#/a" ∧
      (Path.mk "w/../../up/./m.json").locate ("b.json" ++ "#" ++ "/a#b") =
        (Path.mk "w/../../up/./m.json").locate "b.json" ∧
      ((Path.mk "w/../../up/./m.json").locate "../../s/alias.json").locate "../../t.json" =
        ⟨"../../../t.json"⟩ := by
  have hd : (Path.mk "w/../../up/./m.json").fileName? = some "m.json" := by
    decide +kernel
  obtain ⟨hspelling, -, hfragment, -, -, hhops⟩ := locate_independent_of_spelling hd
  refine ⟨hd, hspelling _, hfragment _ _ (by decide), ?_⟩
  have hhop := hhops "../../s/alias.json" "../../t.json" "alias.json"
    (by decide) (by decide) (by decide +kernel) (by decide) (by decide)
  rw [hhop]
  decide +kernel

-- The name is needed: what a path that ends with a `..` says last is not what it is folded to last.
example :
    (Path.mk "a/..").locate "b.json" = ⟨"a/b.json"⟩ ∧
      (Path.mk "a/..").normalize.locate "b.json" = ⟨"b.json"⟩ := by
  decide +kernel

end Locate

end Path
end FieldTypes
