import FieldTypes.Proofs.Destination

/-!
# Paths taken from a directory

Joining puts the segments of a relative path behind those of a directory, and folding goes on with
them from where the directory was folded to. A path whose normal form does not begin with `..` never
takes away what it did not bring itself, so from every directory it is folded as it is alone. That
makes prefixing commute with all that is done to find a document: joining, taking the directory,
and folding.

**Results.**
* `Path.normalComponents_join`: joining a path that does not climb puts it behind the directory.
* `Path.directory_of_normalComponents`: the directory of a path in normal form.
* `Path.locate_under`: references located from below a prefix.
* `Path.join_eq_under`: prefixing keeps paths in normal form.
-/

namespace FieldTypes
/-- What is joined last stands behind the last separator. -/
theorem intercalate_append_singleton {α : Type} {sep : List α} {fs : List (List α)} (hne : fs ≠ [])
    (f : List α) :
    sep.intercalate (fs ++ [f]) = sep.intercalate fs ++ sep ++ f := by
  induction fs with
  | nil =>
      exact absurd rfl hne
  | cons g fs ih =>
      cases fs with
      | nil =>
          simp
      | cons g' fs =>
          have hjoin : sep.intercalate (g' :: fs ++ [f]) = sep.intercalate (g' :: fs) ++ sep ++ f :=
            ih (List.cons_ne_nil g' fs)
          rw [List.cons_append, List.intercalate_cons_of_ne_nil (by simp), hjoin,
            List.intercalate_cons_cons]
          simp only [List.append_assoc]

/-- A segment for a component is not idle. -/
theorem Component.IsSegment.isIdle_text {c : Component} (h : c.IsSegment) :
    Path.isIdle c.text = false := by
  have hc := h.1
  unfold ofSegment? at hc
  split_ifs at hc with hidle
  all_goals simpa [Path.isIdle] using hidle

namespace Path

variable {p q : Path} {cs : List Component} {c : Component}

section Join

theorem eq_of_segments (h : p.segments = q.segments) :
    p = q := by
  have htext : p.text.toList = q.text.toList := by
    rw [← p.intercalate_segments, ← q.intercalate_segments, h]
  obtain ⟨text⟩ := p
  obtain ⟨text'⟩ := q
  exact congrArg Path.mk (String.toList_inj.1 htext)

/-- A relative path has its segments behind those of the directory, where an empty one at the end
of the directory counts for the separator. -/
theorem segments_join
    (hq : q.isAbsolute = false)
    (ss : List (List Char)) (s : List Char)
    (hp : p.segments = ss ++ [s]) :
    (p.join q).segments = (if s = [] then ss else ss ++ [s]) ++ q.segments := by
  have hslash : ∀ f ∈ ss ++ [s], '/' ∉ f := fun f hf =>
    notMem_of_mem_splitOn (hp ▸ hf)
  have htext : p.text.toList = ['/'].intercalate (ss ++ [s]) := by
    rw [← hp, intercalate_segments]
  rw [join, if_neg (by simp [hq])]
  -- The directory's text ends in a slash where its last segment is empty and not its only one.
  split_ifs with hs
  · subst hs
    cases ss with
    | nil =>
        have hempty : p.text.toList = [] := htext
        rw [hempty]
        rfl
    | cons f fs =>
        rw [intercalate_append_singleton (by simp), List.append_nil] at htext
        have hlast : p.text.toList.getLast? = some '/' := by
          simp [htext]
        rw [hlast, segments, segments]
        simp only [if_true, String.toList_append, htext, List.append_assoc, List.cons_append,
          List.nil_append]
        rw [List.splitOn_append_cons_self,
          List.splitOn_intercalate '/' (fun g hg => hslash g (List.mem_append_left _ hg)) (by simp),
          List.cons_append]
  · have hlast : ∃ c, p.text.toList.getLast? = some c ∧ c ≠ '/' := by
      refine ⟨s.getLast hs, ?_, ?_⟩
      · rw [htext]
        cases ss with
        | nil =>
            rw [List.nil_append, List.intercalate_singleton]
            exact List.getLast?_eq_some_getLast hs
        | cons f fs =>
            rw [intercalate_append_singleton (by simp), List.getLast?_append,
              List.getLast?_eq_some_getLast hs]
            rfl
      · intro heq
        exact hslash s (by simp) (heq ▸ List.getLast_mem hs)
    obtain ⟨c, hc, hne⟩ := hlast
    rw [hc, ← hp, segments, segments, segments]
    simp only [if_neg hne, String.toList_append, List.append_assoc]
    exact List.splitOn_append_cons_self _ _

/-- What the segments of a path stand for, without the root and a leading `.`. -/
def steps (p : Path) : List Component :=
  p.segments.filterMap Component.ofSegment?

theorem root_notMem_steps : .root ∉ p.steps :=
  root_notMem_filterMap p.segments

/-- Folding takes the steps of a path from the root or from nothing. -/
theorem normalComponents_eq (p : Path) :
    p.normalComponents =
      (p.steps.foldl fold (if p.isAbsolute then [.root] else [])).reverse := by
  rw [normalComponents]
  cases h : p.isAbsolute with
  | true =>
      rw [components_of_isAbsolute h]
      rfl
  | false =>
      rcases components_of_not_isAbsolute h with hcomponents | hcomponents <;>
        rw [hcomponents] <;> rfl

theorem steps_join (hq : q.isAbsolute = false) :
    (p.join q).steps = p.steps ++ q.steps := by
  obtain ⟨ss, s, hp⟩ : ∃ ss s, p.segments = ss ++ [s] :=
    ⟨_, _, (List.dropLast_concat_getLast (List.splitOn_ne_nil '/' p.text.toList)).symm⟩
  rw [steps, steps, steps, segments_join hq ss s hp, hp, List.filterMap_append]
  split_ifs with hs
  · subst hs
    rw [List.filterMap_append,
      List.filterMap_cons_none (show Component.ofSegment? [] = none from rfl), List.filterMap_nil,
      List.append_nil]
  · rw [List.filterMap_append]

theorem isAbsolute_join_of_relative (hq : q.isAbsolute = false) :
    (p.join q).isAbsolute = p.isAbsolute := by
  rw [join, if_neg (by simp [hq])]
  cases hlast : p.text.toList.getLast? with
  | none =>
      rw [List.getLast?_eq_none_iff] at hlast
      simp [isAbsolute, hlast] at hq ⊢
      exact hq
  | some c =>
      have hne : p.text.toList ≠ [] := by
        intro hnil
        simp [hnil] at hlast
      obtain ⟨first, body, hbody⟩ := List.exists_cons_of_ne_nil hne
      simp only [isAbsolute]
      split_ifs <;> simp [hbody]

/-- Folding a joined path goes on from where the directory was folded to. -/
theorem normalComponents_join_of_relative (hq : q.isAbsolute = false) :
    (p.join q).normalComponents =
      (q.steps.foldl fold p.normalComponents.reverse).reverse := by
  rw [normalComponents_eq (p.join q), steps_join hq, isAbsolute_join_of_relative hq,
    List.foldl_append, normalComponents_eq p, List.reverse_reverse]

end Join

section Climb

theorem up_mem_fold {kept : List Component} (h : .up ∈ kept) (c : Component) :
    .up ∈ fold kept c := by
  unfold fold
  split
  · exact h
  · simpa using h
  · exact h
  · exact List.mem_cons_of_mem _ h

theorem up_mem_foldl {kept : List Component} (h : .up ∈ kept) (cs : List Component) :
    .up ∈ cs.foldl fold kept := by
  induction cs generalizing kept with
  | nil =>
      exact h
  | cons c cs ih =>
      exact ih (up_mem_fold h c)

/-- Steps that do not climb out of the names they start with are folded the same on top of
anything else. -/
theorem foldl_fold_append
    (names : List String) (base : List Component)
    (hroot : .root ∉ cs)
    (hup : .up ∉ cs.foldl fold (names.map .name)) :
    cs.foldl fold (names.map .name ++ base) = cs.foldl fold (names.map .name) ++ base := by
  induction cs generalizing names with
  | nil =>
      rfl
  | cons c cs ih =>
      have hrest : .root ∉ cs := fun h => hroot (by simp [h])
      rw [List.foldl_cons] at hup ⊢
      rw [List.foldl_cons]
      cases c with
      | root =>
          exact absurd (List.mem_cons_self) hroot
      | here =>
          exact ih names hrest hup
      | name n =>
          exact ih (n :: names) hrest hup
      | up =>
          cases names with
          | nil =>
              -- Once out of the names, the walk does not come back: nothing takes a `..` away.
              exact absurd (up_mem_foldl (List.mem_cons_self) cs) hup
          | cons n names =>
              exact ih names hrest hup

theorem anchor_eq_zero_iff :
    p.anchor = some 0 ↔ p.isAbsolute = false ∧ .up ∉ p.normalComponents := by
  unfold anchor
  cases p.isAbsolute with
  | true =>
      simp
  | false =>
      simp [List.count_eq_zero]

/-- A path that does not climb stands behind the directory that it is joined to. -/
theorem normalComponents_join (h : q.anchor = some 0) :
    (p.join q).normalComponents = p.normalComponents ++ q.normalComponents := by
  obtain ⟨hrelative, hup⟩ := anchor_eq_zero_iff.1 h
  rw [normalComponents_eq q, hrelative] at hup ⊢
  simp only [Bool.false_eq_true, if_false, List.mem_reverse] at hup ⊢
  rw [normalComponents_join_of_relative hrelative]
  have happend := foldl_fold_append [] p.normalComponents.reverse root_notMem_steps hup
  rw [List.map_nil, List.nil_append] at happend
  rw [happend, List.reverse_append, List.reverse_reverse]

end Climb

section Directory

/-- A text that begins with a segment for a component has no stem. -/
theorem stem_of_segments
    {s : List Char} {ss : List (List Char)}
    (h : p.segments = s :: ss) (hs : isIdle s = false) :
    p.stem = ([], p.text.toList) := by
  have hnil : s ≠ [] ∧ s ≠ ['.'] := by
    simpa [isIdle] using hs
  unfold stem
  unfold segments at h
  split
  · next body hbody =>
      rw [hbody, List.splitOn_cons_eq_if_modifyHead, if_pos (BEq.refl '/')] at h
      exact absurd (List.cons.inj h).1.symm hnil.1
  · next hbody =>
      rw [hbody] at h
      exact absurd (List.cons.inj h).1.symm hnil.2
  · next body hbody =>
      rw [hbody] at h
      have hcut : ('.' :: '/' :: body).splitOn '/' = ['.'] :: body.splitOn '/' := rfl
      rw [hcut] at h
      exact absurd (List.cons.inj h).1.symm hnil.2
  · rfl

theorem dropIdle_of_forall {ss : List (List Char)} (h : ∀ s ∈ ss, isIdle s = false) :
    dropIdle ss = ss := by
  cases ss with
  | nil =>
      rfl
  | cons s ss =>
      rw [dropIdle, List.dropWhile_cons_of_neg (by simp [h s (by simp)])]

/-- The last one of segments for components is what the directory leaves out. -/
theorem directory_of_stem
    {lead : List Char}
    (hstem : p.stem = (lead, ['/'].intercalate ((cs ++ [c]).map Component.text)))
    (h : ∀ d ∈ cs ++ [c], d.IsSegment) :
    p.directory = ⟨String.ofList (lead ++ ['/'].intercalate (cs.map Component.text))⟩ := by
  have hslash : ∀ f ∈ (cs ++ [c]).map Component.text, '/' ∉ f := by
    intro f hf
    obtain ⟨d, hd, rfl⟩ := List.mem_map.1 hf
    exact (h d hd).2
  have hidle : ∀ s ∈ ((cs ++ [c]).map Component.text).reverse, isIdle s = false := by
    intro s hs
    obtain ⟨d, hd, rfl⟩ := List.mem_map.1 (List.mem_reverse.1 hs)
    exact (h d hd).isIdle_text
  have hreverse : ((cs ++ [c]).map Component.text).reverse =
      c.text :: (cs.map Component.text).reverse := by
    simp
  simp only [directory, parent?, hstem]
  rw [List.splitOn_intercalate '/' hslash (by simp), dropIdle_of_forall hidle]
  rw [hreverse] at hidle ⊢
  simp only
  rw [dropIdle_of_forall fun s hs => hidle s (List.mem_cons_of_mem _ hs), List.reverse_reverse]
  rfl

theorem ofComponents_of_ne_root (h : cs ≠ [.root]) :
    ofComponents cs = ⟨String.ofList (['/'].intercalate (cs.map Component.text))⟩ := by
  unfold ofComponents
  split
  · exact absurd rfl h
  · rfl

theorem ofComponents_root (cs : List Component) :
    ofComponents (.root :: cs) =
      ⟨String.ofList ('/' :: ['/'].intercalate (cs.map Component.text))⟩ := by
  cases cs with
  | nil =>
      rfl
  | cons c cs =>
      rw [ofComponents_of_ne_root (by simp), List.map_cons,
        List.intercalate_cons_of_ne_nil (by simp)]
      rfl

/-- The segments of a path are the texts of its components, where these are not the root alone. -/
theorem segments_ofComponents
    (hne : cs ≠ []) (hroot : cs ≠ [.root])
    (h : ∀ d ∈ cs, d = .root ∨ d.IsSegment) :
    (ofComponents cs).segments = cs.map Component.text := by
  rw [ofComponents_of_ne_root hroot, segments, String.toList_ofList]
  refine List.splitOn_intercalate '/' ?_ (by simpa using hne)
  intro f hf
  obtain ⟨d, hd, rfl⟩ := List.mem_map.1 hf
  rcases h d hd with rfl | hd
  · simp [Component.text]
  · exact hd.2

theorem directory_ofComponents (h : ∀ d ∈ cs ++ [c], d.IsSegment) :
    (ofComponents (cs ++ [c])).directory = ofComponents cs := by
  have hroot : ∀ ds : List Component, (∀ d ∈ ds, d.IsSegment) → ds ≠ [.root] := by
    rintro ds hds rfl
    exact (hds .root (by simp)).ne_root rfl
  have htext := ofComponents_of_ne_root (hroot _ h)
  obtain ⟨first, rest, hfirst⟩ := List.exists_cons_of_ne_nil (show cs ++ [c] ≠ [] by simp)
  have hsegments : (ofComponents (cs ++ [c])).segments =
      first.text :: rest.map Component.text := by
    rw [segments_ofComponents (by simp) (hroot _ h) fun d hd => Or.inr (h d hd), hfirst,
      List.map_cons]
  have hstem := stem_of_segments hsegments (h first (by simp [hfirst])).isIdle_text
  have hbody : (ofComponents (cs ++ [c])).text.toList =
      ['/'].intercalate ((cs ++ [c]).map Component.text) := by
    rw [htext, String.toList_ofList]
  rw [hbody] at hstem
  rw [directory_of_stem hstem h, List.nil_append,
    ofComponents_of_ne_root (hroot cs fun d hd => h d (by simp [hd]))]

theorem directory_ofComponents_root (h : ∀ d ∈ cs ++ [c], d.IsSegment) :
    (ofComponents (.root :: (cs ++ [c]))).directory = ofComponents (.root :: cs) := by
  have hstem : (ofComponents (.root :: (cs ++ [c]))).stem =
      (['/'], ['/'].intercalate ((cs ++ [c]).map Component.text)) := by
    rw [ofComponents_root, stem, String.toList_ofList]
    rfl
  rw [directory_of_stem hstem h, ofComponents_root]
  rfl

theorem Folded.tail (h : Folded (c :: cs)) :
    Folded cs := by
  cases h with
  | root =>
      exact .empty
  | up hcs =>
      exact hcs
  | name hcs =>
      exact hcs

/-- The directory of a path in normal form is the path without its last component. -/
theorem directory_of_normalComponents
    (hp : p.normalize = p)
    (hc : c ≠ .root)
    (h : p.normalComponents = cs ++ [c]) :
    p.directory = ofComponents cs ∧ (ofComponents cs).normalComponents = cs := by
  obtain ⟨hfolded, hsegments⟩ := p.folded_foldl
  have hstack : p.components.foldl fold [] = c :: cs.reverse := by
    rw [← List.reverse_reverse (p.components.foldl fold []), ← normalComponents, h,
      List.reverse_append]
    rfl
  have hpath : p = ofComponents (cs ++ [c]) := by
    rw [← h, ← normalize, hp]
  constructor
  · rcases hfolded.reverse_eq hsegments with hall | ⟨rest, hrest, hall⟩
    · rw [← normalComponents, h] at hall
      rw [hpath, directory_ofComponents hall]
    · rw [← normalComponents, h] at hrest
      cases cs with
      | nil =>
          rw [List.nil_append] at hrest
          exact absurd (List.cons.inj hrest).1 hc
      | cons d cs =>
          obtain ⟨rfl, rfl⟩ := List.cons.inj hrest
          rw [hpath]
          exact directory_ofComponents_root hall
  · rw [hstack] at hfolded hsegments
    have hcomponents := hfolded.tail.components_ofComponents fun d hd => hsegments d (by simp [hd])
    rw [List.reverse_reverse] at hcomponents
    have hfold := hfolded.tail.foldl_reverse
    rw [List.reverse_reverse] at hfold
    rw [normalComponents, hcomponents, hfold, List.reverse_reverse]

end Directory

/-- Whether a path is in normal form, relative, and does not climb. -/
structure IsInside (p : Path) : Prop where
  normal : p.normalize = p
  anchor : p.anchor = some 0

/-- A path as it is seen from outside, where its tree lies at the prefix `P`. -/
def under (P p : Path) : Path :=
  (P.join p).normalize

section Under

variable {P : Path}

theorem isInside_normalize (h : p.anchor = some 0) :
    p.normalize.IsInside :=
  ⟨p.normalize_normalize, by rwa [anchor_normalize]⟩

theorem isInside_locate {reference : String} (h : (p.locate reference).anchor = some 0) :
    (p.locate reference).IsInside :=
  ⟨p.normalize_locate reference, h⟩

/-- A path inside goes down by names alone. -/
theorem IsInside.exists_names (h : p.IsInside) :
    ∃ names : List String, p.normalComponents = names.map .name := by
  obtain ⟨names, hnames⟩ := p.exists_names
  rw [h.anchor] at hnames
  exact ⟨names, hnames⟩

theorem IsInside.isAbsolute_eq (h : p.IsInside) :
    p.isAbsolute = false :=
  (anchor_eq_zero_iff.1 h.anchor).1

theorem IsInside.eq_ofComponents (h : p.IsInside) :
    p = ofComponents p.normalComponents := by
  rw [← normalize, h.normal]

theorem IsInside.normalComponents_ne_nil (h : p.IsInside) (hne : p ≠ ⟨""⟩) :
    p.normalComponents ≠ [] := by
  intro hnil
  rw [h.eq_ofComponents, hnil] at hne
  exact hne rfl

@[simp] theorem normalize_under (P p : Path) :
    (P.under p).normalize = P.under p :=
  normalize_normalize _

theorem normalComponents_under (h : p.anchor = some 0) :
    (P.under p).normalComponents = P.normalComponents ++ p.normalComponents := by
  rw [under, normalComponents_normalize, normalComponents_join h]

/-- However a path is spelled, prefixing and folding can be done in either order. -/
theorem normalize_join (h : p.anchor = some 0) :
    (P.join p).normalize = P.under p.normalize := by
  have hnormal : p.normalize.anchor = some 0 := by rwa [anchor_normalize]
  rw [under, normalize, normalize, normalComponents_join h, normalComponents_join hnormal,
    normalComponents_normalize]

/-- Different paths inside are different under a prefix. -/
theorem IsInside.under_inj (hp : p.IsInside) (hq : q.IsInside) (h : P.under p = P.under q) :
    p = q := by
  have hcomponents : (P.under p).normalComponents = (P.under q).normalComponents := by
    rw [h]
  rw [normalComponents_under hp.anchor, normalComponents_under hq.anchor,
    List.append_cancel_left_eq] at hcomponents
  rw [hp.eq_ofComponents, hq.eq_ofComponents, hcomponents]

/-- The directory of a path inside is made of names, also under a prefix. -/
theorem IsInside.exists_directory (hp : p.IsInside) (hne : p ≠ ⟨""⟩) (P : Path) :
    ∃ names : List String,
      p.directory.normalComponents = names.map .name ∧
      (P.under p).directory.normalComponents = P.normalComponents ++ names.map .name := by
  obtain ⟨names, hnames⟩ := hp.exists_names
  obtain ⟨outer, n, rfl⟩ : ∃ outer n, names = outer ++ [n] := by
    have hnil : names ≠ [] := by
      rintro rfl
      exact hp.normalComponents_ne_nil hne hnames
    exact ⟨_, _, (List.dropLast_concat_getLast hnil).symm⟩
  rw [List.map_append, List.map_singleton] at hnames
  have hunder : (P.under p).normalComponents =
      P.normalComponents ++ outer.map .name ++ [.name n] := by
    rw [normalComponents_under hp.anchor, hnames, List.append_assoc]
  obtain ⟨hdirectory, houter⟩ := directory_of_normalComponents hp.normal (by simp) hnames
  obtain ⟨hdirectory', houter'⟩ :=
    directory_of_normalComponents (normalize_under P p) (by simp) hunder
  refine ⟨outer, ?_, ?_⟩
  · rw [hdirectory, houter]
  · rw [hdirectory', houter']

/-- What stands in the directory of a path inside, and inside itself, is found under a prefix from
the path there. -/
theorem normalize_join_directory_under
    (hp : p.IsInside)
    (hne : p ≠ ⟨""⟩)
    (h : (p.directory.join q).anchor = some 0) :
    ((P.under p).directory.join q).normalize = P.under (p.directory.join q).normalize := by
  -- An absolute path would not lie inside.
  have hrelative : q.isAbsolute = false := by
    cases habsolute : q.isAbsolute with
    | false =>
        rfl
    | true =>
        rw [join, if_pos habsolute, anchor, if_pos habsolute] at h
        cases h
  obtain ⟨names, hnames, hnames'⟩ := hp.exists_directory hne P
  have hup := (anchor_eq_zero_iff.1 h).2
  rw [normalComponents_join_of_relative hrelative, hnames, List.mem_reverse,
    ← List.map_reverse] at hup
  have hcomponents : ((P.under p).directory.join q).normalComponents =
      P.normalComponents ++ (p.directory.join q).normalComponents := by
    rw [normalComponents_join_of_relative hrelative, normalComponents_join_of_relative hrelative,
      hnames, hnames', List.reverse_append, ← List.map_reverse,
      foldl_fold_append _ P.normalComponents.reverse root_notMem_steps hup, List.reverse_append,
      List.reverse_reverse]
  rw [← normalize_join h, normalize, hcomponents, ← normalComponents_join h, ← normalize]

/-- A reference that leads to a path inside leads there under every prefix. -/
theorem locate_under
    {reference : String}
    (hp : p.IsInside)
    (hne : p ≠ ⟨""⟩)
    (h : (p.locate reference).anchor = some 0) :
    (P.under p).locate reference = P.under (p.locate reference) := by
  simp only [locate] at h ⊢
  split_ifs at h ⊢ with hfile
  · rw [normalize_under, hp.normal]
  · rw [anchor_normalize] at h
    exact normalize_join_directory_under hp hne h

theorem eq_root_or_isSegment (hc : c ∈ p.normalComponents) :
    c = .root ∨ c.IsSegment :=
  p.folded_foldl.2 c (List.mem_reverse.1 hc)

theorem segments_of_normalize
    (hp : p.normalize = p)
    (hne : p.normalComponents ≠ [])
    (hroot : p.normalComponents ≠ [.root]) :
    p.segments = p.normalComponents.map Component.text := by
  have hsegments := segments_ofComponents hne hroot fun c hc => eq_root_or_isSegment hc
  rwa [← normalize, hp] at hsegments

/-- The segments of a path inside are names. -/
theorem IsInside.exists_segments (hp : p.IsInside) (hne : p ≠ ⟨""⟩) :
    ∃ names : List String,
      p.segments = names.map String.toList ∧
      ∀ n ∈ names, (Component.name n).IsSegment := by
  obtain ⟨names, hnames⟩ := hp.exists_names
  refine ⟨names, ?_, ?_⟩
  · rw [segments_of_normalize hp.normal (hp.normalComponents_ne_nil hne)
      (by rw [hnames]; cases names <;> simp), hnames, List.map_map]
    rfl
  · intro n hn
    have hmem : Component.name n ∈ p.normalComponents := by
      rw [hnames]
      exact List.mem_map_of_mem hn
    simpa using eq_root_or_isSegment hmem

/-- The segments of a prefix, and behind them those of the path. -/
theorem segments_under
    (hp : p.IsInside)
    (hne : p ≠ ⟨""⟩) :
    (P.under p).segments = P.normalComponents.map Component.text ++ p.segments := by
  have hnil := hp.normalComponents_ne_nil hne
  obtain ⟨c, hc⟩ := List.exists_mem_of_ne_nil _ hnil
  have hname : c ≠ .root := by
    obtain ⟨names, hnames⟩ := hp.exists_names
    rw [hnames] at hc
    obtain ⟨n, -, rfl⟩ := List.mem_map.1 hc
    simp
  have hroot : ∀ base : List Component, base ++ p.normalComponents ≠ [.root] := by
    intro base hbase
    have hmem : c ∈ [Component.root] := hbase ▸ List.mem_append_right base hc
    exact hname (List.mem_singleton.1 hmem)
  have hunder := normalComponents_under (P := P) hp.anchor
  rw [segments_of_normalize (normalize_under P p) (by simp [hunder, hnil])
    (by rw [hunder]; exact hroot _), segments_of_normalize hp.normal hnil (hroot []), hunder,
    List.map_append]

/-- Joining a path inside to a prefix in normal form leaves nothing to fold. -/
theorem join_eq_under
    (hP : P.normalize = P)
    (hp : p.IsInside)
    (hne : p ≠ ⟨""⟩) :
    P.join p = P.under p := by
  refine eq_of_segments ?_
  have hrelative := hp.isAbsolute_eq
  rw [segments_under hp hne]
  have hpath : P = ofComponents P.normalComponents := by
    rw [← normalize, hP]
  by_cases hnil : P.normalComponents = []
  · rw [hnil] at hpath ⊢
    exact segments_join hrelative [] [] (by rw [hpath]; rfl)
  by_cases hroot : P.normalComponents = [.root]
  · rw [hroot] at hpath ⊢
    exact segments_join hrelative [[]] [] (by rw [hpath]; rfl)
  · have hsegments := segments_of_normalize hP hnil hroot
    obtain ⟨outer, c, hc⟩ : ∃ outer c, P.normalComponents = outer ++ [c] :=
      ⟨_, _, (List.dropLast_concat_getLast hnil).symm⟩
    have htext : c.text ≠ [] := by
      rcases P.folded_foldl.1.reverse_eq P.folded_foldl.2 with hall | ⟨rest, hrest, hall⟩
      · rw [← normalComponents, hc] at hall
        exact (hall c (by simp)).text_ne_nil
      · rw [← normalComponents, hc] at hrest
        cases outer with
        | nil =>
            rw [List.nil_append] at hc
            obtain ⟨rfl, -⟩ := List.cons.inj hrest
            exact absurd hc hroot
        | cons d outer =>
            obtain ⟨-, rfl⟩ := List.cons.inj hrest
            exact (hall c (by simp)).text_ne_nil
    rw [hc, List.map_append, List.map_singleton] at hsegments
    rw [segments_join hrelative _ _ hsegments, if_neg htext, hc, List.map_append, List.map_singleton]

end Under

end Path
end FieldTypes
