import FieldTypes.Proofs.Emission
import FieldTypes.Proofs.Joining
import FieldTypes.Proofs.Reaching

/-!
# The same documents under a prefix

Two views are compared: one has documents whose references stay inside the tree, and the other one
has the same documents under a prefix. Following aliases, resolving types and walking from model to
model ask only whether paths are the same, and prefixing keeps paths apart, so each step under the
prefix is the step inside, and so is each run. All that is made of the paths is where they stand in
reports.

**Results.**
* `Relocates.follows`: chains of aliases under the prefix.
* `Relocates.resolveType_fst`, `Relocates.report_fst`: types and reports under the prefix.
* `Relocates.enter`, `Relocates.runs`: a turn of the walk, and a run of it, under the prefix.
* `Relocates.reportModels_fst`: what is reported under the prefix.
-/

namespace FieldTypes

/-- A property's failure as it is seen from outside, where its tree lies at the prefix `P`. -/
def TypeError.under (P : Path) : TypeError → TypeError
  | cyclicReference path => cyclicReference (P.join path)
  | e => e

/-- A field's report as it is seen from outside. -/
def FieldReport.under (P : Path) (f : FieldReport) : FieldReport :=
  { f with type := f.type.mapError (TypeError.under P) }

/-- A model's report as it is seen from outside. -/
def ModelReport.under (P : Path) (m : ModelReport) : ModelReport :=
  { m with path := P.join m.path, fields := m.fields.map (FieldReport.under P) }

namespace Document

/-- A document as it is seen from outside. -/
def under (P : Path) (d : Document) : Document :=
  { d with path := P.join d.path }

/-- The references of a document, as written: those in its properties, and the one at the top
level. -/
def references (d : Document) : List String :=
  d.properties.flatMap Property.references ++ d.reference.toList

end Document

/-- The second view has under the prefix `P` what the first one has inside, and no document inside
refers to what lies outside. -/
structure Relocates (P : Path) (v v' : Path → Except LoadError Document) : Prop where
  normal : P.normalize = P
  ok : ∀ {p d}, p.IsInside → v p = .ok d → v' (P.under p) = .ok (d.under P)
  error : ∀ {p e}, p.IsInside → v p = .error e → ∃ e', v' (P.under p) = .error e'
  path : ∀ {p d}, v p = .ok d → d.path = p
  nonempty : ∀ {p d}, v p = .ok d → p ≠ ⟨""⟩
  inside : ∀ {p d}, p.IsInside → v p = .ok d →
    ∀ r ∈ d.references, (p.locate r).anchor = some 0

section Distinct

variable {α β : Type} [DecidableEq α] [DecidableEq β] {f : α → β}

/-- Where a function keeps elements apart, it keeps the first occurrence of each. -/
theorem foldl_keep_map
    (xs kept : List α)
    (hinj : ∀ x ∈ kept ++ xs, ∀ y ∈ kept ++ xs, f x = f y → x = y) :
    (xs.map f).foldl (fun kept x => if x ∈ kept then kept else kept ++ [x]) (kept.map f) =
      (xs.foldl (fun kept x => if x ∈ kept then kept else kept ++ [x]) kept).map f := by
  induction xs generalizing kept with
  | nil =>
      rfl
  | cons x xs ih =>
      have hmem : f x ∈ kept.map f ↔ x ∈ kept := by
        constructor
        · intro hx
          obtain ⟨y, hy, hxy⟩ := List.mem_map.1 hx
          rwa [← hinj y (by simp [hy]) x (by simp) hxy]
        · exact List.mem_map_of_mem
      rw [List.map_cons, List.foldl_cons, List.foldl_cons]
      by_cases hx : x ∈ kept
      · rw [if_pos (hmem.2 hx), if_pos hx]
        refine ih kept fun y hy z hz => hinj y ?_ z ?_
        · rcases List.mem_append.1 hy with hy | hy <;> simp [hy]
        · rcases List.mem_append.1 hz with hz | hz <;> simp [hz]
      · rw [if_neg (mt hmem.1 hx), if_neg hx, ← List.map_singleton, ← List.map_append]
        refine ih (kept ++ [x]) ?_
        rwa [List.append_assoc, List.singleton_append]

theorem distinct_map
    {xs : List α}
    (hinj : ∀ x ∈ xs, ∀ y ∈ xs, f x = f y → x = y) :
    distinct (xs.map f) = (distinct xs).map f :=
  foldl_keep_map xs [] hinj

end Distinct

section Under

variable {P p : Path} {v v' : Path → Except LoadError Document} {d : Document}

/-- Prefixing keeps the paths inside apart. -/
theorem mem_map_under
    {ps : List Path}
    (hps : ∀ q ∈ ps, q.IsInside)
    (hp : p.IsInside) :
    P.under p ∈ ps.map P.under ↔ p ∈ ps := by
  constructor
  · intro h
    obtain ⟨q, hq, heq⟩ := List.mem_map.1 h
    rwa [← (hps q hq).under_inj hp heq]
  · exact List.mem_map_of_mem

/-- A prefixed document has the path that it is found at. -/
theorem Relocates.path_under
    (h : Relocates P v v') (hp : p.IsInside) (hd : v p = .ok d) :
    (d.under P).path = P.under p := by
  show P.join d.path = P.under p
  rw [h.path hd, Path.join_eq_under h.normal hp (h.nonempty hd)]

/-- References of a prefixed document lead to the prefixed paths. -/
theorem Relocates.locate_under
    (h : Relocates P v v') (hp : p.IsInside) (hd : v p = .ok d)
    {r : String} (hr : r ∈ d.references) :
    (d.under P).path.locate r = P.under (d.path.locate r) := by
  rw [h.path_under hp hd, h.path hd]
  exact Path.locate_under hp (h.nonempty hd) (h.inside hp hd r hr)

theorem Relocates.isInside_locate
    (h : Relocates P v v') (hp : p.IsInside) (hd : v p = .ok d)
    {r : String} (hr : r ∈ d.references) :
    (d.path.locate r).IsInside := by
  rw [h.path hd]
  exact Path.isInside_locate (h.inside hp hd r hr)

theorem Relocates.isInside_of_mem_referenced
    (h : Relocates P v v') (hp : p.IsInside) (hd : v p = .ok d) :
    ∀ t ∈ d.referenced, t.IsInside := by
  intro t ht
  rw [Document.referenced, mem_distinct] at ht
  obtain ⟨r, hr, rfl⟩ := List.mem_map.1 ht
  exact h.isInside_locate hp hd hr

/-- A prefixed document refers to the prefixed paths, in the same order. -/
theorem Relocates.referenced_under
    (h : Relocates P v v') (hp : p.IsInside) (hd : v p = .ok d) :
    (d.under P).referenced = d.referenced.map P.under := by
  have hmap : d.references.map (d.under P).path.locate =
      (d.references.map d.path.locate).map P.under := by
    rw [List.map_map]
    refine List.map_congr_left fun r hr => ?_
    rw [h.locate_under hp hd hr, Function.comp_apply]
  have hinside : ∀ t ∈ d.references.map d.path.locate, t.IsInside := by
    intro t ht
    obtain ⟨r, hr, rfl⟩ := List.mem_map.1 ht
    exact h.isInside_locate hp hd hr
  have hinj : ∀ t ∈ d.references.map d.path.locate, ∀ u ∈ d.references.map d.path.locate,
      P.under t = P.under u → t = u := by
    intro t ht u hu heq
    exact (hinside t ht).under_inj (hinside u hu) heq
  show distinct (d.references.map (d.under P).path.locate) =
    (distinct (d.references.map d.path.locate)).map P.under
  rw [hmap, distinct_map hinj]

end Under

section Resolve

variable {P p : Path} {v v' : Path → Except LoadError Document} {d : Document}
  {s s' : Source} {j j' : Journal} {l : Language}

/-- What a reference resolves to, given how following it ends. -/
def settled : Except ReferenceError String → Except TypeError String
  | .ok name => .ok name
  | .error (.cyclic path) => .error (.cyclicReference path)
  | .error (.unloadable _) => .ok ""

/-- A visit under the prefix goes on where the visit inside does, and ends as it does apart from
the text of what cannot be loaded. -/
theorem Relocates.visit (h : Relocates P v v') (hp : p.IsInside) :
    (∃ d q, v p = .ok d ∧ visit v p = .inr q ∧ q.IsInside ∧
      visit v' (P.under p) = .inr (P.under q)) ∨
    ∃ r r', visit v p = .inl r ∧ visit v' (P.under p) = .inl r' ∧
      settled r' = (settled r).mapError (TypeError.under P) := by
  cases hd : v p with
  | error e =>
      obtain ⟨e', he'⟩ := h.error hp hd
      exact Or.inr ⟨_, _, visit_of_error hd, visit_of_error he', rfl⟩
  | ok d =>
      have hd' := h.ok hp hd
      cases ht : d.title with
      | some title =>
          exact Or.inr ⟨_, _, visit_of_title hd (by simp [ht]),
            visit_of_title hd' (by simp [Document.under, ht]), rfl⟩
      | none =>
          cases hr : d.reference with
          | none =>
              exact Or.inr ⟨_, _, visit_of_untitled hd ht hr, visit_of_untitled hd' ht hr, rfl⟩
          | some next =>
              have hmem : next ∈ d.references := by
                simp [Document.references, hr]
              refine Or.inl ⟨d, d.path.locate next, rfl, ?_, h.isInside_locate hp hd hmem, ?_⟩
              · simp [FieldTypes.visit, hd, ht, hr]
              · rw [← h.locate_under hp hd hmem]
                simp [FieldTypes.visit, hd', Document.under, ht, hr]

/-- Following aliases under the prefix visits the prefixed paths, and comes to the same end. -/
theorem Relocates.follows
    (h : Relocates P v v')
    {visited ps : List Path} {target : Path} {r : Except ReferenceError String}
    (hfollows : Follows v visited target ps r)
    (htarget : target.IsInside)
    (hvisited : ∀ q ∈ visited, q.IsInside ∧ q ≠ ⟨""⟩) :
    ∃ r', Follows v' (visited.map P.under) (P.under target) (ps.map P.under) r' ∧
      settled r' = (settled r).mapError (TypeError.under P) := by
  have hmem : ∀ {visited : List Path} {target : Path}, target.IsInside →
      (∀ q ∈ visited, q.IsInside ∧ q ≠ ⟨""⟩) →
      (P.under target ∈ visited.map P.under ↔ target ∈ visited) := fun htarget hvisited =>
    mem_map_under (fun q hq => (hvisited q hq).1) htarget
  induction hfollows with
  | @returns visited target hin =>
      -- A path that was passed has a document, so it is not empty and its joined form is normal.
      refine ⟨_, .returns ((hmem htarget hvisited).2 hin), ?_⟩
      show Except.error (TypeError.cyclicReference (P.under target)) =
        Except.error (TypeError.cyclicReference (P.join target))
      rw [Path.join_eq_under h.normal htarget (hvisited target hin).2]
  | @ends visited target r hout hvisit =>
      rcases h.visit htarget with ⟨d, q, -, hgoes, -⟩ | ⟨r₁, r', hends, hends', hsettled⟩
      · rw [hvisit] at hgoes
        cases hgoes
      · rw [hvisit] at hends
        cases hends
        exact ⟨r', .ends (mt (hmem htarget hvisited).1 hout) hends', hsettled⟩
  | @goesOn visited target next ps r hout hvisit _ ih =>
      rcases h.visit htarget with ⟨d, q, hd, hgoes, hq, hgoes'⟩ | ⟨r₁, r', hends, -⟩
      · rw [hvisit] at hgoes
        cases hgoes
        obtain ⟨r', hrest, hsettled⟩ := ih hq (by
          intro u hu
          rcases List.mem_cons.1 hu with rfl | hu
          · exact ⟨htarget, h.nonempty hd⟩
          · exact hvisited u hu)
        exact ⟨r', .goesOn (mt (hmem htarget hvisited).1 hout) hgoes' hrest, hsettled⟩
      · rw [hvisit] at hends
        cases hends

/-- What a reference resolves to is how following it ends. -/
theorem resolveReference_fst_eq_settled (reference : String) (document : Path) (j : Journal) :
    (resolveReference s reference document j).1 =
      settled (followReference s reference document j).1 := by
  rw [resolveReference_fst]
  rcases (followReference s reference document j).1 with (_ | _) | _ <;> rfl

variable (hview : j.view s = v) (hview' : j'.view s' = v')

include hview hview'

/-- References resolve under the prefix as they do inside. -/
theorem Relocates.resolveReference_fst
    (h : Relocates P v v') (hp : p.IsInside) (hd : v p = .ok d)
    {r : String} (hr : r ∈ d.references) :
    (resolveReference s' r (d.under P).path j').1 =
      (resolveReference s r d.path j).1.mapError (TypeError.under P) := by
  obtain ⟨ps, hfollows, -⟩ := followReference_follows (s := s) r d.path j
  obtain ⟨ps', hfollows', -⟩ := followReference_follows (s := s') r (d.under P).path j'
  rw [hview] at hfollows
  rw [hview', h.locate_under hp hd hr] at hfollows'
  obtain ⟨r', hunder, hsettled⟩ := h.follows hfollows (h.isInside_locate hp hd hr) (by simp)
  rw [resolveReference_fst_eq_settled, resolveReference_fst_eq_settled, ← hsettled,
    (hfollows'.unique hunder).2]

omit hview hview' in
theorem Property.mapError_ownType (q : Property) :
    (q.ownType l).mapError (TypeError.under P) = q.ownType l := by
  unfold Property.ownType
  cases q.declaredType with
  | none =>
      rfl
  | some token =>
      simp only
      cases DeclaredType.ofToken? token with
      | none =>
          rfl
      | some t =>
          cases t <;> rfl

/-- Types are found under the prefix as they are inside. -/
theorem Relocates.resolveType_fst
    (h : Relocates P v v') (hp : p.IsInside) (hd : v p = .ok d)
    {q : Property} (hq : q ∈ d.properties) :
    (resolveType s' l (d.under P).path q j').1 =
      (resolveType s l d.path q j).1.mapError (TypeError.under P) := by
  have hleaf : (resolveLeaf s' l (d.under P).path q.leaf j').1 =
      (resolveLeaf s l d.path q.leaf j).1.mapError (TypeError.under P) := by
    unfold resolveLeaf
    cases hr : q.leaf.reference with
    | some r =>
        refine h.resolveReference_fst hview hview' hp hd (List.mem_append_left _ ?_)
        exact List.mem_flatMap.2 ⟨q, hq, Property.mem_references_of_leaf hr⟩
    | none =>
        exact q.leaf.mapError_ownType.symm
  rw [resolveType_eq, resolveType_eq, hleaf]
  cases (resolveLeaf s l d.path q.leaf j).1 <;> rfl

/-- A model is reported under the prefix as it is inside. -/
theorem Relocates.report_fst
    (h : Relocates P v v') (hp : p.IsInside) (hd : v p = .ok d) :
    ((d.under P).report s' l j').1 = (d.report s l j).1.under P := by
  rw [Document.report_fst (rfl : j'.view s' = j'.view s'),
    Document.report_fst (rfl : j.view s = j.view s), ModelReport.under]
  congr 1
  rw [List.map_map]
  refine List.map_congr_left fun q hq => ?_
  show FieldReport.ofProperty q (resolveType s' l (d.under P).path q j').1 =
    (FieldReport.ofProperty q (resolveType s l d.path q j).1).under P
  rw [h.resolveType_fst hview hview' hp hd hq]
  rfl

end Resolve

namespace Walk

/-- What the loop has as it is seen from outside. -/
def under (P : Path) (w : Walk) : Walk where
  documents := w.documents.map fun e => (P.under e.1, e.2.under P)
  queue := w.queue.map P.under

/-- Whether the documents in the map are those of their paths, which lie inside. -/
def IsInside (v : Path → Except LoadError Document) (w : Walk) : Prop :=
  ∀ e ∈ w.documents, e.1.IsInside ∧ v e.1 = .ok e.2

end Walk

section Walk

variable {P p : Path} {v v' : Path → Except LoadError Document} {s s' : Source} {j j' : Journal}
  {w w' : Walk}

theorem Walk.mem_keys_under (hw : w.IsInside v) (hp : p.IsInside) :
    P.under p ∈ (w.under P).documents.map (·.1) ↔ p ∈ w.documents.map (·.1) := by
  have hkeys : (w.under P).documents.map (·.1) = (w.documents.map (·.1)).map P.under := by
    rw [Walk.under, List.map_map, List.map_map]
    rfl
  have hinside : ∀ q ∈ w.documents.map (·.1), q.IsInside := by
    intro q hq
    obtain ⟨e, he, rfl⟩ := List.mem_map.1 hq
    exact (hw e he).1
  rw [hkeys, mem_map_under hinside hp]

/-- The prefixed path has the prefixed document in the prefixed map. -/
theorem Walk.lookup_under
    {entries : List (Path × Document)} (hentries : ∀ e ∈ entries, e.1.IsInside) (hp : p.IsInside) :
    (entries.map fun e => (P.under e.1, e.2.under P)).lookup (P.under p) =
      (entries.lookup p).map (Document.under P) := by
  induction entries with
  | nil =>
      rfl
  | cons e entries ih =>
      obtain ⟨q, d⟩ := e
      have hq : q.IsInside := hentries (q, d) (by simp)
      rw [List.map_cons, List.lookup_cons, List.lookup_cons]
      by_cases hpq : p = q
      · subst hpq
        simp
      · have hne : P.under p ≠ P.under q := fun heq => hpq (hp.under_inj hq heq)
        rw [beq_false_of_ne hpq, beq_false_of_ne hne]
        exact ih fun e he => hentries e (by simp [he])

/-- A turn under the prefix is the turn inside. -/
theorem Relocates.enter
    (h : Relocates P v v')
    {targets : List Path}
    (htargets : ∀ t ∈ targets, t.IsInside)
    (hw : w.IsInside v)
    (hview : j.view s = v)
    (hview' : j'.view s' = v') :
    (Walk.enter s targets w j).1.IsInside v ∧
      (Walk.enter s' (targets.map P.under) (w.under P) j').1 =
        (Walk.enter s targets w j).1.under P := by
  induction targets generalizing w j j' with
  | nil =>
      exact ⟨hw, rfl⟩
  | cons t ts ih =>
      have ht : t.IsInside := htargets t (by simp)
      have hts : ∀ u ∈ ts, u.IsInside := fun u hu => htargets u (by simp [hu])
      have hload : j.view s t.normalize = v t := by rw [hview, ht.normal]
      have hload' : j'.view s' (P.under t).normalize = v' (P.under t) := by
        rw [hview', Path.normalize_under]
      have hreach : j.Reaches s (Resolving.load s t j).2 := Resolving.load_reaches t j
      have hreach' : j'.Reaches s' (Resolving.load s' (P.under t) j').2 :=
        Resolving.load_reaches (P.under t) j'
      rw [List.map_cons]
      by_cases hin : t ∈ w.documents.map (·.1)
      · rw [Walk.enter_cons_of_mem hin, Walk.enter_cons_of_mem ((Walk.mem_keys_under hw ht).2 hin)]
        exact ih hts hw hview hview'
      · have hout := mt (Walk.mem_keys_under (P := P) hw ht).1 hin
        cases hd : v t with
        | error e =>
            obtain ⟨e', he'⟩ := h.error ht hd
            rw [Walk.enter_cons_of_error hin (hload.trans hd),
              Walk.enter_cons_of_error hout (hload'.trans he')]
            exact ih hts hw ((hreach.warn _).view_eq.trans hview)
              ((hreach'.warn _).view_eq.trans hview')
        | ok d =>
            rw [Walk.enter_cons_of_ok hin (hload.trans hd),
              Walk.enter_cons_of_ok hout (hload'.trans (h.ok ht hd))]
            have hgrown : Walk.IsInside v ⟨w.documents ++ [(t, d)], w.queue ++ [t]⟩ := by
              intro e he
              rcases List.mem_append.1 he with he | he
              · exact hw e he
              · rw [List.mem_singleton.1 he]
                exact ⟨ht, hd⟩
            obtain ⟨hinside, heq⟩ := ih hts hgrown (hreach.view_eq.trans hview)
              (hreach'.view_eq.trans hview')
            refine ⟨hinside, ?_⟩
            rw [← heq]
            simp [Walk.under]

/-- A run under the prefix is the run inside. -/
theorem Relocates.runs
    (h : Relocates P v v')
    {ps : List Path} {i : Journal}
    (hruns : Walk.Runs s w j ps w' i)
    (hw : w.IsInside v)
    (hview : j.view s = v)
    (hview' : j'.view s' = v') :
    ∃ i', Walk.Runs s' (w.under P) j' (ps.map P.under) (w'.under P) i' := by
  induction hruns generalizing j' with
  | @ends w j hqueue =>
      exact ⟨j', .ends (by rw [Walk.under, hqueue]; rfl)⟩
  | @turn w w' j i current rest ps d hqueue hlookup _ ih =>
      obtain ⟨hcurrent, hd⟩ := hw _ (mem_of_lookup_eq_some hlookup)
      obtain ⟨hinside, henter⟩ := h.enter (h.isInside_of_mem_referenced hcurrent hd)
        (w := { w with queue := rest }) hw hview hview'
      obtain ⟨i', hrest⟩ := ih hinside ((Walk.enter_reaches _ _ j).view_eq.trans hview)
        ((Walk.enter_reaches (s := s') (d.referenced.map P.under)
          (({ w with queue := rest } : Walk).under P) j').view_eq.trans hview')
      rw [← henter, ← h.referenced_under hcurrent hd] at hrest
      refine ⟨i', .turn (d := d.under P) (by rw [Walk.under, hqueue]; rfl) ?_ hrest⟩
      rw [Walk.under, Walk.lookup_under (fun e he => (hw e he).1) hcurrent, hlookup]
      rfl

end Walk

section Reports

variable {P : Path} {v v' : Path → Except LoadError Document} {s s' : Source} {j j' : Journal}
  {roots : List Path} {l : Language} {follow : Bool}

/-- Documents of paths inside that load are prefixed to what loads under the prefix. -/
theorem Relocates.loaded_under
    (h : Relocates P v v')
    {ds : List Document}
    (hds : ∀ d ∈ ds, d.path.IsInside ∧ v d.path = .ok d) :
    (∀ e ∈ ds.map (Document.under P), v' e.path = .ok e) ∧
      (ds.map (Document.under P)).map (·.path) = (ds.map (·.path)).map P.under := by
  constructor
  · intro e he
    obtain ⟨d, hd, rfl⟩ := List.mem_map.1 he
    obtain ⟨hp, hload⟩ := hds d hd
    rw [h.path_under hp hload]
    exact h.ok hp hload
  · rw [List.map_map, List.map_map]
    refine List.map_congr_left fun d hd => ?_
    rw [Function.comp_apply, Function.comp_apply, h.path_under (hds d hd).1 (hds d hd).2]

theorem Relocates.arrange_under
    (h : Relocates P v v')
    (done queue : List Document)
    (hds : ∀ d ∈ done ++ queue, d.path.IsInside ∧ v d.path = .ok d) :
    (Walk.arrange done queue).under P =
      .arrange (done.map (Document.under P)) (queue.map (Document.under P)) := by
  have hpaths : ∀ d ∈ done ++ queue, P.under d.path = (d.under P).path := fun d hd =>
    (h.path_under (hds d hd).1 (hds d hd).2).symm
  have hdocuments : ((done ++ queue).map fun d => (P.under d.path, d.under P)) =
      (done ++ queue).map fun d => ((d.under P).path, d.under P) := by
    refine List.map_congr_left fun d hd => ?_
    rw [hpaths d hd]
  have hqueue : (queue.map fun d => P.under d.path) = queue.map fun d => (d.under P).path := by
    refine List.map_congr_left fun d hd => ?_
    rw [hpaths d (List.mem_append_right _ hd)]
  simp only [Walk.under, Walk.arrange, ← List.map_append, List.map_map, Function.comp_def,
    hdocuments, hqueue]

/-- Prefixed roots are the prefixed paths, each once. -/
theorem distinct_roots_under (hroots : ∀ r ∈ roots, r.anchor = some 0) :
    distinct ((roots.map P.join).map Path.normalize) =
      (distinct (roots.map Path.normalize)).map P.under := by
  have hmap : (roots.map P.join).map Path.normalize =
      (roots.map Path.normalize).map P.under := by
    rw [List.map_map, List.map_map]
    refine List.map_congr_left fun r hr => ?_
    rw [Function.comp_apply, Function.comp_apply, Path.normalize_join (hroots r hr)]
  have hinside : ∀ p ∈ roots.map Path.normalize, p.IsInside := by
    intro p hp
    obtain ⟨r, hr, rfl⟩ := List.mem_map.1 hp
    exact Path.isInside_normalize (hroots r hr)
  have hinj : ∀ p ∈ roots.map Path.normalize, ∀ q ∈ roots.map Path.normalize,
      P.under p = P.under q → p = q := by
    intro p hp q hq heq
    exact (hinside p hp).under_inj (hinside q hq) heq
  rw [hmap, distinct_map hinj]

/-- A closure from roots inside lies inside. -/
theorem Relocates.isInside_of_isClosureList
    (h : Relocates P v v')
    {ds : List Document}
    (hclosure : IsClosureList v roots ds)
    (hroots : ∀ r ∈ roots, r.anchor = some 0) :
    ∀ d ∈ ds, d.path.IsInside := by
  have hclosed : ClosedUnder v (roots.map Path.normalize) {p | p.IsInside} := by
    refine ⟨?_, ?_⟩
    · intro p hp
      obtain ⟨r, hr, rfl⟩ := List.mem_map.1 hp
      exact Path.isInside_normalize (hroots r hr)
    · intro p hp d hd t ht _
      exact h.isInside_of_mem_referenced hp hd t ht
  exact fun d hd => hclosure.least.2 hclosed (List.mem_map_of_mem hd)

/-- The closure under the prefix is the prefixed closure, and starts with the prefixed roots. -/
theorem Relocates.exists_closure
    (h : Relocates P v v')
    (hview : j.view s = v)
    (hview' : j'.view s' = v')
    (hpath' : ∀ p d, v' p = .ok d → d.path = p)
    (hroots : ∀ r ∈ roots, r.anchor = some 0 ∧ ∃ d, v r.normalize = .ok d) :
    ∃ ds i k i' k',
      (∀ d ∈ ds, d.path.IsInside ∧ v d.path = .ok d) ∧
      loadRoots s [] roots j =
        (.ok (ds.take (distinct (roots.map Path.normalize)).length), i) ∧
      closure s (ds.take (distinct (roots.map Path.normalize)).length) i = (ds, k) ∧
      loadRoots s' [] (roots.map P.join) j' =
        (.ok ((ds.take (distinct (roots.map Path.normalize)).length).map (Document.under P)), i') ∧
      closure s' ((ds.take (distinct (roots.map Path.normalize)).length).map (Document.under P)) i' =
        (ds.map (Document.under P), k') := by
  have hanchors : ∀ r ∈ roots, r.anchor = some 0 := fun r hr => (hroots r hr).1
  have hroots' : ∀ r ∈ roots.map P.join, ∃ d, v' r.normalize = .ok d := by
    intro r' hr'
    obtain ⟨r, hr, rfl⟩ := List.mem_map.1 hr'
    obtain ⟨d, hd⟩ := (hroots r hr).2
    rw [Path.normalize_join (hanchors r hr)]
    exact ⟨_, h.ok (Path.isInside_normalize (hanchors r hr)) hd⟩
  obtain ⟨ds, i, k, hfound, hwalk, hclosure, hruns⟩ :=
    FieldTypes.exists_closure (fun p d => h.path) hview fun r hr => (hroots r hr).2
  obtain ⟨ds', i', k', hfound', hwalk', hclosure', hruns'⟩ :=
    FieldTypes.exists_closure hpath' hview' hroots'
  have hinside := h.isInside_of_isClosureList hclosure hanchors
  have hds : ∀ d ∈ ds, d.path.IsInside ∧ v d.path = .ok d := fun d hd =>
    ⟨hinside d hd, hclosure.loaded d hd⟩
  rw [distinct_roots_under hanchors, List.length_map] at hfound' hwalk' hruns'
  generalize hn : (distinct (roots.map Path.normalize)).length = n at *
  have htake : ∀ d ∈ ds.take n, d.path.IsInside ∧ v d.path = .ok d := fun d hd =>
    hds d (List.mem_of_mem_take hd)
  have hsame : ds'.take n = (ds.take n).map (Document.under P) := by
    obtain ⟨hloaded, hpaths⟩ := h.loaded_under htake
    refine eq_of_map_path (fun d hd => hclosure'.loaded d (List.mem_of_mem_take hd)) hloaded ?_
    have hfirst := hclosure.roots_first
    have hfirst' := hclosure'.roots_first
    rw [distinct_roots_under hanchors, List.length_map, hn] at hfirst'
    rw [hn] at hfirst
    rw [hpaths, List.map_take, List.map_take, hfirst, hfirst']
  have hi := loadRoots_reaches (s := s) [] roots j
  have hi' := loadRoots_reaches (s := s') [] (roots.map P.join) j'
  rw [hfound] at hi
  rw [hfound'] at hi'
  have hstart : (Walk.arrange [] (ds.take n)).IsInside v := by
    intro e he
    obtain ⟨d, hd, rfl⟩ := List.mem_map.1 he
    exact htake d hd
  -- The run inside is also the run under the prefix, and there is only one.
  obtain ⟨i'', hunder⟩ := h.runs hruns hstart (hi.view_eq.trans hview) (hi'.view_eq.trans hview')
  rw [h.arrange_under [] _ htake, ← hsame] at hunder
  have hall : ds' = ds.map (Document.under P) := by
    obtain ⟨hloaded, hpaths⟩ := h.loaded_under hds
    exact eq_of_map_path hclosure'.loaded hloaded ((hruns'.unique hunder).1.trans hpaths.symm)
  rw [hsame] at hfound' hwalk'
  rw [hall] at hwalk'
  exact ⟨ds, i, k, i', k', hds, hfound, hwalk, hfound', hwalk'⟩

/-- What is reported under the prefix is what is reported inside, with the prefixed paths. -/
theorem Relocates.reportModels_fst
    (h : Relocates P v v')
    (hview : j.view s = v)
    (hview' : j'.view s' = v')
    (hpath' : ∀ p d, v' p = .ok d → d.path = p)
    (hroots : ∀ r ∈ roots, r.anchor = some 0 ∧ ∃ d, v r.normalize = .ok d) :
    ∃ reports,
      (reportModels s roots l follow j).1 = .ok reports ∧
      (reportModels s' (roots.map P.join) l follow j').1 =
        .ok (reports.map (ModelReport.under P)) := by
  obtain ⟨ds, i, k, i', k', hds, hfound, hwalk, hfound', hwalk'⟩ :=
    h.exists_closure hview hview' hpath' hroots
  have hreports : ∀ es : List Document, (∀ d ∈ es, d ∈ ds) →
      ((es.map (Document.under P)).map fun d => (d.report s' l j').1) =
        (es.map fun d => (d.report s l j).1).map (ModelReport.under P) := by
    intro es hes
    rw [List.map_map, List.map_map]
    refine List.map_congr_left fun d hd => ?_
    obtain ⟨hp, hload⟩ := hds d (hes d hd)
    exact h.report_fst hview hview' hp hload
  rw [FieldTypes.reportModels_fst, FieldTypes.reportModels_fst, findModels, findModels, hfound,
    hfound']
  cases follow with
  | true =>
      simp only [if_true, hwalk, hwalk', Except.map, Except.ok.injEq, exists_eq_left']
      exact hreports ds fun d hd => hd
  | false =>
      simp only [Bool.false_eq_true, if_false, Except.map, Except.ok.injEq, exists_eq_left']
      exact hreports _ fun d hd => List.mem_of_mem_take hd

end Reports

end FieldTypes