import FieldTypes.Proofs.Prefetching
import FieldTypes.Proofs.Reaching
import FieldTypes.Proofs.Rendering

/-!
# What is warned of

Reporting models warns of what it passes over. The walk from model to model passes over the
documents that do not load: it warns of each once for every model that refers to it. A field whose
reference comes to such a document is reported with the empty name, with a warning for that field.
No other warning is given. What a field warns of depends on the journal's view alone, so fields that
are resolved at once give the same warnings, in the order in which they happen to come.

**Main definitions.**
* `Document.skipped`, `Property.warning?`: the warnings of a model and of a field.
* `Strand.warnings`: the warnings that a strand is going to give.

**Results.**
* `resolveType_warnings`, `Document.report_warnings`: the warnings of a field and of a report.
* `Walk.Runs.warnings_eq`: the warnings of the walk.
* `Pool.Runs.perm_warnings`: warnings are neither lost nor given twice among strands.
* `warnings_of_evolves`: all warnings of reporting models.
-/

namespace FieldTypes

/-- The warning of a path that does not load. -/
def skipped? (v : Path → Except LoadError Document) (t : Path) : Option Warning :=
  match v t with
  | .error e => some (.skippedModel e)
  | .ok _ => none

/-- The warnings of a model: one for each document that it refers to and that does not load. -/
def Document.skipped (v : Path → Except LoadError Document) (d : Document) : List Warning :=
  d.referenced.filterMap (skipped? v)

/-- The warning of a reference: it comes to a document that does not load. -/
def referenceWarning? (s : Source) (j : Journal) (reference : String) (document : Path) :
    Option Warning :=
  match (followReference s reference document j).1 with
  | .error (.unloadable e) => some (.unloadedReference reference document e)
  | .error (.cyclic _) => none
  | .ok _ => none

/-- The warning of a property: the one of the reference that its way down ends at. -/
def Property.warning? (s : Source) (j : Journal) (document : Path) (p : Property) :
    Option Warning :=
  p.leaf.reference.bind fun r => referenceWarning? s j r document

section Fields

variable {s : Source} {j k : Journal} {v : Path → Except LoadError Document} {l : Language}
  {document : Path} {reference : String} {p : Property}

theorem followAliases_warnings (n : Nat) (visited : List Path) (target : Path) (j : Journal) :
    (followAliases s n visited target j).2.warnings = j.warnings := by
  induction n generalizing visited target j with
  | zero =>
      rfl
  | succ n ih =>
      rw [followAliases_succ]
      split_ifs with hvisited
      · rfl
      · cases visit (j.view s) target.normalize with
        | inl r =>
            rfl
        | inr next =>
            exact ih _ next _

theorem resolveReference_warnings (j : Journal) :
    (resolveReference s reference document j).2.warnings =
      j.warnings ++ (referenceWarning? s j reference document).toList := by
  have hfollow : (followReference s reference document j).2.warnings = j.warnings :=
    followAliases_warnings _ _ _ j
  rw [resolveReference, referenceWarning?]
  generalize followReference s reference document j = r at hfollow ⊢
  obtain ⟨(path | error) | name, k⟩ := r
  · simpa using hfollow
  · exact congrArg (· ++ [_]) hfollow
  · simpa using hfollow

/-- Resolving a type gives the warning of the property, and no other. -/
theorem resolveType_warnings (p : Property) (j : Journal) :
    (resolveType s l document p j).2.warnings =
      j.warnings ++ (p.warning? s j document).toList := by
  rw [resolveType_eq, resolveLeaf, Property.warning?]
  cases p.leaf.reference with
  | some r =>
      exact resolveReference_warnings j
  | none =>
      exact (List.append_nil _).symm

theorem Property.warning?_eq (h : j.view s = k.view s) :
    p.warning? s j document = p.warning? s k document := by
  have href : ∀ r, referenceWarning? s j r document = referenceWarning? s k r document := by
    intro r
    rw [referenceWarning?, referenceWarning?, followReference_fst_eq h]
  simp only [warning?, href]

theorem error_of_visit {q : Path} {e : LoadError}
    (h : visit v q = .inl (.error (.unloadable e))) :
    v q = .error e := by
  unfold visit at h
  cases hq : v q with
  | error e' =>
      rw [hq] at h
      cases h
      rfl
  | ok d =>
      rw [hq] at h
      simp only at h
      split at h <;> cases h

/-- A reference gives a warning exactly where its chain of aliases comes to a document that does not
load. -/
theorem referenceWarning?_eq_some_iff {w : Warning} :
    referenceWarning? s j reference document = some w ↔
      ∃ n q e, chainAt (j.view s) document reference n = some q ∧ j.view s q = .error e ∧
        w = .unloadedReference reference document e := by
  constructor
  · intro h
    obtain ⟨ps, hfollows, -⟩ := followReference_follows (s := s) reference document j
    rw [referenceWarning?] at h
    cases hr : (followReference s reference document j).1 with
    | ok name =>
        rw [hr] at h
        cases h
    | error error =>
        rw [hr] at h hfollows
        cases error with
        | cyclic path =>
            cases h
        | unloadable e =>
            cases h
            rcases hfollows.outcome with ⟨n, q, hq, hend⟩ | ⟨q, -, -, hcyclic⟩
            · exact ⟨n, q, e, hq, error_of_visit hend, rfl⟩
            · cases hcyclic
  · rintro ⟨n, q, e, hn, hq, rfl⟩
    rw [referenceWarning?, followReference_of_visit s j reference document hn (visit_of_error hq)]

theorem Language.wrapAll_empty (l : Language) (cs : List Container) :
    l.wrapAll cs "" = l.templates cs "" := by
  have helement : l.element "" = "" := by
    cases l <;> decide
  rw [wrapAll_eq_templates, helement, ite_self]

/-- A property with a warning has the empty name in its type. -/
theorem resolveType_of_warning {w : Warning} (h : p.warning? s j document = some w) :
    (resolveType s l document p j).1 = .ok (l.templates p.containers "") := by
  obtain ⟨r, hr, hw⟩ := Option.bind_eq_some_iff.1 h
  obtain ⟨n, q, e, hn, hq, -⟩ := referenceWarning?_eq_some_iff.1 hw
  have hname : (resolveReference s r document j).1 = .ok "" := by
    rw [resolveReference_fst, followReference_of_visit s j r document hn (visit_of_error hq)]
  rw [resolveType_fst_eq_ok_iff, resolveLeaf, hr]
  exact ⟨"", hname, (l.wrapAll_empty _).symm⟩

/-- A reference whose chain ends at a document gives no warning. -/
theorem referenceWarning?_eq_none {n : Nat} {q : Path} {d : Document}
    (hn : chainAt (j.view s) document reference n = some q)
    (hd : j.view s q = .ok d)
    (hend : d.title ≠ none ∨ d.reference = none) :
    referenceWarning? s j reference document = none := by
  cases ht : d.title with
  | some title =>
      rw [referenceWarning?, followReference_of_visit s j reference document hn
        (visit_of_title hd (by simp [ht]))]
  | none =>
      rw [referenceWarning?, followReference_of_visit s j reference document hn
        (visit_of_untitled hd ht (hend.resolve_left (not_not_intro ht)))]

/-- Computations one after the other give their warnings one after the other. -/
theorem Resolving.each_warnings {α β : Type} {f : α → Resolving β} {g : α → List Warning}
    (hreaches : ∀ a (i : Journal), i.Reaches s (f a i).2)
    (hwarnings : ∀ a (i : Journal), i.view s = v → (f a i).2.warnings = i.warnings ++ g a)
    (as : List α) (hview : j.view s = v) :
    (Resolving.each f as j).2.warnings = j.warnings ++ as.flatMap g := by
  induction as generalizing j with
  | nil =>
      exact (List.append_nil _).symm
  | cons a as ih =>
      have hrest := ih ((hreaches a j).view_eq.trans hview)
      rw [hwarnings a j hview, List.append_assoc, ← List.flatMap_cons] at hrest
      exact hrest

theorem Document.report_warnings (d : Document) (h : k.view s = j.view s) :
    (d.report s l k).2.warnings =
      k.warnings ++ d.properties.filterMap fun p => p.warning? s j d.path := by
  rw [List.filterMap_eq_flatMap_toList]
  refine Resolving.each_warnings Property.report_reaches ?_ d.properties h
  intro p i hi
  rw [← Property.warning?_eq hi]
  exact resolveType_warnings p i

end Fields

section Walk

variable {s : Source} {j j' : Journal} {v : Path → Except LoadError Document} {w w' : Walk}
  {roots : List Path} {ps : List Path}

theorem loadRoots_warnings (found : List Document) (roots : List Path) (j : Journal) :
    (loadRoots s found roots j).2.warnings = j.warnings := by
  induction roots generalizing found j with
  | nil =>
      rfl
  | cons root roots ih =>
      rw [loadRoots]
      split_ifs with hfound
      · exact ih found j
      · have hload : (Resolving.load s root.normalize j).2.warnings = j.warnings := rfl
        generalize Resolving.load s root.normalize j = r at hload ⊢
        obtain ⟨e | d, k⟩ := r
        · exact hload
        · exact (ih _ k).trans hload

/-- The documents that the loop has in its map are those that load at their paths. -/
def Walk.Loaded (v : Path → Except LoadError Document) (w : Walk) : Prop :=
  ∀ e ∈ w.documents, v e.1 = .ok e.2

/-- A turn warns of each path that does not load, whether others warned of it before or not. -/
theorem Walk.enter_warnings
    (targets : List Path)
    (hnormal : ∀ t ∈ targets, t.normalize = t)
    (hview : j.view s = v)
    (hloaded : w.Loaded v) :
    (enter s targets w j).2.warnings = j.warnings ++ targets.filterMap (skipped? v) ∧
      (enter s targets w j).1.Loaded v := by
  induction targets generalizing w j with
  | nil =>
      exact ⟨(List.append_nil _).symm, hloaded⟩
  | cons t ts ih =>
      have hts : ∀ u ∈ ts, u.normalize = u := fun u hu => hnormal u (by simp [hu])
      have hload : j.view s t.normalize = v t := by
        rw [hview, hnormal t (by simp)]
      have hview' : (Resolving.load s t j).2.view s = v :=
        (Resolving.load_reaches t j).view_eq.trans hview
      by_cases hin : t ∈ w.documents.map (·.1)
      · have hnone : skipped? v t = none := by
          obtain ⟨e, he, rfl⟩ := List.mem_map.1 hin
          rw [skipped?, hloaded e he]
        rw [enter_cons_of_mem hin, List.filterMap_cons_none hnone]
        exact ih hts hview hloaded
      · cases ht : v t with
        | error e =>
            have hsome : skipped? v t = some (.skippedModel e) := by
              rw [skipped?, ht]
            rw [enter_cons_of_error hin (hload.trans ht), List.filterMap_cons_some hsome]
            have hrest := ih hts ((Resolving.warn_reaches (.skippedModel e) _).view_eq.trans hview')
              hloaded
            refine ⟨hrest.1.trans ?_, hrest.2⟩
            show (j.warnings ++ [.skippedModel e]) ++ _ = _
            rw [List.append_assoc, List.singleton_append]
        | ok d =>
            have hnone : skipped? v t = none := by
              rw [skipped?, ht]
            rw [enter_cons_of_ok hin (hload.trans ht), List.filterMap_cons_none hnone]
            refine ih hts hview' ?_
            intro e he
            rcases List.mem_append.1 he with he | he
            · exact hloaded e he
            · rw [List.mem_singleton.1 he]
              exact ht

/-- The warnings of the walk: those of the models that have their turn. -/
theorem Walk.Runs.warnings_eq
    (h : Runs s w j ps w' j')
    (hview : j.view s = v)
    (hloaded : w.Loaded v) :
    j'.warnings = j.warnings ++ (documentsAt v ps).flatMap (Document.skipped v) := by
  induction h with
  | ends =>
      exact (List.append_nil _).symm
  | @turn w w' j j' current rest ps d hqueue hlookup hrest ih =>
      have hd : v current = .ok d := hloaded (current, d) (mem_of_lookup_eq_some hlookup)
      obtain ⟨hwarnings, hloaded'⟩ := enter_warnings (w := { w with queue := rest }) d.referenced
        (fun _ => Document.normalize_of_mem_referenced) hview hloaded
      rw [ih ((enter_reaches _ _ _).view_eq.trans hview) hloaded', hwarnings,
        documentsAt_cons_of_ok hd, List.flatMap_cons, List.append_assoc]
      rfl

end Walk

/-- The warnings that a strand is going to give where the view answers for all documents. -/
def Strand.warnings {α : Type} (v : Path → Except LoadError Document) : Strand α → List Warning
  | done _ => []
  | load p next => (next (v p.normalize)).warnings v
  | warn w next => w :: next.warnings v

/-- A strand gives the warnings that it is going to give. -/
theorem Strand.run_warnings {α : Type} {s : Source} {v : Path → Except LoadError Document}
    (t : Strand α) {j : Journal} (h : j.view s = v) :
    (t.run s j).2.warnings = j.warnings ++ t.warnings v := by
  induction t generalizing j with
  | done a =>
      exact (List.append_nil _).symm
  | load p next ih =>
      have hanswer : (Resolving.load s p j).1 = v p.normalize :=
        Resolving.load_fst.trans (congrFun h _)
      rw [warnings, ← hanswer]
      exact ih _ ((Resolving.load_reaches p j).view_eq.trans h)
  | warn w next ih =>
      have hrest := ih ((Resolving.warn_reaches w j).view_eq.trans h)
      refine hrest.trans ?_
      show (j.warnings ++ [w]) ++ _ = _
      rw [List.append_assoc]
      rfl

namespace Pool

variable {α : Type} {s : Source} {v : Path → Except LoadError Document} {n : Nat} {x y : Pool α}

/-- All warnings: those that were given, and those that the strands are going to give. -/
def warnings (v : Path → Except LoadError Document) (x : Pool α) : List Warning :=
  x.journal.warnings ++ x.strands.flatMap (Strand.warnings v)

/-- A step takes a warning from those that are going to be given to those that were. -/
theorem Step.perm_warnings (h : Step s x y) (hv : x.journal.view s = v) :
    (y.warnings v).Perm (x.warnings v) := by
  cases h with
  | load before after p next j =>
      have hanswer : (Resolving.load s p j).1 = v p.normalize :=
        Resolving.load_fst.trans (congrFun hv _)
      simp only [warnings, List.flatMap_append, List.flatMap_cons, Strand.warnings, hanswer]
      exact .refl _
  | warn before after w next j =>
      simp only [warnings, Resolving.warn, List.flatMap_append, List.flatMap_cons, Strand.warnings,
        List.append_assoc, List.cons_append, List.nil_append]
      exact (List.perm_middle.symm).append_left j.warnings

/-- However the strands run, no warning is lost and none is given twice. -/
theorem Runs.perm_warnings (h : Runs s x n y) (hv : x.journal.view s = v) :
    (y.warnings v).Perm (x.warnings v) := by
  induction h with
  | refl =>
      exact .refl _
  | step hruns hstep ih =>
      exact (hstep.perm_warnings (hruns.reaches.view_eq.trans hv)).trans ih

theorem Done.warnings_eq {as : List α} (h : x.Done as) :
    x.warnings v = x.journal.warnings := by
  have hnone : (as.map Strand.done).flatMap (Strand.warnings v) = [] := by
    simp [List.flatMap_map, Strand.warnings]
  rw [warnings, h, hnone, List.append_nil]

end Pool

section Reports

variable {s b : Source} {j k : Journal} {v : Path → Except LoadError Document} {l : Language}
  {roots : List Path} {ds : List Document}

theorem warnings_typeStrand
    (hbound : LoadsAtMost (j.view s) b.capacity)
    (document : Path) (p : Property) :
    (typeStrand b l document p).warnings (j.view s) = (p.warning? s j document).toList := by
  have hrun := Strand.run_warnings (typeStrand b l document p) (rfl : j.view s = j.view s)
  rw [run_typeStrand hbound, resolveType_warnings] at hrun
  exact (List.append_cancel_left hrun).symm

/-- Fields that are resolved at once give the warnings that they give one after the other. -/
theorem perm_warnings_of_runs {n : Nat} {y : Pool (Except TypeError String)}
    {rs : List (Except TypeError String)}
    (hview : k.view s = j.view s)
    (hbound : LoadsAtMost (j.view s) b.capacity)
    (hruns : Pool.Runs s (Call.pool b (ds.map (Call.report l)) k) n y)
    (hdone : y.Done rs) :
    y.journal.warnings.Perm
      (k.warnings ++ ds.flatMap fun d => d.properties.filterMap fun p => p.warning? s j d.path) := by
  have hstrands : ((ds.map (Call.report l)).flatMap (Call.strands b)).flatMap
      (Strand.warnings (j.view s)) =
        ds.flatMap fun d => d.properties.filterMap fun p => p.warning? s j d.path := by
    simp only [List.flatMap_map, List.flatMap_assoc, Call.strands, warnings_typeStrand hbound,
      List.filterMap_eq_flatMap_toList]
  have hperm := hruns.perm_warnings hview
  rw [hdone.warnings_eq, Pool.warnings, Call.pool, hstrands] at hperm
  exact hperm

theorem documentsAt_map_path (h : ∀ d ∈ ds, v d.path = .ok d) :
    documentsAt v (ds.map (·.path)) = ds := by
  induction ds with
  | nil =>
      rfl
  | cons d ds ih =>
      rw [List.map_cons, documentsAt_cons_of_ok (h d (by simp)),
        ih fun e he => h e (by simp [he])]

/-- Finding the models warns of what they refer to and does not load, where references are
followed. -/
theorem exists_findModels
    (hpath : ∀ p d, v p = .ok d → d.path = p)
    (hview : j.view s = v)
    (hroots : ∀ r ∈ roots, ∃ d, v r.normalize = .ok d)
    (follow : Bool) :
    ∃ ds k,
      findModels s roots follow j = (.ok ds, k) ∧
      (ds.map (·.path)).Nodup ∧
      (∀ d ∈ ds, v d.path = .ok d) ∧
      k.warnings = j.warnings ++ if follow then ds.flatMap (Document.skipped v) else [] := by
  obtain ⟨ds, i, k, hfound, hwalk, hclosure, hruns⟩ := exists_closure hpath hview hroots
  have hi := loadRoots_reaches (s := s) [] roots j
  have hsilent := loadRoots_warnings (s := s) [] roots j
  rw [hfound] at hi hsilent
  have hloaded : ∀ d ∈ ds.take (distinct (roots.map Path.normalize)).length, v d.path = .ok d :=
    fun d hd => hclosure.loaded d (List.mem_of_mem_take hd)
  cases follow with
  | true =>
      refine ⟨ds, k, ?_, hclosure.nodup, hclosure.loaded, ?_⟩
      · rw [findModels, hfound]
        simp only [if_true, hwalk]
      · have hstart : (Walk.arrange []
            (ds.take (distinct (roots.map Path.normalize)).length)).Loaded v := by
          intro e he
          obtain ⟨d, hd, rfl⟩ := List.mem_map.1 he
          exact hloaded d hd
        rw [hruns.warnings_eq (hi.view_eq.trans hview) hstart,
          documentsAt_map_path hclosure.loaded, hsilent]
        rfl
  | false =>
      refine ⟨_, i, ?_, ?_, hloaded, ?_⟩
      · rw [findModels, hfound]
        rfl
      · rw [List.map_take]
        exact hclosure.nodup.sublist (List.take_sublist _ _)
      · rw [hsilent]
        exact (List.append_nil _).symm

end Reports

/-- All warnings of reporting models, from every state of a session. Where references are followed,
each model warns of each document that it refers to and that does not load, whatever others warn of;
no model is reported twice, and none refers to a path twice. Then each field whose way down ends at a
reference that comes to a document that does not load gives one warning, with the text of the
reference, the path of the model and the reason of the failing document, and its type has the empty
name. There are no others: a field without a type gives none, nor does one whose reference comes to a
document that its chain ends at. Fields that are resolved at once, with bounds on their walks that
have room for all there is to load, give the same warnings in some order. -/
theorem warnings_of_evolves
    (t : FileTree)
    (x : Session)
    (roots : List Path)
    (l : Language)
    (follow : Bool)
    (reports : List ModelReport)
    (final : Journal)
    (hx : Session.Evolves { tree := t } x)
    (h : reportModels x.tree.documents roots l follow x.journal = (.ok reports, final)) :
    ∃ ds k,
      findModels x.tree.documents roots follow x.journal = (.ok ds, k) ∧
      reports = ds.map (fun d => (d.report x.tree.documents l x.journal).1) ∧
      (ds.map (·.path)).Nodup ∧
      (∀ d ∈ ds,
        x.journal.view x.tree.documents d.path = .ok d ∧
        d.referenced.Nodup ∧
        (d.report x.tree.documents l x.journal).1.fields = d.properties.map fun p =>
          .ofProperty p (resolveType x.tree.documents l d.path p x.journal).1) ∧
      final.warnings =
        x.journal.warnings ++
          (if follow then ds.flatMap (Document.skipped (x.journal.view x.tree.documents)) else []) ++
          ds.flatMap (fun d => d.properties.filterMap fun p =>
            p.warning? x.tree.documents x.journal d.path) ∧
      (∀ (b : Source) n y rs,
        LoadsAtMost (x.journal.view x.tree.documents) b.capacity →
        Pool.Runs x.tree.documents (Call.pool b (ds.map (Call.report l)) k) n y →
        y.Done rs →
        y.journal.warnings.Perm final.warnings) ∧
      ∀ document p,
        (∀ w, p.warning? x.tree.documents x.journal document = some w ↔
          ∃ r n q e,
            p.leaf.reference = some r ∧
            chainAt (x.journal.view x.tree.documents) document r n = some q ∧
            x.journal.view x.tree.documents q = .error e ∧
            w = .unloadedReference r document e) ∧
        (p.warning? x.tree.documents x.journal document ≠ none →
          (resolveType x.tree.documents l document p x.journal).1 =
            .ok (l.templates p.containers "")) ∧
        (∀ e, (resolveType x.tree.documents l document p x.journal).1 = .error e →
          p.warning? x.tree.documents x.journal document = none) ∧
        ∀ r n q d,
          p.leaf.reference = some r →
          chainAt (x.journal.view x.tree.documents) document r n = some q →
          x.journal.view x.tree.documents q = .ok d →
          (d.title ≠ none ∨ d.reference = none) →
          p.warning? x.tree.documents x.journal document = none := by
  have hwf : x.journal.cache.WellFormed := (hx.consistent (.start t)).wellFormed
  generalize x.tree.documents = s at h ⊢
  generalize x.journal = j at h hwf ⊢
  have hpath : ∀ p d, j.view s p = .ok d → d.path = p := fun p d => hwf.path_of_view
  have hroots : ∀ r ∈ roots, ∃ d, j.view s r.normalize = .ok d := by
    rcases loads_or_first_fault (j.view s) roots with
      hroots | ⟨before, root, after, e, rfl, hbefore, hroot⟩
    · exact hroots
    · have hfault : (reportModels s (before ++ root :: after) l follow j).1 = .error e :=
        reportModels_fst_error hpath rfl hbefore hroot
      rw [h] at hfault
      cases hfault
  obtain ⟨ds, k, hfind, hnodup, hloaded, hskipped⟩ := exists_findModels hpath rfl hroots follow
  have hview : k.view s = j.view s := by
    have hreaches := findModels_reaches s roots follow j
    rw [hfind] at hreaches
    exact hreaches.view_eq
  have hreports := reportModels_fst s roots follow l j
  have hjournal := reportModels_snd s roots follow l j
  rw [h, hfind] at hreports hjournal
  have hfinal : final = (Resolving.each (Document.report s l) ds k).2 := hjournal
  have hwarnings : final.warnings = k.warnings ++ ds.flatMap fun d =>
      d.properties.filterMap fun p => p.warning? s j d.path := by
    rw [hfinal]
    exact Resolving.each_warnings Document.report_reaches (fun d i hi => d.report_warnings hi) ds
      hview
  refine ⟨ds, k, hfind, Except.ok.inj hreports, hnodup, ?_, ?_, ?_, ?_⟩
  · intro d hd
    refine ⟨hloaded d hd, d.nodup_referenced, ?_⟩
    rw [Document.report_fst (k := j) rfl]
    rfl
  · rw [hwarnings, hskipped]
  · intro b n y rs hbound hruns hdone
    rw [hwarnings]
    exact perm_warnings_of_runs hview hbound hruns hdone
  · intro document p
    have htype : ∀ w, p.warning? s j document = some w →
        (resolveType s l document p j).1 = .ok (l.templates p.containers "") :=
      fun w hw => resolveType_of_warning hw
    refine ⟨?_, ?_, ?_, ?_⟩
    · intro w
      rw [Property.warning?, Option.bind_eq_some_iff]
      simp only [referenceWarning?_eq_some_iff]
      grind
    · intro hw
      obtain ⟨w, hw⟩ := Option.ne_none_iff_exists'.1 hw
      exact htype w hw
    · intro e he
      cases hw : p.warning? s j document with
      | none =>
          rfl
      | some w =>
          rw [htype w hw] at he
          cases he
    · intro r n q d hr hn hd hend
      rw [Property.warning?, hr, Option.bind_some]
      exact referenceWarning?_eq_none hn hd hend

theorem warnings_of_evolves_mutualSession :
    ∃ reports final k ds,
      reportModels mutualSession.tree.documents [⟨"a.json"⟩] .swift true mutualSession.journal =
        (.ok reports, final) ∧
      findModels mutualSession.tree.documents [⟨"a.json"⟩] true mutualSession.journal =
        (.ok ds, k) ∧
      final.warnings = [
        .skippedModel (.unreadable ⟨"c.json"⟩ .notFound),
        .unloadedReference "c.json" ⟨"a.json"⟩ (.unreadable ⟨"c.json"⟩ .notFound)] ∧
      ∀ (b : Source) n y rs,
        LoadsAtMost (mutualSession.journal.view mutualSession.tree.documents) b.capacity →
        Pool.Runs mutualSession.tree.documents (Call.pool b (ds.map (Call.report .swift)) k) n y →
        y.Done rs →
        y.journal.warnings.Perm final.warnings := by
  have hisOk : (reportModels mutualSession.tree.documents [⟨"a.json"⟩] .swift true
      mutualSession.journal).1.isOk = true := by
    decide +kernel
  have hwarnings : (reportModels mutualSession.tree.documents [⟨"a.json"⟩] .swift true
      mutualSession.journal).2.warnings = [
        .skippedModel (.unreadable ⟨"c.json"⟩ .notFound),
        .unloadedReference "c.json" ⟨"a.json"⟩ (.unreadable ⟨"c.json"⟩ .notFound)] := by
    decide +kernel
  obtain ⟨reports, hreports⟩ := exists_fst_eq_ok hisOk
  generalize (reportModels mutualSession.tree.documents [⟨"a.json"⟩] .swift true
    mutualSession.journal).2 = final at hreports hwarnings
  obtain ⟨ds, k, hfind, -, -, -, -, hpool, -⟩ :=
    warnings_of_evolves mutualModels mutualSession [⟨"a.json"⟩] .swift true reports final
      (Session.evolves_run _ _) hreports
  exact ⟨reports, final, k, ds, hreports, hfind, hwarnings, hpool⟩

end FieldTypes
