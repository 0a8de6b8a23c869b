import FieldTypes.Proofs.WorkList

/-!
# The models that are reported

Reporting models starts from the roots and, on demand, goes on to all that can be reached from
them. What comes out is a report for each document of the closure, in the order of the walk, each
as it would be made alone; without the walk it is the roots' part of that list.

**Results.**
* `exists_closure`: what the roots load and what the walk from them finds.
* `reportModels_closure`: what reporting returns, for roots that load and roots that do not.
-/

namespace FieldTypes

section Reports

variable {s : Source} {j : Journal} {v : Path → Except LoadError Document} {roots : List Path}

/-- Documents that load are determined by their paths. -/
theorem eq_of_map_path
    {ds es : List Document}
    (hds : ∀ d ∈ ds, v d.path = .ok d)
    (hes : ∀ d ∈ es, v d.path = .ok d)
    (h : ds.map (·.path) = es.map (·.path)) :
    ds = es := by
  have hanswers : ∀ xs : List Document, (∀ d ∈ xs, v d.path = .ok d) →
      xs.map Except.ok = (xs.map (·.path)).map v := by
    intro xs hxs
    rw [List.map_map]
    exact List.map_congr_left fun d hd => (hxs d hd).symm
  have hinjective : Function.Injective (Except.ok : Document → Except LoadError Document) := by
    intro d e hde
    cases hde
    rfl
  apply List.map_injective_iff.2 hinjective
  rw [hanswers ds hds, hanswers es hes, h]

/-- Where all roots load, the walk from them finds the closure, whose first part they are. -/
theorem exists_closure
    (hpath : ∀ p d, v p = .ok d → d.path = p)
    (hview : j.view s = v)
    (hroots : ∀ r ∈ roots, ∃ d, v r.normalize = .ok d) :
    ∃ ds i k,
      loadRoots s [] roots j = (.ok (ds.take (distinct (roots.map Path.normalize)).length), i) ∧
      closure s (ds.take (distinct (roots.map Path.normalize)).length) i = (ds, k) ∧
      IsClosureList v roots ds ∧
      Walk.Runs s (.arrange [] (ds.take (distinct (roots.map Path.normalize)).length)) i
        (ds.map (·.path)) (.arrange ds []) k := by
  obtain ⟨found, hfound, hloaded, hpaths⟩ :=
    loadRoots_fst hpath [] j hview (by simp) hroots
  set i := (loadRoots s [] roots j).2 with hi
  have hreach : j.Reaches s i := loadRoots_reaches [] roots j
  have hiview : i.view s = v := hreach.view_eq.trans hview
  have hdistinct : found.map (·.path) = distinct (roots.map Path.normalize) := hpaths
  have hstart : Frontier v (distinct (roots.map Path.normalize)) [] found :=
    Frontier.start hloaded hdistinct (nodup_distinct _)
  have hbound : LoadsAtMost v (found.length + i.cache.size + s.capacity) := by
    rw [← hiview]
    exact (i.loadsAtMost s).mono (by omega)
  have hn : found.length + i.cache.size + s.capacity <
      found.length + i.cache.size + s.capacity + 1 + ([] : List Document).length := by
    simp
  have hclosure := (expand_frontier hpath hbound _ i hiview hstart hn).isClosureList
  obtain ⟨ps, hps, hruns⟩ := expand_runs hpath hbound _ i hiview hstart hn
  rw [List.map_nil, List.nil_append] at hps
  -- The roots are the first part of what the walk ends with.
  have htake : (closure s found i).1.take (distinct (roots.map Path.normalize)).length = found := by
    refine eq_of_map_path (fun d hd => hclosure.loaded d (List.mem_of_mem_take hd)) hloaded ?_
    rw [List.map_take, hdistinct]
    exact hclosure.roots_first
  refine ⟨(closure s found i).1, i, (closure s found i).2, ?_, ?_, hclosure, ?_⟩
  · rw [htake]
    exact Prod.ext hfound rfl
  · rw [htake]
  · rw [htake]
    subst hps
    exact hruns

/-- Either all roots load, or there is a first one that does not. -/
theorem loads_or_first_fault (v : Path → Except LoadError Document) (roots : List Path) :
    (∀ r ∈ roots, ∃ d, v r.normalize = .ok d) ∨
      ∃ before root after e,
        roots = before ++ root :: after ∧
        (∀ r ∈ before, ∃ d, v r.normalize = .ok d) ∧
        v root.normalize = .error e := by
  induction roots with
  | nil =>
      exact Or.inl (by simp)
  | cons root roots ih =>
      cases hroot : v root.normalize with
      | error e =>
          exact Or.inr ⟨[], root, roots, e, rfl, by simp, hroot⟩
      | ok d =>
          rcases ih with hall | ⟨before, root', after, e, rfl, hbefore, hfault⟩
          · left
            intro r hr
            rcases List.mem_cons.1 hr with rfl | hr
            · exact ⟨d, hroot⟩
            · exact hall r hr
          · refine Or.inr ⟨root :: before, root', after, e, rfl, ?_, hfault⟩
            intro r hr
            rcases List.mem_cons.1 hr with rfl | hr
            · exact ⟨d, hroot⟩
            · exact hbefore r hr

variable {l : Language}

/-- A root that does not load is the fault of all. -/
theorem reportModels_fst_error
    {before after : List Path} {root : Path} {e : LoadError} {follow : Bool}
    (hpath : ∀ p d, v p = .ok d → d.path = p)
    (hview : j.view s = v)
    (hbefore : ∀ r ∈ before, ∃ d, v r.normalize = .ok d)
    (hroot : v root.normalize = .error e) :
    (reportModels s (before ++ root :: after) l follow j).1 = .error e := by
  have hfault := loadRoots_fst_error before after hpath [] j hview (by simp) hbefore hroot
  rw [reportModels]
  generalize loadRoots s [] (before ++ root :: after) j = r at hfault ⊢
  obtain ⟨answer, k⟩ := r
  simp only at hfault
  subst hfault
  rfl

/-- Reports are of the documents of the closure, or of its first part, which the roots load. -/
theorem exists_closure_of_reports
    {follow : Bool} {reports : List ModelReport}
    (hpath : ∀ p d, v p = .ok d → d.path = p)
    (hview : j.view s = v)
    (h : (reportModels s roots l follow j).1 = .ok reports) :
    ∃ ds, IsClosureList v roots ds ∧
      reports =
        (if follow then ds else ds.take (distinct (roots.map Path.normalize)).length).map
          fun d => (d.report s l j).1 := by
  rcases loads_or_first_fault v roots with hroots | ⟨before, root, after, e, rfl, hbefore, hroot⟩
  · obtain ⟨ds, i, k, hfound, hwalk, hclosure, -⟩ := exists_closure hpath hview hroots
    have hi : j.Reaches s i := by
      have hroots := loadRoots_reaches (s := s) [] roots j
      rwa [hfound] at hroots
    have hk : i.Reaches s k := by
      have hrest := closure_reaches (s := s)
        (ds.take (distinct (roots.map Path.normalize)).length) i
      rwa [hwalk] at hrest
    refine ⟨ds, hclosure, ?_⟩
    rw [reportModels, hfound] at h
    cases follow with
    | true =>
        simp only [if_true, hwalk, reports_fst ds (hi.trans hk).view_eq, Except.ok.injEq] at h
        exact h.symm
    | false =>
        simp only [Bool.false_eq_true, if_false, reports_fst _ hi.view_eq, Except.ok.injEq] at h
        exact h.symm
  · rw [reportModels_fst_error hpath hview hbefore hroot] at h
    cases h

theorem exists_closure_of_reportModels
    {reports : List ModelReport}
    (hpath : ∀ p d, v p = .ok d → d.path = p)
    (hview : j.view s = v)
    (h : (reportModels s roots l true j).1 = .ok reports) :
    ∃ ds, IsClosureList v roots ds ∧ reports = ds.map fun d => (d.report s l j).1 := by
  simpa using exists_closure_of_reports hpath hview h

end Reports

/-- Reporting models from any state of the cache. Where a root does not load, the first such root
is the fault. Where they all load, there is one report for each document of the closure, in the
order of the walk; without following references it is a report for each root. The loop over the
map and the queue has a turn for each of them, and comes to its end. -/
theorem reportModels_closure
    (s : Source)
    (j : Journal)
    (roots : List Path)
    (l : Language)
    (hpath : ∀ p d, j.view s p = .ok d → d.path = p) :
    (∀ before root after e,
      roots = before ++ root :: after →
      (∀ r ∈ before, ∃ d, j.view s r.normalize = .ok d) →
      j.view s root.normalize = .error e →
      ∀ follow, (reportModels s roots l follow j).1 = .error e) ∧
    ((∀ r ∈ roots, ∃ d, j.view s r.normalize = .ok d) →
      ∃ ds i k,
        IsClosureList (j.view s) roots ds ∧
        (reportModels s roots l true j).1 = .ok (ds.map fun d => (d.report s l j).1) ∧
        (reportModels s roots l false j).1 =
          .ok ((ds.take (distinct (roots.map Path.normalize)).length).map
            fun d => (d.report s l j).1) ∧
        (∀ d : Document, (d.report s l j).1.path = d.path) ∧
        loadRoots s [] roots j =
          (.ok (ds.take (distinct (roots.map Path.normalize)).length), i) ∧
        Walk.Runs s (.arrange [] (ds.take (distinct (roots.map Path.normalize)).length)) i
          (ds.map (·.path)) (.arrange ds []) k ∧
        (reportModels s roots l true j).2 = (Resolving.each (Document.report s l) ds k).2) := by
  constructor
  · rintro before root after e rfl hbefore hroot follow
    exact reportModels_fst_error hpath rfl hbefore hroot
  · intro hroots
    obtain ⟨ds, i, k, hfound, hwalk, hclosure, hruns⟩ := exists_closure hpath rfl hroots
    have hi := loadRoots_reaches (s := s) [] roots j
    have hk := closure_reaches (s := s) (ds.take (distinct (roots.map Path.normalize)).length) i
    rw [hfound] at hi
    rw [hwalk] at hk
    refine ⟨ds, i, k, hclosure, ?_, ?_, fun d => rfl, hfound, hruns, ?_⟩
    · rw [reportModels, hfound]
      simp only [if_true, hwalk]
      rw [reports_fst ds (hi.trans hk).view_eq]
    · rw [reportModels, hfound]
      simp only [Bool.false_eq_true, if_false]
      rw [reports_fst _ hi.view_eq]
    · rw [reportModels, hfound]
      simp only [if_true, hwalk]

/-- Two models that refer to each other, and the first of them to one that is not there. -/
def mutualModels : FileTree where
  workingDirectory := []
  nodes := [
    (["a.json"], .file ("\x7b\"title\": \"a\", \"properties\": " ++
      "[\x7b\"$ref\": \"b.json\"\x7d, \x7b\"$ref\": \"c.json\"\x7d]\x7d").toUTF8),
    (["b.json"], .file "\x7b\"title\": \"b\", \"$ref\": \"a.json\"\x7d".toUTF8)]

theorem reportModels_closure_mutualModels :
    (∀ follow, (reportModels mutualModels.documents [⟨"a.json"⟩, ⟨"c.json"⟩, ⟨"d.json"⟩] .swift
      follow {}).1 = .error (.unreadable ⟨"c.json"⟩ .notFound)) ∧
    ∃ ds, IsClosureList mutualModels.load [⟨"./a.json"⟩] ds ∧
      (reportModels mutualModels.documents [⟨"./a.json"⟩] .swift true {}).1 =
        .ok (ds.map fun d => (d.report mutualModels.documents .swift {}).1) := by
  have hview : Journal.view mutualModels.documents {} = mutualModels.load := by
    funext p
    rfl
  have hpath : ∀ p d, Journal.view mutualModels.documents {} p = .ok d → d.path = p :=
    fun p d h => Cache.WellFormed.empty.path_of_view h
  have hplain : (Path.mk "a.json").normalize = ⟨"a.json"⟩ := by decide +kernel
  have hdotted : (Path.mk "./a.json").normalize = ⟨"a.json"⟩ := by decide +kernel
  have hmissing : mutualModels.load (Path.mk "c.json").normalize =
      .error (.unreadable ⟨"c.json"⟩ .notFound) := by decide +kernel
  have hload : ∃ d, mutualModels.load ⟨"a.json"⟩ = .ok d := by
    have hok : (mutualModels.load ⟨"a.json"⟩).isOk = true := by decide +kernel
    generalize mutualModels.load ⟨"a.json"⟩ = answer at hok
    cases answer with
    | ok d =>
        exact ⟨d, rfl⟩
    | error e =>
        cases hok
  constructor
  · have hfault := (reportModels_closure mutualModels.documents {}
      [⟨"a.json"⟩, ⟨"c.json"⟩, ⟨"d.json"⟩] .swift hpath).1
    rw [hview] at hfault
    refine hfault [⟨"a.json"⟩] ⟨"c.json"⟩ [⟨"d.json"⟩] _ rfl ?_ hmissing
    intro r hr
    rw [List.mem_singleton.1 hr, hplain]
    exact hload
  · have hwalk := (reportModels_closure mutualModels.documents {} [⟨"./a.json"⟩] .swift hpath).2
    rw [hview] at hwalk
    obtain ⟨ds, -, -, hclosure, hreports, -⟩ := hwalk (by
      intro r hr
      rw [List.mem_singleton.1 hr, hdotted]
      exact hload)
    exact ⟨ds, hclosure, hreports⟩

end FieldTypes
