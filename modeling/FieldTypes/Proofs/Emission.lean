import FieldTypes.Proofs.ModelClosure
import FieldTypes.Proofs.Session

/-!
# The models that fields name are reported

Resolving the type of a property follows a reference, where it comes to one, and the walk from
model to model collects references by a way of its own. The two agree: what resolution comes to
is among what the walk collects, and the walk goes on along the same aliases. So a name that a
field of a report has is the name of a model that is reported as well, and so are the aliases on
the way to it.

**Results.**
* `Property.mem_references_of_leaf`: resolution comes to a reference that the walk collects.
* `IsClosureList.mem_of_hops`: the closure has the whole of a chain of aliases.
* `reported_of_evolves`: the models that fields name are reported.
-/

namespace FieldTypes
namespace Property

variable {p q : Property} {r : String} {c : Container}

theorem references_of_reference (h : p.reference = some r) :
    p.references = [r] := by
  obtain ⟨_, _, _, _, _, _, _, reference, _, _⟩ := p
  simp only at h
  subst h
  rw [references]

theorem references_of_inner? (h : p.inner? = some (c, q)) (hr : r ∈ q.references) :
    r ∈ p.references := by
  obtain ⟨hreference, hq⟩ := eq_of_inner? h
  obtain ⟨_, _, _, _, _, _, _, reference, items, values⟩ := p
  simp only at hreference hq
  subst hreference
  rw [references, List.mem_append]
  rcases hq with ⟨-, -, rfl⟩ | ⟨-, -, rfl⟩
  · left
    rwa [referencesInside]
  · right
    rwa [referencesInside]

/-- The reference where the way down ends is one of the property's. -/
theorem mem_references_of_leaf (h : p.leaf.reference = some r) :
    r ∈ p.references := by
  induction p using Property.descent_induction with
  | leaf p hp =>
      rw [leaf_of_inner?_eq_none hp] at h
      rw [references_of_reference h]
      exact List.mem_singleton_self r
  | inner p c q hp ih =>
      rw [leaf_of_inner? hp] at h
      exact references_of_inner? hp (ih h)

end Property

namespace Document

variable {d : Document} {r : String}

theorem locate_mem_referenced_of_leaf {p : Property} (hp : p ∈ d.properties)
    (hr : p.leaf.reference = some r) :
    d.path.locate r ∈ d.referenced := by
  rw [referenced, mem_distinct]
  refine List.mem_map_of_mem (List.mem_append_left _ ?_)
  exact List.mem_flatMap.2 ⟨p, hp, Property.mem_references_of_leaf hr⟩

theorem locate_mem_referenced_of_reference (hr : d.reference = some r) :
    d.path.locate r ∈ d.referenced := by
  rw [referenced, mem_distinct]
  refine List.mem_map_of_mem (List.mem_append_right _ ?_)
  rw [hr]
  exact List.mem_singleton_self r

end Document

section Chain

variable {v : Path → Except LoadError Document} {roots : List Path} {ds : List Document}
  {start q : Path} {n : Nat} {N : String}

/-- A closure has what loads of the references of its documents. -/
theorem IsClosureList.mem_of_referenced
    (h : IsClosureList v roots ds)
    {p t : Path} {d e : Document}
    (hp : p ∈ ds.map (·.path))
    (hd : v p = .ok d)
    (ht : t ∈ d.referenced)
    (he : v t = .ok e) :
    t ∈ ds.map (·.path) :=
  h.least.1.references p hp d hd t ht ⟨e, he⟩

/-- A closure that has the start of a chain has all of it, up to where nothing loads. -/
theorem IsClosureList.mem_of_hops
    (h : IsClosureList v roots ds)
    (hstart : ∀ d, v start = .ok d → start ∈ ds.map (·.path))
    (hn : hops (hop v) n start = some q)
    {e : Document} (he : v q = .ok e) :
    q ∈ ds.map (·.path) := by
  induction n generalizing q e with
  | zero =>
      rw [hops, Option.some.injEq] at hn
      subst hn
      exact hstart e he
  | succ n ih =>
      rw [hops_add, Option.bind_eq_some_iff] at hn
      obtain ⟨p, hp, hhop⟩ := hn
      have hnext : hop v p = some q := by
        simpa [hops] using hhop
      obtain ⟨d, hd, -, r, hr, rfl⟩ := exists_of_hop hnext
      exact h.mem_of_referenced (ih hp hd) hd (d.locate_mem_referenced_of_reference hr) he

/-- A chain that ends with a name ends at a document with a title. -/
theorem exists_of_visit_eq_ok (h : visit v q = .inl (.ok N)) (hN : N ≠ "") :
    ∃ d, v q = .ok d ∧ d.title ≠ none ∧ d.typeName = N := by
  unfold visit at h
  cases hd : v q with
  | error e =>
      rw [hd] at h
      cases h
  | ok d =>
      rw [hd] at h
      simp only at h
      cases ht : d.title with
      | some title =>
          rw [ht] at h
          cases h
          exact ⟨d, rfl, by simp [ht], rfl⟩
      | none =>
          cases hr : d.reference with
          | some next =>
              rw [ht, hr] at h
              cases h
          | none =>
              rw [ht, hr] at h
              cases h
              exact absurd rfl hN

/-- Where a reference resolves to a name, its chain ends at a document with that name. -/
theorem exists_of_followReference_eq_ok
    {s : Source} {j : Journal} {reference : String} {document : Path}
    (h : (followReference s reference document j).1 = .ok N)
    (hN : N ≠ "") :
    ∃ n q d, hops (hop (j.view s)) n (document.locate reference) = some q ∧
      j.view s q = .ok d ∧ d.title ≠ none ∧ d.typeName = N := by
  obtain ⟨ps, hfollows, -⟩ := followReference_follows (s := s) reference document j
  rcases hfollows.outcome with ⟨n, q, hq, hend⟩ | ⟨q, -, -, hr⟩
  · rw [h] at hend
    obtain ⟨d, hd⟩ := exists_of_visit_eq_ok hend hN
    exact ⟨n, q, d, hq, hd⟩
  · rw [h] at hr
    cases hr

/-- The type of a property that ends at a reference has the containers around the name. -/
theorem resolveType_fst_of_followReference
    {s : Source} {j : Journal} {l : Language} {document : Path} {p : Property} {r : String}
    (hr : p.leaf.reference = some r)
    (h : (followReference s r document j).1 = .ok N) :
    (resolveType s l document p j).1 = .ok (l.wrapAll p.containers N) := by
  have hleaf : (resolveLeaf s l document p.leaf j).1 = .ok N := by
    rw [resolveLeaf, hr]
    simp only [resolveReference_fst, h]
  rw [resolveType_eq, hleaf]
  rfl

/-- A closure has the documents along the chain of a property's reference. -/
theorem IsClosureList.mem_of_leaf
    (h : IsClosureList v roots ds)
    {d e : Document} {p : Property} {r : String}
    (hd : d ∈ ds)
    (hp : p ∈ d.properties)
    (hr : p.leaf.reference = some r)
    (hn : hops (hop v) n (d.path.locate r) = some q)
    (he : v q = .ok e) :
    e ∈ ds ∧ e.path = q := by
  have hstart : ∀ e, v (d.path.locate r) = .ok e → d.path.locate r ∈ ds.map (·.path) := by
    intro e he
    exact h.mem_of_referenced (List.mem_map_of_mem hd) (h.loaded d hd)
      (d.locate_mem_referenced_of_leaf hp hr) he
  obtain ⟨e', he', hpath⟩ := List.mem_map.1 (h.mem_of_hops hstart hn he)
  have hsame := h.loaded e' he'
  rw [show e'.path = q from hpath, he] at hsame
  cases hsame
  exact ⟨he', hpath⟩

end Chain

/-- In every state of a session, where reporting models along references succeeds, a field that
names a model has it reported: the one where the chain of aliases ends that its property comes to.
The aliases on the way are reported as well. -/
theorem reported_of_evolves
    (t : FileTree)
    (x : Session)
    (roots : List Path)
    (l : Language)
    (reports : List ModelReport)
    (hx : Session.Evolves { tree := t } x)
    (h : (reportModels x.tree.documents roots l true x.journal).1 = .ok reports) :
    ∀ m ∈ reports, ∃ d,
      x.journal.view x.tree.documents m.path = .ok d ∧
      m = (d.report x.tree.documents l x.journal).1 ∧
      ∀ (i : Nat) (p : Property) (r N : String) (k : Journal),
        d.properties[i]? = some p →
        p.leaf.reference = some r →
        x.journal.Reaches x.tree.documents k →
        (followReference x.tree.documents r m.path k).1 = .ok N →
        N ≠ "" →
        (∃ f : FieldReport, m.fields[i]? = some f ∧ f.type = .ok (l.wrapAll p.containers N)) ∧
        ∃ n,
          (∃ m' ∈ reports,
            chainAt (x.journal.view x.tree.documents) m.path r n = some m'.path ∧
            hop (x.journal.view x.tree.documents) m'.path = none ∧
            m'.typeName = N) ∧
          ∀ i < n, ∃ m' ∈ reports,
            chainAt (x.journal.view x.tree.documents) m.path r i = some m'.path ∧
            m'.title = none := by
  intro m hm
  have hwf : x.journal.cache.WellFormed := (hx.consistent (.start t)).wellFormed
  obtain ⟨ds, hclosure, rfl⟩ :=
    exists_closure_of_reportModels (fun p d => hwf.path_of_view) rfl h
  obtain ⟨d, hd, rfl⟩ := List.mem_map.1 hm
  refine ⟨d, hclosure.loaded d hd, rfl, ?_⟩
  intro i p r N k hi hr hk hN hne
  have hp : p ∈ d.properties := List.mem_of_getElem? hi
  have hname : (followReference x.tree.documents r d.path x.journal).1 = .ok N := by
    rw [← hN]
    exact followReference_fst_eq hk.view_eq.symm
  constructor
  · refine ⟨(p.report x.tree.documents l d.path x.journal).1, ?_,
      resolveType_fst_of_followReference hr hname⟩
    rw [Document.report_fst (k := x.journal) rfl]
    simp [hi]
  · obtain ⟨n, q, e, hn, he, htitle, rfl⟩ := exists_of_followReference_eq_ok hname hne
    refine ⟨n, ?_, ?_⟩
    · obtain ⟨hin, rfl⟩ := hclosure.mem_of_leaf hd hp hr hn he
      refine ⟨_, List.mem_map_of_mem hin, hn, ?_, rfl⟩
      exact hop_eq_none_of_visit (visit_of_title he htitle)
    · intro i hin
      obtain ⟨q', hq'⟩ := Option.ne_none_iff_exists'.1
        (hops_ne_none_of_le hin.le (by rw [hn]; simp))
      have hnext : hop (x.journal.view x.tree.documents) q' ≠ none := by
        rw [← hops_succ_of_hops hq']
        exact hops_ne_none_of_le hin (by rw [hn]; simp)
      obtain ⟨q'', hq''⟩ := Option.ne_none_iff_exists'.1 hnext
      obtain ⟨e', he', htitle', -⟩ := exists_of_hop hq''
      obtain ⟨hin', rfl⟩ := hclosure.mem_of_leaf hd hp hr hq' he'
      exact ⟨_, List.mem_map_of_mem hin', hq', htitle'⟩

/-- A model with an array of what is an alias of another model, all three of them files. -/
def aliasedModels : FileTree where
  workingDirectory := []
  nodes := [
    (["a.json"], .file ("\x7b\"title\": \"a\", \"properties\": " ++
      "[\x7b\"type\": \"array\", \"items\": \x7b\"$ref\": \"b.json\"\x7d\x7d]\x7d").toUTF8),
    (["b.json"], .file "\x7b\"$ref\": \"c.json\"\x7d".toUTF8),
    (["c.json"], .file "\x7b\"title\": \"c\"\x7d".toUTF8)]

/-- The property of the first of them. -/
def aliasedArray : Property :=
  .ofJson (.object [("type", .string "array"), ("items", .object [("$ref", .string "b.json")])])

/-- A session in which the last file is removed after its document was loaded. -/
def aliasedSession : Session :=
  Session.run { tree := aliasedModels } [
    .operation (.load ⟨"./c.json"⟩),
    .change { aliasedModels with nodes := aliasedModels.nodes.take 2 }]

theorem reported_of_evolves_aliasedSession :
    ∃ reports,
      (reportModels aliasedSession.tree.documents [⟨"a.json"⟩] .swift true
        aliasedSession.journal).1 = .ok reports ∧
      ∃ m ∈ reports, m.path = ⟨"a.json"⟩ ∧
        (∃ f : FieldReport, m.fields[0]? = some f ∧ f.type = .ok "[C]") ∧
        ∃ m' ∈ reports, m'.typeName = "C" := by
  have hpaths : ((reportModels aliasedSession.tree.documents [⟨"a.json"⟩] .swift true
      aliasedSession.journal).1.toOption.map fun reports => reports.map (·.path)) =
        some [⟨"a.json"⟩, ⟨"b.json"⟩, ⟨"c.json"⟩] := by
    decide +kernel
  have hdocument : ((aliasedSession.journal.view aliasedSession.tree.documents
      ⟨"a.json"⟩).toOption.bind fun d => d.properties[0]?) =
        some aliasedArray := by
    decide +kernel
  have hreference : aliasedArray.leaf.reference = some "b.json" := by
    decide +kernel
  have hname : (followReference aliasedSession.tree.documents "b.json" ⟨"a.json"⟩
      aliasedSession.journal).1 = .ok "C" := by
    decide +kernel
  have htype : Language.wrapAll .swift aliasedArray.containers "C" = "[C]" := by
    decide +kernel
  cases h : (reportModels aliasedSession.tree.documents [⟨"a.json"⟩] .swift true
      aliasedSession.journal).1 with
  | error e =>
      rw [h] at hpaths
      cases hpaths
  | ok reports =>
      rw [h] at hpaths
      have hlist : reports.map (·.path) = [⟨"a.json"⟩, ⟨"b.json"⟩, ⟨"c.json"⟩] :=
        Option.some.inj hpaths
      have hfirst : (⟨"a.json"⟩ : Path) ∈ reports.map (·.path) := by
        rw [hlist]
        exact List.mem_cons_self
      obtain ⟨m, hm, hmpath⟩ := List.mem_map.1 hfirst
      obtain ⟨d, hd, -, hreported⟩ := reported_of_evolves aliasedModels aliasedSession
        [⟨"a.json"⟩] .swift reports (Session.evolves_run _ _) h m hm
      rw [hmpath] at hd hreported
      rw [hd] at hdocument
      obtain ⟨⟨f, hf, hftype⟩, n, ⟨m', hm', -, -, hm'name⟩, -⟩ :=
        hreported 0 _ "b.json" "C" aliasedSession.journal hdocument hreference .refl hname
          (by decide)
      rw [htype] at hftype
      exact ⟨reports, rfl, m, hm, hmpath, ⟨f, hf, hftype⟩, m', hm', hm'name⟩

end FieldTypes
