import FieldTypes.Proofs.Reaching
import Mathlib.Data.Prod.Lex
import Mathlib.Order.Bounds.Basic

/-!
# The closure of models under reference

The walk from model to model keeps the documents that had their turn and a queue of those that
wait for it. Each turn puts the documents at the end of the queue that the one at its front refers
to, can be loaded, and are not known. The invariant of a turn is `Frontier`: what the finished
documents refer to is known already, and the known documents stand in the order in which they
are first mentioned. When the queue is empty, the known documents are the closure.

**Results.**
* `loadRoots_fst`, `loadRoots_fst_error`: the documents to start from, or the first fault.
* `Frontier.step`: a turn keeps the invariant.
* `expand_frontier`, `Frontier.isClosureList`: what the walk ends with.
-/

namespace FieldTypes

section Distinct

variable {α : Type} [DecidableEq α]

theorem mem_foldl_keep (xs kept : List α) (x : α) :
    x ∈ xs.foldl (fun kept x => if x ∈ kept then kept else kept ++ [x]) kept ↔
      x ∈ kept ∨ x ∈ xs := by
  induction xs generalizing kept with
  | nil =>
      simp
  | cons y xs ih =>
      rw [List.foldl_cons, ih]
      split_ifs with hy
      · constructor
        · rintro (h | h)
          · exact Or.inl h
          · exact Or.inr (by simp [h])
        · rintro (h | h)
          · exact Or.inl h
          · rcases List.mem_cons.1 h with rfl | h
            · exact Or.inl hy
            · exact Or.inr h
      · simp only [List.mem_append, List.mem_cons, List.not_mem_nil, or_false]
        tauto

theorem nodup_foldl_keep (xs kept : List α) (h : kept.Nodup) :
    (xs.foldl (fun kept x => if x ∈ kept then kept else kept ++ [x]) kept).Nodup := by
  induction xs generalizing kept with
  | nil =>
      exact h
  | cons y xs ih =>
      rw [List.foldl_cons]
      refine ih _ ?_
      split_ifs with hy
      · exact h
      · rw [List.nodup_append]
        refine ⟨h, by simp, ?_⟩
        intro a ha b hb
        rw [List.mem_singleton] at hb
        rintro rfl
        exact hy (hb ▸ ha)

@[simp] theorem mem_distinct {xs : List α} {x : α} : x ∈ distinct xs ↔ x ∈ xs := by
  rw [distinct, mem_foldl_keep]
  simp

theorem nodup_distinct (xs : List α) : (distinct xs).Nodup :=
  nodup_foldl_keep xs [] List.nodup_nil

theorem pairwise_idxOf {xs : List α} (h : xs.Nodup) :
    xs.Pairwise fun a b => xs.idxOf a < xs.idxOf b := by
  rw [List.pairwise_iff_getElem]
  intro i k hi hk hik
  rw [h.idxOf_getElem i hi, h.idxOf_getElem k hk]
  exact hik

end Distinct

section References

variable {d : Document} {t : Path}

theorem Document.nodup_referenced (d : Document) : d.referenced.Nodup :=
  nodup_distinct _

theorem Document.normalize_of_mem_referenced (h : t ∈ d.referenced) :
    t.normalize = t := by
  rw [Document.referenced, mem_distinct] at h
  obtain ⟨r, -, rfl⟩ := List.mem_map.1 h
  exact Path.normalize_locate d.path r

end References

/-- Whether a set of paths has the `roots`, and all that loads of what its documents refer to. -/
structure ClosedUnder (v : Path → Except LoadError Document) (roots : List Path)
    (S : Set Path) : Prop where
  roots : ∀ r ∈ roots, r ∈ S
  references : ∀ p ∈ S, ∀ d, v p = .ok d → ∀ t ∈ d.referenced, (∃ e, v t = .ok e) → t ∈ S

/-- Where documents first refer to a path: the position of the first one that does, and the
position of the path among its references. -/
def firstMention (ds : List Document) (t : Path) : Nat ×ₗ Nat :=
  let i := ds.findIdx fun d => decide (t ∈ d.referenced)
  toLex (i, (ds[i]?.map fun d => d.referenced.idxOf t).getD 0)

section FirstMention

variable {ds es : List Document} {d : Document} {t : Path}

theorem firstMention_append (h : ∃ d ∈ ds, t ∈ d.referenced) :
    firstMention (ds ++ es) t = firstMention ds t := by
  have hlt : (ds.findIdx fun d => decide (t ∈ d.referenced)) < ds.length := by
    rw [List.findIdx_lt_length]
    simpa using h
  have hidx : (ds ++ es).findIdx (fun d => decide (t ∈ d.referenced)) =
      ds.findIdx fun d => decide (t ∈ d.referenced) := by
    rw [List.findIdx_append, if_pos hlt]
  simp only [firstMention, hidx]
  rw [List.getElem?_append_left hlt]

theorem firstMention_fst_lt (h : ∃ d ∈ ds, t ∈ d.referenced) :
    (ofLex (firstMention ds t)).1 < ds.length := by
  show (ds.findIdx fun d => decide (t ∈ d.referenced)) < ds.length
  rw [List.findIdx_lt_length]
  simpa using h

theorem firstMention_of_not_mem (h : ∀ d ∈ ds, t ∉ d.referenced) (hd : t ∈ d.referenced) :
    firstMention (ds ++ [d]) t = toLex (ds.length, d.referenced.idxOf t) := by
  have hnot : (ds.findIdx fun d => decide (t ∈ d.referenced)) = ds.length := by
    rw [List.findIdx_eq_length]
    simpa using h
  have hidx : (ds ++ [d]).findIdx (fun d => decide (t ∈ d.referenced)) = ds.length := by
    rw [List.findIdx_append, hnot, if_neg (lt_irrefl _)]
    simp [hd]
  simp only [firstMention, hidx]
  simp

end FirstMention

/-- The documents that load, of paths in normal form. -/
def documentsAt (v : Path → Except LoadError Document) (ts : List Path) : List Document :=
  ts.filterMap fun t => (v t).toOption

section DocumentsAt

variable {v : Path → Except LoadError Document} {t : Path} {ts : List Path} {d : Document}

theorem documentsAt_cons_of_ok (h : v t = .ok d) :
    documentsAt v (t :: ts) = d :: documentsAt v ts := by
  simp [documentsAt, h, Except.toOption]

theorem documentsAt_cons_of_error {e : LoadError} (h : v t = .error e) :
    documentsAt v (t :: ts) = documentsAt v ts := by
  simp [documentsAt, h, Except.toOption]

theorem mem_documentsAt :
    d ∈ documentsAt v ts ↔ ∃ t ∈ ts, v t = .ok d := by
  simp only [documentsAt, List.mem_filterMap]
  refine exists_congr fun t => and_congr_right fun _ => ?_
  cases v t <;> simp [Except.toOption]

theorem map_path_documentsAt
    (hpath : ∀ p d, v p = .ok d → d.path = p) (ts : List Path) :
    (documentsAt v ts).map (·.path) = ts.filter fun t => (v t).isOk := by
  induction ts with
  | nil =>
      rfl
  | cons t ts ih =>
      rw [List.filter_cons]
      cases ht : v t with
      | error e =>
          rw [documentsAt_cons_of_error ht, ih]
          rfl
      | ok d =>
          rw [documentsAt_cons_of_ok ht, List.map_cons, hpath t d ht, ih]
          rfl

end DocumentsAt

section Discover

variable {s : Source} {j : Journal} {known targets : List Path} {target : Path} {d : Document}

theorem discover_cons_of_mem (h : target ∈ known) :
    discover s known (target :: targets) j = discover s known targets j := by
  rw [discover, if_pos h]

theorem discover_cons_of_ok (hnew : target ∉ known) (hd : j.view s target.normalize = .ok d) :
    discover s known (target :: targets) j =
      (d :: (discover s (target :: known) targets (Resolving.load s target j).2).1,
        (discover s (target :: known) targets (Resolving.load s target j).2).2) := by
  rw [discover, if_neg hnew, Resolving.load_eq hd]

theorem discover_cons_of_error {e : LoadError}
    (hnew : target ∉ known) (he : j.view s target.normalize = .error e) :
    discover s known (target :: targets) j =
      discover s known targets
        (Resolving.warn (.skippedModel e) (Resolving.load s target j).2).2 := by
  rw [discover, if_neg hnew, Resolving.load_eq he]

/-- A turn puts those documents into the queue that load and are not known. -/
theorem discover_fst
    {v : Path → Except LoadError Document}
    (known : List Path)
    (j : Journal)
    (hview : j.view s = v)
    (hnormal : ∀ t ∈ targets, t.normalize = t)
    (hnodup : targets.Nodup) :
    (discover s known targets j).1 = documentsAt v (targets.filter (· ∉ known)) := by
  induction targets generalizing known j with
  | nil =>
      rfl
  | cons t ts ih =>
      obtain ⟨htts, hnodup⟩ := List.nodup_cons.1 hnodup
      have hts : ∀ u ∈ ts, u.normalize = u := fun u hu => hnormal u (by simp [hu])
      have hload : j.view s t.normalize = v t := by
        rw [hview, hnormal t (by simp)]
      have hreach : j.Reaches s (Resolving.load s t j).2 := Resolving.load_reaches t j
      by_cases hknown : t ∈ known
      · rw [discover_cons_of_mem hknown, ih known j hview hts hnodup]
        simp [hknown]
      · rw [List.filter_cons_of_pos (by simpa using hknown)]
        cases ht : v t with
        | error e =>
            rw [discover_cons_of_error hknown (hload.trans ht), documentsAt_cons_of_error ht]
            exact ih known _ ((hreach.warn _).view_eq.trans hview) hts hnodup
        | ok d =>
            have hfilter : ts.filter (· ∉ t :: known) = ts.filter (· ∉ known) := by
              refine List.filter_congr fun u hu => ?_
              have hne : u ≠ t := fun h => htts (h ▸ hu)
              simp [hne]
            rw [discover_cons_of_ok hknown (hload.trans ht), documentsAt_cons_of_ok ht,
              ih (t :: known) _ (hreach.view_eq.trans hview) hts hnodup, hfilter]

end Discover

/-- The invariant of the walk, where the `done` documents had their turn and those in the `queue`
wait for it: what is known, and in which order. -/
structure Frontier (v : Path → Except LoadError Document) (roots : List Path)
    (done queue : List Document) : Prop where
  loaded : ∀ d ∈ done ++ queue, v d.path = .ok d
  nodup : ((done ++ queue).map (·.path)).Nodup
  expanded : ∀ d ∈ done, ∀ t ∈ d.referenced, (∃ e, v t = .ok e) →
    t ∈ (done ++ queue).map (·.path)
  least : ∀ S, ClosedUnder v roots S → ∀ d ∈ done ++ queue, d.path ∈ S
  mentioned : ∃ rest,
    (done ++ queue).map (·.path) = roots ++ rest ∧
    (∀ t ∈ rest, ∃ d ∈ done, t ∈ d.referenced) ∧
    rest.Pairwise fun a b => firstMention done a < firstMention done b

section Frontier

variable {v : Path → Except LoadError Document} {roots : List Path} {done queue : List Document}
  {d : Document}

/-- The walk starts with the roots in the queue. -/
theorem Frontier.start
    (hloaded : ∀ d ∈ queue, v d.path = .ok d)
    (hpaths : queue.map (·.path) = roots)
    (hroots : roots.Nodup) :
    Frontier v roots [] queue where
  loaded := hloaded
  nodup := by simpa [hpaths] using hroots
  expanded := by simp
  least := by
    intro S hS d hd
    exact hS.roots d.path (hpaths ▸ List.mem_map_of_mem hd)
  mentioned := ⟨[], by simpa using hpaths, by simp, .nil⟩

/-- What a document refers to, loads and is not known: the paths that its turn adds. -/
def newcomers (v : Path → Except LoadError Document) (known : List Path) (d : Document) :
    List Document :=
  documentsAt v (d.referenced.filter (· ∉ known))

theorem mem_map_path_newcomers
    (hpath : ∀ p d, v p = .ok d → d.path = p) {known : List Path} {t : Path} :
    t ∈ (newcomers v known d).map (·.path) ↔
      t ∈ d.referenced ∧ t ∉ known ∧ ∃ e, v t = .ok e := by
  rw [newcomers, map_path_documentsAt hpath, List.mem_filter, List.mem_filter, and_assoc]
  refine and_congr_right fun _ => and_congr (by simp) ?_
  cases v t <;> simp [Except.isOk, Except.toBool]

theorem nodup_map_path_newcomers
    (hpath : ∀ p d, v p = .ok d → d.path = p) (known : List Path) (d : Document) :
    ((newcomers v known d).map (·.path)).Nodup := by
  rw [newcomers, map_path_documentsAt hpath]
  exact (d.nodup_referenced.filter _).filter _

/-- What loads and is not known was mentioned by no document that had its turn: it would be known
from there. -/
theorem Frontier.not_mem_referenced
    (h : Frontier v roots done queue)
    {t : Path} (ht : t ∉ (done ++ queue).map (·.path))
    (hload : ∃ e, v t = .ok e) :
    ∀ e ∈ done, t ∉ e.referenced :=
  fun e he hte => ht (h.expanded e he t hte hload)

/-- What a turn adds is first mentioned in the order of the document's references. -/
theorem pairwise_firstMention_newcomers
    (hpath : ∀ p d, v p = .ok d → d.path = p)
    {known : List Path}
    (hnew : ∀ t ∈ (newcomers v known d).map (·.path), ∀ e ∈ done, t ∉ e.referenced) :
    ((newcomers v known d).map (·.path)).Pairwise fun a b =>
      firstMention (done ++ [d]) a < firstMention (done ++ [d]) b := by
  have hidx : ((newcomers v known d).map (·.path)).Pairwise fun a b =>
      d.referenced.idxOf a < d.referenced.idxOf b := by
    rw [newcomers, map_path_documentsAt hpath]
    exact ((pairwise_idxOf d.nodup_referenced).filter _).filter _
  refine hidx.imp_of_mem ?_
  intro a b ha hb hab
  rw [firstMention_of_not_mem (hnew a ha) ((mem_map_path_newcomers hpath).1 ha).1,
    firstMention_of_not_mem (hnew b hb) ((mem_map_path_newcomers hpath).1 hb).1]
  exact Prod.Lex.toLex_lt_toLex.2 (Or.inr ⟨rfl, hab⟩)

/-- A turn keeps the invariant. -/
theorem Frontier.step
    (hpath : ∀ p d, v p = .ok d → d.path = p)
    (h : Frontier v roots done (d :: queue)) :
    Frontier v roots (done ++ [d])
      (queue ++ newcomers v ((done ++ d :: queue).map (·.path)) d) := by
  set known := (done ++ d :: queue).map (·.path) with hknown
  have hsplit : done ++ [d] ++ (queue ++ newcomers v known d) =
      done ++ d :: queue ++ newcomers v known d := by
    simp
  have hnew : ∀ t ∈ (newcomers v known d).map (·.path), t ∈ d.referenced ∧ t ∉ known ∧
      ∃ e, v t = .ok e := fun t => (mem_map_path_newcomers hpath).1
  have hunmentioned : ∀ t ∈ (newcomers v known d).map (·.path), ∀ e ∈ done,
      t ∉ e.referenced := fun t ht => h.not_mem_referenced (hnew t ht).2.1 (hnew t ht).2.2
  refine ⟨?_, ?_, ?_, ?_, ?_⟩
  · intro e he
    rw [hsplit, List.mem_append] at he
    rcases he with he | he
    · exact h.loaded e he
    · obtain ⟨t, -, ht⟩ := mem_documentsAt.1 he
      rw [hpath t e ht, ht]
  · rw [hsplit, List.map_append, List.nodup_append]
    refine ⟨h.nodup, nodup_map_path_newcomers hpath known d, ?_⟩
    rintro a ha b hb rfl
    exact (hnew a hb).2.1 ha
  · intro e he t ht hload
    rw [hsplit, List.map_append, List.mem_append]
    rcases List.mem_append.1 he with he | he
    · exact Or.inl (h.expanded e he t ht hload)
    · rw [List.mem_singleton] at he
      subst he
      by_cases hk : t ∈ known
      · exact Or.inl hk
      · exact Or.inr ((mem_map_path_newcomers hpath).2 ⟨ht, hk, hload⟩)
  · intro S hS e he
    rw [hsplit, List.mem_append] at he
    rcases he with he | he
    · exact h.least S hS e he
    · obtain ⟨ht, -, hload⟩ := hnew e.path (List.mem_map_of_mem he)
      exact hS.references d.path (h.least S hS d (by simp)) d (h.loaded d (by simp)) e.path ht
        hload
  · obtain ⟨rest, heq, hmentioned, hordered⟩ := h.mentioned
    refine ⟨rest ++ (newcomers v known d).map (·.path), ?_, ?_, ?_⟩
    · rw [hsplit, List.map_append, heq, List.append_assoc]
    · intro t ht
      rcases List.mem_append.1 ht with ht | ht
      · obtain ⟨e, he, hte⟩ := hmentioned t ht
        exact ⟨e, by simp [he], hte⟩
      · exact ⟨d, by simp, (hnew t ht).1⟩
    · rw [List.pairwise_append]
      refine ⟨?_, pairwise_firstMention_newcomers hpath hunmentioned, ?_⟩
      · refine hordered.imp_of_mem ?_
        intro a b ha hb hab
        rwa [firstMention_append (hmentioned a ha), firstMention_append (hmentioned b hb)]
      · -- What was known is mentioned by an earlier document than what is new.
        intro a ha b hb
        rw [firstMention_append (hmentioned a ha),
          firstMention_of_not_mem (hunmentioned b hb) (hnew b hb).1]
        exact Prod.Lex.toLex_lt_toLex.2 (Or.inl (firstMention_fst_lt (hmentioned a ha)))

end Frontier

/-- The documents are those of the closure, in the order of the walk: the roots, each where it
first occurs, and then every other one in the order of its first mention. -/
structure IsClosureList (v : Path → Except LoadError Document) (roots : List Path)
    (ds : List Document) : Prop where
  loaded : ∀ d ∈ ds, v d.path = .ok d
  nodup : (ds.map (·.path)).Nodup
  least : IsLeast {S | ClosedUnder v (roots.map Path.normalize) S} {p | p ∈ ds.map (·.path)}
  roots_first : (ds.map (·.path)).take (distinct (roots.map Path.normalize)).length =
    distinct (roots.map Path.normalize)
  mentioned : ∀ t ∈ (ds.map (·.path)).drop (distinct (roots.map Path.normalize)).length,
    ∃ d ∈ ds, t ∈ d.referenced
  order : ((ds.map (·.path)).drop (distinct (roots.map Path.normalize)).length).Pairwise
    fun a b => firstMention ds a < firstMention ds b

/-- When the queue is empty, the walk has found the closure. -/
theorem Frontier.isClosureList
    {v : Path → Except LoadError Document} {roots : List Path} {ds : List Document}
    (h : Frontier v (distinct (roots.map Path.normalize)) ds []) :
    IsClosureList v roots ds := by
  obtain ⟨rest, heq, hmentioned, hordered⟩ := h.mentioned
  rw [List.append_nil] at heq
  have hclosed : ∀ S, ClosedUnder v (distinct (roots.map Path.normalize)) S ↔
      ClosedUnder v (roots.map Path.normalize) S := by
    intro S
    constructor
    · exact fun hS => ⟨fun r hr => hS.roots r (mem_distinct.2 hr), hS.references⟩
    · exact fun hS => ⟨fun r hr => hS.roots r (mem_distinct.1 hr), hS.references⟩
  refine ⟨by simpa using h.loaded, by simpa using h.nodup, ⟨?_, ?_⟩, ?_, ?_, ?_⟩
  · show ClosedUnder v (roots.map Path.normalize) _
    rw [← hclosed]
    refine ⟨?_, ?_⟩
    · intro r hr
      show r ∈ ds.map (·.path)
      rw [heq]
      exact List.mem_append_left _ hr
    · intro p hp d hd t ht hload
      obtain ⟨e, he, rfl⟩ := List.mem_map.1 hp
      have hde : e = d := by
        have := h.loaded e (by simpa using he)
        rw [hd] at this
        cases this
        rfl
      subst hde
      simpa using h.expanded e he t ht hload
  · intro S hS p hp
    obtain ⟨e, he, rfl⟩ := List.mem_map.1 hp
    exact h.least S ((hclosed S).2 hS) e (by simpa using he)
  · rw [heq, List.take_left]
  · rw [heq, List.drop_left]
    exact hmentioned
  · rw [heq, List.drop_left]
    exact hordered

section Program

variable {s : Source} {j : Journal} {v : Path → Except LoadError Document} {found : List Document}
  {roots : List Path} {root : Path} {d : Document}

theorem loadRoots_cons_of_mem (h : root.normalize ∈ found.map (·.path)) :
    loadRoots s found (root :: roots) j = loadRoots s found roots j := by
  rw [loadRoots, if_pos h]

theorem loadRoots_cons_of_ok
    (hnew : root.normalize ∉ found.map (·.path))
    (hd : j.view s root.normalize = .ok d) :
    loadRoots s found (root :: roots) j =
      loadRoots s (found ++ [d]) roots (Resolving.load s root.normalize j).2 := by
  have hload : j.view s root.normalize.normalize = .ok d := by
    rwa [Path.normalize_normalize]
  rw [loadRoots, if_neg hnew, Resolving.load_eq hload]

theorem loadRoots_cons_of_error {e : LoadError}
    (hnew : root.normalize ∉ found.map (·.path))
    (he : j.view s root.normalize = .error e) :
    loadRoots s found (root :: roots) j =
      (.error e, (Resolving.load s root.normalize j).2) := by
  have hload : j.view s root.normalize.normalize = .error e := by
    rwa [Path.normalize_normalize]
  rw [loadRoots, if_neg hnew, Resolving.load_eq hload]

/-- Documents that load stay so when one more is found. -/
theorem loaded_append_singleton
    (hpath : ∀ p d, v p = .ok d → d.path = p)
    (hfound : ∀ e ∈ found, v e.path = .ok e)
    {p : Path} (hd : v p = .ok d) :
    ∀ e ∈ found ++ [d], v e.path = .ok e := by
  intro e he
  rcases List.mem_append.1 he with he | he
  · exact hfound e he
  · rw [List.mem_singleton.1 he, hpath p d hd, hd]

/-- Roots that all load are found each once, in the order in which they first occur. -/
theorem loadRoots_fst
    (hpath : ∀ p d, v p = .ok d → d.path = p)
    (found : List Document)
    (j : Journal)
    (hview : j.view s = v)
    (hfound : ∀ d ∈ found, v d.path = .ok d)
    (hroots : ∀ r ∈ roots, ∃ d, v r.normalize = .ok d) :
    ∃ ds,
      (loadRoots s found roots j).1 = .ok ds ∧
      (∀ d ∈ ds, v d.path = .ok d) ∧
      ds.map (·.path) =
        (roots.map Path.normalize).foldl
          (fun kept p => if p ∈ kept then kept else kept ++ [p]) (found.map (·.path)) := by
  induction roots generalizing found j with
  | nil =>
      exact ⟨found, rfl, hfound, rfl⟩
  | cons root roots ih =>
      have hrest : ∀ r ∈ roots, ∃ d, v r.normalize = .ok d := fun r hr =>
        hroots r (by simp [hr])
      rw [List.map_cons, List.foldl_cons]
      by_cases hin : root.normalize ∈ found.map (·.path)
      · rw [loadRoots_cons_of_mem hin, if_pos hin]
        exact ih found j hview hfound hrest
      · obtain ⟨d, hd⟩ := hroots root (by simp)
        obtain ⟨ds, hds, hloaded, hpaths⟩ := ih (found ++ [d]) _
          ((Resolving.load_reaches root.normalize j).view_eq.trans hview)
          (loaded_append_singleton hpath hfound hd) hrest
        rw [loadRoots_cons_of_ok hin (hview ▸ hd), if_neg hin]
        refine ⟨ds, hds, hloaded, ?_⟩
        rw [hpaths, List.map_append, List.map_singleton, hpath _ d hd]

/-- The first root that does not load is what the walk fails with. -/
theorem loadRoots_fst_error
    (before after : List Path) {e : LoadError}
    (hpath : ∀ p d, v p = .ok d → d.path = p)
    (found : List Document)
    (j : Journal)
    (hview : j.view s = v)
    (hfound : ∀ d ∈ found, v d.path = .ok d)
    (hbefore : ∀ r ∈ before, ∃ d, v r.normalize = .ok d)
    (hroot : v root.normalize = .error e) :
    (loadRoots s found (before ++ root :: after) j).1 = .error e := by
  induction before generalizing found j with
  | nil =>
      have hnew : root.normalize ∉ found.map (·.path) := by
        intro hin
        obtain ⟨d, hd, heq⟩ := List.mem_map.1 hin
        have := hfound d hd
        rw [heq, hroot] at this
        cases this
      rw [List.nil_append, loadRoots_cons_of_error hnew (hview ▸ hroot)]
  | cons first before ih =>
      have hrest : ∀ r ∈ before, ∃ d, v r.normalize = .ok d := fun r hr =>
        hbefore r (by simp [hr])
      rw [List.cons_append]
      by_cases hin : first.normalize ∈ found.map (·.path)
      · rw [loadRoots_cons_of_mem hin]
        exact ih found j hview hfound hrest
      · obtain ⟨d, hd⟩ := hbefore first (by simp)
        rw [loadRoots_cons_of_ok hin (hview ▸ hd)]
        exact ih (found ++ [d]) _
          ((Resolving.load_reaches first.normalize j).view_eq.trans hview)
          (loaded_append_singleton hpath hfound hd) hrest

/-- One turn of the program, said by what it adds. -/
theorem expand_cons
    (hview : j.view s = v) (n : Nat) (done queue : List Document) (d : Document) :
    expand s (n + 1) done (d :: queue) j =
      expand s n (done ++ [d])
        (queue ++ newcomers v ((done ++ d :: queue).map (·.path)) d)
        (discover s ((done ++ d :: queue).map (·.path)) d.referenced j).2 := by
  rw [newcomers, ← discover_fst ((done ++ d :: queue).map (·.path)) j hview
    (fun _ => Document.normalize_of_mem_referenced) d.nodup_referenced]
  rfl

/-- The known documents are no more than there are to load. -/
theorem Frontier.length_le
    {bound : Nat} {done queue : List Document}
    (hbound : LoadsAtMost v bound)
    (h : Frontier v roots done queue) :
    done.length + queue.length ≤ bound := by
  have hloads : ∀ p ∈ (done ++ queue).map (·.path), ∃ d, v p = .ok d := by
    intro p hp
    obtain ⟨d, hd, rfl⟩ := List.mem_map.1 hp
    exact ⟨d, h.loaded d hd⟩
  simpa using hbound _ h.nodup hloads

/-- The program ends with an empty queue. Each turn has one more document done, so it does not
come to its bound. -/
theorem expand_frontier
    {bound : Nat}
    (hpath : ∀ p d, v p = .ok d → d.path = p)
    (hbound : LoadsAtMost v bound)
    (n : Nat) {done queue : List Document} (j : Journal)
    (hview : j.view s = v)
    (h : Frontier v roots done queue)
    (hn : bound < n + done.length) :
    Frontier v roots (expand s n done queue j).1 [] := by
  induction n generalizing done queue j with
  | zero =>
      have := h.length_le hbound
      omega
  | succ n ih =>
      cases queue with
      | nil =>
          exact h
      | cons d queue =>
          rw [expand_cons hview]
          refine ih _ ((discover_reaches _ _ j).view_eq.trans hview) (h.step hpath) ?_
          rw [List.length_append, List.length_singleton]
          omega

end Program
end FieldTypes
