import FieldTypes.Proofs.Emission
import FieldTypes.Proofs.Independence

/-!
# Reporting reads no file

The walk from model to model asks the cache for every path that a document refers to, also where
nothing can be loaded, and the cache keeps both kinds of answers. A property of a reported model
comes to a reference that the walk has collected, and each alias on from there is a document of the
walk, whose own reference it has collected as well. So when the walk is over, the cache holds all
that resolving the properties asks for, in whatever order they are resolved.

**Results.**
* `Journal.Reaches.settles`: who asks for what is held leaves the cache as it is.
* `Walk.Runs.mem_keys_iff`: what the cache holds after the walk.
* `IsClosureList.mem_keys_of_leaf`: the chains of aliases of all properties are held.
* `Pool.Runs.prefetched`: strands that ask for what is held, all at once.
* `settles_of_evolves`: the reports read nothing, and what the cache then holds.
-/

namespace FieldTypes
namespace Cache

variable {s : Source} {c : Cache} {p : Path}

theorem load_of_mem_keys (h : p.normalize ∈ c.keys) : (c.load s p).2 = c := by
  obtain ⟨a, ha⟩ := Option.ne_none_iff_exists'.1 (mt find?_eq_none_iff.1 (not_not.2 h))
  rw [load_of_find? ha]

theorem holds_of_mem_keys (h : p.normalize ∈ c.keys) : c.holds p = true :=
  Option.isSome_iff_ne_none.2 (mt find?_eq_none_iff.1 (not_not.2 h))

end Cache

namespace Journal

/-- Whether one journal comes after another one with nothing new in the cache: each use of the cache
in between found its path there. -/
structure Settles (j k : Journal) : Prop where
  cache : k.cache = j.cache
  lookups : ∃ us, k.lookups = j.lookups ++ us ∧
    ∀ u ∈ us, u.path.normalize ∈ j.cache.keys ∧ u.isRead = false

section Settles

variable {s : Source} {i j k : Journal}

theorem Settles.refl (j : Journal) : j.Settles j where
  cache := rfl
  lookups := ⟨[], by simp, by simp⟩

theorem Settles.trans (hij : i.Settles j) (hjk : j.Settles k) : i.Settles k := by
  obtain ⟨us, hus, hheld⟩ := hij.lookups
  obtain ⟨ws, hws, hheld'⟩ := hjk.lookups
  refine ⟨hjk.cache.trans hij.cache, us ++ ws, by rw [hws, hus, List.append_assoc], ?_⟩
  intro u hu
  rcases List.mem_append.1 hu with hu | hu
  · exact hheld u hu
  · rw [← hij.cache]
    exact hheld' u hu

theorem Settles.view_eq (h : j.Settles k) (s : Source) : k.view s = j.view s := by
  rw [view, h.cache]
  rfl

/-- Loading a path that is held. -/
theorem Settles.load {p : Path} (h : p.normalize ∈ j.cache.keys) :
    j.Settles (Resolving.load s p j).2 where
  cache := Cache.load_of_mem_keys h
  lookups := ⟨_, rfl, by
    intro u hu
    rw [List.mem_singleton.1 hu]
    exact ⟨h, by simp [Cache.holds_of_mem_keys h]⟩⟩

theorem Settles.warn (w : Warning) : j.Settles (Resolving.warn w j).2 where
  cache := rfl
  lookups := ⟨[], by simp [Resolving.warn], by simp⟩

/-- A computation that asks only for what is held leaves the cache as it is. -/
theorem Reaches.settles
    (h : j.Reaches s k)
    {us : List Lookup} (hus : k.lookups = j.lookups ++ us)
    (hheld : ∀ u ∈ us, u.path.normalize ∈ j.cache.keys) :
    j.Settles k := by
  induction h generalizing us with
  | refl =>
      exact .refl j
  | @load k p hreaches ih =>
      obtain ⟨before, hbefore⟩ := hreaches.lookups
      obtain ⟨use, huse, rfl⟩ : ∃ u : Lookup,
          (Resolving.load s p k).2.lookups = k.lookups ++ [u] ∧ u.path = p := ⟨_, rfl, rfl⟩
      rw [huse, ← hbefore, List.append_assoc, List.append_cancel_left_eq] at hus
      subst hus
      have hsettles := ih hbefore.symm fun u hu => hheld u (by simp [hu])
      refine hsettles.trans (.load ?_)
      rw [hsettles.cache]
      exact hheld use (by simp)
  | @warn k w hreaches ih =>
      exact (ih hus hheld).trans (.warn w)

end Settles

end Journal

section Resolving

variable {s : Source} {j : Journal} {document : Path} {reference : String}

/-- The last hop of a chain is that of an alias. -/
theorem exists_of_hops_succ
    {v : Path → Except LoadError Document} {n : Nat} {start q : Path}
    (h : hops (hop v) (n + 1) start = some q) :
    ∃ p d r, hops (hop v) n start = some p ∧ v p = .ok d ∧ d.reference = some r ∧
      d.path.locate r = q := by
  rw [hops_add, Option.bind_eq_some_iff] at h
  obtain ⟨p, hp, hlast⟩ := h
  have hhop : hop v p = some q := by
    simpa [hops] using hlast
  obtain ⟨d, hd, -, r, hr, hq⟩ := exists_of_hop hhop
  exact ⟨p, d, r, hp, hd, hr, hq⟩

/-- The paths along a chain are in normal form. -/
theorem normalize_of_chainAt
    {v : Path → Except LoadError Document} {n : Nat} {q : Path}
    (h : chainAt v document reference n = some q) :
    q.normalize = q := by
  unfold chainAt at h
  cases n with
  | zero =>
      rw [hops, Option.some.injEq] at h
      rw [← h, Path.normalize_locate]
  | succ n =>
      obtain ⟨-, d, r, -, -, -, rfl⟩ := exists_of_hops_succ h
      exact Path.normalize_locate d.path r

/-- Following a reference whose chain is held reads nothing. -/
theorem followReference_settles
    (hheld : ∀ n q, chainAt (j.view s) document reference n = some q → q ∈ j.cache.keys) :
    j.Settles (followReference s reference document j).2 := by
  have hreaches := followReference_reaches (s := s) reference document j
  obtain ⟨ps, hfollows, hpaths⟩ := followReference_follows (s := s) reference document j
  obtain ⟨us, hus⟩ := hreaches.lookups
  refine hreaches.settles hus.symm ?_
  intro u hu
  have hps : us.map (·.path) = ps := by
    rw [← hus, List.map_append, List.append_cancel_left_eq] at hpaths
    exact hpaths
  obtain ⟨n, hn, hget⟩ := List.getElem_of_mem (hps ▸ List.mem_map_of_mem hu)
  have hchain : chainAt (j.view s) document reference n = some u.path := by
    rw [chainAt, hfollows.hops_eq hn, List.getElem?_eq_getElem hn, hget]
  rw [normalize_of_chainAt hchain]
  exact hheld n _ hchain

theorem resolveReference_settles
    (hheld : ∀ n q, chainAt (j.view s) document reference n = some q → q ∈ j.cache.keys) :
    j.Settles (resolveReference s reference document j).2 := by
  have hfollow := followReference_settles hheld
  rw [resolveReference]
  generalize followReference s reference document j = r at hfollow ⊢
  obtain ⟨(path | error) | name, k⟩ := r
  · exact hfollow
  · exact hfollow.trans (.warn _)
  · exact hfollow

theorem resolveType_settles
    {l : Language} {p : Property}
    (hheld : ∀ r, p.leaf.reference = some r →
      ∀ n q, chainAt (j.view s) document r n = some q → q ∈ j.cache.keys) :
    j.Settles (resolveType s l document p j).2 := by
  rw [resolveType_eq, resolveLeaf]
  cases hr : p.leaf.reference with
  | some r =>
      exact resolveReference_settles (hheld r hr)
  | none =>
      exact .refl j

/-- One computation after the other reads nothing where each of them does not, from a journal with
that cache. -/
theorem Resolving.each_settles
    {α β : Type} {f : α → Resolving β} {as : List α}
    (h : ∀ a ∈ as, ∀ i, j.Settles i → i.Settles (f a i).2) :
    j.Settles (Resolving.each f as j).2 := by
  have hfrom : ∀ i, j.Settles i → i.Settles (Resolving.each f as i).2 := by
    induction as with
    | nil =>
        exact fun i _ => .refl i
    | cons a as ih =>
        intro i hi
        have hstep := h a (by simp) i hi
        exact hstep.trans (ih (fun b hb => h b (by simp [hb])) (f a i).2 (hi.trans hstep))
  exact hfrom j (.refl j)

end Resolving

section Walk

variable {s : Source} {v : Path → Except LoadError Document} {roots : List Path} {key : Path}

theorem Resolving.mem_keys_load {p : Path} {j : Journal} :
    key ∈ (Resolving.load s p j).2.cache.keys ↔ key ∈ j.cache.keys ∨ key = p.normalize :=
  Cache.mem_keys_load

/-- After the roots have loaded, the cache holds them. -/
theorem mem_keys_loadRoots
    (key : Path)
    (hpath : ∀ p d, v p = .ok d → d.path = p)
    (found : List Document)
    (j : Journal)
    (hview : j.view s = v)
    (hfound : ∀ d ∈ found, d.path ∈ j.cache.keys)
    (hroots : ∀ r ∈ roots, ∃ d, v r.normalize = .ok d) :
    key ∈ (loadRoots s found roots j).2.cache.keys ↔
      key ∈ j.cache.keys ∨ key ∈ roots.map Path.normalize := by
  induction roots generalizing found j with
  | nil =>
      simp [loadRoots]
  | cons root roots ih =>
      have hrest : ∀ r ∈ roots, ∃ d, v r.normalize = .ok d := fun r hr =>
        hroots r (by simp [hr])
      rw [List.map_cons, List.mem_cons]
      by_cases hin : root.normalize ∈ found.map (·.path)
      · obtain ⟨d, hd, hdpath⟩ := List.mem_map.1 hin
        rw [loadRoots_cons_of_mem hin, ih found j hview hfound hrest]
        have hheld : key = root.normalize → key ∈ j.cache.keys := by
          rintro rfl
          exact hdpath ▸ hfound d hd
        tauto
      · obtain ⟨d, hd⟩ := hroots root (by simp)
        have hfound' : ∀ e ∈ found ++ [d],
            e.path ∈ (Resolving.load s root.normalize j).2.cache.keys := by
          intro e he
          rw [Resolving.mem_keys_load]
          rcases List.mem_append.1 he with he | he
          · exact Or.inl (hfound e he)
          · rw [List.mem_singleton.1 he, hpath _ d hd, Path.normalize_normalize]
            exact Or.inr rfl
        rw [loadRoots_cons_of_ok hin (hview ▸ hd),
          ih (found ++ [d]) _ ((Resolving.load_reaches root.normalize j).view_eq.trans hview)
            hfound' hrest, Resolving.mem_keys_load, Path.normalize_normalize, or_assoc]

namespace Walk

/-- A turn puts only what is not there into the map. -/
theorem prefix_enter (targets : List Path) (w : Walk) (j : Journal) :
    w.documents <+: (enter s targets w j).1.documents := by
  induction targets generalizing w j with
  | nil =>
      exact List.prefix_refl _
  | cons t ts ih =>
      rw [enter]
      split_ifs with hin
      · exact ih w j
      · generalize Resolving.load s t j = r
        obtain ⟨e | d, k⟩ := r
        · exact ih w _
        · exact (List.prefix_append w.documents [(t, d)]).trans
            (ih { documents := w.documents ++ [(t, d)], queue := w.queue ++ [t] } k)

/-- A turn asks for all paths that have no document in the map, and the others are held. -/
theorem mem_keys_enter
    (key : Path)
    {targets : List Path} (hnormal : ∀ t ∈ targets, t.normalize = t)
    (w : Walk)
    (j : Journal)
    (hw : ∀ p ∈ w.documents.map (·.1), p ∈ j.cache.keys) :
    (key ∈ (enter s targets w j).2.cache.keys ↔ key ∈ j.cache.keys ∨ key ∈ targets) ∧
      ∀ p ∈ (enter s targets w j).1.documents.map (·.1), p ∈ (enter s targets w j).2.cache.keys := by
  induction targets generalizing w j with
  | nil =>
      exact ⟨by simp [enter], hw⟩
  | cons t ts ih =>
      have hts : ∀ u ∈ ts, u.normalize = u := fun u hu => hnormal u (by simp [hu])
      rw [enter]
      split_ifs with hin
      · obtain ⟨hkeys, hdocuments⟩ := ih hts w j hw
        refine ⟨?_, hdocuments⟩
        have hheld : key = t → key ∈ j.cache.keys := by
          rintro rfl
          exact hw key hin
        rw [hkeys, List.mem_cons]
        tauto
      · have hload : ∀ p, p ∈ (Resolving.load s t j).2.cache.keys ↔ p ∈ j.cache.keys ∨ p = t := by
          intro p
          rw [Resolving.mem_keys_load, hnormal t (by simp)]
        generalize Resolving.load s t j = r at hload ⊢
        obtain ⟨e | d, k⟩ := r
        · obtain ⟨hkeys, hdocuments⟩ := ih hts w (Resolving.warn (.skippedModel e) k).2
            fun p hp => (hload p).2 (Or.inl (hw p hp))
          refine ⟨?_, hdocuments⟩
          rw [hkeys, List.mem_cons, ← or_assoc]
          exact or_congr_left (hload key)
        · obtain ⟨hkeys, hdocuments⟩ := ih hts
            { documents := w.documents ++ [(t, d)], queue := w.queue ++ [t] } k (by
              intro p hp
              rw [List.map_append, List.mem_append, List.map_singleton, List.mem_singleton] at hp
              exact (hload p).2 (hp.imp_left (hw p)))
          refine ⟨?_, hdocuments⟩
          rw [hkeys, List.mem_cons, ← or_assoc]
          exact or_congr_left (hload key)

/-- The loop only adds to the map, and it asks for what the documents in the map refer to whose
turn it was. -/
theorem Runs.mem_keys_iff
    {w w' : Walk} {j j' : Journal} {ps : List Path}
    (h : Runs s w j ps w' j')
    (hw : ∀ p ∈ w.documents.map (·.1), p ∈ j.cache.keys) :
    w.documents <+: w'.documents ∧
      (key ∈ j'.cache.keys ↔
        key ∈ j.cache.keys ∨
          ∃ p ∈ ps, ∃ d, w'.documents.lookup p = some d ∧ key ∈ d.referenced) := by
  induction h with
  | ends =>
      exact ⟨List.prefix_refl _, by simp⟩
  | @turn w w' j j' current rest ps d hqueue hlookup hruns ih =>
      have hentered := prefix_enter (s := s) d.referenced { w with queue := rest } j
      obtain ⟨hkeys, hw'⟩ := mem_keys_enter (s := s) key
        (fun _ => Document.normalize_of_mem_referenced) { w with queue := rest } j hw
      obtain ⟨hlater, hrest⟩ := ih hw'
      have hgrown := hentered.trans hlater
      have hcurrent : w'.documents.lookup current = some d := by
        obtain ⟨new, hnew⟩ := hgrown
        rw [← hnew, List.lookup_append, hlookup, Option.some_or]
      refine ⟨hgrown, ?_⟩
      rw [hrest, hkeys, or_assoc, List.exists_mem_cons_iff]
      simp only [hcurrent, Option.some.injEq, exists_eq_left']

end Walk

/-- After the walk the cache holds, beside what it held before it, all that the documents of the
closure refer to. -/
theorem mem_keys_closure
    {ds found : List Document} {i k : Journal}
    (hnodup : (ds.map (·.path)).Nodup)
    (hfound : ∀ d ∈ found, d.path ∈ i.cache.keys)
    (hruns : Walk.Runs s (.arrange [] found) i (ds.map (·.path)) (.arrange ds []) k) :
    key ∈ k.cache.keys ↔ key ∈ i.cache.keys ∨ ∃ d ∈ ds, key ∈ d.referenced := by
  have hheld : ∀ p ∈ (Walk.arrange [] found).documents.map (·.1), p ∈ i.cache.keys := by
    intro p hp
    rw [Walk.keys_arrange, List.nil_append] at hp
    obtain ⟨d, hd, rfl⟩ := List.mem_map.1 hp
    exact hfound d hd
  have hlookup : ∀ d ∈ ds, (Walk.arrange ds []).documents.lookup d.path = some d := by
    intro d hd
    rw [Walk.arrange, List.append_nil]
    exact Walk.lookup_map_path hnodup hd
  rw [(hruns.mem_keys_iff hheld).2]
  refine or_congr_right ⟨?_, ?_⟩
  · rintro ⟨p, hp, d, hd, hkey⟩
    obtain ⟨e, he, rfl⟩ := List.mem_map.1 hp
    rw [hlookup e he, Option.some.injEq] at hd
    exact ⟨e, he, hd ▸ hkey⟩
  · rintro ⟨d, hd, hkey⟩
    exact ⟨d.path, List.mem_map_of_mem hd, d, hlookup d hd, hkey⟩

/-- The closure and what its documents refer to are its paths and those that do not load. -/
theorem IsClosureList.mem_or_referenced_iff
    {ds : List Document}
    (h : IsClosureList v roots ds) :
    (key ∈ roots.map Path.normalize ∨ ∃ d ∈ ds, key ∈ d.referenced) ↔
      key ∈ ds.map (·.path) ∨ ∃ d ∈ ds, key ∈ d.referenced ∧ ∃ e, v key = .error e := by
  constructor
  · rintro (hkey | ⟨d, hd, hkey⟩)
    · exact Or.inl (h.least.1.roots key hkey)
    · cases hv : v key with
      | error e =>
          exact Or.inr ⟨d, hd, hkey, e, rfl⟩
      | ok e =>
          exact Or.inl (h.mem_of_referenced (List.mem_map_of_mem hd) (h.loaded d hd) hkey hv)
  · rintro (hkey | ⟨d, hd, hkey, -⟩)
    · rw [← List.take_append_drop (distinct (roots.map Path.normalize)).length
        (ds.map (·.path)), List.mem_append] at hkey
      rcases hkey with hkey | hkey
      · rw [h.roots_first, mem_distinct] at hkey
        exact Or.inl hkey
      · exact Or.inr (h.mentioned key hkey)
    · exact Or.inr ⟨d, hd, hkey⟩

/-- Where all that a closure refers to is held, so are the chains of aliases from its properties,
with the paths at their ends that do not load. -/
theorem IsClosureList.mem_keys_of_leaf
    {ds : List Document} {c : Cache}
    (h : IsClosureList v roots ds)
    (hheld : ∀ d ∈ ds, ∀ t ∈ d.referenced, t ∈ c.keys)
    {d : Document} {p : Property} {r : String} {n : Nat} {q : Path}
    (hd : d ∈ ds)
    (hp : p ∈ d.properties)
    (hr : p.leaf.reference = some r)
    (hn : chainAt v d.path r n = some q) :
    q ∈ c.keys := by
  cases n with
  | zero =>
      rw [chainAt, hops, Option.some.injEq] at hn
      subst hn
      exact hheld d hd _ (d.locate_mem_referenced_of_leaf hp hr)
  | succ n =>
      obtain ⟨before, e, next, hbefore, he, hnext, rfl⟩ := exists_of_hops_succ hn
      exact hheld e (h.mem_of_leaf hd hp hr hbefore he).1 _
        (e.locate_mem_referenced_of_reference hnext)

end Walk

namespace Strand

variable {α β : Type} {s : Source} {v : Path → Except LoadError Document}

/-- The keys that a strand asks for where the view answers for all documents. -/
def asks (v : Path → Except LoadError Document) : Strand α → List Path
  | done _ => []
  | load p next => p.normalize :: (next (v p.normalize)).asks v
  | warn _ next => next.asks v

theorem asks_bind (t : Strand α) (f : α → Strand β) :
    (t.bind f).asks v = t.asks v ++ (f (t.value v)).asks v := by
  induction t with
  | done a =>
      rfl
  | load p next ih =>
      rw [bind, asks, asks, value, ih, List.cons_append]
  | warn w next ih =>
      exact ih

end Strand

section Strands

variable {v : Path → Except LoadError Document}

/-- Following aliases asks for paths along the chain, whatever the bound is. -/
theorem exists_hops_of_mem_asks
    {n : Nat} {visited : List Path} {target p : Path}
    (htarget : target.normalize = target)
    (hp : p ∈ (followStrand n visited target).asks v) :
    ∃ i, hops (hop v) i target = some p := by
  induction n generalizing visited target with
  | zero =>
      cases hp
  | succ n ih =>
      rw [followStrand] at hp
      split_ifs at hp with hvisited
      · cases hp
      · rw [Strand.asks, htarget, List.mem_cons] at hp
        rcases hp with rfl | hp
        · exact ⟨0, rfl⟩
        · cases hd : v target with
          | error e =>
              rw [hd] at hp
              cases hp
          | ok d =>
              rw [hd] at hp
              simp only at hp
              cases ht : d.title with
              | some title =>
                  rw [ht] at hp
                  cases hp
              | none =>
                  cases hr : d.reference with
                  | none =>
                      rw [ht, hr] at hp
                      cases hp
                  | some next =>
                      rw [ht, hr] at hp
                      obtain ⟨i, hi⟩ := ih (Path.normalize_locate d.path next) hp
                      have hhop : hop v target = some (d.path.locate next) := by
                        simp [hop, hd, ht, hr]
                      exact ⟨i + 1, (hops_succ_of_next hhop i).trans hi⟩

/-- Resolving a type asks for paths along the chain of the reference that it comes to. -/
theorem exists_chainAt_of_mem_asks
    {b : Source} {l : Language} {document : Path} {p : Property} {q : Path}
    (hq : q ∈ (typeStrand b l document p).asks v) :
    ∃ r, p.leaf.reference = some r ∧ ∃ i, chainAt v document r i = some q := by
  rw [typeStrand, Strand.asks_bind, Strand.asks, List.append_nil] at hq
  cases hr : p.leaf.reference with
  | none =>
      rw [hr] at hq
      cases hq
  | some r =>
      rw [hr] at hq
      simp only [referenceStrand, Strand.asks_bind] at hq
      refine ⟨r, rfl, ?_⟩
      rcases List.mem_append.1 hq with hq | hq
      · exact exists_hops_of_mem_asks (Path.normalize_locate document r) hq
      · -- What is left of the strand gives a warning at most.
        generalize (followStrand (b.capacity + 1) [] (document.locate r)).value v = a at hq
        obtain ⟨(path | error) | name⟩ := a <;> cases hq

end Strands

namespace Pool

variable {α : Type} {s : Source} {v : Path → Except LoadError Document} {n : Nat} {x y : Pool α}

/-- Whether all that the strands ask for is held. -/
def Prefetched (v : Path → Except LoadError Document) (x : Pool α) : Prop :=
  ∀ t ∈ x.strands, ∀ p ∈ t.asks v, p ∈ x.journal.cache.keys

/-- A step of strands that ask for what is held leaves the cache as it is, and they go on to ask
for what is held. -/
theorem Step.prefetched
    (h : Step s x y) (hv : x.journal.view s = v) (hx : x.Prefetched v) :
    y.journal.cache = x.journal.cache ∧ y.Prefetched v := by
  cases h with
  | load before after p next j =>
      have hp : p.normalize ∈ j.cache.keys :=
        hx (.load p next) (by simp) p.normalize (by simp [Strand.asks])
      have hcache : (Resolving.load s p j).2.cache = j.cache := Cache.load_of_mem_keys hp
      refine ⟨hcache, ?_⟩
      intro t ht q hq
      show q ∈ (Resolving.load s p j).2.cache.keys
      rw [hcache]
      rcases List.mem_append.1 ht with ht | ht
      · exact hx t (by simp [ht]) q hq
      · rcases List.mem_cons.1 ht with rfl | ht
        · refine hx (.load p next) (by simp) q ?_
          rw [Resolving.load_fst, show j.view s = v from hv] at hq
          simp [Strand.asks, hq]
        · exact hx t (by simp [ht]) q hq
  | warn before after w next j =>
      refine ⟨rfl, ?_⟩
      intro t ht q hq
      rcases List.mem_append.1 ht with ht | ht
      · exact hx t (by simp [ht]) q hq
      · rcases List.mem_cons.1 ht with rfl | ht
        · exact hx (.warn w t) (by simp) q hq
        · exact hx t (by simp [ht]) q hq

/-- However the strands run, they leave the cache as it is where all that they ask for is held. -/
theorem Runs.prefetched
    (h : Runs s x n y) (hv : x.journal.view s = v) (hx : x.Prefetched v) :
    y.journal.cache = x.journal.cache ∧ y.Prefetched v := by
  induction h with
  | refl =>
      exact ⟨rfl, hx⟩
  | step hruns hstep ih =>
      obtain ⟨hcache, hheld⟩ := ih
      obtain ⟨hcache', hheld'⟩ := hstep.prefetched (hruns.reaches.view_eq.trans hv) hheld
      exact ⟨hcache'.trans hcache, hheld'⟩

end Pool

/-- Whether a cache holds all the chains of aliases that the properties of documents come to. -/
def HoldsChains (v : Path → Except LoadError Document) (ds : List Document) (c : Cache) : Prop :=
  ∀ d ∈ ds, ∀ p ∈ d.properties, ∀ r, p.leaf.reference = some r →
    ∀ n q, chainAt v d.path r n = some q → q ∈ c.keys

section Reports

variable {s : Source} {j i k : Journal} {v : Path → Except LoadError Document} {l : Language}
  {roots : List Path} {ds found : List Document} {key : Path}

/-- Reporting documents whose chains are held reads nothing. -/
theorem reports_settles
    (hview : k.view s = v)
    (hchains : HoldsChains v ds k.cache) :
    k.Settles (Resolving.each (Document.report s l) ds k).2 := by
  refine Resolving.each_settles fun d hd j hj => Resolving.each_settles fun p hp j' hj' => ?_
  have hheld := hj.trans hj'
  refine resolveType_settles ?_
  rw [hheld.view_eq, hheld.cache, hview]
  exact hchains d hd p hp

/-- The strands of the fields of such documents ask for what is held. -/
theorem Call.prefetched_pool (b : Source) (hchains : HoldsChains v ds k.cache) :
    (Call.pool b (ds.map (Call.report l)) k).Prefetched v := by
  intro strand hstrand q hq
  obtain ⟨c, hc, hstrand⟩ := List.mem_flatMap.1 hstrand
  obtain ⟨d, hd, rfl⟩ := List.mem_map.1 hc
  obtain ⟨p, hp, rfl⟩ := List.mem_map.1 hstrand
  obtain ⟨r, hr, n, hn⟩ := exists_chainAt_of_mem_asks hq
  exact hchains d hd p hp r hr n q hn

/-- Reporting along references, in its three parts. -/
theorem reportModels_of_closure
    (hfound : loadRoots s [] roots j = (.ok found, i))
    (hwalk : closure s found i = (ds, k)) :
    reportModels s roots l true j =
      (.ok (Resolving.each (Document.report s l) ds k).1,
        (Resolving.each (Document.report s l) ds k).2) := by
  rw [reportModels, hfound]
  simp only [if_true, hwalk]

/-- When the walk is over, the cache holds beside what it held before the roots, and what the
documents of the closure refer to. -/
theorem mem_keys_of_runs
    (hpath : ∀ p d, v p = .ok d → d.path = p)
    (hview : j.view s = v)
    (hroots : ∀ r ∈ roots, ∃ d, v r.normalize = .ok d)
    (hclosure : IsClosureList v roots ds)
    (hfound : loadRoots s [] roots j =
      (.ok (ds.take (distinct (roots.map Path.normalize)).length), i))
    (hruns : Walk.Runs s (.arrange [] (ds.take (distinct (roots.map Path.normalize)).length)) i
      (ds.map (·.path)) (.arrange ds []) k) :
    key ∈ k.cache.keys ↔
      key ∈ j.cache.keys ∨ key ∈ roots.map Path.normalize ∨ ∃ d ∈ ds, key ∈ d.referenced := by
  have hkeys : ∀ p, p ∈ i.cache.keys ↔ p ∈ j.cache.keys ∨ p ∈ roots.map Path.normalize := by
    intro p
    have hload := mem_keys_loadRoots p hpath [] j hview (by simp) hroots
    rwa [hfound] at hload
  have hheld : ∀ d ∈ ds.take (distinct (roots.map Path.normalize)).length,
      d.path ∈ i.cache.keys := by
    intro d hd
    have hroot : d.path ∈ (ds.map (·.path)).take (distinct (roots.map Path.normalize)).length := by
      rw [← List.map_take]
      exact List.mem_map_of_mem hd
    rw [hclosure.roots_first, mem_distinct] at hroot
    exact (hkeys _).2 (Or.inr hroot)
  rw [mem_keys_closure hclosure.nodup hheld hruns, hkeys, or_assoc]

end Reports

/-- From every state of a session, where all roots load, reporting models along references reads
nothing after the walk: each use of the cache finds its path held, and the cache stays as it is.
The chains of aliases of all properties of the models are held by then, with what does not load at
their ends, so it stays as it is also where the fields of all reports are resolved at once, in every
order, whatever bounds their walks. What the cache holds beside what it held before are the paths of
the reports and what their documents refer to that does not load. -/
theorem settles_of_evolves
    (t : FileTree)
    (x : Session)
    (roots : List Path)
    (l : Language)
    (hx : Session.Evolves { tree := t } x)
    (hroots : ∀ r ∈ roots, ∃ d, x.journal.view x.tree.documents r.normalize = .ok d) :
    ∃ found i ds k reports final,
      loadRoots x.tree.documents [] roots x.journal = (.ok found, i) ∧
      closure x.tree.documents found i = (ds, k) ∧
      Resolving.each (Document.report x.tree.documents l) ds k = (reports, final) ∧
      reportModels x.tree.documents roots l true x.journal = (.ok reports, final) ∧
      k.Settles final ∧
      HoldsChains (x.journal.view x.tree.documents) ds k.cache ∧
      (∀ (b : Source) n y,
        Pool.Runs x.tree.documents (Call.pool b (ds.map (Call.report l)) k) n y →
          y.journal.cache = k.cache) ∧
      reports.map (·.path) = ds.map (·.path) ∧
      ∀ key, key ∈ final.cache.keys ↔
        key ∈ x.journal.cache.keys ∨
        key ∈ reports.map (·.path) ∨
        ∃ d ∈ ds, key ∈ d.referenced ∧
          ∃ e, x.journal.view x.tree.documents key = .error e := by
  have hwf : x.journal.cache.WellFormed := (hx.consistent (.start t)).wellFormed
  generalize x.tree.documents = s at hroots ⊢
  have hpath : ∀ p d, x.journal.view s p = .ok d → d.path = p := fun p d => hwf.path_of_view
  obtain ⟨ds, i, k, hfound, hwalk, hclosure, hruns⟩ := exists_closure hpath rfl hroots
  have hi := loadRoots_reaches (s := s) [] roots x.journal
  have hk := closure_reaches (s := s) (ds.take (distinct (roots.map Path.normalize)).length) i
  rw [hfound] at hi
  rw [hwalk] at hk
  have hview : k.view s = x.journal.view s := (hi.trans hk).view_eq
  have hkeys : ∀ key, key ∈ k.cache.keys ↔ key ∈ x.journal.cache.keys ∨
      key ∈ roots.map Path.normalize ∨ ∃ d ∈ ds, key ∈ d.referenced := fun key =>
    mem_keys_of_runs hpath rfl hroots hclosure hfound hruns
  have hchains : HoldsChains (x.journal.view s) ds k.cache := by
    intro d hd p hp r hr n q
    exact hclosure.mem_keys_of_leaf
      (fun d hd t ht => (hkeys t).2 (Or.inr (Or.inr ⟨d, hd, ht⟩))) hd hp hr
  have hsettles := reports_settles (l := l) hview hchains
  have hpaths : (Resolving.each (Document.report s l) ds k).1.map (·.path) = ds.map (·.path) := by
    rw [reports_fst ds rfl, List.map_map]
    rfl
  refine ⟨_, i, ds, k, _, _, hfound, hwalk, rfl, reportModels_of_closure hfound hwalk, hsettles,
    hchains, ?_, hpaths, ?_⟩
  · exact fun b n y hpool => (hpool.prefetched hview (Call.prefetched_pool b hchains)).1
  · intro key
    rw [hsettles.cache, hkeys, hclosure.mem_or_referenced_iff, hpaths]

/-- A session with two models that refer to each other, in which a file was asked for that is not
there. -/
def mutualSession : Session :=
  Session.run { tree := mutualModels } [.operation (.load ⟨"d.json"⟩)]

theorem settles_of_evolves_mutualSession :
    ∃ (k : Journal) (reports : List ModelReport) (final : Journal),
      reportModels mutualSession.tree.documents [⟨"a.json"⟩] .swift true mutualSession.journal =
        (.ok reports, final) ∧
      k.Settles final ∧
      k.cache.keys = [⟨"d.json"⟩, ⟨"a.json"⟩, ⟨"b.json"⟩, ⟨"c.json"⟩] := by
  have hload : ∃ d, Journal.view mutualSession.tree.documents mutualSession.journal
      (Path.mk "a.json").normalize = .ok d :=
    exists_of_isOk (by decide +kernel)
  have hkeys : (reportModels mutualSession.tree.documents [⟨"a.json"⟩] .swift true
      mutualSession.journal).2.cache.keys =
        [⟨"d.json"⟩, ⟨"a.json"⟩, ⟨"b.json"⟩, ⟨"c.json"⟩] := by
    decide +kernel
  obtain ⟨-, -, -, k, reports, final, -, -, -, hreports, hsettles, -⟩ :=
    settles_of_evolves mutualModels mutualSession [⟨"a.json"⟩] .swift
      (Session.evolves_run _ _) (by simpa using hload)
  rw [hreports] at hkeys
  exact ⟨k, reports, final, hreports, hsettles, by rw [← hsettles.cache]; exact hkeys⟩

end FieldTypes
