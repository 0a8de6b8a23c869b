import FieldTypes.Proofs.Reaching

/-!
# Sessions

In a session operations are asked of one resolver or of clones of it, which share its cache, while
files are written and removed. The history of a session has every use of the cache with the file
tree at that moment. All that the cache answers can be read off it: the answer for a path is what
the file tree had when a path with the same normal form was first used.

A session evolves one loading, one warning and one change of the file tree at a time, in any
order. Operations are made of loadings and warnings, so what these keep is kept by operations as
well.

**Results.**
* `Session.Consistent.load`: a loading keeps the cache and the history consistent.
* `Session.evolves_run`: a run of operations and changes is made of such steps.
* `Session.evolves_snapshot`: what the cache answers, in every state of a session.
-/

namespace FieldTypes

/-- What is asked of a resolver. -/
inductive Operation where
  | load (p : Path)
  | resolveType (l : Language) (document : Path) (p : Property)
  | resolveReference (reference : String) (document : Path)
  | followReference (reference : String) (document : Path)
  | report (l : Language) (d : Document)
  | reportModels (roots : List Path) (l : Language) (follow : Bool)

/-- What an operation leaves behind. -/
def Operation.perform (s : Source) (j : Journal) : Operation → Journal
  | load p => (Resolving.load s p j).2
  | resolveType l document p => (FieldTypes.resolveType s l document p j).2
  | resolveReference reference document => (FieldTypes.resolveReference s reference document j).2
  | followReference reference document => (FieldTypes.followReference s reference document j).2
  | report l d => (d.report s l j).2
  | reportModels roots l follow => (FieldTypes.reportModels s roots l follow j).2

/-- What happens in a session. -/
inductive Event where
  | operation (o : Operation)
  /-- Files are written or removed, and leave the tree given. -/
  | change (t : FileTree)

/-- A use of the cache, and the file tree at that moment. -/
structure Use where
  tree : FileTree
  lookup : Lookup

/-- The normal form of the path that is used. -/
def Use.key (u : Use) : Path :=
  u.lookup.path.normalize

/-- The file tree, what the resolver keeps, and every use of its cache so far. -/
structure Session where
  tree : FileTree
  journal : Journal := {}
  history : List Use := []

namespace Session

/-- The session after something that leaves the journal given. -/
def after (x : Session) (j : Journal) : Session where
  tree := x.tree
  journal := j
  history := x.history ++ (j.lookups.drop x.journal.lookups.length).map (Use.mk x.tree)

/-- One event. -/
def step (x : Session) : Event → Session
  | .operation o => x.after (o.perform x.tree.documents x.journal)
  | .change t => { x with tree := t }

/-- One event after the other. -/
def run (x : Session) (es : List Event) : Session :=
  es.foldl step x

/-- The states that single loadings, warnings and changes of the file tree lead to. -/
inductive Evolves (x : Session) : Session → Prop
  | refl : Evolves x x
  | load {y : Session} (p : Path) :
      Evolves x y → Evolves x (y.after (Resolving.load y.tree.documents p y.journal).2)
  | warn {y : Session} (w : Warning) :
      Evolves x y → Evolves x (y.after (Resolving.warn w y.journal).2)
  | change {y : Session} (t : FileTree) : Evolves x y → Evolves x { y with tree := t }

/-- What the file tree had at a path when it was first used. A path that was never used is looked
up now. -/
def snapshot (x : Session) (key : Path) : Except LoadError Document :=
  match x.history.find? fun u => u.key = key with
  | some u => u.tree.load key
  | none => x.tree.load key

end Session

namespace Operation

theorem perform_reaches (s : Source) (j : Journal) (o : Operation) :
    j.Reaches s (o.perform s j) := by
  cases o with
  | load p =>
      exact Resolving.load_reaches p j
  | resolveType l document p =>
      exact resolveType_reaches p j
  | resolveReference reference document =>
      exact resolveReference_reaches j
  | followReference reference document =>
      exact followReference_reaches reference document j
  | report l d =>
      exact Document.report_reaches d j
  | reportModels roots l follow =>
      exact reportModels_reaches roots follow j

end Operation

namespace Session

section Evolves

variable {x y z : Session}

theorem Evolves.trans (hxy : x.Evolves y) (hyz : y.Evolves z) :
    x.Evolves z := by
  induction hyz with
  | refl =>
      exact hxy
  | load p _ ih =>
      exact ih.load p
  | warn w _ ih =>
      exact ih.warn w
  | change t _ ih =>
      exact ih.change t

theorem after_self (x : Session) :
    x.after x.journal = x := by
  simp [after]

theorem after_after {j k : Journal}
    (hj : x.journal.lookups <+: j.lookups) (hk : j.lookups <+: k.lookups) :
    (x.after j).after k = x.after k := by
  obtain ⟨us, hus⟩ := hj
  obtain ⟨ws, hws⟩ := hk
  rw [← hus] at hws
  simp only [after, mk.injEq, true_and, ← hws, ← hus]
  rw [List.append_assoc, List.drop_left, ← List.map_append, List.append_assoc, List.drop_left,
    ← List.append_assoc, List.drop_left]

/-- What loads documents and gives warnings makes a session evolve. -/
theorem evolves_after {k : Journal} (h : x.journal.Reaches x.tree.documents k) :
    x.Evolves (x.after k) := by
  induction h with
  | refl =>
      rw [after_self]
      exact .refl
  | load p h ih =>
      rw [← after_after h.lookups (Journal.Reaches.load p .refl).lookups]
      exact ih.load p
  | warn w h ih =>
      rw [← after_after h.lookups (Journal.Reaches.warn (s := x.tree.documents) w .refl).lookups]
      exact ih.warn w

theorem evolves_step (x : Session) (e : Event) :
    x.Evolves (x.step e) := by
  cases e with
  | operation o =>
      exact evolves_after (o.perform_reaches x.tree.documents x.journal)
  | change t =>
      exact .change t .refl

/-- A run of events makes a session evolve. -/
theorem evolves_run (x : Session) (es : List Event) :
    x.Evolves (x.run es) := by
  induction es generalizing x with
  | nil =>
      exact .refl
  | cons e es ih =>
      exact (evolves_step x e).trans (ih (x.step e))

theorem Evolves.history (h : x.Evolves y) :
    x.history <+: y.history := by
  induction h with
  | refl =>
      exact List.prefix_refl _
  | load p _ ih | warn w _ ih =>
      exact ih.trans (List.prefix_append _ _)
  | change t _ ih =>
      exact ih

/-- Entries are neither changed nor taken out. -/
theorem Evolves.entries (h : x.Evolves y) :
    x.journal.cache.entries <+: y.journal.cache.entries := by
  induction h with
  | refl =>
      exact List.prefix_refl _
  | load p _ ih =>
      exact ih.trans Cache.entries_prefix_load
  | warn w _ ih =>
      exact ih
  | change t _ ih =>
      exact ih

end Evolves

section Snapshot

variable {x y : Session} {key : Path} {t : FileTree} {u : Use}

theorem snapshot_of_not_mem (h : key ∉ x.history.map Use.key) :
    x.snapshot key = x.tree.load key := by
  have hnone : x.history.find? (fun u => u.key = key) = none := by
    rw [List.find?_eq_none]
    intro u hu hkey
    exact h (List.mem_map.2 ⟨u, hu, by simpa using hkey⟩)
  rw [snapshot, hnone]

/-- The snapshot has what the tree held at the first use. -/
theorem snapshot_of_first
    {before later : List Use}
    (h : x.history = before ++ u :: later)
    (hfirst : u.key ∉ before.map Use.key) :
    x.snapshot u.key = u.tree.load u.key := by
  have hnone : before.find? (fun w => w.key = u.key) = none := by
    rw [List.find?_eq_none]
    intro w hw hkey
    exact hfirst (List.mem_map.2 ⟨w, hw, by simpa using hkey⟩)
  rw [snapshot, h, List.find?_append, hnone, Option.none_or,
    List.find?_cons_of_pos (by simp)]

/-- What happens later does not touch the snapshot of a path that was used. -/
theorem snapshot_eq_of_used
    (h : x.history <+: y.history)
    (hused : key ∈ x.history.map Use.key) :
    y.snapshot key = x.snapshot key := by
  obtain ⟨later, hlater⟩ := h
  obtain ⟨u, hu⟩ : ∃ u, x.history.find? (fun u => u.key = key) = some u := by
    rw [← Option.isSome_iff_exists, List.find?_isSome]
    obtain ⟨u, hu, rfl⟩ := List.mem_map.1 hused
    exact ⟨u, hu, by simp⟩
  rw [snapshot, snapshot, ← hlater, List.find?_append, hu]
  rfl

end Snapshot

/-- What the cache and the history of a session have to do with each other. -/
structure Consistent (x : Session) : Prop where
  wellFormed : x.journal.cache.WellFormed
  lookups : x.history.map (·.lookup) = x.journal.lookups
  keys : ∀ key, key ∈ x.journal.cache.keys ↔ key ∈ x.history.map Use.key
  entries : ∀ key a, (key, a) ∈ x.journal.cache.entries → a = x.snapshot key
  uses : ∀ u ∈ x.history,
    x.journal.cache.entries[u.lookup.entry]? = some (u.key, u.lookup.answer)
  reads : ∀ before u later, x.history = before ++ u :: later →
    (u.lookup.isRead = true ↔ u.key ∉ before.map Use.key)

namespace Consistent

variable {x : Session} {p : Path}

theorem start (t : FileTree) :
    Consistent { tree := t } where
  wellFormed := .empty
  lookups := rfl
  keys := by simp [Cache.keys]
  entries := by simp
  uses := by simp
  reads := by simp

/-- Loading answers from the snapshot. -/
theorem load_fst (hx : x.Consistent) (p : Path) :
    (Resolving.load x.tree.documents p x.journal).1 = x.snapshot p.normalize := by
  rw [Resolving.load_fst, Journal.view]
  cases h : x.journal.cache.find? p.normalize with
  | some a =>
      rw [Cache.view_of_find? h]
      exact hx.entries _ a (Cache.mem_entries_of_find? h)
  | none =>
      rw [Cache.view_of_find?_eq_none h, snapshot_of_not_mem]
      · rfl
      · rw [← hx.keys]
        exact Cache.find?_eq_none_iff.1 h

end Consistent

/-- The use that loading a path is. -/
def use (x : Session) (p : Path) : Use where
  tree := x.tree
  lookup := {
    path := p
    answer := (Resolving.load x.tree.documents p x.journal).1
    entry := (Resolving.load x.tree.documents p x.journal).2.cache.position p
    isRead := !x.journal.cache.holds p }

theorem after_load (x : Session) (p : Path) :
    x.after (Resolving.load x.tree.documents p x.journal).2 =
      { tree := x.tree
        journal := (Resolving.load x.tree.documents p x.journal).2
        history := x.history ++ [x.use p] } := by
  simp [after, use, Resolving.load]

/-- Loading changes no snapshot. -/
theorem snapshot_after_load (x : Session) (p key : Path) :
    (x.after (Resolving.load x.tree.documents p x.journal).2).snapshot key = x.snapshot key := by
  rw [after_load]
  by_cases hused : key ∈ x.history.map Use.key
  · exact snapshot_eq_of_used (List.prefix_append _ _) hused
  · rw [snapshot_of_not_mem hused]
    by_cases hkey : (x.use p).key = key
    · subst hkey
      exact snapshot_of_first rfl hused
    · refine snapshot_of_not_mem ?_
      rw [List.map_append, List.mem_append, not_or]
      exact ⟨hused, by simpa using fun h => hkey h.symm⟩

namespace Consistent

variable {x y : Session}

/-- Loading keeps the cache and the history consistent. -/
theorem load (hx : x.Consistent) (p : Path) :
    (x.after (Resolving.load x.tree.documents p x.journal).2).Consistent := by
  have hsnapshot := snapshot_after_load x p
  rw [after_load] at hsnapshot ⊢
  refine ⟨hx.wellFormed.load, ?_, ?_, ?_, ?_, ?_⟩
  · rw [List.map_append, hx.lookups]
    rfl
  · intro key
    rw [Resolving.cache_load, Cache.mem_keys_load, hx.keys, List.map_append, List.mem_append]
    exact or_congr_right List.mem_singleton.symm
  · intro key a ha
    rw [hsnapshot]
    rcases Cache.mem_entries_load ha with ha | ha
    · exact hx.entries key a ha
    · rw [Prod.mk.injEq] at ha
      rw [ha.1, ha.2, ← hx.load_fst p, Resolving.load_fst]
      rfl
  · intro u hu
    rcases List.mem_append.1 hu with hu | hu
    · obtain ⟨later, hlater⟩ := Cache.entries_prefix_load (s := x.tree.documents)
        (c := x.journal.cache) (p := p)
      have hentry := hx.uses u hu
      obtain ⟨hlt, -⟩ := List.getElem?_eq_some_iff.1 hentry
      rw [Resolving.cache_load, ← hlater, List.getElem?_append_left hlt]
      exact hentry
    · rw [List.mem_singleton.1 hu]
      refine Cache.getElem?_position ?_
      rw [Resolving.cache_load, Cache.find?_load, if_pos rfl]
      exact congrArg some (Resolving.load_fst (s := x.tree.documents)).symm
  · intro before u later h
    rcases List.eq_nil_or_concat later with rfl | ⟨later, w, rfl⟩
    · obtain ⟨rfl, hu⟩ := List.append_inj' h rfl
      obtain rfl : x.use p = u := by simpa using hu
      rw [← hx.keys, ← Cache.find?_eq_none_iff]
      show (!(x.journal.cache.find? p.normalize).isSome) = true ↔ _
      simp [Use.key, use]
    · have hsplit : x.history ++ [x.use p] = (before ++ u :: later) ++ [w] := by
        simpa using h
      obtain ⟨hinit, -⟩ := List.append_inj' hsplit rfl
      exact hx.reads before u later hinit

end Consistent

/-- Every state of a session is consistent. -/
theorem Evolves.consistent {x y : Session} (h : x.Evolves y) (hx : x.Consistent) :
    y.Consistent := by
  induction h with
  | refl =>
      exact hx
  | load p _ ih =>
      exact ih.load p
  | @warn y w _ ih =>
      have hafter : y.after (Resolving.warn w y.journal).2 =
          { y with journal := (Resolving.warn w y.journal).2 } := by
        simp [after, Resolving.warn]
      rw [hafter]
      exact ⟨ih.wellFormed, ih.lookups, ih.keys, ih.entries, ih.uses, ih.reads⟩
  | @change y t _ ih =>
      refine ⟨ih.wellFormed, ih.lookups, ih.keys, ?_, ih.uses, ih.reads⟩
      intro key a ha
      have hused : key ∈ y.history.map Use.key := by
        rw [← ih.keys]
        exact List.mem_map_of_mem ha
      rw [ih.entries key a ha]
      exact (snapshot_eq_of_used (x := y) (y := { y with tree := t }) (List.prefix_refl _)
        hused).symm

/-- Uses of the cache are of one entry where the paths have one normal form. -/
theorem Consistent.entry_eq_iff {x : Session} (hx : x.Consistent) {u w : Use}
    (hu : u ∈ x.history) (hw : w ∈ x.history) :
    u.lookup.entry = w.lookup.entry ↔ u.key = w.key := by
  have hkey : ∀ u ∈ x.history, x.journal.cache.keys.idxOf u.key = u.lookup.entry := by
    intro u hu
    obtain ⟨hlt, hget⟩ := List.getElem?_eq_some_iff.1 (hx.uses u hu)
    have hlt' : u.lookup.entry < x.journal.cache.keys.length := by
      simpa [Cache.keys] using hlt
    have hget' : x.journal.cache.keys[u.lookup.entry] = u.key := by
      simp [Cache.keys, hget]
    rw [← hget', hx.wellFormed.nodup.idxOf_getElem]
  constructor
  · intro h
    have hsame := hx.uses u hu
    rw [h, hx.uses w hw, Option.some.injEq, Prod.mk.injEq] at hsame
    exact hsame.1.symm
  · intro h
    rw [← hkey u hu, ← hkey w hw, h]

end Session

/-- A failure to load says which path it was. -/
theorem FileTree.path_of_load {t : FileTree} {p : Path} {e : LoadError} (h : t.load p = .error e) :
    e.path = p := by
  rw [FileTree.load] at h
  cases hread : t.read p with
  | error cause =>
      rw [hread] at h
      cases h
      rfl
  | ok text =>
      rw [hread] at h
      simp only [Document.parse, Json.parseAt] at h
      cases hparse : Json.parse text with
      | error fault =>
          rw [hparse] at h
          cases h
          rfl
      | ok value =>
          rw [hparse] at h
          cases h

/-- In every state that operations, in whole or in part, and changes of the file tree lead to, the
cache answers for a path as the file tree did when a path with the same normal form was first used,
be that with a document or with a failure. That first use is the only one that reads. Entries
stay as they are; each is for a path in normal form, and its document or failure is for that path.
Uses share an entry where their paths have the same normal form, and only there. -/
theorem Session.evolves_snapshot (t : FileTree) :
    (∀ es, Session.Evolves { tree := t } (Session.run { tree := t } es)) ∧
    ∀ x : Session, Session.Evolves { tree := t } x →
      x.history.map (·.lookup) = x.journal.lookups ∧
      (∀ p, (Resolving.load x.tree.documents p x.journal).1 = x.snapshot p.normalize) ∧
      (∀ u ∈ x.history, u.lookup.answer = x.snapshot u.key) ∧
      (∀ before u later, x.history = before ++ u :: later →
        (u.lookup.isRead = true ↔ u.key ∉ before.map Use.key)) ∧
      (∀ u ∈ x.history, ∀ w ∈ x.history,
        u.lookup.entry = w.lookup.entry ↔ u.lookup.path.normalize = w.lookup.path.normalize) ∧
      (∀ u ∈ x.history,
        x.journal.cache.entries[u.lookup.entry]? = some (u.key, u.lookup.answer)) ∧
      x.journal.cache.keys.Nodup ∧
      (∀ key, key ∈ x.journal.cache.keys ↔ key ∈ x.history.map Use.key) ∧
      (∀ key a, (key, a) ∈ x.journal.cache.entries →
        key.normalize = key ∧ (∀ d, a = .ok d → d.path = key) ∧
          ∀ e, a = .error e → e.path = key) ∧
      ∀ y, x.Evolves y →
        x.history <+: y.history ∧
        x.journal.cache.entries <+: y.journal.cache.entries ∧
        ∀ u ∈ x.history, y.snapshot u.key = x.snapshot u.key := by
  refine ⟨fun es => evolves_run _ es, ?_⟩
  intro x hevolves
  have hx : x.Consistent := hevolves.consistent (.start t)
  refine ⟨hx.lookups, hx.load_fst, ?_, hx.reads, fun u hu w hw => hx.entry_eq_iff hu hw, hx.uses,
    hx.wellFormed.nodup, hx.keys, ?_, ?_⟩
  · intro u hu
    exact hx.entries u.key _ (List.mem_of_getElem? (hx.uses u hu))
  · intro key a ha
    refine ⟨hx.wellFormed.normal key (List.mem_map_of_mem ha), ?_, ?_⟩
    · rintro d rfl
      exact hx.wellFormed.path_eq ha
    · rintro e rfl
      have hload := hx.entries key _ ha
      rw [snapshot] at hload
      cases hfind : x.history.find? fun u => u.key = key with
      | some u =>
          rw [hfind] at hload
          exact FileTree.path_of_load hload.symm
      | none =>
          rw [hfind] at hload
          exact FileTree.path_of_load hload.symm
  · intro y hy
    refine ⟨hy.history, hy.entries, ?_⟩
    intro u hu
    exact snapshot_eq_of_used hy.history (List.mem_map_of_mem hu)

/-- One model in a file. -/
def loneModel : FileTree where
  workingDirectory := []
  nodes := [(["a.json"], .file "\x7b\"title\": \"a\"\x7d".toUTF8)]

/-- The file is read, removed, and then asked for by another spelling of its path. -/
theorem Session.evolves_snapshot_loneModel :
    let x := Session.run { tree := loneModel } [.operation (.load ⟨"a.json"⟩),
      .change { loneModel with nodes := [] }, .operation (.load ⟨"b/../a.json"⟩)]
    (Resolving.load x.tree.documents ⟨"./a.json"⟩ x.journal).1 = loneModel.load ⟨"a.json"⟩ ∧
      (loneModel.load ⟨"a.json"⟩).isOk = true ∧ (x.tree.load ⟨"a.json"⟩).isOk = false := by
  intro x
  have hsnapshot : x.snapshot (Path.mk "./a.json").normalize = loneModel.load ⟨"a.json"⟩ := by
    decide +kernel
  obtain ⟨hevolves, hstates⟩ := Session.evolves_snapshot loneModel
  obtain ⟨-, hload, -⟩ := hstates x (hevolves _)
  exact ⟨(hload ⟨"./a.json"⟩).trans hsnapshot, by decide +kernel, by decide +kernel⟩

end FieldTypes
