import FieldTypes.Proofs.Locating
import FieldTypes.Proofs.ModelClosure
import FieldTypes.Proofs.Session
import Mathlib.Data.List.TakeWhile

/-!
# One file, one entry

The cache knows documents by the normal form of their paths, and a walk knows them by the same. So
what is kept once, and reported once, is a file together with the anchor of the paths that lead to
it: the working directory has no part in the normal form, and `../w/b.json` does not become `b.json`
where `w` is where the program works. Absolute paths all have the root for an anchor, and references
do not leave it, so from absolute roots every file is reported at most once.

**Results.**
* `Path.isAbsolute_locate`: references in a document at an absolute path point at absolute paths.
* `nodup_paths_of_reportModels`: no path is reported twice.
* `Session.entry_eq_iff_anchor_eq`: when paths that lead to one file share an entry, and that a file
  is reported at most once for each anchor.
-/

namespace FieldTypes

section Absolute

variable {t : FileTree} {p q : Path} {text : String} {start : Place}

/-- A path with a file does not lead to the root. -/
theorem FileTree.destination_ne_nil_of_read (h : t.read p = .ok text) :
    p.destination t.workingDirectory ≠ [] := by
  intro hnil
  cases hfollow : t.follow p with
  | error e =>
      simp [read, node, hfollow, bind, Except.bind] at h
  | ok place =>
      rw [← follow_eq_destination hfollow] at hnil
      subst hnil
      simp [read, node, hfollow, bind, Except.bind, nodeAt] at h

namespace Path

/-- An absolute path that does not lead to the root lies in an absolute directory. -/
theorem isAbsolute_directory
    (h : p.isAbsolute = true)
    (hne : p.destination start ≠ []) :
    p.directory.isAbsolute = true := by
  have hsteps : p.steps ≠ [] := by
    intro hnil
    rw [destination, components_of_isAbsolute h, ← steps, hnil] at hne
    exact hne rfl
  rw [isAbsolute_directory_of_steps hsteps, h]

theorem isAbsolute_join (h : p.isAbsolute = true) (q : Path) :
    (p.join q).isAbsolute = true := by
  cases hq : q.isAbsolute with
  | true =>
      rw [join, if_pos hq]
      exact hq
  | false =>
      rw [isAbsolute_join_of_relative hq, h]

/-- References in a document at an absolute path point at absolute paths. -/
theorem isAbsolute_locate
    (h : p.isAbsolute = true)
    (hne : p.destination start ≠ [])
    (reference : String) :
    (p.locate reference).isAbsolute = true := by
  unfold locate
  by_cases hfile : withoutFragment reference = ""
  · simp only [hfile, if_true, isAbsolute_normalize, h]
  · simp only [hfile, if_false, isAbsolute_normalize]
    exact isAbsolute_join (isAbsolute_directory h hne) _

end Path

end Absolute

section Reports

variable {s : Source} {j : Journal} {v : Path → Except LoadError Document} {roots : List Path}
  {l : Language} {follow : Bool} {reports : List ModelReport}

/-- The reported paths are among those of the closure, in the same order. -/
theorem exists_closure_sublist
    (hpath : ∀ p d, v p = .ok d → d.path = p)
    (hview : j.view s = v)
    (h : (reportModels s roots l follow j).1 = .ok reports) :
    ∃ ds, IsClosureList v roots ds ∧ (reports.map (·.path)).Sublist (ds.map (·.path)) := by
  obtain ⟨ds, hclosure, rfl⟩ := exists_closure_of_reports hpath hview h
  refine ⟨ds, hclosure, ?_⟩
  rw [List.map_map]
  cases follow with
  | true =>
      exact List.Sublist.refl _
  | false =>
      exact (List.take_sublist _ ds).map _

/-- No path is reported twice. -/
theorem nodup_paths_of_reportModels
    (hpath : ∀ p d, v p = .ok d → d.path = p)
    (hview : j.view s = v)
    (h : (reportModels s roots l follow j).1 = .ok reports) :
    (reports.map (·.path)).Nodup := by
  obtain ⟨ds, hclosure, hsub⟩ := exists_closure_sublist hpath hview h
  exact hclosure.nodup.sublist hsub

/-- What holds of the roots and passes on along references holds of what is reported. -/
theorem forall_path_of_reportModels
    {S : Set Path}
    (hpath : ∀ p d, v p = .ok d → d.path = p)
    (hview : j.view s = v)
    (h : (reportModels s roots l follow j).1 = .ok reports)
    (hroots : ∀ r ∈ roots, r.normalize ∈ S)
    (hreferences : ∀ p ∈ S, ∀ d, v p = .ok d → ∀ r, p.locate r ∈ S) :
    ∀ m ∈ reports, m.path ∈ S := by
  obtain ⟨ds, hclosure, hsub⟩ := exists_closure_sublist hpath hview h
  have hclosed : ClosedUnder v (roots.map Path.normalize) S := by
    refine ⟨?_, ?_⟩
    · intro r hr
      obtain ⟨r', hr', rfl⟩ := List.mem_map.1 hr
      exact hroots r' hr'
    · intro p hp d hd t ht _
      obtain ⟨r, -, rfl⟩ := List.mem_map.1 (mem_distinct.1 ht)
      rw [hpath p d hd]
      exact hreferences p hp d hd r
  intro m hm
  exact hclosure.least.2 hclosed (hsub.subset (List.mem_map_of_mem hm))

end Reports

namespace Session

/-- A document that the cache has, or would load now, was in some file tree. -/
theorem exists_load_of_snapshot {x : Session} {p : Path} {d : Document}
    (h : x.snapshot p = .ok d) :
    ∃ t : FileTree, t.load p = .ok d := by
  unfold snapshot at h
  split at h
  · exact ⟨_, h⟩
  · exact ⟨_, h⟩

section Reports

variable {x : Session} {roots : List Path} {l : Language} {follow : Bool}
  {reports : List ModelReport}

/-- Two reports are one where the anchors of their paths are, if these lead to one place. -/
theorem Consistent.index_eq_iff
    (hx : x.Consistent)
    (h : (reportModels x.tree.documents roots l follow x.journal).1 = .ok reports)
    {i k : Nat} {m n : ModelReport}
    (hm : reports[i]? = some m)
    (hn : reports[k]? = some n)
    {y : FileTree} {place : Place}
    (hmp : y.follow m.path = .ok place)
    (hnp : y.follow n.path = .ok place) :
    i = k ↔ m.path.anchor = n.path.anchor := by
  have hpath : ∀ p d, x.journal.view x.tree.documents p = .ok d → d.path = p :=
    fun p d => hx.wellFormed.path_of_view
  have hnodup := nodup_paths_of_reportModels hpath rfl h
  have hnormal : ∀ m ∈ reports, m.path.normalize = m.path :=
    forall_path_of_reportModels (S := {p | p.normalize = p}) hpath rfl h
      (fun r _ => Path.normalize_normalize r) fun p _ _ _ r => Path.normalize_locate p r
  have hanchor := Path.normalize_eq_iff y.workingDirectory m.path n.path
  rw [hnormal m (List.mem_of_getElem? hm), hnormal n (List.mem_of_getElem? hn),
    ← FileTree.follow_eq_destination hmp, ← FileTree.follow_eq_destination hnp,
    and_iff_left rfl] at hanchor
  rw [← hanchor]
  constructor
  · rintro rfl
    rw [hm, Option.some.injEq] at hn
    rw [hn]
  · intro hsame
    have hi : (reports.map (·.path))[i]? = some m.path := by simp [hm]
    have hk : (reports.map (·.path))[k]? = some m.path := by simp [hn, hsame]
    obtain ⟨hlt, -⟩ := List.getElem?_eq_some_iff.1 hi
    exact (List.getElem?_inj hlt hnodup).1 (hi.trans hk.symm)

/-- From absolute roots only absolute paths are reported. -/
theorem Consistent.isAbsolute_of_reportModels
    (hx : x.Consistent)
    (h : (reportModels x.tree.documents roots l follow x.journal).1 = .ok reports)
    (hroots : ∀ r ∈ roots, r.isAbsolute = true) :
    ∀ m ∈ reports, m.path.isAbsolute = true := by
  have hpath : ∀ p d, x.journal.view x.tree.documents p = .ok d → d.path = p :=
    fun p d => hx.wellFormed.path_of_view
  intro m hm
  refine (forall_path_of_reportModels
    (S := {p | p.normalize = p ∧ p.isAbsolute = true}) hpath rfl h ?_ ?_ m hm).2
  · intro r hr
    exact ⟨Path.normalize_normalize r, by simpa using hroots r hr⟩
  · rintro p ⟨hnormal, habsolute⟩ d hd r
    have hsnapshot : x.snapshot p = .ok d := by
      rw [← hd, ← hnormal, ← hx.load_fst, Resolving.load_fst]
    obtain ⟨t, ht⟩ := exists_load_of_snapshot hsnapshot
    obtain ⟨text, -, hread, -⟩ := FileTree.load_eq_ok_iff.1 ht
    exact ⟨Path.normalize_locate p r,
      Path.isAbsolute_locate habsolute (FileTree.destination_ne_nil_of_read hread) r⟩

end Reports

/-- Uses of paths that lead to one file are of one entry where the paths have one anchor, and only
there. Two reports of one call are never of one file by paths with one anchor. From absolute roots
no file is reported twice, however the references are spelled. -/
theorem entry_eq_iff_anchor_eq
    (t : FileTree)
    (x : Session)
    (h : Evolves { tree := t } x) :
    (∀ u ∈ x.history, ∀ w ∈ x.history, ∀ (y : FileTree) (place : Place),
      y.follow u.lookup.path = .ok place →
      y.follow w.lookup.path = .ok place →
      (u.lookup.entry = w.lookup.entry ↔ u.lookup.path.anchor = w.lookup.path.anchor)) ∧
    ∀ roots l follow reports,
      (reportModels x.tree.documents roots l follow x.journal).1 = .ok reports →
      ∀ (i k : Nat) (m n : ModelReport), reports[i]? = some m → reports[k]? = some n →
        ∀ (y : FileTree) (place : Place),
          y.follow m.path = .ok place →
          y.follow n.path = .ok place →
          (i = k ↔ m.path.anchor = n.path.anchor) ∧
          ((∀ r ∈ roots, r.isAbsolute = true) → i = k) := by
  have hx : x.Consistent := h.consistent (.start t)
  constructor
  · intro u hu w hw y place hup hwp
    rw [hx.entry_eq_iff hu hw, Use.key, Use.key, Path.normalize_eq_iff y.workingDirectory,
      ← FileTree.follow_eq_destination hup, ← FileTree.follow_eq_destination hwp,
      and_iff_left rfl]
  · intro roots l follow reports hreports i k m n hm hn y place hmp hnp
    have hiff := hx.index_eq_iff hreports hm hn hmp hnp
    refine ⟨hiff, ?_⟩
    intro hroots
    have habsolute := hx.isAbsolute_of_reportModels hreports hroots
    rw [hiff, Path.anchor, Path.anchor, habsolute m (List.mem_of_getElem? hm),
      habsolute n (List.mem_of_getElem? hn)]
    rfl

/-- Two models in the working directory. One refers to the other twice, once by the name of the
directory. -/
def modelsAtWork : FileTree where
  workingDirectory := ["w"]
  nodes := [
    (["w"], .directory),
    (["w", "a.json"], .file ("\x7b\"title\": \"a\", \"properties\": " ++
      "[\x7b\"$ref\": \"b.json\"\x7d, \x7b\"$ref\": \"../w/b.json\"\x7d]\x7d").toUTF8),
    (["w", "b.json"], .file "\x7b\"title\": \"b\"\x7d".toUTF8)]

/-- The first model is reported along its references, by a relative and by an absolute path. -/
def reportingAtWork : Session :=
  Session.run { tree := modelsAtWork } [
    .operation (.reportModels [⟨"a.json"⟩] .swift true),
    .operation (.reportModels [⟨"/w/a.json"⟩] .swift true)]

theorem entry_eq_iff_anchor_eq_reportingAtWork :
    (∃ u ∈ reportingAtWork.history, ∃ w ∈ reportingAtWork.history,
      u.lookup.path = ⟨"b.json"⟩ ∧ w.lookup.path = ⟨"../w/b.json"⟩ ∧
      u.lookup.entry ≠ w.lookup.entry) ∧
    ∃ reports,
      (reportModels reportingAtWork.tree.documents [⟨"/w/a.json"⟩] .swift true
        reportingAtWork.journal).1 = .ok reports ∧
      reports.map (·.path) = [⟨"/w/a.json"⟩, ⟨"/w/b.json"⟩] ∧
      ∀ (i k : Nat) (m n : ModelReport), reports[i]? = some m → reports[k]? = some n →
        modelsAtWork.follow m.path = .ok ["w", "b.json"] →
        modelsAtWork.follow n.path = .ok ["w", "b.json"] →
        i = k := by
  obtain ⟨hentries, hreports⟩ :=
    entry_eq_iff_anchor_eq modelsAtWork reportingAtWork (evolves_run _ _)
  constructor
  · have hpaths : ∀ p ∈ [Path.mk "b.json", Path.mk "../w/b.json"],
        p ∈ reportingAtWork.history.map (·.lookup.path) := by
      decide +kernel
    obtain ⟨u, hu, hup⟩ := List.mem_map.1 (hpaths ⟨"b.json"⟩ (by simp))
    obtain ⟨w, hw, hwp⟩ := List.mem_map.1 (hpaths ⟨"../w/b.json"⟩ (by simp))
    refine ⟨u, hu, w, hw, hup, hwp, ?_⟩
    have hsame := hentries u hu w hw modelsAtWork ["w", "b.json"]
    rw [hup, hwp] at hsame
    rw [Ne, hsame (by decide +kernel) (by decide +kernel)]
    decide +kernel
  · have hpaths : ((reportModels reportingAtWork.tree.documents [⟨"/w/a.json"⟩] .swift true
        reportingAtWork.journal).1.toOption.map fun reports => reports.map (·.path)) =
          some [⟨"/w/a.json"⟩, ⟨"/w/b.json"⟩] := by
      decide +kernel
    cases h : (reportModels reportingAtWork.tree.documents [⟨"/w/a.json"⟩] .swift true
        reportingAtWork.journal).1 with
    | error e =>
        rw [h] at hpaths
        cases hpaths
    | ok reports =>
        rw [h] at hpaths
        refine ⟨reports, rfl, Option.some.inj hpaths, ?_⟩
        intro i k m n hm hn hmp hnp
        exact (hreports _ _ _ reports h i k m n hm hn modelsAtWork _ hmp hnp).2 (by decide +kernel)

/-- A file has two entries and two reports where its directory is where the program works, and is
named on the way to it. -/
theorem entry_ne_modelsAtWork :
    modelsAtWork.follow ⟨"b.json"⟩ = modelsAtWork.follow ⟨"../w/b.json"⟩ ∧
    (modelsAtWork.load ⟨"b.json"⟩).isOk = true ∧
    (Session.run { tree := modelsAtWork } [.operation (.load ⟨"b.json"⟩),
      .operation (.load ⟨"../w/b.json"⟩)]).history.map (·.lookup.entry) = [0, 1] ∧
    ((reportModels modelsAtWork.documents [⟨"a.json"⟩] .swift true {}).1.toOption.map
      fun reports => reports.map (·.path)) =
        some [⟨"a.json"⟩, ⟨"b.json"⟩, ⟨"../w/b.json"⟩] ∧
    ((reportModels modelsAtWork.documents [⟨"b.json"⟩, ⟨"../w/b.json"⟩] .swift false
      {}).1.toOption.map fun reports => reports.map (·.path)) =
        some [⟨"b.json"⟩, ⟨"../w/b.json"⟩] := by
  decide +kernel

end Session
end FieldTypes
