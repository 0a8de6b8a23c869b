import FieldTypes.Proofs.AliasChain
import FieldTypes.Proofs.Descent
import FieldTypes.Report

/-!
# What every computation does to the journal

Following references, resolving types, reporting and walking from model to model: the journal that
each of them leaves is reached from the one it was given by loading documents and giving warnings.

What they answer is determined by the answers that the journal's cache would give. It makes no
difference which of them are kept already, nor what was resolved before. So reporting models has two
parts. First the documents are found: the roots, and on demand all that they lead to. This part
knows nothing of the target language. Then each of them is reported, as it would be alone.

**Results.**
* `resolveType_reaches`, `Document.report_reaches`, `reportModels_reaches` and the steps to them.
* `resolveType_fst_eq`, `Document.report_fst_eq`: equal views give equal results.
* `Resolving.each_fst_eq`: computations one after the other give what each gives alone.
* `reportModels_fst`, `reportModels_snd`: reporting models in its two parts.
-/

namespace FieldTypes

section Reaching

variable {s : Source} {l : Language} {document : Path} {reference : String}

theorem Resolving.load_reaches (p : Path) (j : Journal) :
    j.Reaches s (Resolving.load s p j).2 :=
  .load p .refl

theorem Resolving.warn_reaches (w : Warning) (j : Journal) :
    j.Reaches s (Resolving.warn w j).2 :=
  .warn w .refl

theorem Resolving.each_reaches
    {α β : Type} {f : α → Resolving β}
    (h : ∀ a (j : Journal), j.Reaches s (f a j).2)
    (as : List α) (j : Journal) :
    j.Reaches s (Resolving.each f as j).2 := by
  induction as generalizing j with
  | nil =>
      exact .refl
  | cons a as ih =>
      exact (h a j).trans (ih (f a j).2)

theorem resolveReference_reaches (j : Journal) :
    j.Reaches s (resolveReference s reference document j).2 := by
  have hfollow := followReference_reaches (s := s) reference document j
  rw [resolveReference]
  generalize followReference s reference document j = r at hfollow ⊢
  obtain ⟨(path | error) | name, k⟩ := r
  · exact hfollow
  · exact hfollow.trans (Resolving.warn_reaches _ k)
  · exact hfollow

theorem resolveType_reaches (p : Property) (j : Journal) :
    j.Reaches s (resolveType s l document p j).2 := by
  rw [resolveType_eq, resolveLeaf]
  cases p.leaf.reference with
  | some r =>
      exact resolveReference_reaches j
  | none =>
      exact .refl

theorem Property.report_reaches (p : Property) (j : Journal) :
    j.Reaches s (p.report s l document j).2 :=
  resolveType_reaches p j

theorem Document.report_reaches (d : Document) (j : Journal) :
    j.Reaches s (d.report s l j).2 :=
  Resolving.each_reaches Property.report_reaches d.properties j

theorem loadRoots_reaches (found : List Document) (roots : List Path) (j : Journal) :
    j.Reaches s (loadRoots s found roots j).2 := by
  induction roots generalizing found j with
  | nil =>
      exact .refl
  | cons root roots ih =>
      rw [loadRoots]
      split_ifs with hfound
      · exact ih found j
      · have hload := Resolving.load_reaches (s := s) root.normalize j
        generalize Resolving.load s root.normalize j = r at hload ⊢
        obtain ⟨e | d, k⟩ := r
        · exact hload
        · exact hload.trans (ih _ k)

theorem discover_reaches (known targets : List Path) (j : Journal) :
    j.Reaches s (discover s known targets j).2 := by
  induction targets generalizing known j with
  | nil =>
      exact .refl
  | cons target targets ih =>
      rw [discover]
      split_ifs with hknown
      · exact ih known j
      · have hload := Resolving.load_reaches (s := s) target j
        generalize Resolving.load s target j = r at hload ⊢
        obtain ⟨e | d, k⟩ := r
        · exact hload.trans ((Resolving.warn_reaches _ k).trans (ih known _))
        · exact hload.trans (ih _ k)

theorem expand_reaches (n : Nat) (done queue : List Document) (j : Journal) :
    j.Reaches s (expand s n done queue j).2 := by
  induction n generalizing done queue j with
  | zero =>
      exact .refl
  | succ n ih =>
      cases queue with
      | nil =>
          exact .refl
      | cons d queue =>
          exact (discover_reaches _ _ j).trans (ih _ _ _)

theorem closure_reaches (roots : List Document) (j : Journal) :
    j.Reaches s (closure s roots j).2 :=
  expand_reaches _ _ _ j

theorem reportModels_reaches (roots : List Path) (follow : Bool) (j : Journal) :
    j.Reaches s (reportModels s roots l follow j).2 := by
  have hroots := loadRoots_reaches (s := s) [] roots j
  rw [reportModels]
  generalize loadRoots s [] roots j = r at hroots ⊢
  obtain ⟨e | found, k⟩ := r
  · exact hroots
  · have hwalk : k.Reaches s (if follow then closure s found k else (found, k)).2 := by
      split_ifs with hfollow
      · exact closure_reaches found k
      · exact .refl
    exact hroots.trans (hwalk.trans
      (Resolving.each_reaches Document.report_reaches _ _))

end Reaching

section ByView

variable {s : Source} {l : Language} {document : Path} {reference : String} {j k : Journal}

theorem followReference_fst_eq (h : j.view s = k.view s) :
    (followReference s reference document j).1 = (followReference s reference document k).1 := by
  obtain ⟨ps, hj, -⟩ := followReference_follows (s := s) reference document j
  obtain ⟨qs, hk, -⟩ := followReference_follows (s := s) reference document k
  rw [h] at hj
  exact (hj.unique hk).2

/-- What a reference resolves to, given the end of its chain. -/
theorem resolveReference_fst (j : Journal) :
    (resolveReference s reference document j).1 =
      match (followReference s reference document j).1 with
      | .ok name => .ok name
      | .error (.cyclic path) => .error (.cyclicReference path)
      | .error (.unloadable _) => .ok "" := by
  rw [resolveReference]
  generalize followReference s reference document j = r
  obtain ⟨(path | error) | name, k⟩ := r <;> rfl

theorem resolveReference_fst_eq (h : j.view s = k.view s) :
    (resolveReference s reference document j).1 =
      (resolveReference s reference document k).1 := by
  rw [resolveReference_fst, resolveReference_fst, followReference_fst_eq h]

theorem resolveLeaf_fst_eq {p : Property} (h : j.view s = k.view s) :
    (resolveLeaf s l document p j).1 = (resolveLeaf s l document p k).1 := by
  unfold resolveLeaf
  cases p.reference with
  | some r =>
      exact resolveReference_fst_eq h
  | none =>
      rfl

theorem resolveType_fst_eq {p : Property} (h : j.view s = k.view s) :
    (resolveType s l document p j).1 = (resolveType s l document p k).1 := by
  rw [resolveType_eq, resolveType_eq, resolveLeaf_fst_eq h]

theorem Property.report_fst_eq {p : Property} (h : j.view s = k.view s) :
    (p.report s l document j).1 = (p.report s l document k).1 := by
  show FieldReport.ofProperty p (resolveType s l document p j).1 =
    FieldReport.ofProperty p (resolveType s l document p k).1
  rw [resolveType_fst_eq h]

/-- One computation after the other gives what each gives alone. -/
theorem Resolving.each_fst_eq
    {α β : Type} {f : α → Resolving β}
    (hreaches : ∀ a (i : Journal), i.Reaches s (f a i).2)
    (hview : ∀ a (i i' : Journal), i.view s = i'.view s → (f a i).1 = (f a i').1)
    (as : List α) (h : j.view s = k.view s) :
    (Resolving.each f as j).1 = as.map fun a => (f a k).1 := by
  induction as generalizing j with
  | nil =>
      rfl
  | cons a as ih =>
      show (f a j).1 :: (Resolving.each f as (f a j).2).1 = _
      rw [List.map_cons, hview a j k h, ih ((hreaches a j).view_eq.trans h)]

/-- The fields of a report are the reports of the properties, each made alone. -/
theorem Document.report_fst {d : Document} (h : j.view s = k.view s) :
    (d.report s l j).1 =
      { title := d.title, typeName := d.typeName, path := d.path, language := l,
        fields := d.properties.map fun p => (p.report s l d.path k).1 } := by
  rw [← Resolving.each_fst_eq Property.report_reaches (fun _ _ _ => Property.report_fst_eq)
    d.properties h]
  rfl

theorem Document.report_fst_eq {d : Document} (h : j.view s = k.view s) :
    (d.report s l j).1 = (d.report s l k).1 := by
  rw [Document.report_fst h, Document.report_fst (rfl : k.view s = k.view s)]

/-- Models reported one after the other are those reported alone. -/
theorem reports_fst (ds : List Document) (h : j.view s = k.view s) :
    (Resolving.each (Document.report s l) ds j).1 = ds.map fun d => (d.report s l k).1 :=
  Resolving.each_fst_eq Document.report_reaches (fun _ _ _ => Document.report_fst_eq) ds h

end ByView

section Finding

variable (s : Source) (roots : List Path) (follow : Bool) (l : Language)

/-- The documents that are reported, or why a root does not load. -/
def findModels : Resolving (Except LoadError (List Document)) := fun j =>
  match loadRoots s [] roots j with
  | (.error e, j) => (.error e, j)
  | (.ok found, j) =>
    match (if follow then closure s found j else (found, j)) with
    | (ds, j) => (.ok ds, j)

variable (j : Journal)

theorem findModels_reaches :
    j.Reaches s (findModels s roots follow j).2 := by
  have hroots := loadRoots_reaches (s := s) [] roots j
  rw [findModels]
  generalize loadRoots s [] roots j = r at hroots ⊢
  obtain ⟨e | found, k⟩ := r
  · exact hroots
  · cases follow with
    | true =>
        exact hroots.trans (closure_reaches found k)
    | false =>
        exact hroots

/-- Each model that is found is reported as it is alone. -/
theorem reportModels_fst :
    (reportModels s roots l follow j).1 =
      (findModels s roots follow j).1.map fun ds => ds.map fun d => (d.report s l j).1 := by
  have hreaches := findModels_reaches s roots follow j
  rw [reportModels]
  rw [findModels] at hreaches ⊢
  generalize loadRoots s [] roots j = r at hreaches ⊢
  obtain ⟨e | found, k⟩ := r
  · rfl
  · simp only at hreaches ⊢
    generalize (if follow then closure s found k else (found, k)) = w at hreaches ⊢
    obtain ⟨ds, k'⟩ := w
    exact congrArg Except.ok (reports_fst ds hreaches.view_eq)

/-- Reporting goes on from the journal that finding the models leaves. -/
theorem reportModels_snd :
    (reportModels s roots l follow j).2 =
      match findModels s roots follow j with
      | (.error _, k) => k
      | (.ok ds, k) => (Resolving.each (Document.report s l) ds k).2 := by
  rw [reportModels, findModels]
  generalize loadRoots s [] roots j = r
  obtain ⟨e | found, k⟩ := r <;> rfl

end Finding
end FieldTypes
