import FieldTypes.CommandLine.Run
import FieldTypes.Proofs.ModelClosure
import FieldTypes.Proofs.Writing

/-!
# What a command leaves behind

A command looks at all of its inputs before it puts anything out. If one of them is of no use, at
whatever place it stands, nothing is printed and the file tree stays as it is. Nothing is asked of
how patterns are expanded: whatever gives the matches of a pattern, an error for a directory that it
could not list counts as much as a pattern that is none. A command that does
its work changes its output file alone, and makes the directories around it that were missing. Its
outcome says whether all fields that it reports have a type, in whatever form and wherever it puts
them out.

**Main definitions.**
* `Command.Unusable`: the inputs on which a command fails, as the expansion of patterns has it.
* `FileTree.Wrote`: how one file tree comes from another one by a written file.

**Results.**
* `deliver_some`: what putting contents into a file changes.
* `FileTree.inputPath_eq_ok_iff`, `Command.unusable_iff`: what an input stands for, and when it is
  of no use.
* `Command.runResolve_cases`, `Command.runDescribe_cases`: failing on the inputs, or putting out.
* `Command.run_leaves`: what a command leaves behind.
-/

namespace FieldTypes

/-- A file was written in a file tree. It holds its contents, the directories around it were made
where they were missing, and all else is as it was. -/
structure FileTree.Wrote (t : FileTree) (file : Path) (contents : String) (t' : FileTree) :
    Prop where
  workingDirectory : t'.workingDirectory = t.workingDirectory
  read : t'.read file = .ok contents
  nodeAt : ∀ q, t'.nodeAt q = t.nodeAt q ∨
    t'.follow file = .ok q ∧ t.nodeAt q ≠ some .directory ∨
    t.nodeAt q = none ∧ t'.nodeAt q = some .directory ∧
      ∃ directory, file.parent? = some directory ∧
        ∃ p ∈ directory.ancestors, t'.follow p = .ok q

/-- What a run puts out: what it prints, or what its output file holds then. -/
def Run.delivered (r : Run) : Option Path → Except FileError String
  | none => .ok r.output
  | some file => r.tree.read file

/-- Whether a command fails on its inputs, before it puts anything out. -/
def CommandError.IsOfInputs : CommandError → Prop
  | inputs _ | document _ => True
  | createDirectory _ _ | writeFile _ _ => False

section Deliver

variable {t t' : FileTree} {file : Path} {contents : String} {o o' : Outcome} {ws : List Warning}
  {out : Option Path}

/-- Writing a file, after directories were made, changes that file. -/
theorem FileTree.wrote_of_write {made : FileTree} {ps : List Path}
    (hmade : MadeAlong ps t made)
    (hps : ∀ p ∈ ps, ∃ directory, file.parent? = some directory ∧ p ∈ directory.ancestors)
    (h : made.write file contents.toUTF8 = .ok t') :
    t.Wrote file contents t' := by
  obtain ⟨place, hplace, hfree, rfl, hfollow⟩ := exists_put_of_write h
  refine ⟨(made.workingDirectory_put place _).trans hmade.workingDirectory, read_of_write h, ?_⟩
  intro q
  have hput := made.nodeAt_put (.file contents.toUTF8) hplace q
  have hgrows : Grows made (made.put place (.file contents.toUTF8)) := Grows.put hplace hfree
  by_cases hq : q = place
  · subst hq
    refine Or.inr (Or.inl ⟨hfollow, fun hdirectory => hfree ?_⟩)
    exact hmade.grows.directory q hdirectory
  · rw [if_neg hq] at hput
    rw [hput]
    refine (hmade.nodeAt q).imp_right fun ⟨hnone, hdirectory, p, hp, hpq⟩ => ?_
    obtain ⟨directory, hparent, hancestor⟩ := hps p hp
    exact Or.inr ⟨hnone, hdirectory, directory, hparent, p, hancestor, hgrows.follow hpq⟩

/-- Contents are written to a file in a tree in which directories were made around it. -/
theorem writeTo_of_ok {made : FileTree} {ps : List Path}
    (hmade : FileTree.MadeAlong ps t made)
    (hps : ∀ p ∈ ps, ∃ directory, file.parent? = some directory ∧ p ∈ directory.ancestors)
    (h : (deliver.writeTo contents o ws made file).result = .ok o') :
    o' = o ∧ (deliver.writeTo contents o ws made file).output = "" ∧
      t.Wrote file contents (deliver.writeTo contents o ws made file).tree := by
  unfold deliver.writeTo at h ⊢
  cases hwrite : made.write file contents.toUTF8 with
  | error e =>
      rw [hwrite] at h
      cases h
  | ok t' =>
      rw [hwrite] at h
      cases h
      exact ⟨rfl, rfl, FileTree.wrote_of_write hmade hps hwrite⟩

/-- Putting contents into a file leaves a tree in which the file was written. -/
theorem deliver_some (h : (deliver t (some file) contents o ws).result = .ok o') :
    o' = o ∧ (deliver t (some file) contents o ws).output = "" ∧
      t.Wrote file contents (deliver t (some file) contents o ws).tree := by
  unfold deliver at h ⊢
  cases hparent : file.parent? with
  | none =>
      simp only [hparent] at h ⊢
      exact writeTo_of_ok (FileTree.MadeAlong.refl [] t) (by simp) h
  | some directory =>
      simp only [hparent] at h ⊢
      have hmade := FileTree.madeAlong_makeEach t directory.ancestors
      have hps : ∀ p ∈ directory.ancestors,
          ∃ directory', file.parent? = some directory' ∧ p ∈ directory'.ancestors :=
        fun p hp => ⟨directory, hparent, hp⟩
      rw [FileTree.makeDirectories] at h ⊢
      generalize t.makeEach directory.ancestors = r at h hmade ⊢
      obtain ⟨e | u, made⟩ := r
      · cases h
      · exact writeTo_of_ok hmade hps h

/-- What is put out: contents that are printed end with a newline. -/
theorem delivered_deliver (h : (deliver t out contents o ws).result = .ok o') :
    (deliver t out contents o ws).delivered out =
      .ok (if out.isSome then contents else withNewline contents) := by
  cases out with
  | none =>
      rfl
  | some file =>
      exact (deliver_some h).2.2.read

theorem not_isOfInputs_of_writeTo {made : FileTree} {e : CommandError}
    (h : (deliver.writeTo contents o ws made file).result = .error e) :
    ¬ e.IsOfInputs := by
  unfold deliver.writeTo at h
  cases hwrite : made.write file contents.toUTF8 with
  | error cause =>
      rw [hwrite] at h
      cases h
      exact id
  | ok t' =>
      rw [hwrite] at h
      cases h

/-- Contents that cannot be put out are no fault of the inputs. -/
theorem not_isOfInputs_of_deliver {e : CommandError}
    (h : (deliver t out contents o ws).result = .error e) :
    ¬ e.IsOfInputs := by
  unfold deliver at h
  cases out with
  | none =>
      cases h
  | some file =>
      cases hparent : file.parent? with
      | none =>
          simp only [hparent] at h
          exact not_isOfInputs_of_writeTo h
      | some directory =>
          simp only [hparent] at h
          generalize t.makeDirectories directory = r at h
          obtain ⟨cause | u, made⟩ := r
          · cases h
            exact id
          · exact not_isOfInputs_of_writeTo h

theorem outcome_deliver (h : (deliver t out contents o ws).result = .ok o') :
    o' = o := by
  cases out with
  | none =>
      cases h
      rfl
  | some file =>
      exact (deliver_some h).1

end Deliver

namespace FileTree

/-- A fresh cache has nothing to add to the files. -/
theorem view_empty (t : FileTree) : Journal.view t.documents {} = t.load := by
  funext p
  rw [Journal.view, Cache.view, Cache.find?, List.lookup_nil, Option.getD_none]
  rfl

section Inputs

variable {expand : Expansion} {t : FileTree} {input : String} {paths : List Path}

/-- A pattern stands for its matches, where there are some and no error is among them. -/
theorem inputPath_eq_ok_iff :
    t.inputPath input expand = .ok paths ↔
      isPattern input = true ∧ paths ≠ [] ∧ expand t input = .ok (paths.map .ok) ∨
        isPattern input = false ∧ paths = [⟨input⟩] := by
  unfold inputPath
  cases hpattern : isPattern input with
  | false =>
      simp [eq_comm]
  | true =>
      simp only [if_true, Bool.true_eq_false, false_and, or_false, true_and]
      match hexpand : expand t input with
      | .error e =>
          simp
      | .ok [] =>
          refine iff_of_false (by simp) ?_
          rintro ⟨hne, h⟩
          exact hne (List.map_eq_nil_iff.1 (Except.ok.inj h).symm)
      | .ok (m :: ms) =>
          have hall : ((m :: ms).mapM id).mapError InputError.unlistable = .ok paths ↔
              m :: ms = paths.map .ok := by
            rw [← List.map_id (m :: ms), ← mapM_eq_ok_iff, List.map_id]
            cases (m :: ms).mapM id <;> simp [Except.mapError]
          simp only
          rw [hall]
          constructor
          · intro h
            refine ⟨?_, congrArg Except.ok h⟩
            rintro rfl
            cases h
          · rintro ⟨-, h⟩
            exact Except.ok.inj h

/-- An input stands for no paths where it is a pattern without matches or with an error. -/
theorem inputPath_eq_error_iff :
    (∃ e, t.inputPath input expand = .error e) ↔
      isPattern input = true ∧
        ((∃ e, expand t input = .error e) ∨ expand t input = .ok [] ∨
          ∃ found e, expand t input = .ok found ∧ .error e ∈ found) := by
  unfold inputPath
  cases hpattern : isPattern input with
  | false =>
      simp
  | true =>
      simp only [if_true, true_and]
      match hexpand : expand t input with
      | .error e =>
          simp
      | .ok [] =>
          simp
      | .ok (m :: ms) =>
          simp only
          cases hpaths : (m :: ms).mapM id with
          | ok paths =>
              refine iff_of_false (by simp [Except.mapError]) ?_
              rintro (⟨e, h⟩ | h | ⟨found, e, h, he⟩)
              · cases h
              · cases h
              · cases h
                obtain ⟨p, -, hp⟩ := (answers_of_mapM_eq_ok hpaths).1 _ he
                cases hp
          | error e =>
              obtain ⟨m', hm', he⟩ := exists_of_mapM_eq_error hpaths
              cases he
              exact iff_of_true ⟨.unlistable e, rfl⟩ (Or.inr (Or.inr ⟨_, e, rfl, hm'⟩))

/-- Either all inputs stand for paths, or one of them does not and so do none. -/
theorem inputPaths_ok_or_error (t : FileTree) (expand : Expansion) (inputs : List String) :
    (∃ paths, t.inputPaths inputs expand = .ok paths ∧
      (∀ input ∈ inputs, ∃ ps, t.inputPath input expand = .ok ps ∧ ps ⊆ paths) ∧
      ∀ p ∈ paths, ∃ input ∈ inputs, ∃ ps, t.inputPath input expand = .ok ps ∧ p ∈ ps) ∨
    ∃ input ∈ inputs, ∃ e, t.inputPath input expand = .error e ∧
      t.inputPaths inputs expand = .error e := by
  rw [inputPaths]
  rcases mapM_ok_or_error (fun input => t.inputPath input expand) inputs with
    ⟨pss, hpss, hthere, hback⟩ | ⟨input, hinput, e, he, hfault⟩
  · rw [hpss]
    refine Or.inl ⟨pss.flatten, rfl, ?_, ?_⟩
    · intro input hinput
      obtain ⟨ps, hps, hpath⟩ := hthere input hinput
      exact ⟨ps, hpath, fun p hp => List.mem_flatten.2 ⟨ps, hps, hp⟩⟩
    · intro p hp
      obtain ⟨ps, hps, hp⟩ := List.mem_flatten.1 hp
      obtain ⟨input, hinput, hpath⟩ := hback ps hps
      exact ⟨input, hinput, ps, hpath, hp⟩
  · rw [hfault]
    exact Or.inr ⟨input, hinput, e, he, rfl⟩

end Inputs

end FileTree

/-- A run that fails on its inputs: it prints nothing and leaves the file tree as it was. -/
structure Run.FailsOnInputs (t : FileTree) (r : Run) : Prop where
  result : ∃ e, r.result = .error e ∧ e.IsOfInputs
  output : r.output = ""
  tree : r.tree = t

namespace Command

/-- The document that a command loads for a path that an input stands for. -/
def load (t : FileTree) : Command → Path → Except LoadError Document
  | resolve _ _ _ _ _, p => t.load p.normalize
  | describe _ _, p => t.load p
  | languages, p => t.load p

/-- An input is of no use to a command. As a pattern it is malformed or matches nothing, or there is
an error or a path without a document among its matches; as a path it has no document itself. -/
inductive Unusable (expand : Expansion) (t : FileTree) (c : Command) (input : String) : Prop
  | noPattern {e : Glob.PatternError}
      (hpattern : FileTree.isPattern input = true)
      (hexpand : expand t input = .error e)
  | noMatch
      (hpattern : FileTree.isPattern input = true)
      (hexpand : expand t input = .ok [])
  | unlistable {found : List (Except ListingError Path)} {e : ListingError}
      (hpattern : FileTree.isPattern input = true)
      (hexpand : expand t input = .ok found)
      (he : .error e ∈ found)
  | unloadable {found : List (Except ListingError Path)} {p : Path} {e : LoadError}
      (hpattern : FileTree.isPattern input = true)
      (hexpand : expand t input = .ok found)
      (hp : .ok p ∈ found)
      (hload : c.load t p = .error e)
  | noDocument {e : LoadError}
      (hpath : FileTree.isPattern input = false)
      (hload : c.load t ⟨input⟩ = .error e)

section Cases

variable {expand : Expansion} {t : FileTree} {c : Command} {input : String}
  {inputs : List String} {paths : List Path}

/-- An input is of no use where it stands for no paths, or for one without a document. -/
theorem unusable_iff :
    c.Unusable expand t input ↔
      (∃ e, t.inputPath input expand = .error e) ∨
        ∃ paths, t.inputPath input expand = .ok paths ∧
          ∃ p ∈ paths, ∃ e, c.load t p = .error e := by
  constructor
  · rintro (⟨hpattern, h⟩ | ⟨hpattern, h⟩ | ⟨hpattern, h, he⟩ | ⟨hpattern, h, hp, hload⟩ |
      ⟨hplain, hload⟩)
    · exact Or.inl (FileTree.inputPath_eq_error_iff.2 ⟨hpattern, Or.inl ⟨_, h⟩⟩)
    · exact Or.inl (FileTree.inputPath_eq_error_iff.2 ⟨hpattern, Or.inr (Or.inl h)⟩)
    · exact Or.inl (FileTree.inputPath_eq_error_iff.2 ⟨hpattern, Or.inr (Or.inr ⟨_, _, h, he⟩)⟩)
    · -- Its other matches may have an error among them.
      cases hpath : t.inputPath input expand with
      | error e =>
          exact Or.inl ⟨e, rfl⟩
      | ok paths =>
          rcases FileTree.inputPath_eq_ok_iff.1 hpath with ⟨-, -, hall⟩ | ⟨hplain, -⟩
          · rw [h] at hall
            cases hall
            exact Or.inr ⟨paths, rfl, _, by simpa using hp, _, hload⟩
          · rw [hplain] at hpattern
            cases hpattern
    · have hpath : t.inputPath input expand = .ok [⟨input⟩] :=
        FileTree.inputPath_eq_ok_iff.2 (Or.inr ⟨hplain, rfl⟩)
      exact Or.inr ⟨_, hpath, _, List.mem_singleton_self _, _, hload⟩
  · rintro (herror | ⟨paths, hpath, p, hp, e, hload⟩)
    · obtain ⟨hpattern, ⟨e, h⟩ | h | ⟨found, e, h, he⟩⟩ := FileTree.inputPath_eq_error_iff.1 herror
      · exact .noPattern hpattern h
      · exact .noMatch hpattern h
      · exact .unlistable hpattern h he
    · rcases FileTree.inputPath_eq_ok_iff.1 hpath with ⟨hpattern, -, h⟩ | ⟨hplain, rfl⟩
      · exact .unloadable hpattern h (List.mem_map_of_mem hp) hload
      · rw [List.mem_singleton.1 hp] at hload
        exact .noDocument hplain hload

/-- A path without a document makes the input that stands for it unusable. -/
theorem exists_unusable {c : Command} {p : Path} {e : LoadError}
    (hback : ∀ p ∈ paths, ∃ input ∈ inputs, ∃ ps, t.inputPath input expand = .ok ps ∧ p ∈ ps)
    (hp : p ∈ paths)
    (he : c.load t p = .error e) :
    ∃ input ∈ inputs, c.Unusable expand t input := by
  obtain ⟨input, hinput, ps, hpath, hin⟩ := hback p hp
  exact ⟨input, hinput, unusable_iff.2 (Or.inr ⟨ps, hpath, p, hin, e, he⟩)⟩

/-- Paths with documents make the inputs that stand for them usable. -/
theorem not_unusable {c : Command} {input : String}
    (hthere : ∀ input ∈ inputs, ∃ ps, t.inputPath input expand = .ok ps ∧ ps ⊆ paths)
    (hload : ∀ p ∈ paths, ∃ d, c.load t p = .ok d)
    (hinput : input ∈ inputs) :
    ¬ c.Unusable expand t input := by
  obtain ⟨ps, hpath, hps⟩ := hthere input hinput
  rw [unusable_iff]
  rintro (⟨e, he⟩ | ⟨ps', hps', p, hp, e, he⟩)
  · rw [hpath] at he
    cases he
  · rw [hpath] at hps'
    cases hps'
    obtain ⟨d, hd⟩ := hload p (hps hp)
    rw [hd] at he
    cases he

/-- Where there are reports, they are put out. -/
theorem runResolve_of_reports
    {roots : List Path} {l : Language} {follow : Bool} {ms : List ModelReport}
    (hroots : t.inputPaths inputs expand = .ok roots)
    (hms : (reportModels t.documents roots l follow {}).1 = .ok ms)
    (color : Bool) (format : OutputFormat) (out : Option Path) :
    runResolve t color inputs l follow format out expand =
      deliver t out (reportText format (markFor color out) ms) (outcomeOf ms)
        (reportModels t.documents roots l follow {}).2.warnings := by
  rw [runResolve, hroots]
  simp only
  generalize reportModels t.documents roots l follow {} = r at hms ⊢
  obtain ⟨answer, j⟩ := r
  simp only at hms
  subst hms
  rfl

/-- Models whose roots can be loaded through the cache are reported. -/
theorem runResolve_of_loads
    {roots : List Path}
    (hroots : t.inputPaths inputs expand = .ok roots)
    (hload : ∀ p ∈ roots, ∃ d, Journal.view t.documents {} p.normalize = .ok d)
    (color : Bool) (l : Language) (follow : Bool) (format : OutputFormat) (out : Option Path) :
    ∃ ms ws,
      (reportModels t.documents roots l follow {}).1 = .ok ms ∧
      runResolve t color inputs l follow format out expand =
        deliver t out (reportText format (markFor color out) ms) (outcomeOf ms) ws := by
  have hpath : ∀ p d, Journal.view t.documents {} p = .ok d → d.path = p :=
    fun p d h => Cache.WellFormed.empty.path_of_view h
  obtain ⟨ds, i, k, hfound, -⟩ := exists_closure hpath rfl hload
  have hms : ∃ ms, (reportModels t.documents roots l follow {}).1 = .ok ms := by
    rw [reportModels, hfound]
    exact ⟨_, rfl⟩
  obtain ⟨ms, hms⟩ := hms
  exact ⟨ms, _, hms, runResolve_of_reports hroots hms color format out⟩

/-- Reporting models fails on the inputs, or puts out the reports of all that are found. -/
theorem runResolve_cases
    (expand : Expansion) (t : FileTree) (color : Bool) (inputs : List String) (l : Language)
    (follow : Bool) (format : OutputFormat) (out : Option Path) :
    ((∃ input ∈ inputs, (resolve inputs l follow format out).Unusable expand t input) ∧
      (runResolve t color inputs l follow format out expand).FailsOnInputs t) ∨
    (∀ input ∈ inputs, ¬ (resolve inputs l follow format out).Unusable expand t input) ∧
      ∃ roots ms ws, t.inputPaths inputs expand = .ok roots ∧
        (reportModels t.documents roots l follow {}).1 = .ok ms ∧
        runResolve t color inputs l follow format out expand =
          deliver t out (reportText format (markFor color out) ms) (outcomeOf ms) ws := by
  have hpath : ∀ p d, Journal.view t.documents {} p = .ok d → d.path = p :=
    fun p d h => Cache.WellFormed.empty.path_of_view h
  have hview : ∀ p, (resolve inputs l follow format out).load t p =
      Journal.view t.documents {} p.normalize := by
    intro p
    rw [load, FileTree.view_empty]
  rcases t.inputPaths_ok_or_error expand inputs with
    ⟨roots, hroots, hthere, hback⟩ | ⟨input, hinput, e, he, hfault⟩
  · rcases loads_or_first_fault (Journal.view t.documents {}) roots with
      hload | ⟨before, root, after, e, rfl, hbefore, hroot⟩
    · right
      refine ⟨fun input hinput => not_unusable hthere (fun p hp => ?_) hinput, ?_⟩
      · rw [hview]
        exact hload p hp
      obtain ⟨ms, ws, hms, hrun⟩ := runResolve_of_loads hroots hload color l follow format out
      exact ⟨roots, ms, ws, hroots, hms, hrun⟩
    · left
      have hfault : (reportModels t.documents (before ++ root :: after) l follow {}).1 = .error e :=
        reportModels_fst_error hpath rfl hbefore hroot
      refine ⟨exists_unusable hback (by simp) ((hview root).trans hroot), ?_⟩
      rw [runResolve, hroots]
      simp only
      generalize reportModels t.documents (before ++ root :: after) l follow {} = r at hfault ⊢
      obtain ⟨answer, j⟩ := r
      simp only at hfault
      subst hfault
      exact ⟨⟨_, rfl, trivial⟩, rfl, rfl⟩
  · rw [runResolve, hfault]
    exact Or.inl ⟨⟨input, hinput, unusable_iff.2 (Or.inl ⟨e, he⟩)⟩, ⟨_, rfl, trivial⟩, rfl, rfl⟩

/-- Describing models fails on the inputs, or puts out the descriptions of all. -/
theorem runDescribe_cases
    (expand : Expansion) (t : FileTree) (inputs : List String) (out : Option Path) :
    ((∃ input ∈ inputs, (describe inputs out).Unusable expand t input) ∧
      (runDescribe t inputs out expand).FailsOnInputs t) ∨
    (∀ input ∈ inputs, ¬ (describe inputs out).Unusable expand t input) ∧
      ∃ paths ds, t.inputPaths inputs expand = .ok paths ∧ paths.mapM t.load = .ok ds ∧
        runDescribe t inputs out expand =
          deliver t out (Json.array (ds.map Document.toJson)).pretty .clean [] := by
  rw [runDescribe]
  rcases t.inputPaths_ok_or_error expand inputs with
    ⟨paths, hpaths, hthere, hback⟩ | ⟨input, hinput, e, he, hfault⟩
  · rw [hpaths]
    simp only
    rcases mapM_ok_or_error t.load paths with ⟨ds, hds, hload, -⟩ | ⟨p, hp, e, he, hfault⟩
    · rw [hds]
      refine Or.inr ⟨fun input hinput => not_unusable hthere ?_ hinput, paths, ds, rfl, hds, rfl⟩
      intro p hp
      obtain ⟨d, -, hd⟩ := hload p hp
      exact ⟨d, hd⟩
    · rw [hfault]
      exact Or.inl ⟨exists_unusable hback hp he, ⟨_, rfl, trivial⟩, rfl, rfl⟩
  · rw [hfault]
    exact Or.inl ⟨⟨input, hinput, unusable_iff.2 (Or.inl ⟨e, he⟩)⟩, ⟨_, rfl, trivial⟩, rfl, rfl⟩

/-- A command fails on its inputs where one of them is of no use, and else puts something out. -/
theorem run_cases (expand : Expansion) (t : FileTree) (color : Bool) (c : Command) :
    ((∃ input ∈ c.inputs, c.Unusable expand t input) ∧ (c.run t color expand).FailsOnInputs t) ∨
    (∀ input ∈ c.inputs, ¬ c.Unusable expand t input) ∧
      ∃ contents o ws, c.run t color expand = deliver t c.out? contents o ws := by
  cases c with
  | resolve inputs l follow format out =>
      refine (runResolve_cases expand t color inputs l follow format out).imp_right ?_
      rintro ⟨husable, roots, ms, ws, -, -, hrun⟩
      exact ⟨husable, _, _, ws, hrun⟩
  | describe inputs out =>
      refine (runDescribe_cases expand t inputs out).imp_right ?_
      rintro ⟨husable, paths, ds, -, -, hrun⟩
      exact ⟨husable, _, _, _, hrun⟩
  | languages =>
      exact Or.inr ⟨fun input hinput => absurd hinput (by simp [inputs]), _, _, _, rfl⟩

end Cases
end Command

section Outcome

variable {ms : List ModelReport}

theorem isComplete_iff {m : ModelReport} :
    m.isComplete = true ↔ ∀ f ∈ m.fields, ∃ T, f.type = .ok T := by
  have hfield : ∀ f : FieldReport, f.isFailed = false ↔ ∃ T, f.type = .ok T := by
    intro f
    unfold FieldReport.isFailed
    cases f.type <;> simp
  simp [ModelReport.isComplete, ModelReport.failures, ← hfield]

/-- The outcome is clean where every field that is reported has a type. -/
theorem outcomeOf_eq_clean_iff :
    outcomeOf ms = .clean ↔ ∀ m ∈ ms, ∀ f ∈ m.fields, ∃ T, f.type = .ok T := by
  simp [outcomeOf, isComplete_iff]

theorem outcomeOf_eq_fieldErrors_iff :
    outcomeOf ms = .fieldErrors ↔ ∃ m ∈ ms, ∃ f ∈ m.fields, ∃ e, f.type = .error e := by
  have hnot : outcomeOf ms = .fieldErrors ↔ ¬ outcomeOf ms = .clean := by
    cases outcomeOf ms <;> simp
  have hfield : ∀ f : FieldReport, (¬ ∃ T, f.type = .ok T) ↔ ∃ e, f.type = .error e := by
    intro f
    cases f.type <;> simp
  rw [hnot, outcomeOf_eq_clean_iff]
  simp only [← hfield, not_forall, exists_prop]

end Outcome

/-- Reporting models that ends well puts out the reports, and ends as they say. -/
theorem Command.exists_reports_of_run
    {expand : Expansion} {t : FileTree} {color follow : Bool} {inputs : List String} {l : Language}
    {format : OutputFormat} {out : Option Path} {o : Outcome}
    (h : ((Command.resolve inputs l follow format out).run t color expand).result = .ok o) :
    ∃ roots ms ws, t.inputPaths inputs expand = .ok roots ∧
      (reportModels t.documents roots l follow {}).1 = .ok ms ∧
      (Command.resolve inputs l follow format out).run t color expand =
        deliver t out (reportText format (markFor color out) ms) (outcomeOf ms) ws ∧
      o = outcomeOf ms := by
  rcases Command.runResolve_cases expand t color inputs l follow format out with
    ⟨-, hfails⟩ | ⟨-, roots, ms, ws, hroots, hms, hrun⟩
  · obtain ⟨e, he, -⟩ := hfails.result
    rw [Command.run, he] at h
    cases h
  · refine ⟨roots, ms, ws, hroots, hms, hrun, ?_⟩
    rw [Command.run, hrun] at h
    exact outcome_deliver h

/-- What a command leaves behind, however patterns are expanded. It fails on its inputs exactly
where one of them is of no use, wherever this stands among the others; then it prints nothing and
the file tree stays as it is. A command that does its work and prints its output leaves the file
tree as it is as well. With an output file it prints nothing and writes the file: no other file is
changed, and a new directory is one that the path of the output file, as it is written, goes
through. Reporting models then puts out the reports, and ends in field errors exactly where a field
of them has an error. How it ends does not depend on the format, the output file or the colors. -/
theorem Command.run_leaves
    (expand : Expansion)
    (t : FileTree)
    (color : Bool)
    (c : Command) :
    ((∃ input ∈ c.inputs, c.Unusable expand t input) ↔
      ∃ e, (c.run t color expand).result = .error e ∧ e.IsOfInputs) ∧
    ((∃ input ∈ c.inputs, c.Unusable expand t input) →
      (c.run t color expand).output = "" ∧ (c.run t color expand).tree = t) ∧
    (∀ o, (c.run t color expand).result = .ok o → c.out? = none → (c.run t color expand).tree = t) ∧
    (∀ o file, (c.run t color expand).result = .ok o → c.out? = some file →
      (c.run t color expand).output = "" ∧
        ∃ contents, t.Wrote file contents (c.run t color expand).tree) ∧
    ∀ inputs l follow format out o,
      c = .resolve inputs l follow format out →
      (c.run t color expand).result = .ok o →
      ∃ roots ms,
        t.inputPaths inputs expand = .ok roots ∧
        (reportModels t.documents roots l follow {}).1 = .ok ms ∧
        (c.run t color expand).delivered out =
          .ok (if out.isSome then reportText format (markFor color out) ms
            else withNewline (reportText format (markFor color out) ms)) ∧
        (o = .fieldErrors ↔ ∃ m ∈ ms, ∃ f ∈ m.fields, ∃ e, f.type = .error e) ∧
        (o = .clean ↔ ∀ m ∈ ms, ∀ f ∈ m.fields, ∃ T, f.type = .ok T) ∧
        ∀ color' format' out' o',
          ((Command.resolve inputs l follow format' out').run t color' expand).result = .ok o' →
          o' = o := by
  refine ⟨?_, ?_, ?_, ?_, ?_⟩
  · rcases c.run_cases expand t color with ⟨hunusable, hfails⟩ | ⟨husable, contents, o, ws, hrun⟩
    · exact iff_of_true hunusable hfails.result
    · refine iff_of_false (fun ⟨input, hinput, h⟩ => husable input hinput h) ?_
      rintro ⟨e, he, hinputs⟩
      rw [hrun] at he
      exact not_isOfInputs_of_deliver he hinputs
  · rintro ⟨input, hinput, h⟩
    rcases c.run_cases expand t color with ⟨-, hfails⟩ | ⟨husable, -⟩
    · exact ⟨hfails.output, hfails.tree⟩
    · exact absurd h (husable input hinput)
  · intro o hresult hout
    rcases c.run_cases expand t color with ⟨-, hfails⟩ | ⟨-, contents, o', ws, hrun⟩
    · exact hfails.tree
    · rw [hrun, hout]
      rfl
  · intro o file hresult hout
    rcases c.run_cases expand t color with ⟨-, hfails⟩ | ⟨-, contents, o', ws, hrun⟩
    · obtain ⟨e, he, -⟩ := hfails.result
      rw [he] at hresult
      cases hresult
    · rw [hrun, hout] at hresult ⊢
      obtain ⟨-, houtput, hwrote⟩ := deliver_some hresult
      exact ⟨houtput, contents, hwrote⟩
  · rintro inputs l follow format out o rfl hresult
    obtain ⟨roots, ms, ws, hroots, hms, hrun, rfl⟩ := Command.exists_reports_of_run hresult
    refine ⟨roots, ms, hroots, hms, ?_, outcomeOf_eq_fieldErrors_iff, outcomeOf_eq_clean_iff, ?_⟩
    · rw [hrun] at hresult ⊢
      exact delivered_deliver hresult
    · intro color' format' out' o' h
      obtain ⟨roots', ms', -, hroots', hms', -, rfl⟩ := Command.exists_reports_of_run h
      rw [hroots] at hroots'
      cases hroots'
      rw [hms] at hms'
      cases hms'
      rfl

theorem Command.run_leaves_mutualModels :
    ((Command.resolve ["a.json", "c.json"] .swift true .json (some ⟨"out/r.json"⟩)).run
        mutualModels false).tree = mutualModels ∧
    ((Command.describe ["[ab].json", "\x7bc\x7d.json"] (some ⟨"out/d.json"⟩)).run
        mutualModels false).tree = mutualModels ∧
    ∃ contents, mutualModels.Wrote ⟨"new/../out/r.txt"⟩ contents
      ((Command.resolve ["a.json"] .swift true .text (some ⟨"new/../out/r.txt"⟩)).run
        mutualModels false).tree := by
  have hload : (Command.resolve ["a.json", "c.json"] .swift true .json
      (some ⟨"out/r.json"⟩)).load mutualModels ⟨"c.json"⟩ =
        .error (.unreadable ⟨"c.json"⟩ .notFound) := by
    decide +kernel
  have hexpand : FileTree.expandPattern mutualModels "\x7bc\x7d.json" = .ok [] := by
    decide +kernel
  have hclean : ((Command.resolve ["a.json"] .swift true .text
      (some ⟨"new/../out/r.txt"⟩)).run mutualModels false).result = .ok .clean := by
    decide +kernel
  refine ⟨?_, ?_, ?_⟩
  · obtain ⟨-, htraceless, -⟩ := Command.run_leaves FileTree.expandPattern mutualModels false
      (.resolve ["a.json", "c.json"] .swift true .json (some ⟨"out/r.json"⟩))
    exact (htraceless ⟨"c.json", by simp [Command.inputs], .noDocument (by decide) hload⟩).2
  · obtain ⟨-, htraceless, -⟩ := Command.run_leaves FileTree.expandPattern mutualModels false
      (.describe ["[ab].json", "\x7bc\x7d.json"] (some ⟨"out/d.json"⟩))
    exact (htraceless ⟨"\x7bc\x7d.json", by simp [Command.inputs],
      .noMatch (by decide) hexpand⟩).2
  · obtain ⟨-, -, -, hwrote, -⟩ := Command.run_leaves FileTree.expandPattern mutualModels false
      (.resolve ["a.json"] .swift true .text (some ⟨"new/../out/r.txt"⟩))
    exact (hwrote .clean _ hclean rfl).2

end FieldTypes
