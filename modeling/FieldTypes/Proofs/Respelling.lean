import FieldTypes.CommandLine.Run
import FieldTypes.Proofs.Faults
import FieldTypes.Proofs.ModelClosure
import FieldTypes.Proofs.Reaching

/-!
# Languages differ in spelling alone

The target language has a part in one place only: where the type of a property is spelled. What
documents are found, which fields have a type and why others have none, and what is loaded and
warned of on the way is the same in every language. So is the end of a command that reports models:
it depends on whether all fields have a type, and what goes into a file does not decide whether it
can be written.

**Results.**
* `resolveType_error_iff`, `resolveType_snd_eq`: the failures of a property and its journal.
* `Document.report_respells`: the reports of a document in two languages.
* `deliver_result_eq`: the end of putting contents out.
* `reportModels_respells`: the reports of models in two languages, and the end of the command.
-/

namespace FieldTypes

/-- Whether two reports of a field are the same up to the spelling of its type. -/
structure FieldReport.Respells (f g : FieldReport) : Prop where
  name : f.name = g.name
  wireKey : f.wireKey = g.wireKey
  isOptional : f.isOptional = g.isOptional
  isMutable : f.isMutable = g.isMutable
  description : f.description = g.description
  error : ∀ e, f.type = .error e ↔ g.type = .error e

/-- Whether two reports of a document are the same up to the spelling of types. The type of a
property that is a reference has one spelling. -/
structure ModelReport.Respells (d : Document) (m n : ModelReport) : Prop where
  title : m.title = n.title
  typeName : m.typeName = n.typeName
  path : m.path = n.path
  length : m.fields.length = d.properties.length ∧ n.fields.length = d.properties.length
  fields : ∀ (i : Nat) (p : Property) (f g : FieldReport),
    d.properties[i]? = some p → m.fields[i]? = some f → n.fields[i]? = some g →
    f.Respells g ∧ (p.reference ≠ none → f.type = g.type)

section Fields

variable {s : Source} {document : Path} {p : Property} {e : TypeError} (a b : Language)
  (j : Journal)

/-- A property fails alike in every language: what it lacks is lacking in all of them. -/
theorem resolveType_error_iff :
    (resolveType s a document p j).1 = .error e ↔ (resolveType s b document p j).1 = .error e :=
  resolveType_eq_error_iff.trans resolveType_eq_error_iff.symm

/-- What resolving a property loads and warns of is the same in every language. -/
theorem resolveType_snd_eq :
    (resolveType s a document p j).2 = (resolveType s b document p j).2 := by
  rw [resolveType_eq, resolveType_eq, resolveLeaf, resolveLeaf]
  cases p.leaf.reference <;> rfl

theorem resolveType_of_reference {r : String} (h : p.reference = some r) :
    resolveType s a document p j = resolveReference s r document j := by
  have hinner : p.inner? = none := by
    simp [Property.inner?, h]
  rw [resolveType_of_inner?_eq_none hinner, resolveLeaf, h]

theorem Property.report_respells :
    (p.report s a document j).1.Respells (p.report s b document j).1 := by
  show (FieldReport.ofProperty p (resolveType s a document p j).1).Respells
    (FieldReport.ofProperty p (resolveType s b document p j).1)
  exact ⟨rfl, rfl, rfl, rfl, rfl, fun _ => resolveType_error_iff a b j⟩

end Fields

/-- A field fails in two reports of it that differ in spelling, or in neither. -/
theorem FieldReport.Respells.isFailed_eq {f g : FieldReport} (h : f.Respells g) :
    f.isFailed = g.isFailed := by
  unfold isFailed
  cases hf : f.type with
  | error e =>
      rw [(h.error e).1 hf]
  | ok T =>
      cases hg : g.type with
      | error e =>
          rw [(h.error e).2 hg] at hf
          cases hf
      | ok U =>
          rfl

section Reports

variable {s : Source} {α β : Type} (a b : Language)

/-- Computations that leave the same journals one by one do so one after the other. -/
theorem Resolving.each_snd_eq {f g : α → Resolving β}
    (h : ∀ x j, (f x j).2 = (g x j).2) (xs : List α) (j : Journal) :
    (each f xs j).2 = (each g xs j).2 := by
  induction xs generalizing j with
  | nil =>
      rfl
  | cons x xs ih =>
      show (each f xs (f x j).2).2 = (each g xs (g x j).2).2
      rw [h x j, ih]

theorem Document.report_snd_eq (d : Document) (j : Journal) :
    (d.report s a j).2 = (d.report s b j).2 := by
  have hproperty : ∀ (p : Property) (j : Journal),
      (p.report s a d.path j).2 = (p.report s b d.path j).2 :=
    fun p j => resolveType_snd_eq a b j
  exact Resolving.each_snd_eq hproperty d.properties j

theorem Document.report_respells (d : Document) (j : Journal) :
    ModelReport.Respells d (d.report s a j).1 (d.report s b j).1 := by
  rw [Document.report_fst (k := j) rfl, Document.report_fst (k := j) rfl]
  refine ⟨rfl, rfl, rfl, ⟨List.length_map _, List.length_map _⟩, ?_⟩
  intro i p f g hp hf hg
  simp only [List.getElem?_map, hp, Option.map_some, Option.some.injEq] at hf hg
  subst hf hg
  refine ⟨Property.report_respells a b j, ?_⟩
  intro hreference
  obtain ⟨r, hr⟩ := Option.ne_none_iff_exists'.1 hreference
  show (resolveType s a d.path p j).1 = (resolveType s b d.path p j).1
  rw [resolveType_of_reference a j hr, resolveType_of_reference b j hr]

theorem Document.isComplete_report_eq (d : Document) (j : Journal) :
    (d.report s a j).1.isComplete = (d.report s b j).1.isComplete := by
  have hfailed : ∀ p : Property,
      (p.report s a d.path j).1.isFailed = (p.report s b d.path j).1.isFailed :=
    fun p => (Property.report_respells a b j).isFailed_eq
  rw [Document.report_fst (k := j) rfl, Document.report_fst (k := j) rfl, Bool.eq_iff_iff]
  simp [ModelReport.isComplete, ModelReport.failures, hfailed]

/-- What reporting models loads and warns of is the same in every language. -/
theorem reportModels_snd_eq (roots : List Path) (follow : Bool) (j : Journal) :
    (reportModels s roots a follow j).2 = (reportModels s roots b follow j).2 := by
  rw [reportModels_snd, reportModels_snd]
  generalize findModels s roots follow j = r
  obtain ⟨e | ds, k⟩ := r
  · rfl
  · exact Resolving.each_snd_eq (fun d j => d.report_snd_eq a b j) ds k

end Reports

section Command

/-- Whether a file can be written does not depend on what is written. -/
theorem FileTree.write_map_eq (t : FileTree) (p : Path) (x y : ByteArray) :
    (t.write p x).map (fun _ => ()) = (t.write p y).map fun _ => () := by
  unfold write
  cases vet p with
  | error e =>
      rfl
  | ok u =>
      simp only [bind, Except.bind]
      cases t.parentPlace p (entryOf p) with
      | error e =>
          rfl
      | ok place =>
          simp only
          cases (entryOf p).last with
          | none =>
              rfl
          | some segment =>
              simp only
              split_ifs with hdots hlong
              · rfl
              · rfl
              · cases t.nodeAt (place ++ [String.ofList segment]) with
                | none =>
                    rfl
                | some n =>
                    cases n <;> rfl

variable (t : FileTree) (contents contents' : String) (outcome : Outcome)
  (warnings warnings' : List Warning)

theorem deliver_writeTo_result_eq (file : Path) :
    (deliver.writeTo contents outcome warnings t file).result =
      (deliver.writeTo contents' outcome warnings' t file).result := by
  have hmap := t.write_map_eq file contents.toUTF8 contents'.toUTF8
  unfold deliver.writeTo
  cases hx : t.write file contents.toUTF8 <;> cases hy : t.write file contents'.toUTF8 <;>
    simp_all [Except.map]

/-- How putting contents out ends does not depend on the contents. -/
theorem deliver_result_eq (out : Option Path) :
    (deliver t out contents outcome warnings).result =
      (deliver t out contents' outcome warnings').result := by
  unfold deliver
  cases out with
  | none =>
      rfl
  | some file =>
      cases hparent : file.parent? with
      | none =>
          simp only [hparent]
          exact deliver_writeTo_result_eq t contents contents' outcome warnings warnings' file
      | some directory =>
          simp only [hparent]
          generalize t.makeDirectories directory = r
          obtain ⟨e | u, t'⟩ := r
          · rfl
          · exact deliver_writeTo_result_eq t' contents contents' outcome warnings warnings' file

/-- A command that reports models ends alike in every language. -/
theorem Command.runResolve_result_eq
    (color : Bool) (inputs : List String) (a b : Language) (follow : Bool) (format : OutputFormat)
    (out : Option Path) :
    (runResolve t color inputs a follow format out).result =
      (runResolve t color inputs b follow format out).result := by
  unfold runResolve
  cases t.inputPaths inputs with
  | error e =>
      rfl
  | ok roots =>
      have ha := reportModels_fst t.documents roots follow a {}
      have hb := reportModels_fst t.documents roots follow b {}
      simp only
      generalize reportModels t.documents roots a follow {} = ra at ha ⊢
      generalize reportModels t.documents roots b follow {} = rb at hb ⊢
      obtain ⟨ra, ka⟩ := ra
      obtain ⟨rb, kb⟩ := rb
      cases hfound : (findModels t.documents roots follow {}).1 with
      | error e =>
          rw [hfound] at ha hb
          subst ha hb
          rfl
      | ok ds =>
          rw [hfound] at ha hb
          subst ha hb
          have hcomplete : outcomeOf (ds.map fun d => (d.report t.documents a {}).1) =
              outcomeOf (ds.map fun d => (d.report t.documents b {}).1) := by
            simp only [outcomeOf, List.all_map, Function.comp_def]
            simp only [Document.isComplete_report_eq a b]
          simp only [Except.map, hcomplete]
          exact deliver_result_eq t _ _ _ _ _ out

end Command

/-- In two languages models are reported alike up to the spelling of types. A root that does not
load is the same failure in both. Otherwise the same documents are reported in the same order, each
with the same fields, of which the same ones fail for the same reasons; a field that is a reference
has one type. What is loaded and warned of is the same, and so is the end of the command. -/
theorem reportModels_respells
    (t : FileTree)
    (j : Journal)
    (roots : List Path)
    (follow : Bool)
    (a b : Language) :
    (∀ e, (reportModels t.documents roots a follow j).1 = .error e ↔
      (reportModels t.documents roots b follow j).1 = .error e) ∧
    (∀ ms, (reportModels t.documents roots a follow j).1 = .ok ms →
      ∃ (ds : List Document) (ns : List ModelReport),
        (reportModels t.documents roots b follow j).1 = .ok ns ∧
        ms = ds.map (fun d => (d.report t.documents a j).1) ∧
        ns = ds.map (fun d => (d.report t.documents b j).1) ∧
        ∀ d ∈ ds,
          ModelReport.Respells d (d.report t.documents a j).1 (d.report t.documents b j).1) ∧
    (reportModels t.documents roots a follow j).2 =
      (reportModels t.documents roots b follow j).2 ∧
    ∀ (color : Bool) (inputs : List String) (format : OutputFormat) (out : Option Path),
      (Command.run t color (.resolve inputs a follow format out)).result =
        (Command.run t color (.resolve inputs b follow format out)).result := by
  refine ⟨?_, ?_, reportModels_snd_eq a b roots follow j, ?_⟩
  · intro e
    rw [reportModels_fst, reportModels_fst]
    cases (findModels t.documents roots follow j).1 <;> simp [Except.map]
  · intro ms h
    rw [reportModels_fst] at h ⊢
    cases hfound : (findModels t.documents roots follow j).1 with
    | error e =>
        rw [hfound] at h
        cases h
    | ok ds =>
        rw [hfound] at h
        cases h
        exact ⟨ds, _, rfl, rfl, rfl, fun d _ => d.report_respells a b j⟩
  · intro color inputs format out
    exact Command.runResolve_result_eq t color inputs a b follow format out

theorem reportModels_respells_mutualModels :
    (reportModels mutualModels.documents [⟨"a.json"⟩, ⟨"c.json"⟩] .rust true {}).1 =
      .error (.unreadable ⟨"c.json"⟩ .notFound) ∧
    ∃ ms ns,
      (reportModels mutualModels.documents [⟨"a.json"⟩] .swift true {}).1 = .ok ms ∧
      (reportModels mutualModels.documents [⟨"a.json"⟩] .objc true {}).1 = .ok ns ∧
      ms.map (·.path) = [⟨"a.json"⟩, ⟨"b.json"⟩] ∧
      ns.map (·.path) = [⟨"a.json"⟩, ⟨"b.json"⟩] := by
  have hpath : ∀ p d, Journal.view mutualModels.documents {} p = .ok d → d.path = p :=
    fun p d h => Cache.WellFormed.empty.path_of_view h
  have hload : ∃ d, Journal.view mutualModels.documents {} (Path.mk "a.json").normalize = .ok d :=
    exists_of_isOk (by decide +kernel)
  have hfault : Journal.view mutualModels.documents {} (Path.mk "c.json").normalize =
      .error (.unreadable ⟨"c.json"⟩ .notFound) := by
    decide +kernel
  have hmissing : (reportModels mutualModels.documents [⟨"a.json"⟩, ⟨"c.json"⟩] .swift true {}).1 =
      .error (.unreadable ⟨"c.json"⟩ .notFound) :=
    @reportModels_fst_error mutualModels.documents {} _ .swift [⟨"a.json"⟩] [] _ _ true hpath rfl
      (by simpa using hload) hfault
  have hpaths : ((reportModels mutualModels.documents [⟨"a.json"⟩] .swift true
      {}).1.toOption.map fun ms => ms.map (·.path)) = some [⟨"a.json"⟩, ⟨"b.json"⟩] := by
    decide +kernel
  refine ⟨((reportModels_respells mutualModels {} _ true .swift .rust).1 _).1 hmissing, ?_⟩
  cases h : (reportModels mutualModels.documents [⟨"a.json"⟩] .swift true {}).1 with
  | error e =>
      rw [h] at hpaths
      cases hpaths
  | ok ms =>
      rw [h] at hpaths
      have hms : ms.map (·.path) = [⟨"a.json"⟩, ⟨"b.json"⟩] := Option.some.inj hpaths
      obtain ⟨ds, ns, hns, rfl, rfl, -⟩ :=
        (reportModels_respells mutualModels {} [⟨"a.json"⟩] true .swift .objc).2.1 ms h
      refine ⟨_, _, rfl, hns, hms, ?_⟩
      rw [← hms, List.map_map, List.map_map]
      rfl

end FieldTypes
