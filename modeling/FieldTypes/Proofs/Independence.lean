import FieldTypes.Proofs.Emission
import FieldTypes.Proofs.Interleaving

/-!
# Calls do not see each other

Each call of a resolver is one strand or, for the report of a model, one strand for each field. Run
without interruption a strand does what the call does. What it comes to is read off the journal's
view, and that is the same whatever was asked before and whatever runs beside it: it answers as the
files do. So each call is answered as it is by a resolver that nothing else is asked of.

The program bounds its walks by what is kept already and by what the source has; a strand is bounded
by the source alone, since the journal it will meet is not known. Neither bound is ever reached.

**Results.**
* `run_followStrand`, `run_referenceStrand`, `run_typeStrand`: strands do what the program does.
* `Call.each_answer_fst`, `Call.collect_of_runs`: calls one after the other, and calls at once.
* `answers_of_reaches`: the answers to calls, and the fields of a report.
-/

namespace FieldTypes

/-- Following aliases, as a strand. -/
def followStrand : (n : Nat) → (visited : List Path) → (target : Path) →
    Strand (Except ReferenceError String)
  | 0, _, target => .done (.error (.cyclic target))
  | n + 1, visited, target =>
    if target ∈ visited then .done (.error (.cyclic target))
    else .load target fun
      | .error e => .done (.error (.unloadable e))
      | .ok d =>
        match d.title, d.reference with
        | some _, _ => .done (.ok d.typeName)
        | none, none => .done (.ok "")
        | none, some next => followStrand n (target :: visited) (d.path.locate next)

/-- Resolving a reference, as a strand. -/
def referenceStrand (s : Source) (reference : String) (document : Path) :
    Strand (Except TypeError String) :=
  (followStrand (s.capacity + 1) [] (document.locate reference)).bind fun
    | .ok name => .done (.ok name)
    | .error (.cyclic path) => .done (.error (.cyclicReference path))
    | .error (.unloadable error) =>
      .warn (.unloadedReference reference document error) (.done (.ok ""))

/-- Resolving the type of a property, as a strand. -/
def typeStrand (s : Source) (l : Language) (document : Path) (p : Property) :
    Strand (Except TypeError String) :=
  (match p.leaf.reference with
    | some r => referenceStrand s r document
    | none => .done (p.leaf.ownType l)).bind fun r => .done (r.map (l.wrapAll p.containers))

section Strands

variable {s : Source} {j : Journal}

theorem run_followStrand (n : Nat) (visited : List Path) (target : Path) (j : Journal) :
    (followStrand n visited target).run s j = followAliases s n visited target j := by
  induction n generalizing visited target j with
  | zero =>
      rfl
  | succ n ih =>
      rw [followStrand, followAliases]
      split_ifs with hvisited
      · rfl
      · rw [Strand.run]
        generalize Resolving.load s target j = a
        obtain ⟨e | d, k⟩ := a
        · rfl
        · simp only
          cases d.title with
          | some t =>
              rfl
          | none =>
              cases d.reference with
              | none =>
                  rfl
              | some next =>
                  exact ih _ _ k

/-- A fresh journal has at most as many documents as the source. -/
theorem loadsAtMost_of_view (hview : j.view s = Journal.view s {}) :
    LoadsAtMost (j.view s) s.capacity := by
  rw [hview]
  exact (Journal.loadsAtMost s {}).mono (by simp [Cache.size])

/-- A strand may take its bound from another source, as long as there is no more to load than that
has room for. -/
theorem run_referenceStrand {b : Source}
    (hbound : LoadsAtMost (j.view s) b.capacity)
    (reference : String) (document : Path) :
    (referenceStrand b reference document).run s j = resolveReference s reference document j := by
  -- The strand's bound and the program's are both beyond what there is to load.
  have hboth : LoadsAtMost (j.view s) (min b.capacity (j.cache.size + s.capacity)) :=
    fun ps hnodup hloads =>
      Nat.le_min.2 ⟨hbound ps hnodup hloads, j.loadsAtMost s ps hnodup hloads⟩
  have hfollow : followAliases s (b.capacity + 1) [] (document.locate reference) j =
      followReference s reference document j :=
    followAliases_eq hboth _ _ j rfl (Path.normalize_locate _ _)
      List.nodup_nil (by simp) (by rw [List.length_nil]; omega) (by rw [List.length_nil]; omega)
  rw [referenceStrand, Strand.run_bind, run_followStrand, hfollow, resolveReference]
  generalize followReference s reference document j = r
  obtain ⟨(path | error) | name, k⟩ := r <;> rfl

theorem run_typeStrand {b : Source}
    (hbound : LoadsAtMost (j.view s) b.capacity)
    (l : Language) (document : Path) (p : Property) :
    (typeStrand b l document p).run s j = resolveType s l document p j := by
  rw [typeStrand, Strand.run_bind, resolveType_eq, resolveLeaf]
  cases p.leaf.reference with
  | some r =>
      simp only [run_referenceStrand hbound]
      rfl
  | none =>
      rfl

end Strands

/-- What is asked of a resolver, and answered. -/
inductive Call where
  | resolveType (l : Language) (document : Path) (p : Property)
  | resolveReference (reference : String) (document : Path)
  | report (l : Language) (d : Document)

/-- What a call is answered with. -/
inductive Answer where
  | type (r : Except TypeError String)
  | report (m : ModelReport)

namespace Call

/-- The answer to a call. -/
def answer (s : Source) : Call → Resolving Answer
  | resolveType l document p, j =>
    match FieldTypes.resolveType s l document p j with
    | (r, j) => (.type r, j)
  | resolveReference reference document, j =>
    match FieldTypes.resolveReference s reference document j with
    | (r, j) => (.type r, j)
  | report l d, j =>
    match d.report s l j with
    | (m, j) => (.report m, j)

/-- The strands of a call. A report has one for each field, and they run at once. -/
def strands (s : Source) : Call → List (Strand (Except TypeError String))
  | resolveType l document p => [typeStrand s l document p]
  | resolveReference reference document => [referenceStrand s reference document]
  | report l d => d.properties.map (typeStrand s l d.path)

/-- The answers to calls, given what their strands come to. Fields stand in the order of the
properties. -/
def collect : List Call → List (Except TypeError String) → List Answer
  | [], _ => []
  | resolveType _ _ _ :: cs, r :: rs => .type r :: collect cs rs
  | resolveReference _ _ :: cs, r :: rs => .type r :: collect cs rs
  | report l d :: cs, rs =>
    .report {
      title := d.title
      typeName := d.typeName
      path := d.path
      language := l
      fields := d.properties.zipWith FieldReport.ofProperty rs } ::
        collect cs (rs.drop d.properties.length)
  | _ :: _, [] => []

section Calls

variable {s : Source} {j k : Journal}

theorem answer_reaches (c : Call) (j : Journal) :
    j.Reaches s (c.answer s j).2 := by
  cases c with
  | resolveType l document p =>
      exact resolveType_reaches p j
  | resolveReference reference document =>
      exact resolveReference_reaches j
  | report l d =>
      exact Document.report_reaches d j

theorem answer_fst_eq (c : Call) (h : j.view s = k.view s) :
    (c.answer s j).1 = (c.answer s k).1 := by
  cases c with
  | resolveType l document p =>
      exact congrArg Answer.type (resolveType_fst_eq h)
  | resolveReference reference document =>
      exact congrArg Answer.type (resolveReference_fst_eq h)
  | report l d =>
      exact congrArg Answer.report (Document.report_fst_eq h)

/-- What a strand of a fresh resolver comes to is what the call is answered with. -/
theorem value_typeStrand (l : Language) (document : Path) (p : Property) :
    (typeStrand s l document p).value (Journal.view s {}) =
      (FieldTypes.resolveType s l document p {}).1 := by
  rw [← run_typeStrand (loadsAtMost_of_view rfl), Strand.run_fst _ rfl]

theorem value_referenceStrand (reference : String) (document : Path) :
    (referenceStrand s reference document).value (Journal.view s {}) =
      (FieldTypes.resolveReference s reference document {}).1 := by
  rw [← run_referenceStrand (loadsAtMost_of_view rfl), Strand.run_fst _ rfl]

theorem zipWith_map_append {α β γ : Type} (f : α → β → γ) (g : α → β) (as : List α)
    (bs : List β) :
    as.zipWith f (as.map g ++ bs) = as.map fun a => f a (g a) := by
  induction as with
  | nil =>
      rfl
  | cons a as ih =>
      rw [List.map_cons, List.cons_append, List.zipWith_cons_cons, ih, List.map_cons]

/-- What the strands of calls come to makes the answers that each call has alone. -/
theorem collect_values (cs : List Call) :
    collect cs ((cs.flatMap (strands s)).map (Strand.value (Journal.view s {}))) =
      cs.map fun c => (c.answer s {}).1 := by
  induction cs with
  | nil =>
      rfl
  | cons c cs ih =>
      rw [List.flatMap_cons, List.map_append, List.map_cons, ← ih]
      cases c with
      | resolveType l document p =>
          simp only [strands, List.map_cons, List.map_nil, List.singleton_append, collect,
            value_typeStrand, answer]
      | resolveReference reference document =>
          simp only [strands, List.map_cons, List.map_nil, List.singleton_append, collect,
            value_referenceStrand, answer]
      | report l d =>
          simp only [strands, List.map_map, collect, answer, zipWith_map_append, Function.comp_def,
            value_typeStrand]
          rw [List.drop_left' (List.length_map _), Document.report_fst (k := {}) rfl]
          rfl

/-- The strands of calls, all at once. -/
def pool (s : Source) (cs : List Call) (j : Journal) : Pool (Except TypeError String) where
  strands := cs.flatMap (strands s)
  journal := j

/-- Calls that are made one after the other are answered as each is alone. -/
theorem each_answer_fst (cs : List Call) (h : j.view s = Journal.view s {}) :
    (Resolving.each (answer s) cs j).1 = cs.map fun c => (c.answer s {}).1 :=
  Resolving.each_fst_eq answer_reaches (fun c _ _ => c.answer_fst_eq) cs h

/-- Calls that are made at once, and are all done, are answered as each is alone. -/
theorem collect_of_runs {cs : List Call} {n : Nat} {x : Pool (Except TypeError String)}
    {rs : List (Except TypeError String)}
    (h : j.view s = Journal.view s {})
    (hruns : Pool.Runs s (pool s cs j) n x)
    (hdone : x.Done rs) :
    collect cs rs = cs.map fun c => (c.answer s {}).1 := by
  rw [← hdone.values_eq, hruns.values_eq h]
  exact collect_values cs

end Calls

end Call

/-- The JSON of a field has a type or an error, and never both. -/
theorem FieldReport.type_or_error (f : FieldReport) :
    (∃ T, f.type = .ok T ∧ f.toJson.member? "type" = some (.string T) ∧
      f.toJson.member? "error" = none) ∨
    ∃ e, f.type = .error e ∧ f.toJson.member? "type" = some .null ∧
      f.toJson.member? "error" = some (.string e.message) := by
  obtain ⟨_, _, _, _, description, type⟩ := f
  cases type with
  | ok T =>
      refine Or.inl ⟨T, rfl, ?_⟩
      cases description <;> exact ⟨rfl, rfl⟩
  | error e =>
      refine Or.inr ⟨e, rfl, ?_⟩
      cases description <;> exact ⟨rfl, rfl⟩

namespace Operation

theorem foldl_perform_reaches (s : Source) (os : List Operation) (j : Journal) :
    j.Reaches s (os.foldl (perform s) j) := by
  induction os generalizing j with
  | nil =>
      exact .refl
  | cons o os ih =>
      exact (o.perform_reaches s j).trans (ih (o.perform s j))

end Operation

/-- Whatever a resolver was asked before, in whole or in part, each call is answered as it is alone
by a fresh resolver: where calls are made one after the other, in any order, and where they are made
at once, with the fields of a report at once as well, in every order of the single loadings. However
they run they come to their end. So a report has one field for each property, in their order, which
depends on that property, the path, the language and the files; it has a type or an error. -/
theorem answers_of_reaches (t : FileTree) :
    (∀ earlier : List Operation,
      Journal.Reaches t.documents {} (earlier.foldl (Operation.perform t.documents) {})) ∧
    ∀ j : Journal, Journal.Reaches t.documents {} j →
      (∀ calls : List Call,
        (Resolving.each (Call.answer t.documents) calls j).1 =
          calls.map fun c => (c.answer t.documents {}).1) ∧
      (∀ calls : List Call, ∃ total, ∀ n x,
        Pool.Runs t.documents (Call.pool t.documents calls j) n x →
          n ≤ total ∧
          ((∃ rs, x.Done rs) ∨ ∃ y, Pool.Step t.documents x y) ∧
          ∀ rs, x.Done rs →
            n = total ∧ Call.collect calls rs = calls.map fun c => (c.answer t.documents {}).1) ∧
      (∀ (l : Language) (d : Document),
        (d.report t.documents l j).1.fields =
          d.properties.map fun p => .ofProperty p (resolveType t.documents l d.path p {}).1) ∧
      (∀ (l : Language) (d e : Document) (k : Journal) (i : Nat),
        Journal.Reaches t.documents {} k →
        e.path = d.path →
        e.properties[i]? = d.properties[i]? →
        (e.report t.documents l k).1.fields[i]? = (d.report t.documents l j).1.fields[i]?) ∧
      ∀ (l : Language) (d : Document), ∀ f ∈ (d.report t.documents l j).1.fields,
        (∃ T, f.type = .ok T ∧ f.toJson.member? "type" = some (.string T) ∧
          f.toJson.member? "error" = none) ∨
        ∃ e, f.type = .error e ∧ f.toJson.member? "type" = some .null ∧
          f.toJson.member? "error" = some (.string e.message) := by
  refine ⟨fun earlier => Operation.foldl_perform_reaches _ earlier {}, ?_⟩
  intro j hj
  have hview : j.view t.documents = Journal.view t.documents {} := hj.view_eq
  have hfields : ∀ (l : Language) (d : Document) (k : Journal),
      k.view t.documents = Journal.view t.documents {} →
      (d.report t.documents l k).1.fields =
        d.properties.map fun p => .ofProperty p (resolveType t.documents l d.path p {}).1 := by
    intro l d k hk
    rw [Document.report_fst hk]
    rfl
  refine ⟨fun calls => Call.each_answer_fst calls hview, ?_, fun l d => hfields l d j hview, ?_,
    fun l d f _ => f.type_or_error⟩
  · intro calls
    refine ⟨(Call.pool t.documents calls j).length (Journal.view t.documents {}), ?_⟩
    intro n x hruns
    have hlength := hruns.length_eq hview
    refine ⟨by omega, x.exists_step t.documents, ?_⟩
    intro rs hdone
    have hnone := hdone.length_eq (v := Journal.view t.documents {})
    exact ⟨by omega, Call.collect_of_runs hview hruns hdone⟩
  · intro l d e k i hk hpath hi
    rw [hfields l e k hk.view_eq, hfields l d j hview, List.getElem?_map, List.getElem?_map, hi,
      hpath]

/-- Reports, in whole or in part, and a loading that fails come before. -/
theorem answers_of_reaches_mutualModels :
    let before : List Operation := [.load ⟨"d.json"⟩, .reportModels [⟨"a.json"⟩] .swift true]
    let j := before.foldl (Operation.perform mutualModels.documents) {}
    let calls : List Call := [
      .resolveType .objc ⟨"a.json"⟩ aliasedArray,
      .resolveReference "c.json" ⟨"a.json"⟩]
    j.cache.size = 4 ∧
    (Resolving.each (Call.answer mutualModels.documents) calls j).1 =
      [.type (.ok "NSArray<B> *"), .type (.ok "")] ∧
    ∀ n x rs, Pool.Runs mutualModels.documents (Call.pool mutualModels.documents calls j) n x →
      x.Done rs → Call.collect calls rs = [.type (.ok "NSArray<B> *"), .type (.ok "")] := by
  intro before j calls
  obtain ⟨hearlier, hanswers⟩ := answers_of_reaches mutualModels
  obtain ⟨hsequence, hpool, -⟩ := hanswers j (hearlier before)
  have harray : (resolveType mutualModels.documents .objc ⟨"a.json"⟩ aliasedArray {}).1 =
      .ok "NSArray<B> *" := by
    decide +kernel
  have hmissing : (resolveReference mutualModels.documents "c.json" ⟨"a.json"⟩ {}).1 = .ok "" := by
    decide +kernel
  have halone : (calls.map fun c => (c.answer mutualModels.documents {}).1) =
      [.type (.ok "NSArray<B> *"), .type (.ok "")] := by
    simp only [calls, List.map_cons, List.map_nil, Call.answer, harray, hmissing]
  refine ⟨by decide +kernel, (hsequence calls).trans halone, ?_⟩
  intro n x rs hruns hdone
  obtain ⟨total, htotal⟩ := hpool calls
  obtain ⟨-, -, hcollect⟩ := htotal n x hruns
  exact (hcollect rs hdone).2.trans halone

end FieldTypes
