import FieldTypes.Proofs.DescriptionText
import FieldTypes.Proofs.Mounting

/-!
# Loading through the cache and without it

A cache loads the normal form of a path, and a document alone is loaded by its path as it is
written. What folding leaves of the segments of a path goes through no directory that the path does
not go through, and takes up no more room. So where a path leads to a file, its normal form leads to
the same file. The converse does not hold: `missing/../a.json` leads nowhere, and its normal form
may well lead to a file.

**Results.**
* `FileTree.vet_normalize`: what may be followed may be followed in its normal form.
* `FileTree.foldlM_step_fold`, `FileTree.foldlM_step_foldl_fold`: one more segment, and all of them.
* `FileTree.follow_normalize`, `FileTree.read_normalize`: the normal form leads to the same file.
* `FileTree.load_fresh`: what a fresh cache loads, and what both commands see of a model.
-/

namespace FieldTypes

/-- Some of the parts, joined, are some of the elements of all of them, joined. -/
theorem intercalate_sublist {α : Type} (sep : List α) {fs gs : List (List α)}
    (h : fs.Sublist gs) :
    (sep.intercalate fs).Sublist (sep.intercalate gs) := by
  induction h with
  | slnil =>
      exact List.Sublist.refl _
  | @cons fs gs g h ih =>
      cases gs with
      | nil =>
          rw [List.sublist_nil.1 h]
          exact List.nil_sublist _
      | cons g' gs =>
          rw [List.intercalate_cons_of_ne_nil (List.cons_ne_nil g' gs)]
          exact ih.trans (List.sublist_append_right (g ++ sep) _)
  | @cons_cons fs gs g h ih =>
      cases fs with
      | nil =>
          cases gs with
          | nil =>
              exact List.Sublist.refl _
          | cons g' gs =>
              rw [List.intercalate_singleton, List.intercalate_cons_of_ne_nil
                (List.cons_ne_nil g' gs), List.append_assoc]
              exact List.sublist_append_left g _
      | cons f' fs =>
          have hgs : gs ≠ [] := by
            rintro rfl
            cases h
          rw [List.intercalate_cons_of_ne_nil (List.cons_ne_nil f' fs),
            List.intercalate_cons_of_ne_nil hgs]
          exact (List.Sublist.refl (g ++ sep)).append ih

/-- Some of the characters of a text take up no more room than all of them. -/
theorem utf8ByteSize_le_of_sublist {cs ds : List Char} (h : cs.Sublist ds) :
    (String.ofList cs).utf8ByteSize ≤ (String.ofList ds).utf8ByteSize := by
  have hcons : ∀ (c : Char) (cs : List Char), (String.ofList (c :: cs)).utf8ByteSize =
      c.utf8Size + (String.ofList cs).utf8ByteSize := by
    intro c cs
    have hone : (String.ofList [c]).utf8ByteSize = c.utf8Size := String.utf8ByteSize_singleton
    rw [← List.singleton_append, String.ofList_append, String.utf8ByteSize_append, hone]
  induction h with
  | slnil =>
      exact Nat.le_refl _
  | cons c _ ih =>
      rw [hcons]
      omega
  | cons_cons c _ ih =>
      rw [hcons, hcons]
      omega

/-- A segment is the text of what it stands for. -/
theorem Component.text_of_ofSegment? {s : List Char} {c : Component} (h : ofSegment? s = some c) :
    c.text = s := by
  unfold ofSegment? at h
  split_ifs at h with hidle hup
  · cases h
    exact hup.symm
  · cases h
    exact String.toList_ofList

namespace Path

section Fewer

variable {p : Path}

theorem fold_sublist (kept : List Component) (c : Component) :
    (fold kept c).reverse.Sublist (kept.reverse ++ [c]) := by
  unfold fold
  split
  · exact List.sublist_append_left _ _
  · rw [List.reverse_cons, List.append_assoc]
    exact List.sublist_append_left _ _
  · exact List.sublist_append_left _ _
  · rw [List.reverse_cons]

theorem foldl_fold_sublist (cs kept : List Component) :
    (cs.foldl fold kept).reverse.Sublist (kept.reverse ++ cs) := by
  induction cs generalizing kept with
  | nil =>
      rw [List.foldl_nil, List.append_nil]
  | cons c cs ih =>
      rw [List.foldl_cons, ← List.singleton_append, ← List.append_assoc]
      exact (ih (fold kept c)).trans ((fold_sublist kept c).append (List.Sublist.refl cs))

theorem map_text_filterMap_sublist (ss : List (List Char)) :
    ((ss.filterMap Component.ofSegment?).map Component.text).Sublist ss := by
  induction ss with
  | nil =>
      exact List.Sublist.refl _
  | cons s ss ih =>
      cases hs : Component.ofSegment? s with
      | none =>
          rw [List.filterMap_cons_none hs]
          exact ih.cons s
      | some c =>
          rw [List.filterMap_cons_some hs, List.map_cons, Component.text_of_ofSegment? hs]
          exact ih.cons_cons s

/-- The normal form has some of the segments of a path. -/
theorem map_text_normalComponents_sublist (p : Path) :
    (p.normalComponents.map Component.text).Sublist p.segments := by
  have hsteps := map_text_filterMap_sublist p.segments
  rw [normalComponents_eq]
  refine ((foldl_fold_sublist p.steps _).map Component.text).trans ?_
  cases habsolute : p.isAbsolute with
  | false =>
      exact hsteps
  | true =>
      obtain ⟨s, ss, hsegments⟩ := isAbsolute_iff_segments.1 habsolute
      have hrest : p.steps = (s :: ss).filterMap Component.ofSegment? := by
        rw [steps, hsegments,
          List.filterMap_cons_none (show Component.ofSegment? [] = none from rfl)]
      rw [hrest, hsegments]
      exact (map_text_filterMap_sublist (s :: ss)).cons_cons []

theorem text_normalize_sublist (hroot : p.normalComponents ≠ [.root]) :
    p.normalize.text.toList.Sublist p.text.toList := by
  have hjoin := intercalate_sublist ['/'] p.map_text_normalComponents_sublist
  rw [intercalate_segments] at hjoin
  rwa [normalize, ofComponents_of_ne_root hroot, String.toList_ofList]

end Fewer

end Path

namespace FileTree

section Follow

variable {t : FileTree} {p : Path} {start place place' : Place} {kept : List Component}

/-- What may be followed may be followed in its normal form, unless that is empty. -/
theorem vet_normalize
    (hne : p.normalComponents ≠ [])
    (hroot : p.normalComponents ≠ [.root])
    (h : vet p = .ok ()) :
    vet p.normalize = .ok () := by
  have hsub := Path.text_normalize_sublist hroot
  have hsize := utf8ByteSize_le_of_sublist hsub
  rw [String.ofList_toList, String.ofList_toList] at hsize
  obtain ⟨hnul, hshort, -⟩ := vet_eq_ok_iff.1 h
  refine vet_eq_ok_iff.2 ⟨fun hmem => hnul (hsub.subset hmem), by omega, ?_⟩
  intro hempty
  have hnormal : p.normalize = ⟨""⟩ := congrArg Path.mk hempty
  rw [← Path.normalComponents_normalize, hnormal] at hne
  exact hne (by decide)

theorem nodeAt_of_step {s : List Char} (h : t.step place s = .ok place') :
    t.nodeAt place = some .directory := by
  unfold step at h
  cases hnode : t.nodeAt place with
  | none =>
      rw [hnode] at h
      cases h
  | some n =>
      rw [hnode] at h
      cases n with
      | file bytes =>
          cases h
      | directory =>
          rfl

/-- Following what has been folded and one more segment, and following the two folded together, lead
to one place. -/
theorem foldlM_step_fold {c : Component}
    (hkept : ∀ d ∈ kept, d = .root ∨ d.IsSegment)
    (hstart : .root ∈ kept → start = [])
    (hplace : (kept.reverse.map Component.text).foldlM t.step start = .ok place)
    (hc : c.IsSegment)
    (hstep : t.step place c.text = .ok place') :
    ((Path.fold kept c).reverse.map Component.text).foldlM t.step start = .ok place' := by
  have hmove : place' = c.move place := by
    rw [step_eq_move hstep, hc.1]
    rfl
  unfold Path.fold
  split
  · rw [hplace, hmove]
    rfl
  · next n outer =>
      -- The name went further in, and the `..` goes out again.
      rw [List.reverse_cons, List.map_append, List.foldlM_append] at hplace
      obtain ⟨around, haround, hname⟩ := exists_of_bind_eq_ok hplace
      obtain ⟨inside, hname, hinside⟩ := exists_of_bind_eq_ok hname
      cases hinside
      have hn : (Component.name n).IsSegment := by simpa using hkept (.name n) (by simp)
      have hplace : place = around ++ [n] := by
        rw [step_eq_move hname, hn.1]
        rfl
      rw [haround, hmove, hplace]
      simp [Component.move]
  · -- There is no way out of the root.
    obtain rfl := hstart (by simp)
    obtain ⟨inside, hroot, hinside⟩ := exists_of_bind_eq_ok hplace
    cases hinside
    have hsame : place' = place := by
      rw [hmove, step_eq_move hroot]
      rfl
    rw [hsame]
    exact hplace
  · rw [List.reverse_cons, List.map_append, List.foldlM_append, hplace, List.map_singleton]
    show ([c.text].foldlM t.step place) = _
    rw [List.foldlM_cons, hstep]
    rfl

/-- Following segments one by one, and following what they are folded to, lead to one place. -/
theorem foldlM_step_foldl_fold {ss : List (List Char)}
    (hss : ∀ s ∈ ss, '/' ∉ s)
    (hkept : ∀ d ∈ kept, d = .root ∨ d.IsSegment)
    (hstart : .root ∈ kept → start = [])
    (hplace : (kept.reverse.map Component.text).foldlM t.step start = .ok place)
    (h : ss.foldlM t.step place = .ok place') :
    (((ss.filterMap Component.ofSegment?).foldl Path.fold kept).reverse.map
      Component.text).foldlM t.step start = .ok place' := by
  induction ss generalizing kept place with
  | nil =>
      cases h
      exact hplace
  | cons s ss ih =>
      obtain ⟨next, hstep, hnext⟩ := exists_of_bind_eq_ok h
      have hslash : ∀ s ∈ ss, '/' ∉ s := fun s hs => hss s (List.mem_cons_of_mem _ hs)
      cases hs : Component.ofSegment? s with
      | none =>
          obtain rfl : next = place := by
            rw [step_eq_move hstep, hs]
            rfl
          rw [List.filterMap_cons_none hs]
          exact ih hslash hkept hstart hplace hnext
      | some c =>
          have hc := Component.isSegment_of_ofSegment? (hss s (by simp)) hs
          rw [List.filterMap_cons_some hs, List.foldl_cons]
          refine ih hslash ?_ ?_ (foldlM_step_fold hkept hstart hplace hc ?_) hnext
          · intro d hd
            rcases Path.mem_of_mem_fold hd with hd | rfl
            · exact hkept d hd
            · exact Or.inr hc
          · intro hroot
            rcases Path.mem_of_mem_fold hroot with hroot | rfl
            · exact hstart hroot
            · exact absurd rfl hc.ne_root
          · rw [Component.text_of_ofSegment? hs]
            exact hstep

/-- The normal form of a path leads to the place that the path itself leads to, if that is no
directory. -/
theorem follow_normalize
    (h : t.follow p = .ok place)
    (hnode : t.nodeAt place ≠ some .directory) :
    t.follow p.normalize = .ok place := by
  have hvet := vet_of_follow h
  rw [follow_of_vet hvet] at h
  have hdirectory : t.nodeAt (t.start p) = some .directory := by
    obtain ⟨s, ss, hsegments⟩ := List.exists_cons_of_ne_nil (List.splitOn_ne_nil '/' p.text.toList)
    rw [Path.segments, hsegments] at h
    obtain ⟨next, hstep, -⟩ := exists_of_bind_eq_ok h
    exact nodeAt_of_step hstep
  have hfolded : (p.normalComponents.map Component.text).foldlM t.step (t.start p) = .ok place := by
    rw [Path.normalComponents_eq]
    refine foldlM_step_foldl_fold (fun s hs => notMem_of_mem_splitOn hs) ?_ ?_ ?_ h
    · intro d hd
      split_ifs at hd with habsolute
      · exact Or.inl (List.mem_singleton.1 hd)
      · cases hd
    · intro hroot
      split_ifs at hroot with habsolute
      · exact if_pos habsolute
      · cases hroot
    · split_ifs with habsolute
      · show [[]].foldlM t.step (t.start p) = .ok (t.start p)
        rw [List.foldlM_cons, step_nil hdirectory]
        rfl
      · rfl
  have hne : p.normalComponents ≠ [] := by
    intro hnil
    rw [hnil] at hfolded
    cases hfolded
    exact hnode hdirectory
  have hroot : p.normalComponents ≠ [.root] := by
    intro hroot
    rw [hroot] at hfolded
    obtain ⟨next, hstep, hnext⟩ := exists_of_bind_eq_ok hfolded
    cases hnext
    rw [step_eq_move hstep] at hnode
    exact hnode hdirectory
  have hsegments : p.normalize.segments = p.normalComponents.map Component.text := by
    have hcomponents := Path.normalComponents_normalize p
    rw [← hcomponents] at hne hroot
    rw [Path.segments_of_normalize p.normalize_normalize hne hroot, hcomponents]
  rw [follow_of_vet (vet_normalize hne hroot hvet), hsegments, start, Path.isAbsolute_normalize]
  exact hfolded

/-- What is read at a path is read at its normal form. -/
theorem read_normalize {text : String} (h : t.read p = .ok text) :
    t.read p.normalize = .ok text := by
  obtain ⟨place, bytes, hfollow, hfile⟩ := exists_file_of_read h
  have hnormal : t.follow p.normalize = .ok place :=
    follow_normalize hfollow (by rw [hfile]; simp)
  rw [read, node, hfollow] at h
  rw [read, node, hnormal]
  exact h

end Follow

section Load

variable {t : FileTree} {p : Path}

theorem load_eq_malformed_iff {q : Path} {fault : Json.Fault} :
    t.load p = .error (.malformed q fault) ↔
      q = p ∧ ∃ text, t.read p = .ok text ∧ Json.parse text = .error fault := by
  simp only [load, Document.parse, Json.parseAt]
  cases hread : t.read p with
  | error cause =>
      simp
  | ok text =>
      cases hparse : Json.parse text with
      | error fault' =>
          simp [Except.map, hparse, eq_comm]
      | ok v =>
          simp [Except.map, hparse]

/-- A document is the same in the normal form of its path. -/
theorem load_normalize {d : Document} (h : t.load p = .ok d) :
    t.load p.normalize = .ok { d with path := p.normalize } := by
  obtain ⟨text, v, hread, hv, rfl⟩ := load_eq_ok_iff.1 h
  exact load_eq_ok_iff.2 ⟨text, v, read_normalize hread, hv, rfl⟩

/-- A text that is no document is none in the normal form of its path, for the same reason. -/
theorem load_normalize_of_malformed {q : Path} {fault : Json.Fault}
    (h : t.load p = .error (.malformed q fault)) :
    t.load p.normalize = .error (.malformed p.normalize fault) := by
  obtain ⟨-, text, hread, hfault⟩ := load_eq_malformed_iff.1 h
  exact load_eq_malformed_iff.2 ⟨rfl, text, read_normalize hread, hfault⟩

theorem fst_load_empty (t : FileTree) (p : Path) :
    (Cache.load t.documents {} p).1 = t.load p.normalize := by
  rw [Cache.load_fst, ← view_empty]
  rfl

end Load

section Reports

variable {t : FileTree} {p : Path} {roots : List Path} {l : Language} {follow : Bool}
  {ms : List ModelReport} {d : Document}

/-- A root has a report of its own, with a field for each property of its document. -/
theorem exists_report_of_root
    (h : (reportModels t.documents roots l follow {}).1 = .ok ms)
    (hp : p ∈ roots)
    (hd : t.load p = .ok d) :
    ∃ m ∈ ms, m.path = p.normalize ∧ m.title = d.title ∧
      m.fields = d.properties.map fun q => (q.report t.documents l p.normalize {}).1 := by
  obtain ⟨ds, hclosure, rfl⟩ :=
    exists_closure_of_reports (fun p d => Cache.WellFormed.empty.path_of_view) rfl h
  obtain ⟨d', hd', hpath⟩ : ∃ d' ∈ ds.take (distinct (roots.map Path.normalize)).length,
      d'.path = p.normalize := by
    rw [← List.mem_map, List.map_take, hclosure.roots_first, mem_distinct]
    exact List.mem_map_of_mem hp
  have hmem : d' ∈ if follow then ds
      else ds.take (distinct (roots.map Path.normalize)).length := by
    split_ifs
    · exact List.mem_of_mem_take hd'
    · exact hd'
  have hsame : d' = { d with path := p.normalize } := by
    have hview : t.load d'.path = .ok d' := hclosure.loaded d' (List.mem_of_mem_take hd')
    rw [hpath, load_normalize hd] at hview
    cases hview
    rfl
  refine ⟨_, List.mem_map_of_mem hmem, hpath, ?_, ?_⟩
  · rw [hsame]
    rfl
  · rw [hsame, Document.report_fst rfl]

/-- What can be described can be reported. -/
theorem exists_reports_of_describe {inputs : List String} {paths : List Path} {ds : List Document}
    (hpaths : t.inputPaths inputs = .ok paths)
    (hds : paths.mapM t.load = .ok ds)
    (color : Bool) (l : Language) (follow : Bool) (format : OutputFormat) (out : Option Path) :
    ∃ ms ws,
      (reportModels t.documents paths l follow {}).1 = .ok ms ∧
      (Command.resolve inputs l follow format out).run t color =
        deliver t out (reportText format (markFor color out) ms) (outcomeOf ms) ws := by
  refine Command.runResolve_of_loads hpaths (fun p hp => ?_) color l follow format out
  obtain ⟨d, -, hd⟩ := (answers_of_mapM_eq_ok hds).1 p hp
  rw [view_empty]
  exact ⟨_, load_normalize hd⟩

end Reports

/-- Loading a path as it is written, and through a fresh cache. What is a document there is one in
the cache, with the normal form for its path and all else the same; what is read and is no JSON is
rejected in the cache for the same reason. A root that can be loaded as it is written is reported
with its own properties. So where a command can describe its inputs, the other one can report them,
and the fields of its reports are those of the properties that are described. -/
theorem load_fresh
    (t : FileTree)
    (p : Path) :
    (∀ d, t.load p = .ok d →
      (Cache.load t.documents {} p).1 = .ok { d with path := p.normalize }) ∧
    (∀ q fault, t.load p = .error (.malformed q fault) →
      (Cache.load t.documents {} p).1 = .error (.malformed p.normalize fault)) ∧
    (∀ roots l follow ms d,
      (reportModels t.documents roots l follow {}).1 = .ok ms →
      p ∈ roots →
      t.load p = .ok d →
      ∃ m ∈ ms, m.path = p.normalize ∧ m.title = d.title ∧
        m.fields = d.properties.map fun q => (q.report t.documents l p.normalize {}).1) ∧
    ∀ inputs paths ds,
      t.inputPaths inputs = .ok paths →
      paths.mapM t.load = .ok ds →
      ∀ color out,
        (Command.describe inputs out).run t color =
          deliver t out (Document.describeAll ds).pretty .clean [] ∧
        ∀ l follow format, ∃ ms ws,
          (Command.resolve inputs l follow format out).run t color =
            deliver t out (reportText format (markFor color out) ms) (outcomeOf ms) ws ∧
          ∀ d ∈ ds, ∃ m ∈ ms, m.path = d.path.normalize ∧ m.title = d.title ∧
            m.fields = d.properties.map fun q =>
              (q.report t.documents l d.path.normalize {}).1 := by
  refine ⟨?_, ?_, ?_, ?_⟩
  · intro d hd
    rw [fst_load_empty, load_normalize hd]
  · intro q fault h
    rw [fst_load_empty, load_normalize_of_malformed h]
  · intro roots l follow ms d hms hp hd
    exact exists_report_of_root hms hp hd
  · intro inputs paths ds hpaths hds color out
    refine ⟨Command.run_describe_eq out hpaths hds, ?_⟩
    intro l follow format
    obtain ⟨ms, ws, hms, hrun⟩ := exists_reports_of_describe hpaths hds color l follow format out
    refine ⟨ms, ws, hrun, ?_⟩
    intro d hd
    obtain ⟨path, hpath, hload⟩ := (answers_of_mapM_eq_ok hds).2 d hd
    obtain rfl := t.documents.path_of_fetch hload
    exact exists_report_of_root hms hpath hload

/-- A model and a text that is no JSON, beside a directory. -/
def windingModels : FileTree where
  workingDirectory := ["w"]
  nodes := [
    (["w"], .directory),
    (["w", "s"], .directory),
    (["w", "a.json"],
      .file ("\x7b\"title\": \"a\", \"properties\": " ++
        "[\x7b\"type\": \"string\", \"format\": \"uri\"\x7d]\x7d").toUTF8),
    (["w", "b.json"], .file "\x7b\"title\": b\x7d".toUTF8)]

/-- The model, by one of the paths to it. -/
def windingModel (p : Path) : Document where
  path := p
  title := some "a"
  description := none
  reference := none
  properties := [{ declaredType := some "string", format := some "uri" }]

theorem load_fresh_windingModels :
    (∃ d,
      windingModels.load ⟨"..//w/s/./..//a.json"⟩ = .ok d ∧
      (Cache.load windingModels.documents {} ⟨"..//w/s/./..//a.json"⟩).1 =
        .ok { d with path := ⟨"../w/a.json"⟩ }) ∧
    (∃ fault,
      windingModels.load ⟨"/../w/./b.json"⟩ = .error (.malformed ⟨"/../w/./b.json"⟩ fault) ∧
      (Cache.load windingModels.documents {} ⟨"/../w/./b.json"⟩).1 =
        .error (.malformed ⟨"/w/b.json"⟩ fault)) ∧
    (∃ ms m,
      (reportModels windingModels.documents [⟨"/w/s/../a.json"⟩] .swift true {}).1 = .ok ms ∧
      m ∈ ms ∧ m.path = ⟨"/w/a.json"⟩ ∧ m.fields.map (·.type) = [.ok "URL"]) ∧
    ∃ d ms ws,
      windingModels.load ⟨"s/../a.json"⟩ = .ok d ∧
      (Command.describe ["s/../a.json"] none).run windingModels false =
        deliver windingModels none (Document.describeAll [d]).pretty .clean [] ∧
      (Command.resolve ["s/../a.json"] .rust false .text none).run windingModels false =
        deliver windingModels none (reportText .text .plain ms) (outcomeOf ms) ws ∧
      ∃ m ∈ ms, m.path = ⟨"a.json"⟩ ∧ m.fields.map (·.type) = [.ok "url::Url"] := by
  have hload : ∀ p ∈ [Path.mk "..//w/s/./..//a.json", ⟨"/w/s/../a.json"⟩, ⟨"s/../a.json"⟩],
      windingModels.load p = .ok (windingModel p) := by
    decide +kernel
  simp only [List.forall_mem_cons] at hload
  obtain ⟨hwinding, habsolute, hrelative, -⟩ := hload
  have hfault : windingModels.load ⟨"/../w/./b.json"⟩ =
      .error (.malformed ⟨"/../w/./b.json"⟩ ⟨.expectedValue, ⟨1, 11⟩, [.key "title"]⟩) := by
    decide +kernel
  refine ⟨⟨_, hwinding, ?_⟩, ⟨_, hfault, ?_⟩, ?_, ?_⟩
  · rw [(load_fresh windingModels _).1 _ hwinding]
    decide +kernel
  · rw [(load_fresh windingModels _).2.1 _ _ hfault]
    decide +kernel
  · obtain ⟨ms, hms⟩ := exists_of_isOk (x := (reportModels windingModels.documents
      [⟨"/w/s/../a.json"⟩] .swift true {}).1) (by decide +kernel)
    obtain ⟨m, hm, hpath, -, hfields⟩ := (load_fresh windingModels _).2.2.1 _ _ _ _ _ hms
      (List.mem_singleton_self _) habsolute
    refine ⟨ms, m, hms, hm, ?_, ?_⟩
    · rw [hpath]
      decide +kernel
    · rw [hfields]
      decide +kernel
  · obtain ⟨hdescribe, hresolve⟩ := (load_fresh windingModels ⟨"s/../a.json"⟩).2.2.2
      ["s/../a.json"] [⟨"s/../a.json"⟩] [windingModel ⟨"s/../a.json"⟩] (by decide +kernel)
      (by decide +kernel) false none
    obtain ⟨ms, ws, hrun, hreported⟩ := hresolve .rust false .text
    obtain ⟨m, hm, hpath, -, hfields⟩ := hreported _ (List.mem_singleton_self _)
    refine ⟨_, ms, ws, hrelative, hdescribe, hrun, m, hm, ?_, ?_⟩
    · rw [hpath]
      decide +kernel
    · rw [hfields]
      decide +kernel

end FileTree
end FieldTypes
