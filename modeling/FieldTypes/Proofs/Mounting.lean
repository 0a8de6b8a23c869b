import FieldTypes.Proofs.Relocation
import FieldTypes.Proofs.Session

/-!
# File trees under a prefix

The files in the working directory of one file tree are also in a directory of another one. Where a
path leads in the first tree, its prefixed form leads in the second one, since the prefix leads to
the directory and from there on the two trees are the same. So the second tree has the documents of
the first one under the prefix, as long as the prefixed paths are short enough to be followed, and
what is reported of them is the same.

**Results.**
* `FileTree.IsMountedAt.step_eq`, `FileTree.IsMountedAt.foldlM_step_eq`: names lead to the same
  places.
* `FileTree.IsMountedAt.read_under`: files under the prefix.
* `reportModels_under`: reports do not depend on where the tree lies.
-/

namespace FieldTypes

section Vet

variable {P p q : Path}

theorem FileTree.vet_eq_ok_iff :
    FileTree.vet p = .ok () ↔
      '\x00' ∉ p.text.toList ∧ p.text.utf8ByteSize < pathLimit ∧ p.text ≠ "" := by
  unfold vet
  split_ifs with hnul hlong hempty
  · simpa using fun h => absurd (by simpa using hnul) h
  · simp only [false_iff, not_and]
    intro _ hshort
    omega
  · simp [hempty]
  · simp only [true_iff]
    refine ⟨by simpa using hnul, by omega, hempty⟩

/-- What joining puts in front of a relative path. -/
theorem Path.exists_text_join (hq : q.isAbsolute = false) :
    ∃ front : String, (P.join q).text = front ++ q.text ∧
      ∀ c ∈ front.toList, c ∈ P.text.toList ∨ c = '/' := by
  rw [join, if_neg (by simp [hq])]
  cases hlast : P.text.toList.getLast? with
  | none =>
      exact ⟨"", by simp, by simp⟩
  | some c =>
      simp only
      split_ifs with hc
      · exact ⟨P.text, rfl, fun c hc => Or.inl hc⟩
      · refine ⟨P.text ++ "/", rfl, ?_⟩
        intro c hc
        rw [String.toList_append, List.mem_append] at hc
        exact hc.imp_right fun hc => by simpa using hc

/-- What may be followed under a prefix may be followed alone. -/
theorem FileTree.vet_of_vet_join
    (hq : q.isAbsolute = false)
    (hne : q ≠ ⟨""⟩)
    (h : FileTree.vet (P.join q) = .ok ()) :
    FileTree.vet q = .ok () := by
  obtain ⟨front, hfront, -⟩ := Path.exists_text_join (P := P) hq
  rw [vet_eq_ok_iff, hfront, String.toList_append, String.utf8ByteSize_append] at h
  rw [vet_eq_ok_iff]
  refine ⟨fun hnul => h.1 (List.mem_append_right _ hnul), by omega, ?_⟩
  rintro htext
  exact hne (congrArg Path.mk htext)

end Vet

namespace FileTree

variable {P p : Path} {t t' : FileTree} {n : String} {names : List String} {place : Place}

/-- The second tree has at the prefix `P` the files that the first one has where it works. Paths of
documents stay short enough under the prefix. -/
structure IsMountedAt (P : Path) (t t' : FileTree) : Prop where
  normal : P.normalize = P
  reached : P = ⟨""⟩ ∨ t'.hasDirectory P = true
  contents : ∀ names : List String,
    t'.nodeAt (P.destination t'.workingDirectory ++ names) =
      t.nodeAt (t.workingDirectory ++ names)
  short : ∀ p d, p.IsInside → t.load p = .ok d → (P.join p).text.utf8ByteSize < pathLimit

/-- References in the documents of a file tree do not lead out of the directory where it works. -/
def IsSelfContained (t : FileTree) : Prop :=
  ∀ p d, p.IsInside → t.load p = .ok d → ∀ r ∈ d.references, (p.locate r).anchor = some 0

section Names

theorem step_name (hn : (Component.name n).IsSegment) :
    t.step place n.toList =
      match t.nodeAt place with
      | none => .error .notFound
      | some (.file _) => .error .notADirectory
      | some .directory =>
        if n.utf8ByteSize > nameLimit then .error .nameTooLong
        else if (t.nodeAt (place ++ [n])).isSome then .ok (place ++ [n])
        else .error .notFound := by
  have hidle := hn.isIdle_text
  have hup : n.toList ≠ ['.', '.'] := by
    intro hup
    have hc := hn.1
    simp [Component.ofSegment?, Component.text, hup] at hc
  have hidle' : ¬ (n.toList = [] ∨ n.toList = ['.']) := by
    simpa [Path.isIdle, Component.text] using hidle
  unfold step
  cases t.nodeAt place with
  | none =>
      rfl
  | some node =>
      cases node with
      | file bytes =>
          rfl
      | directory =>
          simp only [if_neg hidle', if_neg hup, String.ofList_toList]

/-- A name leads to the same place in both trees, or fails in both for the same reason. -/
theorem IsMountedAt.step_eq
    (h : IsMountedAt P t t') (hn : (Component.name n).IsSegment) (outer : List String) :
    (∃ e, t.step (t.workingDirectory ++ outer) n.toList = .error e ∧
      t'.step (P.destination t'.workingDirectory ++ outer) n.toList = .error e) ∨
    t.step (t.workingDirectory ++ outer) n.toList =
        .ok (t.workingDirectory ++ (outer ++ [n])) ∧
      t'.step (P.destination t'.workingDirectory ++ outer) n.toList =
        .ok (P.destination t'.workingDirectory ++ (outer ++ [n])) := by
  rw [step_name hn, step_name hn, h.contents, List.append_assoc, List.append_assoc, h.contents]
  cases t.nodeAt (t.workingDirectory ++ outer) with
  | none =>
      exact Or.inl ⟨_, rfl, rfl⟩
  | some node =>
      cases node with
      | file bytes =>
          exact Or.inl ⟨_, rfl, rfl⟩
      | directory =>
          simp only
          split_ifs
          · exact Or.inl ⟨_, rfl, rfl⟩
          · exact Or.inr ⟨rfl, rfl⟩
          · exact Or.inl ⟨_, rfl, rfl⟩

/-- Names lead to the same place in both trees, or fail in both for the same reason. -/
theorem IsMountedAt.foldlM_step_eq
    (h : IsMountedAt P t t')
    (hnames : ∀ n ∈ names, (Component.name n).IsSegment)
    (outer : List String) :
    (∃ e, (names.map String.toList).foldlM t.step (t.workingDirectory ++ outer) = .error e ∧
      (names.map String.toList).foldlM t'.step (P.destination t'.workingDirectory ++ outer) =
        .error e) ∨
    (names.map String.toList).foldlM t.step (t.workingDirectory ++ outer) =
        .ok (t.workingDirectory ++ (outer ++ names)) ∧
      (names.map String.toList).foldlM t'.step (P.destination t'.workingDirectory ++ outer) =
        .ok (P.destination t'.workingDirectory ++ (outer ++ names)) := by
  induction names generalizing outer with
  | nil =>
      exact Or.inr ⟨by simp [pure, Except.pure], by simp [pure, Except.pure]⟩
  | cons n names ih =>
      rw [List.map_cons, List.foldlM_cons, List.foldlM_cons]
      rcases h.step_eq (hnames n (by simp)) outer with ⟨e, he, he'⟩ | ⟨hok, hok'⟩
      · exact Or.inl ⟨e, by rw [he]; rfl, by rw [he']; rfl⟩
      · have hrest := ih (fun m hm => hnames m (by simp [hm])) (outer ++ [n])
        rw [List.append_assoc outer, List.singleton_append] at hrest
        rw [hok, hok']
        exact hrest

end Names

section Follow

theorem follow_of_vet (h : vet p = .ok ()) :
    t.follow p = p.segments.foldlM t.step (t.start p) := by
  rw [follow, h]
  rfl

theorem vet_of_follow (h : t.follow p = .ok place) :
    vet p = .ok () := by
  unfold follow at h
  cases hvet : vet p with
  | error e =>
      rw [hvet] at h
      cases h
  | ok u =>
      rfl

theorem follow_of_hasDirectory (h : t.hasDirectory p = true) :
    ∃ place, t.follow p = .ok place ∧ t.nodeAt place = some .directory := by
  unfold hasDirectory node at h
  cases hfollow : t.follow p with
  | error e =>
      rw [hfollow] at h
      cases h
  | ok place =>
      rw [hfollow] at h
      refine ⟨place, rfl, ?_⟩
      simp only [bind, Except.bind] at h
      cases hnode : t.nodeAt place with
      | none =>
          rw [hnode] at h
          cases h
      | some node =>
          rw [hnode] at h
          cases node with
          | file bytes =>
              cases h
          | directory =>
              rfl

/-- The prefix leads to its directory. -/
theorem IsMountedAt.foldlM_front (h : IsMountedAt P t t') :
    (P.normalComponents.map Component.text).foldlM t'.step (t'.start P) =
      .ok (P.destination t'.workingDirectory) := by
  have hpath : P = Path.ofComponents P.normalComponents := by
    rw [← Path.normalize, h.normal]
  by_cases hnil : P.normalComponents = []
  · rw [hnil] at hpath
    rw [hpath]
    rfl
  by_cases hroot : P.normalComponents = [.root]
  · rw [hroot] at hpath
    rw [hpath]
    rfl
  · have hreached : t'.hasDirectory P = true := by
      refine h.reached.resolve_left ?_
      rintro rfl
      exact hnil rfl
    obtain ⟨place, hfollow, -⟩ := follow_of_hasDirectory hreached
    rw [← Path.segments_of_normalize h.normal hnil hroot, ← follow_of_vet (vet_of_follow hfollow),
      hfollow, follow_eq_destination hfollow]

/-- Paths inside lead to the same place, and the same file, in both trees. -/
theorem IsMountedAt.read_under
    (h : IsMountedAt P t t')
    (hp : p.IsInside)
    (hne : p ≠ ⟨""⟩)
    (hvet : vet p = .ok ())
    (hvet' : vet (P.under p) = .ok ()) :
    t'.read (P.under p) = t.read p := by
  have hrelative := hp.isAbsolute_eq
  obtain ⟨names, hsegments, hnames⟩ := hp.exists_segments hne
  have hstart : t.start p = t.workingDirectory ++ [] := by
    rw [start, if_neg (by simp [hrelative]), List.append_nil]
  have hstart' : t'.start (P.under p) = t'.start P := by
    rw [start, start, Path.under, Path.isAbsolute_normalize,
      Path.isAbsolute_join_of_relative hrelative]
  have hfollow : t.follow p =
      (names.map String.toList).foldlM t.step (t.workingDirectory ++ []) := by
    rw [follow_of_vet hvet, hsegments, hstart]
  have hfollow' : t'.follow (P.under p) =
      (names.map String.toList).foldlM t'.step (P.destination t'.workingDirectory ++ []) := by
    rw [follow_of_vet hvet', Path.segments_under hp hne, List.foldlM_append, hstart',
      h.foldlM_front, hsegments, List.append_nil]
    rfl
  rw [read, read, node, node, hfollow, hfollow']
  rcases h.foldlM_step_eq hnames [] with ⟨e, he, he'⟩ | ⟨hok, hok'⟩
  · rw [he, he']
    rfl
  · rw [hok, hok']
    simp only [bind, Except.bind, h.contents]

end Follow

section Load

/-- What is read is in a file. -/
theorem exists_file_of_read {text : String} (h : t.read p = .ok text) :
    ∃ (place : Place) (bytes : ByteArray),
      t.follow p = .ok place ∧ t.nodeAt place = some (.file bytes) := by
  cases hfollow : t.follow p with
  | error e =>
      simp [read, node, hfollow, bind, Except.bind] at h
  | ok place =>
      refine ⟨place, ?_⟩
      simp only [read, node, hfollow, bind, Except.bind] at h
      cases hnode : t.nodeAt place with
      | none =>
          simp [hnode] at h
      | some node =>
          cases node with
          | directory =>
              simp [hnode] at h
          | file bytes =>
              exact ⟨bytes, rfl, rfl⟩

/-- A document is in a file. -/
theorem exists_file_of_load {d : Document} (h : t.load p = .ok d) :
    ∃ (place : Place) (bytes : ByteArray),
      t.follow p = .ok place ∧ t.nodeAt place = some (.file bytes) := by
  obtain ⟨text, -, hread, -⟩ := load_eq_ok_iff.1 h
  exact exists_file_of_read hread

theorem vet_of_load {d : Document} (h : t.load p = .ok d) :
    vet p = .ok () := by
  obtain ⟨place, -, hfollow, -⟩ := exists_file_of_load h
  exact vet_of_follow hfollow

theorem ne_empty_of_load {d : Document} (h : t.load p = .ok d) :
    p ≠ ⟨""⟩ := by
  rintro rfl
  exact (vet_eq_ok_iff.1 (vet_of_load h)).2.2 rfl

/-- A directory is no document. -/
theorem load_ne_ok_of_hasDirectory {d : Document} (h : t.hasDirectory p = true) :
    t.load p ≠ .ok d := by
  intro hd
  obtain ⟨place, bytes, hfollow, hfile⟩ := exists_file_of_load hd
  obtain ⟨place', hfollow', hdirectory⟩ := follow_of_hasDirectory h
  rw [hfollow] at hfollow'
  cases hfollow'
  rw [hfile] at hdirectory
  cases hdirectory

/-- The prefixed path of a document may be followed. -/
theorem IsMountedAt.vet_under
    (h : IsMountedAt P t t')
    (hp : p.IsInside)
    {d : Document} (hd : t.load p = .ok d) :
    vet (P.under p) = .ok () := by
  obtain ⟨hnul, -, hempty⟩ := vet_eq_ok_iff.1 (vet_of_load hd)
  obtain ⟨front, hfront, hchars⟩ := Path.exists_text_join (P := P) hp.isAbsolute_eq
  have hclean : '\x00' ∉ P.text.toList := by
    rcases h.reached with rfl | hdirectory
    · simp
    · obtain ⟨place, hfollow, -⟩ := follow_of_hasDirectory hdirectory
      exact (vet_eq_ok_iff.1 (vet_of_follow hfollow)).1
  rw [← Path.join_eq_under h.normal hp (ne_empty_of_load hd), vet_eq_ok_iff]
  refine ⟨?_, h.short p d hp hd, ?_⟩
  · rw [hfront, String.toList_append, List.mem_append]
    rintro (hin | hin)
    · rcases hchars _ hin with hin | hin
      · exact hclean hin
      · exact absurd hin (by decide)
    · exact hnul hin
  · rw [hfront]
    simp [hempty]

/-- A file that is found inside is found under the prefix. -/
theorem IsMountedAt.load_under_of_ok
    (h : IsMountedAt P t t')
    (hp : p.IsInside)
    {d : Document} (hd : t.load p = .ok d) :
    t'.load (P.under p) = .ok (d.under P) := by
  have hne := ne_empty_of_load hd
  have hread := h.read_under hp hne (vet_of_load hd) (h.vet_under hp hd)
  obtain ⟨text, value, htext, hvalue, rfl⟩ := load_eq_ok_iff.1 hd
  refine load_eq_ok_iff.2 ⟨text, value, hread.trans htext, hvalue, ?_⟩
  rw [← Path.join_eq_under h.normal hp hne]
  rfl

/-- What is found under the prefix is found inside. -/
theorem IsMountedAt.exists_load
    (h : IsMountedAt P t t')
    (hp : p.IsInside)
    {d : Document} (hd : t'.load (P.under p) = .ok d) :
    ∃ d', t.load p = .ok d' := by
  by_cases hne : p = ⟨""⟩
  · -- The prefix itself leads to a directory.
    subst hne
    have hself : P.under ⟨""⟩ = P := by
      rw [← Path.normalize_under, Path.normalize, Path.normalComponents_under hp.anchor,
        show (Path.mk "").normalComponents = [] from rfl, List.append_nil, ← Path.normalize,
        h.normal]
    rw [hself] at hd
    rcases h.reached with rfl | hdirectory
    · exact absurd rfl (ne_empty_of_load hd)
    · exact absurd hd (load_ne_ok_of_hasDirectory hdirectory)
  · have hvet' := vet_of_load hd
    have hvet : vet p = .ok () := by
      refine vet_of_vet_join (P := P) hp.isAbsolute_eq hne ?_
      rwa [Path.join_eq_under h.normal hp hne]
    obtain ⟨text, value, htext, hvalue, -⟩ := load_eq_ok_iff.1 hd
    rw [h.read_under hp hne hvet hvet'] at htext
    exact ⟨_, load_eq_ok_iff.2 ⟨text, value, htext, hvalue, rfl⟩⟩

/-- The documents of the second tree under the prefix are those of the first tree. -/
theorem IsMountedAt.relocates
    (h : IsMountedAt P t t')
    (hself : t.IsSelfContained) :
    Relocates P t.load t'.load where
  normal := h.normal
  ok := fun hp hd => h.load_under_of_ok hp hd
  error := by
    intro p e hp he
    cases hd : t'.load (P.under p) with
    | error e' =>
        exact ⟨e', rfl⟩
    | ok d =>
        obtain ⟨d', hd'⟩ := h.exists_load hp hd
        rw [he] at hd'
        cases hd'
  path := t.documents.path_of_fetch
  nonempty := ne_empty_of_load
  inside := hself _ _

end Load

end FileTree

/-- What is reported does not depend on where a file tree lies. Where the files of one tree are found
under a prefix in another one, and references do not lead out of them, reporting from the prefixed
roots gives the same reports in the same order, and all that differs is that their paths, and the
paths in their errors, are prefixed. -/
theorem reportModels_under
    (P : Path)
    (t t' : FileTree)
    (roots : List Path)
    (l : Language)
    (follow : Bool)
    (j j' : Journal)
    (hmounted : FileTree.IsMountedAt P t t')
    (hself : t.IsSelfContained)
    (hroots : ∀ r ∈ roots, r.anchor = some 0 ∧ ∃ d, t.load r.normalize = .ok d)
    (hj : Journal.Reaches t.documents {} j)
    (hj' : Journal.Reaches t'.documents {} j') :
    ∃ reports,
      (reportModels t.documents roots l follow j).1 = .ok reports ∧
      (reportModels t'.documents (roots.map P.join) l follow j').1 =
        .ok (reports.map (ModelReport.under P)) := by
  have hview : j.view t.documents = t.load := hj.view_eq
  have hview' : j'.view t'.documents = t'.load := hj'.view_eq
  exact (hmounted.relocates hself).reportModels_fst hview hview'
    (fun p d => t'.documents.path_of_fetch) hroots

/-- A document of a path inside is in a file below the directory where the program works. -/
theorem Path.IsInside.exists_mem_of_load
    {t : FileTree} {p : Path} {d : Document}
    (hp : p.IsInside) (hd : t.load p = .ok d) :
    ∃ (names : List String) (bytes : ByteArray),
      (t.workingDirectory ++ names, Node.file bytes) ∈ t.nodes ∧
      p = .ofComponents (names.map .name) := by
  obtain ⟨names, hnames⟩ := hp.exists_names
  obtain ⟨place, bytes, hfollow, hfile⟩ := FileTree.exists_file_of_load hd
  have hplace : place = t.workingDirectory ++ names := by
    rw [FileTree.follow_eq_destination hfollow, Path.destination_eq, hnames,
      Path.foldl_move_names]
  refine ⟨names, bytes, ?_, by rw [← hnames]; exact hp.eq_ofComponents⟩
  unfold FileTree.nodeAt at hfile
  split_ifs at hfile
  · cases hfile
  · rw [← hplace]
    exact mem_of_lookup_eq_some hfile

/-- A model, an alias below it that climbs back to it, and an alias of itself. -/
def climbingModels : FileTree where
  workingDirectory := []
  nodes := [
    (["a.json"], .file ("\x7b\"title\": \"a\", \"properties\": " ++
      "[\x7b\"$ref\": \"s/b.json\"\x7d, \x7b\"$ref\": \"s/c.json\"\x7d]\x7d").toUTF8),
    (["s"], .directory),
    (["s", "b.json"], .file "\x7b\"$ref\": \"../a.json\"\x7d".toUTF8),
    (["s", "c.json"], .file "\x7b\"$ref\": \"c.json\"\x7d".toUTF8)]

/-- The same files in a directory of another tree. -/
def climbingModelsMounted : FileTree where
  workingDirectory := ["w"]
  nodes := (["m"], .directory) :: climbingModels.nodes.map fun e => ("m" :: e.1, e.2)

theorem lookup_map_cons (entries : List (Place × Node)) (n : String) (names : Place) :
    (entries.map fun e => (n :: e.1, e.2)).lookup (n :: names) = entries.lookup names := by
  induction entries with
  | nil =>
      rfl
  | cons e entries ih =>
      rw [List.map_cons, List.lookup_cons, List.lookup_cons, ih]
      by_cases hnames : names = e.1
      · simp [hnames]
      · rw [beq_false_of_ne hnames, beq_false_of_ne (by simpa using hnames)]

theorem reportModels_under_climbingModels :
    ∃ reports,
      (reportModels climbingModels.documents [⟨"./a.json"⟩] .swift true {}).1 = .ok reports ∧
      (reportModels climbingModelsMounted.documents [⟨"/m/./a.json"⟩] .swift true {}).1 =
        .ok (reports.map (ModelReport.under ⟨"/m"⟩)) ∧
      (reports.map fun m => (m.path, m.fields.map (·.type))) =
        [(⟨"a.json"⟩, [.ok "A", .error (.cyclicReference ⟨"s/c.json"⟩)]), (⟨"s/b.json"⟩, []),
          (⟨"s/c.json"⟩, [])] := by
  have hcheck : ∀ e ∈ climbingModels.nodes,
      ((climbingModels.load (.ofComponents (e.1.map .name))).toOption.all fun d =>
        (d.references.all fun r =>
          ((Path.ofComponents (e.1.map .name)).locate r).anchor == some 0) &&
        ((Path.mk "/m").join (.ofComponents (e.1.map .name))).text.utf8ByteSize < pathLimit) =
          true := by
    decide +kernel
  have hdocument : ∀ p d, p.IsInside → climbingModels.load p = .ok d →
      (∀ r ∈ d.references, (p.locate r).anchor = some 0) ∧
        ((Path.mk "/m").join p).text.utf8ByteSize < pathLimit := by
    intro p d hp hd
    obtain ⟨names, bytes, hmem, rfl⟩ := hp.exists_mem_of_load hd
    have hentry := hcheck _ hmem
    rw [show climbingModels.workingDirectory ++ names = names from rfl, hd] at hentry
    simpa [Except.toOption] using hentry
  have hmounted : FileTree.IsMountedAt ⟨"/m"⟩ climbingModels climbingModelsMounted := by
    refine ⟨by decide +kernel, Or.inr (by decide +kernel), ?_, fun p d hp hd =>
      (hdocument p d hp hd).2⟩
    intro names
    have hdestination : (Path.mk "/m").destination climbingModelsMounted.workingDirectory =
        ["m"] := by
      decide +kernel
    rw [hdestination]
    cases names with
    | nil =>
        rfl
    | cons n names =>
        exact lookup_map_cons climbingModels.nodes "m" (n :: names)
  have hload : ∃ d, climbingModels.load (Path.mk "./a.json").normalize = .ok d :=
    exists_of_isOk (by decide +kernel)
  obtain ⟨reports, hreports, hunder⟩ := reportModels_under ⟨"/m"⟩ climbingModels
    climbingModelsMounted [⟨"./a.json"⟩] .swift true {} {} hmounted
    (fun p d hp hd => (hdocument p d hp hd).1)
    (by
      intro r hr
      rw [List.mem_singleton.1 hr]
      exact ⟨by decide +kernel, hload⟩) .refl .refl
  have htypes : ((reportModels climbingModels.documents [⟨"./a.json"⟩] .swift true
      {}).1.toOption.map fun reports => reports.map fun m => (m.path, m.fields.map (·.type))) =
        some [(⟨"a.json"⟩, [.ok "A", .error (.cyclicReference ⟨"s/c.json"⟩)]),
          (⟨"s/b.json"⟩, []), (⟨"s/c.json"⟩, [])] := by
    decide +kernel
  rw [hreports] at htypes
  exact ⟨reports, hreports, hunder, Option.some.inj htypes⟩

end FieldTypes
