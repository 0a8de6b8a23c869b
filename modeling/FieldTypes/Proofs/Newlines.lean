import FieldTypes.Proofs.Boxing
import FieldTypes.Proofs.Describing
import FieldTypes.Proofs.Faults
import FieldTypes.Proofs.FieldLines
import FieldTypes.Proofs.Rendering

/-!
# Newlines that documents bring into the text of reports

The text of reports takes over texts of the documents as they are: the title that a model goes by,
or its path where it has none, the name that a reference stands for, a declared type that is none of
the vocabulary, and the path at which aliases come back to themselves. All else in a line is fixed,
and the names of fields are identifiers. So the text has one line for each field exactly where none
of these texts has a newline. Where one has, its fields' lines are broken, and what stands behind
the break may look like the line of another field.

**Main definitions.**
* `Property.Lends`, `Document.Lends`: the texts that documents bring into the lines.

**Results.**
* `Text.newline_mem_capitalizeFirst_iff`: a name has the newlines of its title.
* `Property.newline_mem_typeText_iff`: where a newline in a type, or in its fault, comes from.
* `Document.linePerField_reports_iff`: when the text of reports has one line for each field.
-/

namespace FieldTypes
namespace Text

/-- No character but the newline has an upper case with a newline. -/
theorem newline_mem_upperCase_iff {c : Char} : '\n' ∈ upperCase c ↔ c = '\n' := by
  have hsources : caseSources '\n' = ['\n'] := by decide +kernel
  have hexpansions : ∀ e ∈ caseExpansions, '\n'.toNat ∉ e.2 := by decide
  have hsingle : ∀ x, upperCase c = [x] → '\n' ∈ upperCase c → c = '\n' := by
    intro x hx hmem
    rw [hx, List.mem_singleton] at hmem
    rw [← hmem] at hx
    simpa [hsources] using mem_caseSources hx (by decide)
  constructor
  · intro h
    cases hexpansion : caseExpansions.lookup c.toNat with
    | some codes =>
        rw [upperCase, hexpansion] at h
        obtain ⟨code, hcode, hnewline⟩ := List.mem_map.1 h
        rw [eq_toNat_of_ofNat hnewline (by decide)] at hcode
        exact absurd hcode (hexpansions _ (mem_of_lookup_eq_some hexpansion))
    | none =>
        cases hrun : caseRuns.find? (·.covers c.toNat) with
        | some r =>
            exact hsingle _ (by rw [upperCase, hexpansion, hrun]) h
        | none =>
            exact hsingle c (by rw [upperCase, hexpansion, hrun]) h
  · rintro rfl
    decide +kernel

/-- A name has the newlines of its title. -/
theorem newline_mem_capitalizeFirst_iff {t : String} :
    '\n' ∈ (capitalizeFirst t).toList ↔ '\n' ∈ t.toList := by
  unfold capitalizeFirst
  cases t.toList with
  | nil =>
      simp
  | cons c cs =>
      simp [newline_mem_upperCase_iff, eq_comm]

end Text

section Marks

theorem newline_mem_redAgain_iff {cs : List Char} : '\n' ∈ redAgain cs ↔ '\n' ∈ cs := by
  fun_induction redAgain cs with
  | case1 rest ih =>
      simp [resetCode, redCode, ih]
  | case2 c rest hreset ih =>
      simp [ih]
  | case3 =>
      rfl

/-- No mark of an error has a newline of its own. -/
theorem ErrorMark.newline_mem_text_iff {mark : ErrorMark} {s : String} :
    '\n' ∈ (mark.text s).toList ↔ '\n' ∈ s.toList := by
  cases mark with
  | brackets =>
      simp [ErrorMark.text]
  | red =>
      simp [ErrorMark.text, inRed, redCode, resetCode, newline_mem_redAgain_iff]
  | plain =>
      rfl

end Marks

namespace TypeError

/-- The text of an unknown type has no newline but the type's. -/
theorem newline_mem_message_unknownType_iff {token : String} :
    '\n' ∈ (unknownType token).message.toList ↔ '\n' ∈ token.toList := by
  have hbefore : '\n' ∉ "invalid schema type '".toList := by decide
  have hbehind : '\n' ∉ "'".toList := by decide
  have hmessage : (unknownType token).message = "invalid schema type '" ++ token ++ "'" := rfl
  rw [hmessage, String.toList_append, String.toList_append, List.mem_append, List.mem_append]
  simp only [hbefore, hbehind, false_or, or_false]

/-- The text of a cycle has no newline but the path's. -/
theorem newline_mem_message_cyclicReference_iff {path : Path} :
    '\n' ∈ (cyclicReference path).message.toList ↔ '\n' ∈ path.text.toList := by
  have hbefore : '\n' ∉ "cyclic `$ref` chain re-enters ".toList := by decide
  have hmessage : (cyclicReference path).message =
      "cyclic `$ref` chain re-enters " ++ path.text := rfl
  rw [hmessage, String.toList_append, List.mem_append]
  simp only [hbefore, false_or]

end TypeError

namespace Language

section Newlines

variable {l : Language} {cs : List Container} {inner : String} {b : BaseType}

theorem newline_not_mem_scalar : '\n' ∉ (l.scalar b).toList := by
  cases l <;> cases b <;> decide

theorem newline_mem_element_iff : '\n' ∈ (l.element inner).toList ↔ '\n' ∈ inner.toList := by
  by_cases hl : l = objc
  · subst hl
    cases hbare : isBare inner with
    | true =>
        rw [element_objc_of_bare hbare]
        rcases isBare_iff.1 hbare with rfl | rfl | rfl <;> decide
    | false =>
        rw [element_objc_of_not_bare hbare]
  · rw [element_of_ne_objc l inner hl]

/-- Containers add no newlines to what lies inside. -/
theorem newline_mem_wrapAll_iff :
    '\n' ∈ (l.wrapAll cs inner).toList ↔ '\n' ∈ inner.toList := by
  have hopenings : '\n' ∉ l.openings cs := by
    rw [openings, List.mem_flatMap]
    rintro ⟨c, -, hc⟩
    revert hc
    cases l <;> cases c <;> decide
  have hclosings : '\n' ∉ l.closings cs := by
    rw [closings, List.mem_flatMap]
    rintro ⟨c, -, hc⟩
    revert hc
    cases l <;> cases c <;> decide
  rw [wrapAll_eq_templates, toList_templates]
  simp only [List.mem_append, hopenings, hclosings, false_or, or_false]
  split_ifs with hnil
  · rfl
  · exact newline_mem_element_iff

end Newlines

end Language

/-- The texts of documents that stand in the type of a property, or in its fault: the name that a
reference stands for, a type that is none of the vocabulary, and the path at which a chain of
aliases comes back to itself. -/
inductive Property.Lends (s : Source) (document : Path) (j : Journal) (p : Property) :
    String → Prop where
  | name {q : Property} {r name : String}
      (hends : p.EndsAt q)
      (hreference : q.reference = some r)
      (hname : (followReference s r document j).1 = .ok name) :
      Lends s document j p name
  | token {q : Property} {token : String}
      (hends : p.EndsAt q)
      (hreference : q.reference = none)
      (htype : q.declaredType = some token)
      (hunknown : ∀ t : DeclaredType, token ≠ t.token) :
      Lends s document j p token
  | cycle {q : Property} {r : String} {path : Path}
      (hends : p.EndsAt q)
      (hreference : q.reference = some r)
      (hcyclic : (followReference s r document j).1 = .error (.cyclic path)) :
      Lends s document j p path.text

/-- The texts of documents that stand in the lines of a document's fields: its title, or its path
where it has no name, and those in the types and the faults of its properties. -/
inductive Document.Lends (s : Source) (j : Journal) (d : Document) : String → Prop where
  | title {title : String}
      (hfields : d.properties ≠ [])
      (htitle : d.title = some title) :
      Lends s j d title
  | path
      (hfields : d.properties ≠ [])
      (hnameless : d.typeName = "") :
      Lends s j d d.path.text
  | property {p : Property} {text : String}
      (hp : p ∈ d.properties)
      (hlends : p.Lends s d.path j text) :
      Lends s j d text

section Newlines

variable {s : Source} {l : Language} {document : Path} {j : Journal} {p : Property}
  {mark : ErrorMark}

/-- A newline in a fault comes from the texts that the fault speaks of. -/
theorem Property.exists_lends_of_message {e : TypeError}
    (h : p.leaf.FailsWith s document j e) (hnewline : '\n' ∈ e.message.toList) :
    ∃ text, p.Lends s document j text ∧ '\n' ∈ text.toList := by
  cases h with
  | missingType | missingItems | missingValues =>
      exact absurd hnewline (by decide)
  | unknownType hreference htype hunknown =>
      exact ⟨_, .token p.endsAt_leaf hreference htype hunknown,
        TypeError.newline_mem_message_unknownType_iff.1 hnewline⟩
  | cyclicReference hreference hcyclic =>
      exact ⟨_, .cycle p.endsAt_leaf hreference hcyclic,
        TypeError.newline_mem_message_cyclicReference_iff.1 hnewline⟩

/-- A newline in a type comes from the name of a model inside it. -/
theorem Property.exists_lends_of_type {T : String}
    (h : (resolveType s l document p j).1 = .ok T) (hnewline : '\n' ∈ T.toList) :
    ∃ text, p.Lends s document j text ∧ '\n' ∈ text.toList := by
  obtain ⟨L, hleaf, rfl⟩ := resolveType_fst_eq_ok_iff.1 h
  rw [Language.newline_mem_wrapAll_iff] at hnewline
  cases hreference : p.leaf.reference with
  | none =>
      rw [resolveLeaf, hreference] at hleaf
      obtain ⟨b, -, rfl⟩ := Property.ownType_eq_ok_iff.1 hleaf
      exact absurd hnewline Language.newline_not_mem_scalar
  | some r =>
      rw [resolveLeaf, hreference] at hleaf
      simp only [resolveReference_fst] at hleaf
      cases hfollow : (followReference s r document j).1 with
      | ok name =>
          rw [hfollow] at hleaf
          cases hleaf
          exact ⟨_, .name p.endsAt_leaf hreference hfollow, hnewline⟩
      | error cause =>
          rw [hfollow] at hleaf
          cases cause with
          | cyclic path =>
              cases hleaf
          | unloadable error =>
              cases hleaf
              exact absurd hnewline (by decide)

/-- Whatever text a property takes over from documents, its newlines come into the line. -/
theorem Property.newline_mem_typeText_of_lends {text : String}
    (h : p.Lends s document j text) (hnewline : '\n' ∈ text.toList) :
    '\n' ∈ ((p.report s l document j).1.typeText mark).toList := by
  have hfault : ∀ e, p.leaf.FailsWith s document j e → '\n' ∈ e.message.toList →
      '\n' ∈ ((p.report s l document j).1.typeText mark).toList := by
    intro e he hmessage
    have htype : (p.report s l document j).1.type = .error e := resolveType_eq_error_iff.2 he
    rw [FieldReport.typeText, htype]
    exact ErrorMark.newline_mem_text_iff.2 hmessage
  cases h with
  | name hends hreference hname =>
      obtain rfl := Property.endsAt_iff.1 hends
      have hleaf : (resolveLeaf s l document p.leaf j).1 = .ok text := by
        rw [resolveLeaf, hreference]
        simp only [resolveReference_fst, hname]
      have htype : (p.report s l document j).1.type = .ok (l.wrapAll p.containers text) :=
        resolveType_fst_eq_ok_iff.2 ⟨text, hleaf, rfl⟩
      rw [FieldReport.typeText, htype]
      exact Language.newline_mem_wrapAll_iff.2 hnewline
  | token hends hreference htype hunknown =>
      obtain rfl := Property.endsAt_iff.1 hends
      exact hfault _ (.unknownType hreference htype hunknown)
        (TypeError.newline_mem_message_unknownType_iff.2 hnewline)
  | cycle hends hreference hcyclic =>
      obtain rfl := Property.endsAt_iff.1 hends
      exact hfault _ (.cyclicReference hreference hcyclic)
        (TypeError.newline_mem_message_cyclicReference_iff.2 hnewline)

/-- A newline in what a line says of a type comes from the documents. -/
theorem Property.newline_mem_typeText_iff :
    '\n' ∈ ((p.report s l document j).1.typeText mark).toList ↔
      ∃ text, p.Lends s document j text ∧ '\n' ∈ text.toList := by
  constructor
  · intro h
    rw [FieldReport.typeText] at h
    cases htype : (p.report s l document j).1.type with
    | ok T =>
        rw [htype] at h
        exact Property.exists_lends_of_type htype h
    | error e =>
        rw [htype] at h
        exact Property.exists_lends_of_message (resolveType_eq_error_iff.1 htype)
          (ErrorMark.newline_mem_text_iff.1 h)
  · rintro ⟨text, hlends, hnewline⟩
    exact Property.newline_mem_typeText_of_lends hlends hnewline

/-- A newline in the name that a model goes by comes from its title, or from its path. -/
theorem Document.newline_mem_owner_iff {d : Document} :
    '\n' ∈ (d.report s l j).1.owner.toList ↔
      (∃ t, d.title = some t ∧ '\n' ∈ t.toList) ∨ d.typeName = "" ∧ '\n' ∈ d.path.text.toList := by
  have hname : '\n' ∈ d.typeName.toList ↔ ∃ t, d.title = some t ∧ '\n' ∈ t.toList := by
    unfold Document.typeName
    cases d.title with
    | none =>
        simp
    | some t =>
        simp [Text.newline_mem_capitalizeFirst_iff]
  rw [← hname]
  have howner : (d.report s l j).1.owner = if d.typeName = "" then d.path.text else d.typeName :=
    rfl
  rw [howner]
  split_ifs with hnameless
  · simp [hnameless]
  · simp [hnameless]

/-- The names of the fields of a document that was read are identifiers, which have no newline. -/
theorem Document.newline_not_mem_name
    {path : Path} {value : Json} (hp : p ∈ (Document.ofJson path value).properties) :
    '\n' ∉ (p.name.getD "?").toList := by
  have hrenamed := Document.renamed_of_mem_properties hp
  obtain ⟨hname, -, -⟩ := Property.renamed_eq_self_iff.1 hrenamed
  cases hn : p.name with
  | none =>
      decide
  | some n =>
      rw [hn, Option.map_some, Option.some.injEq, declaredIdentifier_eq_self_iff] at hname
      exact not_mem_of_isIdentifier hname (by decide)

theorem mem_reportFields_reports {ds : List Document} {e : ModelReport × FieldReport} :
    e ∈ reportFields (Resolving.each (Document.report s l) ds j).1 ↔
      ∃ d ∈ ds, ∃ p ∈ d.properties, e = ((d.report s l j).1, (p.report s l d.path j).1) := by
  have hfields : ∀ d : Document, (d.report s l j).1.fields =
      d.properties.map fun p => (p.report s l d.path j).1 := by
    intro d
    rw [Document.report_fst (rfl : j.view s = j.view s)]
  rw [reports_fst ds (rfl : j.view s = j.view s)]
  simp [reportFields, hfields, eq_comm]

end Newlines

/-- The rows of the reports of documents that were read have newlines exactly where the documents
bring them in. -/
theorem Document.newline_not_mem_rows_iff
    (s : Source) (l : Language) (j : Journal) (mark : ErrorMark) {ds : List Document}
    (hread : ∀ d ∈ ds, ∃ path value, d = Document.ofJson path value) :
    (∀ e ∈ reportFields (Resolving.each (Document.report s l) ds j).1,
        '\n' ∉ e.2.row mark e.1.owner) ↔
      ∀ d ∈ ds, ∀ text, d.Lends s j text → '\n' ∉ text.toList := by
  constructor
  · intro h d hd text hlends hnewline
    have hrow : ∀ p ∈ d.properties,
        '\n' ∉ (p.report s l d.path j).1.row mark (d.report s l j).1.owner :=
      fun p hp => h ((d.report s l j).1, (p.report s l d.path j).1)
        (mem_reportFields_reports.2 ⟨d, hd, p, hp, rfl⟩)
    have howner : d.properties ≠ [] → '\n' ∉ (d.report s l j).1.owner.toList := by
      intro hfields howner
      obtain ⟨p, hp⟩ := List.exists_mem_of_ne_nil _ hfields
      exact hrow p hp (FieldReport.newline_mem_row_iff.2 (Or.inl howner))
    cases hlends with
    | title hfields htitle =>
        exact howner hfields (Document.newline_mem_owner_iff.2 (Or.inl ⟨_, htitle, hnewline⟩))
    | path hfields hnameless =>
        exact howner hfields (Document.newline_mem_owner_iff.2 (Or.inr ⟨hnameless, hnewline⟩))
    | property hp hlends =>
        refine hrow _ hp (FieldReport.newline_mem_row_iff.2 (Or.inr (Or.inr ?_)))
        exact Property.newline_mem_typeText_of_lends hlends hnewline
  · intro h e he hnewline
    obtain ⟨d, hd, p, hp, rfl⟩ := mem_reportFields_reports.1 he
    have hfields : d.properties ≠ [] := List.ne_nil_of_mem hp
    rcases FieldReport.newline_mem_row_iff.1 hnewline with howner | hname | htype
    · rcases Document.newline_mem_owner_iff.1 howner with ⟨t, ht, hin⟩ | ⟨hnameless, hin⟩
      · exact h d hd t (.title hfields ht) hin
      · exact h d hd _ (.path hfields hnameless) hin
    · obtain ⟨path, value, rfl⟩ := hread d hd
      exact Document.newline_not_mem_name hp hname
    · obtain ⟨text, hlends, hin⟩ := Property.newline_mem_typeText_iff.1 htype
      exact h d hd text (.property hp hlends) hin

/-- The text of the reports of documents that were read, in whatever form errors are marked. It has
one line for each field, in order, each of which begins with the name of its model and that of the
field, exactly where no text that the documents bring into it has a newline: no title of theirs, no
path of a model without a name, no name that a reference stands for, no type that is none of the
vocabulary, and no path at which aliases come back to themselves. Otherwise there are more lines
than fields; there are never fewer, so no line swallows another one. -/
theorem Document.linePerField_reports_iff
    (s : Source)
    (l : Language)
    (j : Journal)
    (mark : ErrorMark)
    (ds : List Document)
    (hread : ∀ d ∈ ds, ∃ path value, d = Document.ofJson path value) :
    let ms := (Resolving.each (Document.report s l) ds j).1
    (LinePerField (reportLines mark ms) ms ↔
      ∀ d ∈ ds, ∀ text, d.Lends s j text → '\n' ∉ text.toList) ∧
    (reportFields ms).length ≤ (reportLines mark ms).toList.count '\n' ∧
    ((reportFields ms).length < (reportLines mark ms).toList.count '\n' ↔
      ∃ d ∈ ds, ∃ text, d.Lends s j text ∧ '\n' ∈ text.toList) := by
  intro ms
  have hrows := Document.newline_not_mem_rows_iff s l j mark hread
  have hle : (reportFields ms).length ≤ (reportLines mark ms).toList.count '\n' :=
    length_reportFields_le_count mark ms
  refine ⟨linePerField_iff.trans hrows, hle, ?_⟩
  rw [Nat.lt_iff_le_and_ne, and_iff_right hle, ne_comm, ne_eq, count_eq_length_reportFields_iff,
    hrows]
  push Not
  rfl

/-- Two models. The title of one of them has a newline, behind which it looks like a line of the
other one. -/
def forgingModels : FileTree where
  workingDirectory := []
  nodes := [
    (["a.json"], .file
      ("\x7b\"title\": \"user\", " ++
        "\"properties\": [\x7b\"name\": \"id\", \"$ref\": \"b.json\"\x7d]\x7d").toUTF8),
    (["b.json"], .file "\x7b\"title\": \"a\\nUser.admin: Bool\"\x7d".toUTF8)]

/-- A model with one field of a type. -/
def modelOf (field : Json) : Json :=
  .object [("title", .string "user"), ("properties", .array [field])]

theorem Document.linePerField_reports_iff_forgingModels :
    let sound := Document.ofJson ⟨"a.json"⟩ (modelOf (.object [("type", .string "widget")]))
    let forged := Document.ofJson ⟨"a.json"⟩ (modelOf (.object [("$ref", .string "b.json")]))
    let reports := fun d : Document =>
      (Resolving.each (Document.report forgingModels.documents .rust) [d] {}).1
    (followReference forgingModels.documents "b.json" ⟨"a.json"⟩ {}).1 =
      .ok "A\nUser.admin: Bool" ∧
    LinePerField (reportLines .brackets (reports sound)) (reports sound) ∧
    ¬ LinePerField (reportLines .brackets (reports forged)) (reports forged) := by
  intro sound forged reports
  have hname : (followReference forgingModels.documents "b.json" ⟨"a.json"⟩ {}).1 =
      .ok "A\nUser.admin: Bool" := by
    decide +kernel
  refine ⟨hname, ?_, ?_⟩
  · obtain ⟨hlines, -⟩ := Document.linePerField_reports_iff forgingModels.documents .rust {}
      .brackets [sound] (by simpa using ⟨_, _, rfl⟩)
    refine hlines.2 ?_
    intro d hd text hlends
    obtain rfl := List.mem_singleton.1 hd
    cases hlends with
    | title hfields htitle =>
        cases htitle
        decide
    | path =>
        decide
    | property hp hlends =>
        obtain rfl := List.mem_singleton.1 hp
        cases hlends with
        | name hends hreference | cycle hends hreference =>
            obtain rfl := Property.endsAt_iff.1 hends
            cases hreference
        | token hends hreference htype =>
            obtain rfl := Property.endsAt_iff.1 hends
            cases htype
            decide
  · obtain ⟨hlines, -⟩ := Document.linePerField_reports_iff forgingModels.documents .rust {}
      .brackets [forged] (by simpa using ⟨_, _, rfl⟩)
    intro h
    have hends : ({ reference := some "b.json" } : Property).EndsAt
        { reference := some "b.json" } :=
      .here (by simp) (by simp)
    exact hlines.1 h forged (List.mem_singleton_self _) _
      (.property (List.mem_singleton_self _) (.name hends rfl hname)) (by decide)

/-- One field, two lines: the second one is the title of the model that the field refers to. -/
theorem Document.forged_line_forgingModels :
    ∃ ms, (reportModels forgingModels.documents [⟨"a.json"⟩] .swift false {}).1 = .ok ms ∧
      (reportFields ms).length = 1 ∧
      reportLines .brackets ms = "User.id: A\nUser.admin: Bool\n" ∧
      ¬ LinePerField (reportLines .brackets ms) ms := by
  have hreports : ((reportModels forgingModels.documents [⟨"a.json"⟩] .swift false {}).1.map
      fun ms => ((reportFields ms).length, reportLines .brackets ms)) =
        .ok (1, "User.id: A\nUser.admin: Bool\n") := by
    decide +kernel
  cases hms : (reportModels forgingModels.documents [⟨"a.json"⟩] .swift false {}).1 with
  | error e =>
      rw [hms] at hreports
      cases hreports
  | ok ms =>
      rw [hms] at hreports
      obtain ⟨hlength, hlines⟩ := Prod.mk.inj (Except.ok.inj hreports)
      refine ⟨ms, rfl, hlength, hlines, ?_⟩
      intro h
      have hcount := count_of_linePerField h
      rw [hlength, hlines] at hcount
      revert hcount
      decide

end FieldTypes
