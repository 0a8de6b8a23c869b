import FieldTypes.Proofs.FieldLines
import FieldTypes.Proofs.Footprint

/-!
# Reports printed and reports written

The same command without an output file prints what it would have written to the file, but for the
marks of errors: in a file an error stands in brackets, and where it is printed without colors it
stands bare. JSON has no marks, and neither has a line with a type. So the two texts are the same,
up to a newline at the end, exactly in JSON and where every field has a type; otherwise each failed
field makes two characters of difference.

**Main definitions.**
* `SameButNewline`: two texts are the same up to a newline at the end.
* `FieldReport.LineBeside`: the line of a field as it is printed, beside the one that is written.

**Results.**
* `length_reportLines_brackets`: how much longer the brackets make the text.
* `sameButNewline_reportText_iff`: when the marks make no difference.
* `Command.printed_beside_written`: what is printed, beside what is written.
-/

namespace FieldTypes

/-- Two texts are the same, but for a newline that one of them may have more at the end. -/
def SameButNewline (a b : String) : Prop :=
  a = b ∨ a = b ++ "\n" ∨ b = a ++ "\n"

/-- The line of a field as it is printed without colors, beside the line that is written to a file:
a type is the same in both, and an error stands in brackets in the file. -/
inductive FieldReport.LineBeside (owner : String) (f : FieldReport) : String → String → Prop where
  | typed {type : String}
      (htype : f.type = .ok type) :
      LineBeside owner f (f.label owner ++ ": " ++ type ++ "\n")
        (f.label owner ++ ": " ++ type ++ "\n")
  | failed {e : TypeError}
      (htype : f.type = .error e) :
      LineBeside owner f (f.label owner ++ ": " ++ e.message ++ "\n")
        (f.label owner ++ ": <" ++ e.message ++ ">\n")

section Texts

variable {a b s : String}

theorem length_le_of_sameButNewline (h : SameButNewline a b) : b.length ≤ a.length + 1 := by
  have hone : ("\n" : String).length = 1 := by decide
  rcases h with rfl | rfl | rfl
  · exact Nat.le_succ _
  · rw [String.length_append]
    omega
  · rw [String.length_append, hone]

theorem sameButNewline_withNewline (s : String) : SameButNewline (withNewline s) s := by
  unfold withNewline
  split_ifs
  · exact Or.inl rfl
  · exact Or.inr (Or.inl rfl)

end Texts

namespace FieldReport

variable {f : FieldReport} {owner : String}

/-- How the lines of a field stand beside each other. -/
theorem lineBeside (owner : String) (f : FieldReport) :
    f.LineBeside owner (f.line .plain owner) (f.line .brackets owner) := by
  have hline : ∀ mark, f.line mark owner = f.label owner ++ ": " ++ f.typeText mark ++ "\n" :=
    fun mark => rfl
  cases htype : f.type with
  | ok type =>
      have htext : ∀ mark, f.typeText mark = type := by
        intro mark
        rw [typeText, htype]
      rw [hline, hline, htext, htext]
      exact .typed htype
  | error e =>
      have htext : ∀ mark, f.typeText mark = mark.text e.message := by
        intro mark
        rw [typeText, htype]
      have hbrackets : f.line .brackets owner = f.label owner ++ ": <" ++ e.message ++ ">\n" := by
        rw [hline, htext, ← String.toList_inj]
        simp [ErrorMark.text]
      rw [hbrackets, hline, htext]
      exact .failed htype

/-- Brackets take two characters. -/
theorem length_line_brackets (owner : String) (f : FieldReport) :
    (f.line .brackets owner).length =
      (f.line .plain owner).length + if f.isFailed then 2 else 0 := by
  have hbeside := f.lineBeside owner
  generalize f.line .plain owner = printed at hbeside ⊢
  generalize f.line .brackets owner = written at hbeside ⊢
  cases hbeside with
  | typed htype =>
      simp [isFailed, htype]
  | failed htype =>
      have hopening : (": <" : String).length = (": " : String).length + 1 := by decide
      have hclosing : (">\n" : String).length = ("\n" : String).length + 1 := by decide
      simp only [isFailed, htype, String.length_append, hopening, hclosing, if_true]
      omega

theorem line_eq_of_typed {type : String} (htype : f.type = .ok type) (mark mark' : ErrorMark) :
    f.line mark owner = f.line mark' owner := by
  rw [line, line, typeText, typeText, htype]

end FieldReport

section Reports

variable {ms : List ModelReport} {format : OutputFormat} {mark : ErrorMark}

/-- Reporting ends well where no field has failed. -/
theorem outcomeOf_eq_clean_iff_countP :
    outcomeOf ms = .clean ↔ ((reportFields ms).countP fun e => e.2.isFailed) = 0 := by
  have htyped : ∀ f : FieldReport, ¬ f.isFailed = true ↔ ∃ type, f.type = .ok type := by
    intro f
    unfold FieldReport.isFailed
    cases f.type <;> simp
  rw [outcomeOf_eq_clean_iff, List.countP_eq_zero]
  simp only [htyped, Prod.forall, mem_reportFields_iff, and_imp]
  exact ⟨fun h m f hm hf => h m hm f hf, fun h m hm f hf => h m f hm hf⟩

/-- The text in which errors stand in brackets is longer by two characters for each of them. -/
theorem length_reportLines_brackets (ms : List ModelReport) :
    (reportLines .brackets ms).length =
      (reportLines .plain ms).length + 2 * (reportFields ms).countP fun e => e.2.isFailed := by
  rw [reportLines_eq_join, reportLines_eq_join]
  induction reportFields ms with
  | nil =>
      rfl
  | cons e es ih =>
      simp only [List.map_cons, String.join_cons, String.length_append, ih,
        FieldReport.length_line_brackets, List.countP_cons]
      split_ifs <;> omega

/-- Where every field has a type, marks make no difference. -/
theorem reportLines_eq_of_clean (h : outcomeOf ms = .clean) (mark mark' : ErrorMark) :
    reportLines mark ms = reportLines mark' ms := by
  rw [reportLines_eq_join, reportLines_eq_join]
  refine congrArg String.join (List.map_congr_left ?_)
  intro e he
  obtain ⟨hm, hf⟩ := mem_reportFields_iff.1 he
  obtain ⟨type, htype⟩ := outcomeOf_eq_clean_iff.1 h e.1 hm e.2 hf
  exact FieldReport.line_eq_of_typed htype mark mark'

/-- The text of reports that have a field ends with a newline already. -/
theorem withNewline_reportLines (h : reportFields ms ≠ []) :
    withNewline (reportLines mark ms) = reportLines mark ms := by
  refine if_pos ?_
  rw [toList_reportLines]
  exact Text.getLast?_ofLines (by simpa using h)

/-- What is printed and what is written are the same, up to a newline, exactly in JSON and where no
field has failed. -/
theorem sameButNewline_reportText_iff :
    SameButNewline (withNewline (reportText format .plain ms)) (reportText format .brackets ms) ↔
      format = .json ∨ outcomeOf ms = .clean := by
  cases format with
  | json =>
      exact iff_of_true (sameButNewline_withNewline _) (Or.inl rfl)
  | text =>
      simp only [reportText, reduceCtorEq, false_or]
      constructor
      · intro h
        by_contra hclean
        rw [outcomeOf_eq_clean_iff_countP] at hclean
        have hfields : reportFields ms ≠ [] := by
          intro hnone
          exact hclean (by rw [hnone, List.countP_nil])
        -- A failed field makes two characters of difference, and a newline only one.
        have hlength := length_le_of_sameButNewline h
        rw [withNewline_reportLines hfields, length_reportLines_brackets] at hlength
        omega
      · intro hclean
        rw [reportLines_eq_of_clean hclean .brackets .plain]
        exact sameButNewline_withNewline _

end Reports

/-- What a command without colors prints, beside what it writes to an output file when that ends
well. It ends alike without the file. The two texts are the same, up to a newline at the end,
exactly in JSON and where every field that is reported has a type. In the text form there is one
line for each field, in order, in both of them, and the lines of a field differ in the brackets
around its error alone. -/
theorem Command.printed_beside_written
    (t : FileTree)
    (inputs : List String)
    (l : Language)
    (follow : Bool)
    (format : OutputFormat)
    (file : Path)
    (o : Outcome)
    (h : ((Command.resolve inputs l follow format (some file)).run t false).result = .ok o) :
    ((Command.resolve inputs l follow format none).run t false).result = .ok o ∧
    ∃ roots ms written,
      t.inputPaths inputs = .ok roots ∧
      (reportModels t.documents roots l follow {}).1 = .ok ms ∧
      ((Command.resolve inputs l follow format (some file)).run t false).tree.read file =
        .ok written ∧
      (SameButNewline ((Command.resolve inputs l follow format none).run t false).output written ↔
        format = .json ∨ o = .clean) ∧
      (format = .text →
        ∃ lines : List (String × String),
          ((Command.resolve inputs l follow format none).run t false).output =
            withNewline (String.join (lines.map (·.1))) ∧
          written = String.join (lines.map (·.2)) ∧
          List.Forall₂ (fun (e : ModelReport × FieldReport) line =>
            e.2.LineBeside e.1.owner line.1 line.2) (reportFields ms) lines) := by
  obtain ⟨roots, ms, ws, hroots, hms, hrun, rfl⟩ := Command.exists_reports_of_run h
  have hprinted : (Command.resolve inputs l follow format none).run t false = _ :=
    Command.runResolve_of_reports hroots hms false format none
  have hwritten :
      ((Command.resolve inputs l follow format (some file)).run t false).tree.read file =
        .ok (reportText format .brackets ms) := by
    rw [hrun] at h ⊢
    exact delivered_deliver h
  rw [hprinted]
  refine ⟨rfl, roots, ms, _, hroots, hms, hwritten, sameButNewline_reportText_iff, ?_⟩
  rintro rfl
  refine ⟨(reportFields ms).map fun e => (e.2.line .plain e.1.owner, e.2.line .brackets e.1.owner),
    ?_, ?_, ?_⟩
  · rw [List.map_map]
    exact congrArg withNewline (reportLines_eq_join .plain ms)
  · rw [List.map_map]
    exact reportLines_eq_join .brackets ms
  · rw [List.forall₂_map_right_iff, List.forall₂_same]
    intro e _
    exact e.2.lineBeside e.1.owner

/-- A model with a field that has a type and one that has none. -/
def halfTypedModel : FileTree where
  workingDirectory := []
  nodes := [
    (["a.json"], .file
      ("\x7b\"title\": \"user\", \"properties\": " ++
        "\x7b\"id\": \x7b\"type\": \"integer\"\x7d, " ++
        "\"tags\": \x7b\"type\": \"array\"\x7d\x7d\x7d").toUTF8)]

theorem Command.printed_beside_written_halfTypedModel :
    ((Command.resolve ["a.json"] .swift true .text none).run halfTypedModel false).result =
      .ok .fieldErrors ∧
    (∃ written,
      ((Command.resolve ["a.json"] .swift true .text (some ⟨"out/r.txt"⟩)).run
        halfTypedModel false).tree.read ⟨"out/r.txt"⟩ = .ok written ∧
      ¬ SameButNewline
        ((Command.resolve ["a.json"] .swift true .text none).run halfTypedModel false).output
        written) ∧
    ∃ written,
      ((Command.resolve ["a.json"] .swift true .json (some ⟨"out/r.json"⟩)).run
        halfTypedModel false).tree.read ⟨"out/r.json"⟩ = .ok written ∧
      SameButNewline
        ((Command.resolve ["a.json"] .swift true .json none).run halfTypedModel false).output
        written := by
  have htext : ((Command.resolve ["a.json"] .swift true .text (some ⟨"out/r.txt"⟩)).run
      halfTypedModel false).result = .ok .fieldErrors := by
    decide +kernel
  have hjson : ((Command.resolve ["a.json"] .swift true .json (some ⟨"out/r.json"⟩)).run
      halfTypedModel false).result = .ok .fieldErrors := by
    decide +kernel
  obtain ⟨hresult, _, _, written, -, -, hwritten, hsame, -⟩ :=
    Command.printed_beside_written halfTypedModel ["a.json"] .swift true .text _ _ htext
  obtain ⟨-, _, _, written', -, -, hwritten', hsame', -⟩ :=
    Command.printed_beside_written halfTypedModel ["a.json"] .swift true .json _ _ hjson
  refine ⟨hresult, ⟨written, hwritten, fun h => ?_⟩, written', hwritten', hsame'.2 (Or.inl rfl)⟩
  exact absurd (hsame.1 h) (by decide)

/-- An error that is printed bare stands in brackets in the file. -/
theorem Command.printed_ne_written_halfTypedModel :
    ((Command.resolve ["a.json"] .swift false .text (some ⟨"r.txt"⟩)).run
      halfTypedModel false).tree.read ⟨"r.txt"⟩ =
        .ok "User.id: Int\nUser.tags: <array property is missing `items`>\n" ∧
    ((Command.resolve ["a.json"] .swift false .text none).run halfTypedModel false).output =
      "User.id: Int\nUser.tags: array property is missing `items`\n" ∧
    ¬ SameButNewline "User.id: Int\nUser.tags: array property is missing `items`\n"
      "User.id: Int\nUser.tags: <array property is missing `items`>\n" := by
  refine ⟨by decide +kernel, by decide +kernel, ?_⟩
  unfold SameButNewline
  decide

end FieldTypes
