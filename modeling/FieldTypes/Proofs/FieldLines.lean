import FieldTypes.Report
import Mathlib.Data.List.Forall2

/-!
# The lines of fields

The text of reports is made of the rows of their fields, each with a newline behind it. The text has
one line for each field exactly where no row has a newline of its own: a single one is enough for
the numbers of lines and of fields to differ, whatever the other rows are.

**Main definitions.**
* `Text.ofLines`: lines as a text.
* `reportFields`: the fields of reports.
* `LinePerField`: a text has one line for each field, which begins with the field's name.

**Results.**
* `Text.count_ofLines`: the newlines of a text are its lines' ends and those inside.
* `toList_reportLines`: the rows that the text of reports is made of.
* `linePerField_iff`: when there is one line for each field.
-/

namespace FieldTypes
namespace Text

/-- The text of lines, each with a newline behind it. -/
def ofLines (lines : List (List Char)) : List Char :=
  lines.flatMap (· ++ ['\n'])

section OfLines

variable {lines : List (List Char)}

/-- Behind each line there is a newline, and there may be others inside. -/
theorem count_ofLines (lines : List (List Char)) :
    (ofLines lines).count '\n' = lines.length + lines.flatten.count '\n' := by
  induction lines with
  | nil =>
      rfl
  | cons line lines ih =>
      have hsplit : ofLines (line :: lines) = line ++ '\n' :: ofLines lines := by
        simp [ofLines]
      rw [hsplit, List.count_append, List.count_cons_self, ih, List.flatten_cons,
        List.count_append, List.length_cons]
      omega

/-- A text has as many newlines as lines where no line has one inside. -/
theorem count_ofLines_eq_length_iff :
    (ofLines lines).count '\n' = lines.length ↔ ∀ line ∈ lines, '\n' ∉ line := by
  rw [count_ofLines, Nat.add_eq_left, List.count_eq_zero]
  simp only [List.mem_flatten, not_exists, not_and]

/-- The text of lines ends with a newline, unless there are none. -/
theorem getLast?_ofLines (h : lines ≠ []) : (ofLines lines).getLast? = some '\n' := by
  induction lines with
  | nil =>
      exact absurd rfl h
  | cons line lines ih =>
      have hsplit : ofLines (line :: lines) = line ++ ['\n'] ++ ofLines lines := by
        simp [ofLines]
      cases lines with
      | nil =>
          simp [ofLines]
      | cons next lines =>
          rw [hsplit, List.getLast?_append, ih (List.cons_ne_nil _ _)]
          rfl

end OfLines

end Text

/-- The fields of reports, each with the report that it belongs to. -/
def reportFields (ms : List ModelReport) : List (ModelReport × FieldReport) :=
  ms.flatMap fun m => m.fields.map fun f => (m, f)

theorem mem_reportFields_iff {ms : List ModelReport} {e : ModelReport × FieldReport} :
    e ∈ reportFields ms ↔ e.1 ∈ ms ∧ e.2 ∈ e.1.fields := by
  obtain ⟨m, f⟩ := e
  simp [reportFields]

namespace FieldReport

/-- What the line of a field begins with: the name that the model goes by and the field's own. -/
def label (owner : String) (f : FieldReport) : String :=
  owner ++ "." ++ f.name.getD "?"

/-- The line of a field without the newline behind it. -/
def row (mark : ErrorMark) (owner : String) (f : FieldReport) : List Char :=
  (f.label owner).toList ++ ':' :: ' ' :: (f.typeText mark).toList

theorem toList_line (mark : ErrorMark) (owner : String) (f : FieldReport) :
    (f.line mark owner).toList = f.row mark owner ++ ['\n'] := by
  simp [line, row, label]

theorem newline_mem_row_iff {mark : ErrorMark} {owner : String} {f : FieldReport} :
    '\n' ∈ f.row mark owner ↔
      '\n' ∈ owner.toList ∨ '\n' ∈ (f.name.getD "?").toList ∨ '\n' ∈ (f.typeText mark).toList := by
  simp [row, label]

end FieldReport

/-- A text has one line for each field of the reports, in their order, and the line of a field
begins with the name that its model goes by, a dot and the field's name. -/
def LinePerField (text : String) (ms : List ModelReport) : Prop :=
  ∃ lines : List (List Char),
    text.toList = Text.ofLines lines ∧
    (∀ line ∈ lines, '\n' ∉ line) ∧
    List.Forall₂ (fun (e : ModelReport × FieldReport) line => (e.2.label e.1.owner).toList <+: line)
      (reportFields ms) lines

section Lines

variable {mark : ErrorMark} {ms : List ModelReport}

/-- The text of reports is that of the lines of their fields. -/
theorem reportLines_eq_join (mark : ErrorMark) (ms : List ModelReport) :
    reportLines mark ms = String.join ((reportFields ms).map fun e => e.2.line mark e.1.owner) := by
  rw [← String.toList_inj]
  simp [reportLines, ModelReport.lines, reportFields, List.flatMap_map, List.flatMap_assoc]

/-- The rows that the text of reports is made of. -/
theorem toList_reportLines (mark : ErrorMark) (ms : List ModelReport) :
    (reportLines mark ms).toList =
      Text.ofLines ((reportFields ms).map fun e => e.2.row mark e.1.owner) := by
  rw [reportLines_eq_join, String.toList_join, Text.ofLines, List.flatMap_map, List.flatMap_map]
  simp only [FieldReport.toList_line]

/-- The text of reports has at least one newline for each field. -/
theorem length_reportFields_le_count (mark : ErrorMark) (ms : List ModelReport) :
    (reportFields ms).length ≤ (reportLines mark ms).toList.count '\n' := by
  rw [toList_reportLines, Text.count_ofLines, List.length_map]
  exact Nat.le_add_right _ _

/-- There are no other newlines where no row has one of its own. -/
theorem count_eq_length_reportFields_iff :
    (reportLines mark ms).toList.count '\n' = (reportFields ms).length ↔
      ∀ e ∈ reportFields ms, '\n' ∉ e.2.row mark e.1.owner := by
  rw [toList_reportLines, ← List.length_map (fun e : ModelReport × FieldReport =>
    e.2.row mark e.1.owner), Text.count_ofLines_eq_length_iff, List.forall_mem_map]

theorem count_of_linePerField {text : String} (h : LinePerField text ms) :
    text.toList.count '\n' = (reportFields ms).length := by
  obtain ⟨lines, htext, hlines, hfields⟩ := h
  rw [htext, Text.count_ofLines_eq_length_iff.2 hlines, hfields.length_eq]

/-- There is one line for each field where no row has a newline of its own. -/
theorem linePerField_iff :
    LinePerField (reportLines mark ms) ms ↔
      ∀ e ∈ reportFields ms, '\n' ∉ e.2.row mark e.1.owner := by
  constructor
  · intro h
    exact count_eq_length_reportFields_iff.1 (count_of_linePerField h)
  · intro h
    refine ⟨_, toList_reportLines mark ms, List.forall_mem_map.2 h, ?_⟩
    rw [List.forall₂_map_right_iff, List.forall₂_same]
    intro e _
    exact List.prefix_append _ _

end Lines
end FieldTypes
