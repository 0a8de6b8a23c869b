import FieldTypes.Proofs.Describing
import FieldTypes.Proofs.Footprint

/-!
# The text of descriptions

Documents are described in one text: an array of their descriptions, each an object with a list of
properties. So a property lies three levels deep there, and only two in the document that it comes
from. The text reads as the descriptions that it was written for as long as this is within what
documents may have; a document that takes up all of the levels has a description that takes up one
too many.

**Results.**
* `Json.parseAt_write_iff`: which texts of plain values are documents.
* `Document.depth_toJson_le_iff`: how deep a description is nested.
* `Command.describe_accepted_iff`: when what is put out by a describing command can be read.
-/

namespace FieldTypes
namespace Json

variable {v w : Json} {n : Nat}

/-- A plain value is read back from its text, with blanks behind it, exactly if it is not nested too
deeply. -/
theorem parseAt_write_iff
    (l : Layout)
    (h : v.Plain)
    (path : Path)
    {source : String}
    {blanks : List Char}
    (hsource : source.toList = write l 0 v ++ blanks)
    (hblanks : ∀ c ∈ blanks, isBlank c = true) :
    parseAt path source = .ok w ↔ v.depth ≤ maxDepth ∧ w = v := by
  rw [parseAt_eq_ok_iff, hsource]
  constructor
  · intro hw
    obtain rfl := eq_of_documentWithin (documentWithin_write_append l h (Nat.le_refl _) hblanks) hw
    exact ⟨depth_le_of_documentWithin hw, rfl⟩
  · rintro ⟨hd, rfl⟩
    exact documentWithin_write_append l h hd hblanks

theorem depth_array_le_iff {vs : List Json} :
    (array vs).depth ≤ n + 1 ↔ ∀ v ∈ vs, v.depth ≤ n := by
  rw [depth, Nat.add_le_add_iff_right, itemsDepth_le]

/-- The value of a key lies one level deeper. -/
theorem depth_lt_of_member? {key : String} (h : v.member? key = some w) :
    w.depth < v.depth := by
  cases v with
  | object ms =>
      exact Nat.lt_succ_of_le
        (membersDepth_le.1 (Nat.le_refl _) (key, w) (mem_of_lookup_eq_some h))
  | null | bool b | number n | string s | array vs =>
      cases h

end Json

namespace Property

variable {p : Property} {n : Nat}

theorem depth_toJson_le_iff :
    p.toJson.depth ≤ n + 1 ↔
      (∀ q, p.items = some q → q.toJson.depth ≤ n) ∧
        ∀ q, p.values = some q → q.toJson.depth ≤ n := by
  refine ⟨fun h => ?_, fun ⟨hitems, hvalues⟩ => depth_toJson_le hitems hvalues⟩
  rw [toJson_eq, Json.depth, Nat.add_le_add_iff_right, Json.membersDepth_le] at h
  constructor
  · intro q hq
    exact h ("items", q.toJson) (by simp [written, hq, inside])
  · intro q hq
    exact h ("additionalProperties", q.toJson) (by simp [written, hq, inside])

/-- The key of a property has no part in how deep it is nested. -/
theorem depth_toJson_named (key : String) (p : Property) :
    (p.named key).toJson.depth = p.toJson.depth := by
  have hinner : (p.named key).items = p.items ∧ (p.named key).values = p.values := by
    unfold named
    cases p.name <;> exact ⟨rfl, rfl⟩
  have hle : ∀ n, (p.named key).toJson.depth ≤ n + 1 ↔ p.toJson.depth ≤ n + 1 := by
    intro n
    rw [depth_toJson_le_iff, depth_toJson_le_iff, hinner.1, hinner.2]
  have hpositive : ∀ q : Property, ∃ n, q.toJson.depth = n + 1 := by
    intro q
    rw [toJson_eq]
    exact ⟨_, rfl⟩
  obtain ⟨m, hm⟩ := hpositive (p.named key)
  obtain ⟨n, hn⟩ := hpositive p
  exact Nat.le_antisymm (hn ▸ (hle n).2 (Nat.le_of_eq hn)) (hm ▸ (hle m).1 (Nat.le_of_eq hm))

end Property

namespace Document

variable {d : Document} {path : Path} {v : Json} {p : Property} {n : Nat}

/-- A description can be read back from its text. -/
theorem plain_toJson (d : Document) : d.toJson.Plain := by
  refine .object (by simp) ?_
  intro m hm
  simp only [List.mem_cons, List.not_mem_nil, or_false] at hm
  rcases hm with rfl | rfl | rfl
  · exact .string _
  · cases d.title with
    | none =>
        exact .null
    | some title =>
        exact .string title
  · refine .array ?_
    intro v hv
    obtain ⟨p, -, rfl⟩ := List.mem_map.1 hv
    exact Property.plain_toJson p

/-- The properties lie two levels deep in a description. -/
theorem depth_toJson_le_iff :
    d.toJson.depth ≤ n + 2 ↔ ∀ p ∈ d.properties, p.toJson.depth ≤ n := by
  have htitle : (Json.ofString? d.title).depth = 0 := by
    cases d.title <;> rfl
  rw [toJson, Json.depth, Nat.add_le_add_iff_right, Json.membersDepth_le]
  simp [htitle, Json.depth, Json.itemsDepth_le]

/-- A property is nested no deeper than two levels less than the value of its document, apart from
the one object that it always is. -/
theorem depth_of_mem_properties (hp : p ∈ (ofJson path v).properties) :
    p.toJson.depth ≤ max 1 (v.depth - 2) := by
  have hproperties : p ∈ propertiesOf (v.member? "properties") := hp
  unfold propertiesOf at hproperties
  split at hproperties
  · next items hmember =>
      obtain ⟨item, hitem, rfl⟩ := List.mem_map.1 hproperties
      have houter := Json.depth_lt_of_member? hmember
      have hinner := Json.itemsDepth_le.1 (Nat.le_refl _) item hitem
      have hdepth := Property.depth_toJson_ofJson_le item
      rw [Json.depth] at houter
      omega
  · next members hmember =>
      obtain ⟨m, hm, rfl⟩ := List.mem_map.1 hproperties
      have houter := Json.depth_lt_of_member? hmember
      have hinner := Json.membersDepth_le.1 (Nat.le_refl _) m hm
      have hdepth := Property.depth_toJson_ofJson_le m.2
      rw [Json.depth] at houter
      rw [Property.depth_toJson_named]
      omega
  · cases hproperties

end Document

/-- The value that describes several documents. -/
def Document.describeAll (ds : List Document) : Json :=
  .array (ds.map Document.toJson)

section Descriptions

variable {ds : List Document}

theorem Document.plain_describeAll (ds : List Document) : (describeAll ds).Plain := by
  refine .array ?_
  intro v hv
  obtain ⟨d, -, rfl⟩ := List.mem_map.1 hv
  exact d.plain_toJson

theorem Document.depth_describeAll_le_iff :
    (describeAll ds).depth ≤ Json.maxDepth ↔
      ∀ d ∈ ds, ∀ p ∈ d.properties, p.toJson.depth + 3 ≤ Json.maxDepth := by
  have hlevels : (∀ d ∈ ds, ∀ p ∈ d.properties, p.toJson.depth + 3 ≤ Json.maxDepth) ↔
      ∀ d ∈ ds, ∀ p ∈ d.properties, p.toJson.depth ≤ 124 :=
    forall₂_congr fun d _ => forall₂_congr fun p _ => by rw [Json.maxDepth]; omega
  rw [hlevels, describeAll, Json.maxDepth, Json.depth_array_le_iff]
  simp [Document.depth_toJson_le_iff]

/-- A newline at the end is a blank. -/
theorem exists_toList_withNewline (s : String) :
    ∃ blanks, (withNewline s).toList = s.toList ++ blanks ∧
      ∀ c ∈ blanks, Json.isBlank c = true := by
  unfold withNewline
  split_ifs
  · exact ⟨[], by simp, by simp⟩
  · exact ⟨['\n'], by simp, by simp; decide⟩

end Descriptions

/-- A document whose value leaves a level over has a description that can be read. -/
theorem FileTree.depth_of_load {t : FileTree} {path : Path} {d : Document} {p : Property}
    {source : String} {v : Json}
    (hd : t.load path = .ok d)
    (hsource : t.read path = .ok source)
    (hv : Json.documentWithin (Json.maxDepth - 1) source.toList = .ok v)
    (hp : p ∈ d.properties) :
    p.toJson.depth + 3 ≤ Json.maxDepth := by
  obtain ⟨source', v', hsource', hv', rfl⟩ := load_eq_ok_iff.1 hd
  rw [hsource] at hsource'
  cases hsource'
  have hparse : Json.parseAt path source = .ok v' := by
    rw [Json.parseAt, hv']
  obtain rfl := Json.eq_of_documentWithin (Json.parseAt_eq_ok_iff.1 hparse) hv
  have hlevels := Json.depth_le_of_documentWithin hv
  have hdepth := Document.depth_of_mem_properties hp
  simp only [Json.maxDepth] at hlevels ⊢
  omega

section Describe

variable {t : FileTree} {inputs : List String} {paths : List Path} {ds : List Document}
  {color : Bool}

theorem Command.run_describe_eq (out : Option Path)
    (hpaths : t.inputPaths inputs = .ok paths)
    (hds : paths.mapM t.load = .ok ds) :
    (Command.describe inputs out).run t color =
      deliver t out (Document.describeAll ds).pretty .clean [] := by
  rw [Command.run, Command.runDescribe, hpaths]
  simp only
  rw [hds]
  rfl

/-- Printing descriptions does not fail. -/
theorem Command.result_describe_none
    (hpaths : t.inputPaths inputs = .ok paths)
    (hds : paths.mapM t.load = .ok ds) :
    ((Command.describe inputs none).run t color).result = .ok .clean := by
  rw [run_describe_eq none hpaths hds]
  rfl

/-- What a describing command puts out is read as the descriptions, or not at all. -/
theorem Command.parseAt_describe_iff {out : Option Path} {o : Outcome}
    (hpaths : t.inputPaths inputs = .ok paths)
    (hds : paths.mapM t.load = .ok ds)
    (hresult : ((Command.describe inputs out).run t color).result = .ok o) :
    ∃ text, ((Command.describe inputs out).run t color).delivered out = .ok text ∧
      ∀ origin v, Json.parseAt origin text = .ok v ↔
        (∀ d ∈ ds, ∀ p ∈ d.properties, p.toJson.depth + 3 ≤ Json.maxDepth) ∧
          v = .array (ds.map Document.toJson) := by
  have hpretty : (Document.describeAll ds).pretty.toList =
      Json.write .pretty 0 (Document.describeAll ds) := by
    rw [Json.pretty, Json.render, String.toList_ofList]
  have htext : ∃ blanks,
      (if out.isSome then (Document.describeAll ds).pretty
        else withNewline (Document.describeAll ds).pretty).toList =
          Json.write .pretty 0 (Document.describeAll ds) ++ blanks ∧
        ∀ c ∈ blanks, Json.isBlank c = true := by
    cases out with
    | none =>
        rw [← hpretty]
        exact exists_toList_withNewline _
    | some file =>
        exact ⟨[], hpretty.trans (List.append_nil _).symm, List.forall_mem_nil _⟩
  obtain ⟨blanks, hblanks, hblank⟩ := htext
  rw [run_describe_eq out hpaths hds] at hresult ⊢
  refine ⟨_, delivered_deliver hresult, ?_⟩
  intro origin v
  rw [Json.parseAt_write_iff .pretty (Document.plain_describeAll ds) origin hblanks hblank,
    Document.depth_describeAll_le_iff]
  rfl

end Describe

/-- What a describing command puts out, printed or into a file, is a document exactly if each
property that is described leaves three levels around it, and is the array of the descriptions then.
That is so wherever the sources have one level less than they may have. -/
theorem Command.describe_accepted_iff
    (t : FileTree)
    (color : Bool)
    (inputs : List String)
    (out : Option Path)
    (paths : List Path)
    (ds : List Document)
    (hpaths : t.inputPaths inputs = .ok paths)
    (hds : paths.mapM t.load = .ok ds) :
    (out = none → ((Command.describe inputs out).run t color).result = .ok .clean) ∧
    ∀ o, ((Command.describe inputs out).run t color).result = .ok o →
      ∃ text, ((Command.describe inputs out).run t color).delivered out = .ok text ∧
        (∀ origin v, Json.parseAt origin text = .ok v ↔
          (∀ d ∈ ds, ∀ p ∈ d.properties, p.toJson.depth + 3 ≤ Json.maxDepth) ∧
            v = .array (ds.map Document.toJson)) ∧
        ((∀ path ∈ paths, ∃ source v, t.read path = .ok source ∧
            Json.documentWithin (Json.maxDepth - 1) source.toList = .ok v) →
          ∀ origin, Json.parseAt origin text = .ok (.array (ds.map Document.toJson))) := by
  refine ⟨?_, ?_⟩
  · rintro rfl
    exact Command.result_describe_none hpaths hds
  · intro o hresult
    obtain ⟨text, htext, haccepted⟩ := Command.parseAt_describe_iff hpaths hds hresult
    refine ⟨text, htext, haccepted, ?_⟩
    intro hsources origin
    refine (haccepted origin _).2 ⟨?_, rfl⟩
    intro d hd p hp
    obtain ⟨path, hpath, hload⟩ := (answers_of_mapM_eq_ok hds).2 d hd
    obtain ⟨source, v, hsource, hv⟩ := hsources path hpath
    exact FileTree.depth_of_load hload hsource hv hp

/-- A property whose elements are properties in turn, to a depth of `n`. -/
def nestedItems : Nat → Json
  | 0 => .object []
  | n + 1 => .object [("items", nestedItems n)]

/-- A model with a property whose elements are nested to a depth of `n`. -/
def nestedModel (n : Nat) : Json :=
  .object [("properties", .array [nestedItems n])]

section Nested

theorem plain_nestedModel (n : Nat) : (nestedModel n).Plain := by
  have hitems : (nestedItems n).Plain := by
    induction n with
    | zero =>
        exact .object (by simp) (by simp)
    | succ n ih =>
        exact .object (by simp) (by simpa using ih)
  exact .object (by simp) (by simpa using Json.Plain.array (by simpa using hitems))

theorem depth_nestedModel (n : Nat) : (nestedModel n).depth = n + 3 := by
  have hitems : (nestedItems n).depth = n + 1 := by
    induction n with
    | zero =>
        rfl
    | succ n ih =>
        simp [nestedItems, Json.depth, Json.membersDepth, ih]
  simp [nestedModel, Json.depth, Json.membersDepth, Json.itemsDepth, hitems]

/-- The property of nested elements is described with all of them. -/
theorem lt_depth_nestedItems (n : Nat) :
    n < (Property.ofJson (nestedItems n)).toJson.depth := by
  induction n with
  | zero =>
      rw [Property.toJson_eq]
      exact Nat.succ_pos _
  | succ n ih =>
      have hitems : (Property.ofJson (nestedItems (n + 1))).items =
          some (Property.ofJson (nestedItems n)) := by
        cases n <;> rfl
      by_contra hle
      exact absurd ih (Nat.not_lt.2
        ((Property.depth_toJson_le_iff.1 (Nat.not_lt.1 hle)).1 _ hitems))

theorem properties_nestedModel (path : Path) (n : Nat) :
    (Document.ofJson path (nestedModel n)).properties = [Property.ofJson (nestedItems n)] :=
  rfl

end Nested

/-- Two models: the first one takes up all of the levels that there may be. -/
def deepModels : FileTree where
  workingDirectory := []
  nodes := [
    (["a.json"], .file (nestedModel 124).compact.toUTF8),
    (["b.json"], .file "\x7b\"properties\": [\x7b\"items\": \x7b\x7d\x7d]\x7d".toUTF8)]

theorem load_deepModels :
    deepModels.load ⟨"a.json"⟩ = .ok (Document.ofJson ⟨"a.json"⟩ (nestedModel 124)) := by
  refine FileTree.load_eq_ok_iff.2 ⟨(nestedModel 124).compact, nestedModel 124, ?_, ?_, rfl⟩
  · have hfollow : deepModels.follow ⟨"a.json"⟩ = .ok ["a.json"] := by
      decide
    exact FileTree.read_of_nodeAt hfollow rfl
  · exact Json.parse_render .compact (plain_nestedModel 124) (Nat.le_of_eq (depth_nestedModel 124))

theorem Command.describe_accepted_iff_deepModels :
    ∃ d text,
      deepModels.load ⟨"b.json"⟩ = .ok d ∧
      ((Command.describe ["b.json"] (some ⟨"out/c.json"⟩)).run deepModels false).delivered
        (some ⟨"out/c.json"⟩) = .ok text ∧
      ∀ origin, Json.parseAt origin text = .ok (.array [d.toJson]) := by
  have hpaths : deepModels.inputPaths ["b.json"] = .ok [⟨"b.json"⟩] := by
    decide +kernel
  have hresult : ((Command.describe ["b.json"] (some ⟨"out/c.json"⟩)).run deepModels false).result =
      .ok .clean := by
    decide +kernel
  have hsource : ∃ source v, deepModels.read ⟨"b.json"⟩ = .ok source ∧
      Json.documentWithin (Json.maxDepth - 1) source.toList = .ok v := by
    have hread : deepModels.read ⟨"b.json"⟩ =
        .ok "\x7b\"properties\": [\x7b\"items\": \x7b\x7d\x7d]\x7d" := by
      decide +kernel
    obtain ⟨v, hv⟩ := exists_of_isOk (x := Json.documentWithin (Json.maxDepth - 1)
      "\x7b\"properties\": [\x7b\"items\": \x7b\x7d\x7d]\x7d".toList) (by decide +kernel)
    exact ⟨_, v, hread, hv⟩
  obtain ⟨d, hd⟩ := exists_of_isOk (x := deepModels.load ⟨"b.json"⟩) (by decide +kernel)
  have hds : [Path.mk "b.json"].mapM deepModels.load = .ok [d] := by
    rw [List.mapM_cons, hd]
    rfl
  obtain ⟨-, haccepted⟩ := Command.describe_accepted_iff deepModels false ["b.json"]
    (some ⟨"out/c.json"⟩) _ _ hpaths hds
  obtain ⟨text, htext, -, hread⟩ := haccepted .clean hresult
  exact ⟨d, text, hd, htext, hread (by simpa using hsource)⟩

/-- The model that takes up all levels is described, and its description cannot be read. -/
theorem Command.describe_rejected_deepModels :
    deepModels.inputPaths ["a.json"] = .ok [⟨"a.json"⟩] ∧
    (∃ d, deepModels.load ⟨"a.json"⟩ = .ok d) ∧
    ((Command.describe ["a.json"] none).run deepModels false).result = .ok .clean ∧
    ∀ origin v, Json.parseAt origin
      ((Command.describe ["a.json"] none).run deepModels false).output ≠ .ok v := by
  have hpaths : deepModels.inputPaths ["a.json"] = .ok [⟨"a.json"⟩] := by
    decide +kernel
  have hds : [Path.mk "a.json"].mapM deepModels.load =
      .ok [Document.ofJson ⟨"a.json"⟩ (nestedModel 124)] := by
    rw [List.mapM_cons, load_deepModels]
    rfl
  have hresult : ((Command.describe ["a.json"] none).run deepModels false).result =
      .ok .clean :=
    Command.result_describe_none hpaths hds
  refine ⟨hpaths, ⟨_, load_deepModels⟩, hresult, ?_⟩
  obtain ⟨text, htext, haccepted⟩ := Command.parseAt_describe_iff hpaths hds hresult
  rw [Run.delivered, Except.ok.injEq] at htext
  subst htext
  intro origin v hv
  have hlevels := ((haccepted origin v).1 hv).1 _ (List.mem_singleton_self _)
  rw [properties_nestedModel, List.forall_mem_singleton] at hlevels
  have hdepth := lt_depth_nestedItems 124
  exact absurd hlevels (Nat.not_le.2 (Nat.add_lt_add_right hdepth 3))

end FieldTypes
