import FieldTypes.Proofs.Emission
import FieldTypes.Proofs.Templates

/-!
# Boxing in Objective-C

A container of Objective-C takes objects alone, so an element that is a bare number or truth value
is boxed. Elements with a declared type are boxed as they should be. The name of a model is an
object's, and yet it is boxed as well where it is spelled like a bare type: what is boxed is told
by its text.

The name of a model is its title with the first character in upper case. Several titles may have one
name; the table of upper cases, read backwards, gives the few characters that such a title can begin
with. The models that are named like a bare type are those with one of four titles.

**Results.**
* `Text.mem_caseSources`: a character is among the sources of what its upper case begins with.
* `Text.exists_of_capitalizeFirst`: what a title is, given its name.
* `Property.element_ownType`: which declared types are boxed.
* `isBare_capitalizeFirst_iff`: which titles give a name that is boxed.
* `resolveType_objc_templates_iff`: when the name of a model stays as it is.
-/

namespace FieldTypes
namespace Text

/-- The code points that the table, read backwards, gives for an upper case beginning with
`code`. -/
def caseCandidates (code : Nat) : List Nat :=
  code ::
    ((caseRuns.map fun r => (((code : Int) - r.offset).toNat, r)).filterMap fun e =>
        if e.2.covers e.1 then some e.1 else none) ++
      caseExpansions.filterMap fun e => if e.2.head? = some code then some e.1 else none

/-- The characters with an upper case that begins with `x`. -/
def caseSources (x : Char) : List Char :=
  ((caseCandidates x.toNat).map Char.ofNat).filter fun c => (upperCase c).head? = some x

theorem eq_toNat_of_ofNat {n : Nat} {x : Char} (h : Char.ofNat n = x) (hx : x ≠ '\x00') :
    n = x.toNat := by
  by_cases hn : n.isValidChar
  · rw [Char.ofNat, dif_pos hn] at h
    rw [← h]
    rfl
  · rw [Char.ofNat, dif_neg hn] at h
    exact absurd h.symm hx

theorem upperCase_ne_nil (c : Char) : upperCase c ≠ [] := by
  have hexpansions : ∀ e ∈ caseExpansions, e.2 ≠ [] := by decide
  unfold upperCase
  cases h : caseExpansions.lookup c.toNat with
  | some codes =>
      simpa using hexpansions (c.toNat, codes) (mem_of_lookup_eq_some h)
  | none =>
      cases caseRuns.find? (·.covers c.toNat) <;> simp

theorem toNat_mem_caseCandidates {c x : Char} {xs : List Char} (h : upperCase c = x :: xs)
    (hx : x ≠ '\x00') :
    c.toNat ∈ caseCandidates x.toNat := by
  unfold upperCase at h
  cases hexpansion : caseExpansions.lookup c.toNat with
  | some codes =>
      rw [hexpansion] at h
      cases codes with
      | nil =>
          cases h
      | cons code codes =>
          have hcode : code = x.toNat := eq_toNat_of_ofNat (List.cons.inj h).1 hx
          refine List.mem_append_right _
            (List.mem_filterMap.2 ⟨_, mem_of_lookup_eq_some hexpansion, ?_⟩)
          simp [hcode]
  | none =>
      rw [hexpansion] at h
      cases hrun : caseRuns.find? (·.covers c.toNat) with
      | some r =>
          rw [hrun] at h
          have hcode : (c.toNat + r.offset).toNat = x.toNat :=
            eq_toNat_of_ofNat (List.cons.inj h).1 hx
          have hpositive : x.toNat ≠ 0 := by
            intro hzero
            exact hx (Char.toNat_inj.1 hzero)
          have hsource : ((x.toNat : Int) - r.offset).toNat = c.toNat := by
            omega
          have hcovers : r.covers c.toNat = true := by
            simpa using List.find?_some hrun
          refine List.mem_append_left _ (List.mem_cons_of_mem _ ?_)
          refine List.mem_filterMap.2
            ⟨_, List.mem_map_of_mem (List.mem_of_find?_eq_some hrun), ?_⟩
          simp [hsource, hcovers]
      | none =>
          rw [hrun] at h
          cases h
          exact List.mem_append_left _ List.mem_cons_self

theorem mem_caseSources {c x : Char} {xs : List Char} (h : upperCase c = x :: xs)
    (hx : x ≠ '\x00') :
    c ∈ caseSources x := by
  refine List.mem_filter.2 ⟨?_, by simp [h]⟩
  exact List.mem_map.2 ⟨c.toNat, toNat_mem_caseCandidates h hx, Char.ofNat_toNat c⟩

/-- Where the first letter of a name is the whole upper case of its sources, a title with that name
goes on as the name does. -/
theorem exists_of_capitalizeFirst (x : Char) (xs : List Char) {t : String}
    (h : capitalizeFirst t = String.ofList (x :: xs))
    (hx : x ≠ '\x00')
    (hsources : ∀ c ∈ caseSources x, upperCase c = [x]) :
    ∃ c ∈ caseSources x, t = String.ofList (c :: xs) := by
  unfold capitalizeFirst at h
  cases ht : t.toList with
  | nil =>
      rw [ht] at h
      have hlist := congrArg String.toList h
      simp at hlist
  | cons c cs =>
      rw [ht, String.ofList_inj] at h
      have hc : c ∈ caseSources x := by
        cases hupper : upperCase c with
        | nil =>
            exact absurd hupper (upperCase_ne_nil c)
        | cons y ys =>
            rw [hupper, List.cons_append, List.cons.injEq] at h
            rw [← h.1] at hx ⊢
            exact mem_caseSources hupper hx
      rw [hsources c hc, List.singleton_append, List.cons.injEq] at h
      exact ⟨c, hc, by rw [← h.2, ← ht, String.ofList_toList]⟩

end Text

/-- The declared types whose values are bare numbers and truth values. -/
def bareTokens : List (Option String) :=
  [some "integer", some "number", some "boolean"]

/-- The titles of models that are named like a bare type. -/
def bareTitles : List String :=
  ["NSInteger", "nSInteger", "BOOL", "bOOL"]

/-- An element with a declared type is boxed where it is a bare number or truth value. -/
theorem Property.element_ownType {p : Property} {T : String} (h : p.ownType .objc = .ok T) :
    Language.objc.element T = if p.declaredType ∈ bareTokens then Language.boxed else T := by
  unfold Property.ownType at h
  cases hdeclared : p.declaredType with
  | none =>
      rw [hdeclared] at h
      cases h
  | some token =>
      rw [hdeclared] at h
      simp only at h
      cases htoken : DeclaredType.ofToken? token with
      | none =>
          rw [htoken] at h
          cases h
      | some t =>
          rw [htoken] at h
          rw [DeclaredType.ofToken?_eq_some_iff] at htoken
          subst htoken
          cases t with
          | object | array =>
              cases h
          | integer | number | boolean =>
              cases h
              rfl
          | string =>
              cases h
              unfold StringFormat.baseTypeOf
              cases p.format.bind StringFormat.ofToken? with
              | none =>
                  rfl
              | some f =>
                  cases f <;> rfl

/-- The titles whose names are spelled like a bare type: that spelling itself, with its first
letter in either case. No name begins with the small letter that `double` does. -/
theorem isBare_capitalizeFirst_iff {t : String} :
    Language.isBare (Text.capitalizeFirst t) = true ↔ t ∈ bareTitles := by
  have hN : Text.caseSources 'N' = ['N', 'n'] := by decide +kernel
  have hd : Text.caseSources 'd' = [] := by decide +kernel
  have hB : Text.caseSources 'B' = ['B', 'b'] := by decide +kernel
  have hNupper : Text.upperCase 'N' = ['N'] ∧ Text.upperCase 'n' = ['N'] := by decide +kernel
  have hBupper : Text.upperCase 'B' = ['B'] ∧ Text.upperCase 'b' = ['B'] := by decide +kernel
  constructor
  · intro h
    rcases Language.isBare_iff.1 h with h | h | h
    · obtain ⟨c, hc, rfl⟩ := Text.exists_of_capitalizeFirst 'N' "SInteger".toList
        (h.trans (by decide)) (by decide) (by simp [hN, hNupper])
      rw [hN, List.mem_pair] at hc
      rcases hc with rfl | rfl <;> decide
    · obtain ⟨c, hc, -⟩ := Text.exists_of_capitalizeFirst 'd' "ouble".toList
        (h.trans (by decide)) (by decide) (by simp [hd])
      simp [hd] at hc
    · obtain ⟨c, hc, rfl⟩ := Text.exists_of_capitalizeFirst 'B' "OOL".toList
        (h.trans (by decide)) (by decide) (by simp [hB, hBupper])
      rw [hB, List.mem_pair] at hc
      rcases hc with rfl | rfl <;> decide
  · intro h
    simp only [bareTitles, List.mem_cons, List.not_mem_nil, or_false] at h
    rcases h with rfl | rfl | rfl | rfl <;> decide +kernel

section Reference

variable {s : Source} {document : Path} {j : Journal} {r N : String}

/-- A reference stands for no name, or for that of a model with a title. -/
theorem eq_capitalizeFirst_of_resolveReference
    (h : (resolveReference s r document j).1 = .ok N) :
    N = "" ∨ ∃ t, N = Text.capitalizeFirst t := by
  rw [or_iff_not_imp_left]
  intro hN
  have hname : (followReference s r document j).1 = .ok N := by
    rw [resolveReference_fst] at h
    generalize (followReference s r document j).1 = answer at h
    obtain (path | error) | name := answer
    · cases h
    · cases h
      exact absurd rfl hN
    · cases h
      rfl
  obtain ⟨-, -, d, -, -, htitle, rfl⟩ := exists_of_followReference_eq_ok hname hN
  obtain ⟨t, ht⟩ := Option.ne_none_iff_exists'.1 htitle
  exact ⟨t, by rw [Document.typeName, ht]⟩

/-- The names of models that are spelled like a bare type. -/
theorem isBare_iff_of_resolveReference (h : (resolveReference s r document j).1 = .ok N) :
    Language.isBare N = true ↔ N ∈ ["NSInteger", "BOOL"] := by
  have hdouble : N ≠ "double" := by
    rintro rfl
    rcases eq_capitalizeFirst_of_resolveReference h with hempty | ⟨t, ht⟩
    · revert hempty
      decide
    · have hbare : Language.isBare (Text.capitalizeFirst t) = true := by
        rw [← ht]
        decide
      have hmem := isBare_capitalizeFirst_iff.1 hbare
      simp only [bareTitles, List.mem_cons, List.not_mem_nil, or_false] at hmem
      rcases hmem with rfl | rfl | rfl | rfl <;> revert ht <;> decide +kernel
  rw [Language.isBare_iff]
  simp [hdouble]

end Reference

/-- The type, in Objective-C, of a property with the type `T` where its way down ends. -/
theorem resolveType_objc_of_leaf
    {s : Source} {document : Path} {p : Property} {j : Journal} {T : String}
    (h : (resolveLeaf s .objc document p.leaf j).1 = .ok T) :
    (resolveType s .objc document p j).1 =
      .ok (Language.objc.templates p.containers
        (if p.containers = [] then T else Language.objc.element T)) := by
  rw [resolveType_eq, h, ← Language.wrapAll_objc]
  rfl

/-- The type, in Objective-C, of a property that ends at a reference. The templates of its
containers stand around the name of the model as it is exactly where there is no container or the
name is not spelled like a bare type; otherwise a box takes the place of the name. The models with
such names have one of four titles. Where a property ends at a declared type, the elements that are
boxed are integers, numbers and truth values. -/
theorem resolveType_objc_templates_iff
    (s : Source)
    (document : Path)
    (p : Property)
    (j : Journal) :
    (∀ r N,
      p.leaf.reference = some r →
      (resolveReference s r document j).1 = .ok N →
      ((resolveType s .objc document p j).1 = .ok (Language.objc.templates p.containers N) ↔
        p.containers = [] ∨ N ∉ ["NSInteger", "BOOL"]) ∧
      (p.containers ≠ [] →
        N ∈ ["NSInteger", "BOOL"] →
        (resolveType s .objc document p j).1 =
          .ok (Language.objc.templates p.containers "NSNumber *"))) ∧
    (∀ t, Text.capitalizeFirst t ∈ ["NSInteger", "BOOL"] ↔ t ∈ bareTitles) ∧
    (∀ T,
      p.leaf.reference = none →
      p.leaf.ownType .objc = .ok T →
      (resolveType s .objc document p j).1 =
        .ok (Language.objc.templates p.containers
          (if p.containers ≠ [] ∧ p.leaf.declaredType ∈ bareTokens then "NSNumber *" else T))) := by
  refine ⟨?_, ?_, ?_⟩
  · intro r N hr hN
    have hbare := isBare_iff_of_resolveReference hN
    have hleaf : (resolveLeaf s .objc document p.leaf j).1 = .ok N := by
      rw [resolveLeaf, hr]
      exact hN
    rw [resolveType_objc_of_leaf hleaf, Except.ok.injEq, Except.ok.injEq, Language.templates_inj,
      Language.templates_inj]
    constructor
    · split_ifs with hnil
      · simp [hnil]
      · by_cases hN : N ∈ ["NSInteger", "BOOL"]
        · have hboxed : Language.boxed ≠ N := by
            rintro rfl
            revert hN
            decide
          rw [Language.element_objc_of_bare (hbare.2 hN)]
          simp [hnil, hN, hboxed]
        · rw [Language.element_objc_of_not_bare (by simpa using hbare.not.2 hN)]
          simp [hN]
    · intro hnil hN
      rw [if_neg hnil, Language.element_objc_of_bare (hbare.2 hN)]
      rfl
  · intro t
    constructor
    · intro h
      refine isBare_capitalizeFirst_iff.1 (Language.isBare_iff.2 ?_)
      simp only [List.mem_cons, List.not_mem_nil, or_false] at h
      rcases h with h | h <;> simp [h]
    · intro h
      simp only [bareTitles, List.mem_cons, List.not_mem_nil, or_false] at h
      rcases h with rfl | rfl | rfl | rfl <;> decide +kernel
  · intro T hr hT
    have hleaf : (resolveLeaf s .objc document p.leaf j).1 = .ok T := by
      rw [resolveLeaf, hr]
      exact hT
    rw [resolveType_objc_of_leaf hleaf, Property.element_ownType hT]
    by_cases hnil : p.containers = []
    · simp [hnil]
    · simp [hnil, Language.boxed]

/-- Two models, one of them named like a bare type. -/
def namedLikeNumber : FileTree where
  workingDirectory := []
  nodes := [
    (["n.json"], .file "\x7b\"title\": \"NSInteger\"\x7d".toUTF8),
    (["w.json"], .file "\x7b\"title\": \"widget\"\x7d".toUTF8)]

/-- A dictionary of arrays of the model that a reference points at. -/
def dictionaryOfArrays (r : String) : Property :=
  { declaredType := some "object",
    values := some { declaredType := some "array", items := some { reference := some r } } }

theorem resolveType_objc_templates_iff_dictionaryOfArrays :
    (resolveReference namedLikeNumber.documents "w.json" ⟨"m.json"⟩ {}).1 = .ok "Widget" ∧
    (resolveType namedLikeNumber.documents .objc ⟨"m.json"⟩ (dictionaryOfArrays "w.json") {}).1 =
      .ok "NSDictionary<NSString *, NSArray<Widget> *> *" ∧
    (resolveType namedLikeNumber.documents .objc ⟨"m.json"⟩
      { declaredType := some "array", items := some { declaredType := some "number" } } {}).1 =
      .ok "NSArray<NSNumber *> *" := by
  have hname : (resolveReference namedLikeNumber.documents "w.json" ⟨"m.json"⟩ {}).1 =
      .ok "Widget" := by
    decide +kernel
  refine ⟨hname, ?_, ?_⟩
  · obtain ⟨hreference, -, -⟩ := resolveType_objc_templates_iff namedLikeNumber.documents
      ⟨"m.json"⟩ (dictionaryOfArrays "w.json") {}
    rw [(hreference "w.json" "Widget" (by decide) hname).1.2 (by decide)]
    decide
  · obtain ⟨-, -, hdeclared⟩ := resolveType_objc_templates_iff namedLikeNumber.documents
      ⟨"m.json"⟩ { declaredType := some "array", items := some { declaredType := some "number" } }
      {}
    rw [hdeclared "double" (by decide) (by decide)]
    decide

/-- A model is boxed that is named like a bare type. -/
theorem boxed_model_of_title :
    (resolveReference namedLikeNumber.documents "n.json" ⟨"m.json"⟩ {}).1 = .ok "NSInteger" ∧
    (resolveType namedLikeNumber.documents .objc ⟨"m.json"⟩
      { declaredType := some "array", items := some { reference := some "n.json" } } {}).1 =
      .ok "NSArray<NSNumber *> *" ∧
    Language.objc.templates [.array] "NSInteger" ≠ "NSArray<NSNumber *> *" := by
  decide +kernel

end FieldTypes
