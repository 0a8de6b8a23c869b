/-!
# Paths

A path is a text whose segments stand between slashes. The text is kept as it was written, since
messages and reports show it; what it says is its list of components, in which empty segments and
all `.` segments but a leading one have no part. Paths are UTF-8 text: those of other bytes, which
the operating system allows, are left out.

A path is folded by its text alone: a `.` goes away, and a `..` takes the name before it with it.
The file tree is not asked, so `missing/../a.json` folds to `a.json`. The normal form of an absolute
path is the root and names; that of a relative path is a run of `..` and names. Above the root there
is nothing, so a `..` there is dropped.

The operating system follows no path of 4096 bytes or more, so there are finitely many paths that
lead anywhere. A walk that follows every path at most once therefore ends, and the number of short
paths bounds its steps.

**Main definitions.**
* `Path.components`: what a path says.
* `Path.join`: a path taken relative to another one; an absolute path stands for itself.
* `Path.parent?`: the path without its last component, `Path.directory` with `""` for none.
* `Path.fileName?`: the name that a path ends with.
* `Path.normalize`: the normal form of a path.
* `Path.locate`: the path that a reference points at, seen from the document that holds it.
* `pathLimit`, `Path.shortCount`: the bound on a path's bytes, and one on the number of such paths.

**Results.**
* `Path.length_le_shortCount`: a list of different short paths is no longer than that.
-/

namespace FieldTypes

/-- A path as it was written. -/
structure Path where
  text : String
deriving DecidableEq, Inhabited, Repr

/-- One component of a path. -/
inductive Component where
  /-- The root, at the front of an absolute path. -/
  | root
  /-- A leading `.`. -/
  | here
  /-- A `..`. -/
  | up
  /-- A name. -/
  | name (text : String)
deriving DecidableEq, Repr

namespace Component

/-- The component that a segment after the first stands for, if it stands for one. -/
def ofSegment? (segment : List Char) : Option Component :=
  if segment = [] ∨ segment = ['.'] then none
  else if segment = ['.', '.'] then some up
  else some (name (String.ofList segment))

/-- The component that the first segment stands for. An empty segment with others behind it is
the root. -/
def ofFirstSegment? (segment : List Char) (others : List (List Char)) : Option Component :=
  if segment = [] ∧ others ≠ [] then some root
  else if segment = ['.'] then some here
  else ofSegment? segment

/-- The text of a component inside a path. The root's is empty: its slash is the separator. -/
def text : Component → List Char
  | root => []
  | here => ['.']
  | up => ['.', '.']
  | name n => n.toList

end Component

namespace Path

/-- The segments of a path, as written. There is always at least one. -/
def segments (p : Path) : List (List Char) :=
  p.text.toList.splitOn '/'

theorem intercalate_segments (p : Path) : ['/'].intercalate p.segments = p.text.toList :=
  List.intercalate_splitOn '/'

/-- The components of a path, outermost first. -/
def components (p : Path) : List Component :=
  match p.segments with
  | [] => []
  | s :: ss => (Component.ofFirstSegment? s ss).toList ++ ss.filterMap Component.ofSegment?

/-- Whether the path starts at the root. -/
def isAbsolute (p : Path) : Bool :=
  p.text.toList.head? == some '/'

/-- The path with the components given. -/
def ofComponents : List Component → Path
  | [.root] => ⟨"/"⟩
  | cs => ⟨String.ofList (['/'].intercalate (cs.map Component.text))⟩

/-- `q` taken relative to `p`. One slash goes between them unless `p` is empty or ends in one. -/
def join (p q : Path) : Path :=
  if q.isAbsolute then q
  else
    match p.text.toList.getLast? with
    | none => q
    | some c => ⟨if c = '/' then p.text ++ q.text else p.text ++ "/" ++ q.text⟩

/-- The part of a path's text that no component but the first takes up: the slash of the root or
a leading `.`. -/
def stem (p : Path) : List Char × List Char :=
  match p.text.toList with
  | '/' :: body => (['/'], body)
  | ['.'] => (['.'], [])
  | '.' :: '/' :: body => (['.'], '/' :: body)
  | body => ([], body)

/-- Whether a segment stands for no component. -/
def isIdle (segment : List Char) : Bool :=
  segment == [] || segment == ['.']

/-- Segments, given last one first, without the idle ones that they end with. -/
def dropIdle (reversed : List (List Char)) : List (List Char) :=
  reversed.dropWhile isIdle

/-- The path without its last component, and without the idle segments around it. The root and
the empty path have no parent; a lone `.` has the empty one. -/
def parent? (p : Path) : Option Path :=
  match p.stem with
  | (lead, body) =>
    match dropIdle (body.splitOn '/').reverse with
    | [] => if lead = ['.'] then some ⟨""⟩ else none
    | _ :: outer =>
      some ⟨String.ofList (lead ++ ['/'].intercalate (dropIdle outer).reverse)⟩

/-- The directory of a path: its parent, and the empty path where there is none. -/
def directory (p : Path) : Path :=
  p.parent?.getD ⟨""⟩

/-- The name that the path ends with, where its last component is a name. -/
def fileName? (p : Path) : Option String :=
  match p.components.getLast? with
  | some (.name n) => some n
  | _ => none

/-- A path and the paths it lies in, innermost first, by at most `n` steps. -/
def ancestorsWithin : Nat → Path → List Path
  | 0, p => [p]
  | n + 1, p =>
    match p.parent? with
    | none => [p]
    | some q => p :: ancestorsWithin n q

/-- A path, its parent, the parent of that, and so on. A parent's text is shorter than the
path's, so the length of the text is a bound on their number. -/
def ancestors (p : Path) : List Path :=
  ancestorsWithin p.text.length p

/-- Takes one more component into a folded path, which is given innermost component first. -/
def fold : List Component → Component → List Component
  | kept, .here => kept
  | .name _ :: outer, .up => outer
  | [.root], .up => [.root]
  | kept, c => c :: kept

/-- The components of the normal form. -/
def normalComponents (p : Path) : List Component :=
  (p.components.foldl fold []).reverse

/-- The normal form of a path. -/
def normalize (p : Path) : Path :=
  ofComponents p.normalComponents

/-- A reference without its fragment: what stands before the first `#`. -/
def withoutFragment (reference : String) : String :=
  String.ofList (reference.toList.takeWhile (· ≠ '#'))

/-- The path that `reference` points at from the document at `document`: relative to the
document's directory, and the document itself where nothing stands before the fragment. -/
def locate (document : Path) (reference : String) : Path :=
  let file := withoutFragment reference
  if file = "" then document.normalize
  else (document.directory.join ⟨file⟩).normalize

end Path

/-- The number of bytes that a path must stay below. -/
def pathLimit : Nat := 4096

namespace Path

/-- A number above all code points. -/
def codeBase : Nat := 0x200000

/-- A bound on the number of texts with `n` characters. -/
def textCount : Nat → Nat
  | 0 => 1
  | n + 1 => codeBase * textCount n

/-- A bound on the number of texts with fewer characters than `pathLimit`. -/
def shortCount : Nat := textCount pathLimit

/-- The digits of a number to the base `codeBase`, one for each character, with a leading one. -/
def code : List Char → Nat
  | [] => 1
  | c :: cs => c.toNat + codeBase * code cs

theorem toNat_lt_codeBase (c : Char) : c.toNat < codeBase := by
  have h := c.valid
  simp only [UInt32.isValidChar, Nat.isValidChar] at h
  have : c.toNat = c.val.toNat := rfl
  unfold codeBase
  omega

theorem code_pos (cs : List Char) : 0 < code cs := by
  cases cs with
  | nil => simp [code]
  | cons c cs =>
    have := code_pos cs
    simp only [code, codeBase]
    omega

theorem code_injective {cs ds : List Char} (h : code cs = code ds) : cs = ds := by
  induction cs generalizing ds with
  | nil =>
    cases ds with
    | nil => rfl
    | cons d ds =>
      have := code_pos ds
      simp only [code, codeBase] at h
      omega
  | cons c cs ih =>
    cases ds with
    | nil =>
      have := code_pos cs
      simp only [code, codeBase] at h
      omega
    | cons d ds =>
      have hc := toNat_lt_codeBase c
      have hd := toNat_lt_codeBase d
      simp only [code, codeBase] at h hc hd
      have hcode : code cs = code ds := by omega
      have hchar : c.toNat = d.toNat := by omega
      rw [ih hcode, Char.toNat_inj.1 hchar]

theorem code_lt (cs : List Char) : code cs < 2 * textCount cs.length := by
  induction cs with
  | nil => simp [code, textCount]
  | cons c cs ih =>
    have hc := toNat_lt_codeBase c
    simp only [code, List.length_cons, textCount, codeBase] at hc ⊢
    omega

theorem textCount_pos (n : Nat) : 0 < textCount n := by
  induction n with
  | zero => simp [textCount]
  | succ n ih =>
    simp only [textCount, codeBase]
    omega

theorem two_mul_textCount_le {n m : Nat} (h : n < m) : 2 * textCount n ≤ textCount m := by
  induction m with
  | zero => omega
  | succ m ih =>
    have hpos := textCount_pos m
    by_cases heq : n = m
    · subst heq
      simp only [textCount, codeBase]
      omega
    · have := ih (by omega)
      simp only [textCount, codeBase]
      omega

theorem code_lt_shortCount {cs : List Char} (h : cs.length < pathLimit) :
    code cs < shortCount :=
  Nat.lt_of_lt_of_le (code_lt cs) (two_mul_textCount_le h)

theorem length_le_utf8ByteSize (cs : List Char) : cs.length ≤ (String.ofList cs).utf8ByteSize := by
  induction cs with
  | nil => simp
  | cons c cs ih =>
    have hc := c.utf8Size_pos
    rw [show c :: cs = [c] ++ cs from rfl, String.ofList_append, String.utf8ByteSize_append]
    have hone : (String.ofList [c]).utf8ByteSize = c.utf8Size := String.utf8ByteSize_singleton
    simp only [List.length_append, List.length_singleton, hone]
    omega

/-- Different paths below the limit are at most `shortCount` many. -/
theorem length_le_shortCount {paths : List Path} (distinct : paths.Nodup)
    (short : ∀ p ∈ paths, p.text.utf8ByteSize < pathLimit) : paths.length ≤ shortCount := by
  have hinj : ∀ p q : Path, code p.text.toList = code q.text.toList → p = q := by
    intro p q h
    have := code_injective h
    cases p
    cases q
    simpa using String.toList_inj.1 this
  have hcodes : (paths.map fun p => code p.text.toList).Nodup := by
    refine List.pairwise_map.2 (distinct.imp ?_)
    intro p q hne h
    exact hne (hinj p q h)
  have hsub : (paths.map fun p => code p.text.toList) ⊆ List.range shortCount := by
    intro n hn
    obtain ⟨p, hp, rfl⟩ := List.mem_map.1 hn
    refine List.mem_range.2 (code_lt_shortCount ?_)
    have hlen := length_le_utf8ByteSize p.text.toList
    rw [String.ofList_toList] at hlen
    exact Nat.lt_of_le_of_lt hlen (short p hp)
  simpa using hcodes.length_le_of_subset hsub

end Path
end FieldTypes
