import FieldTypes.Json
import FieldTypes.Proofs.Nesting

/-!
# Reading back what was written

Between quotes each character is written by itself or by an escape, and in both ways the reader
finds it again. The values inside an array or an object are read by the reader one level below, so
that a value is read back follows along its structure: from its elements and members, each with the
text that stands for it and anything behind it, to the whole. The blanks of a layout are passed
over.

Numbers are left out: what may follow a number depends on its text. So are objects in which a key
stands twice, since no such object is ever read.

**Results.**
* `Json.unquoted_flatMap_escaped`: a text is read back from between its quotes.
* `Json.reads_write`: a plain value is read back from its text in either layout.
* `Json.parse_render`: the text of a plain value parses to it.
-/

namespace FieldTypes
namespace Json

section Quoted

theorem hexValue?_hexDigit : ∀ n < 16, hexValue? (hexDigit n) = some n := by
  decide

/-- The escape of a control character is read as its number. -/
theorem hexNumber?_hexDigit {n : Nat} (h : n < 0x20) :
    hexNumber? '0' '0' (hexDigit (n / 16)) (hexDigit (n % 16)) = some n := by
  have hzero : hexValue? '0' = some 0 := by decide
  rw [hexNumber?, hzero, hexValue?_hexDigit _ (by omega), hexValue?_hexDigit _ (by omega)]
  simp only [Option.some.injEq]
  omega

/-- A short escape is read as its character. -/
theorem unquoted_short {e c : Char} (h : shortEscape? e = some c) (rest : List Char) :
    unquoted ('\\' :: e :: rest) = put c (unquoted rest) := by
  have hbackslash : ('\\' : Char) ≠ '"' := by decide
  have hu : e ≠ 'u' := by
    rintro rfl
    have hnone : shortEscape? 'u' = none := by decide
    rw [hnone] at h
    cases h
  rw [unquoted.eq_def]
  simp only [if_neg hbackslash, if_true, if_neg hu, h]

/-- A character is read back from the way in which it is written between quotes. -/
theorem unquoted_escaped (c : Char) (rest : List Char) :
    unquoted (escaped c ++ rest) = put c (unquoted rest) := by
  unfold escaped
  split_ifs with hquote hbackslash hbackspace hfeed hnewline hreturn htab hcontrol
  · subst hquote
    exact unquoted_short (by decide) rest
  · subst hbackslash
    exact unquoted_short (by decide) rest
  · subst hbackspace
    exact unquoted_short (by decide) rest
  · subst hfeed
    exact unquoted_short (by decide) rest
  · subst hnewline
    exact unquoted_short (by decide) rest
  · subst hreturn
    exact unquoted_short (by decide) rest
  · subst htab
    exact unquoted_short (by decide) rest
  · have htrailing : isTrailing c.toNat = false := by
      simp only [isTrailing, Bool.and_eq_false_iff, decide_eq_false_iff_not]
      omega
    have hleading : isLeading c.toNat = false := by
      simp only [isLeading, Bool.and_eq_false_iff, decide_eq_false_iff_not]
      omega
    have hbackslash : ('\\' : Char) ≠ '"' := by decide
    simp only [List.cons_append, List.nil_append]
    rw [unquoted.eq_def]
    simp only [if_neg hbackslash, if_true, hexNumber?_hexDigit hcontrol, htrailing, hleading, Bool.false_eq_true,
      if_false, Char.ofNat_toNat]
  · simp only [List.cons_append, List.nil_append]
    rw [unquoted.eq_def]
    simp only [if_neg hquote, if_neg hbackslash, if_neg hcontrol]

/-- A text is read back from between its quotes, and what stands behind them is left. -/
theorem unquoted_flatMap_escaped (cs rest : List Char) :
    unquoted (cs.flatMap escaped ++ '"' :: rest) = .ok (cs, rest) := by
  induction cs with
  | nil =>
      rw [List.flatMap_nil, List.nil_append, unquoted.eq_def]
      rfl
  | cons c cs ih =>
      rw [List.flatMap_cons, List.append_assoc, unquoted_escaped, ih]
      rfl

end Quoted

/-- A value without numbers, in whose objects no key stands twice. -/
inductive Plain : Json → Prop
  | null : Plain .null
  | bool (b : Bool) : Plain (.bool b)
  | string (s : String) : Plain (.string s)
  | array {vs : List Json} : (∀ v ∈ vs, Plain v) → Plain (.array vs)
  | object {ms : List (String × Json)} :
      (ms.map (·.1)).Nodup → (∀ m ∈ ms, Plain m.2) → Plain (.object ms)

section Members

variable {key : String} {v : Json} {ms : List (String × Json)}

theorem bindKey_of_notMem (h : key ∉ ms.map (·.1)) :
    bindKey key v ms = ms ++ [(key, v)] := by
  induction ms with
  | nil =>
      rfl
  | cons m ms ih =>
      rw [List.map_cons, List.mem_cons, not_or] at h
      rw [bindKey, if_neg (Ne.symm h.1), ih h.2]
      rfl

/-- Members with different keys are all kept, in their order. -/
theorem ofMembers_of_nodup (h : (ms.map (·.1)).Nodup) :
    ofMembers ms = .object ms := by
  have hfoldl : ∀ kept : List (String × Json), ((kept ++ ms).map (·.1)).Nodup →
      ms.foldl (fun ms m => bindKey m.1 m.2 ms) kept = kept ++ ms := by
    clear h
    induction ms with
    | nil =>
        simp
    | cons m ms ih =>
        intro kept hkept
        have hm : m.1 ∉ kept.map (·.1) := by
          rw [List.map_append, List.nodup_append] at hkept
          intro hm
          exact hkept.2.2 _ hm _ (by simp) rfl
        rw [List.foldl_cons, bindKey_of_notMem hm, ih _ (by simpa using hkept),
          List.append_assoc, List.singleton_append]
  rw [ofMembers, hfoldl [] (by simpa using h)]
  rfl

end Members

section Written

variable {l : Layout} {k n i : Nat} {v : Json} {vs : List Json} {m : String × Json}
  {ms : List (String × Json)} {value : Reader Json}

theorem skipBlanks_cons {c : Char} (h : isBlank c = false) (cs : List Char) :
    skipBlanks (c :: cs) = c :: cs := by
  rw [skipBlanks, List.dropWhile_cons_of_neg (by simp [h])]

/-- The blanks of a layout are passed over. -/
@[simp] theorem skipBlanks_lineStart (l : Layout) (k : Nat) (cs : List Char) :
    skipBlanks (l.lineStart k ++ cs) = skipBlanks cs := by
  refine List.dropWhile_append_of_pos ?_
  intro c hc
  cases l with
  | compact =>
      cases hc
  | pretty =>
      rcases List.mem_cons.1 hc with rfl | hc
      · decide
      · rw [List.eq_of_mem_replicate hc]
        decide

/-- A written value does not begin like a blank or like the end of an array. -/
theorem exists_write_eq (l : Layout) (k : Nat) (h : v.Plain) :
    ∃ c cs, write l k v = c :: cs ∧ isBlank c = false ∧ c ≠ ']' := by
  cases h with
  | null =>
      exact ⟨'n', _, rfl, by decide⟩
  | bool b =>
      cases b with
      | true =>
          exact ⟨'t', _, rfl, by decide⟩
      | false =>
          exact ⟨'f', _, rfl, by decide⟩
  | string s =>
      exact ⟨'"', _, rfl, by decide⟩
  | @array vs =>
      cases vs <;> exact ⟨'[', _, rfl, by decide⟩
  | @object ms =>
      cases ms <;> exact ⟨'\x7b', _, rfl, by decide⟩

/-- What stands behind a first element or member: the others, each with its comma. -/
def writeFurther {α : Type} (l : Layout) (k : Nat) (write : α → List Char) (xs : List α) :
    List Char :=
  xs.flatMap fun x => ',' :: l.lineStart k ++ write x

theorem writeItems_cons (l : Layout) (k : Nat) (v : Json) (vs : List Json) :
    writeItems l k (v :: vs) =
      l.lineStart k ++ write l k v ++ writeFurther l k (write l k) vs := by
  induction vs generalizing v with
  | nil =>
      simp [writeItems, writeFurther]
  | cons w vs ih =>
      rw [writeItems, ih]
      simp [writeFurther]

/-- A member as it is written, without the blanks in front of it. -/
def writeMember (l : Layout) (k : Nat) (m : String × Json) : List Char :=
  quoted m.1.toList ++ l.colon ++ write l k m.2

theorem writeMembers_cons (l : Layout) (k : Nat) (m : String × Json)
    (ms : List (String × Json)) :
    writeMembers l k (m :: ms) =
      l.lineStart k ++ writeMember l k m ++ writeFurther l k (writeMember l k) ms := by
  induction ms generalizing m with
  | nil =>
      simp [writeMembers, writeMember, writeFurther]
  | cons m' ms ih =>
      rw [writeMembers, ih]
      simp [writeMember, writeFurther]

theorem length_le_writeFurther {α : Type} (write : α → List Char) (xs : List α) :
    xs.length ≤ (writeFurther l k write xs).length := by
  induction xs with
  | nil =>
      exact Nat.zero_le _
  | cons x xs ih =>
      simp only [writeFurther, List.flatMap_cons, List.length_append, List.length_cons] at ih ⊢
      omega

theorem length_le_writeFurther_of_mem {α : Type} {x : α} {xs : List α} (write : α → List Char)
    (h : x ∈ xs) :
    (write x).length ≤ (writeFurther l k write xs).length := by
  obtain ⟨before, after, rfl⟩ := List.append_of_mem h
  simp only [writeFurther, List.flatMap_append, List.flatMap_cons, List.length_append,
    List.length_cons]
  omega

end Written

/-- Whether a value is read from what was written for it, and what stands behind it is left. -/
def Reads (value : Reader Json) (written : List Char) (v : Json) : Prop :=
  ∀ cs rest, skipBlanks cs = written ++ rest → value cs = .ok (v, rest)

section ReadBack

variable {l : Layout} {k n i : Nat} {value : Reader Json} {v : Json} {vs : List Json}
  {m : String × Json} {ms : List (String × Json)}

theorem elementAt_write
    (hplain : v.Plain)
    (hreads : Reads value (write l k v) v)
    (rest : List Char) :
    ElementAt value (l.lineStart k ++ (write l k v ++ rest)) v rest := by
  obtain ⟨c, written, hwritten, hblank, hc⟩ := exists_write_eq l k hplain
  rw [hwritten, List.cons_append]
  refine ⟨c, written ++ rest, ?_, hc, hreads _ _ ?_⟩
  · rw [skipBlanks_lineStart, skipBlanks_cons hblank]
  · rw [skipBlanks_cons hblank, hwritten, List.cons_append]

theorem memberAt_write
    (hplain : m.2.Plain)
    (hreads : Reads value (write l k m.2) m.2)
    (rest : List Char) :
    MemberAt value (l.lineStart k ++ (writeMember l k m ++ rest)) m rest := by
  obtain ⟨c, written, hwritten, hblank, -⟩ := exists_write_eq l k hplain
  have hmember : writeMember l k m ++ rest =
      '"' :: (m.1.toList.flatMap escaped ++ '"' :: (l.colon ++ (write l k m.2 ++ rest))) := by
    simp [writeMember, quoted]
  have hcolon : ∃ after, skipBlanks (l.colon ++ (write l k m.2 ++ rest)) = ':' :: after ∧
      skipBlanks after = write l k m.2 ++ rest := by
    rw [hwritten, List.cons_append]
    cases l with
    | compact =>
        exact ⟨_, skipBlanks_cons (by decide) _, skipBlanks_cons hblank _⟩
    | pretty =>
        refine ⟨_, skipBlanks_cons (by decide) _, ?_⟩
        exact (List.dropWhile_cons_of_pos (by decide)).trans (skipBlanks_cons hblank _)
  obtain ⟨after, hafter, hskip⟩ := hcolon
  refine ⟨m.1.toList.flatMap escaped ++ '"' :: (l.colon ++ (write l k m.2 ++ rest)), ?_,
    member_eq_ok_iff.2 ⟨_, after, ?_, hafter, hreads after rest hskip⟩⟩
  · rw [skipBlanks_lineStart, hmember, skipBlanks_cons (by decide)]
  · simp only [text, unquoted_flatMap_escaped, bind, Except.bind, String.ofList_toList]

theorem moreElements_write
    (hplain : ∀ v ∈ vs, v.Plain)
    (hreads : ∀ v ∈ vs, Reads value (write l k v) v)
    (hn : vs.length < n)
    (k' : Nat) (rest : List Char) :
    moreElements value n i (writeFurther l k (write l k) vs ++ (l.lineStart k' ++ ']' :: rest)) =
      .ok (vs, rest) := by
  induction vs generalizing n i with
  | nil =>
      obtain ⟨n, rfl⟩ := Nat.exists_eq_succ_of_ne_zero (Nat.ne_zero_of_lt hn)
      refine moreElements_eq_ok_iff.2 (Or.inl ⟨?_, rfl⟩)
      rw [writeFurther, List.flatMap_nil, List.nil_append, skipBlanks_lineStart,
        skipBlanks_cons (by decide)]
  | cons v vs ih =>
      obtain ⟨n, rfl⟩ := Nat.exists_eq_succ_of_ne_zero (Nat.ne_zero_of_lt hn)
      have hrest := ih (i := i + 1) (fun w hw => hplain w (by simp [hw]))
        (fun w hw => hreads w (by simp [hw])) (Nat.lt_of_succ_lt_succ hn)
      refine moreElements_eq_ok_iff.2 (Or.inr ⟨_, v, _, vs, ?_,
        elementAt_write (hplain v (by simp)) (hreads v (by simp)) _, hrest, rfl⟩)
      simp [writeFurther, skipBlanks_cons (c := ',') (by decide)]

theorem arrayBody_write
    (hplain : ∀ w ∈ v :: vs, w.Plain)
    (hreads : ∀ w ∈ v :: vs, Reads value (write l k w) w)
    (hn : vs.length < n)
    (k' : Nat) (rest : List Char) :
    arrayBody value n (writeItems l k (v :: vs) ++ (l.lineStart k' ++ ']' :: rest)) =
      .ok (v :: vs, rest) := by
  rw [arrayBody_eq_ok_iff, writeItems_cons, List.append_assoc, List.append_assoc]
  exact Or.inr ⟨v, _, vs, elementAt_write (hplain v (by simp)) (hreads v (by simp)) _,
    moreElements_write (fun w hw => hplain w (by simp [hw])) (fun w hw => hreads w (by simp [hw]))
      hn k' rest, rfl⟩

theorem moreMembers_write
    (hplain : ∀ m ∈ ms, m.2.Plain)
    (hreads : ∀ m ∈ ms, Reads value (write l k m.2) m.2)
    (hn : ms.length < n)
    (k' : Nat) (rest : List Char) :
    moreMembers value n
        (writeFurther l k (writeMember l k) ms ++ (l.lineStart k' ++ '\x7d' :: rest)) =
      .ok (ms, rest) := by
  induction ms generalizing n with
  | nil =>
      obtain ⟨n, rfl⟩ := Nat.exists_eq_succ_of_ne_zero (Nat.ne_zero_of_lt hn)
      refine moreMembers_eq_ok_iff.2 (Or.inl ⟨?_, rfl⟩)
      rw [writeFurther, List.flatMap_nil, List.nil_append, skipBlanks_lineStart,
        skipBlanks_cons (by decide)]
  | cons m ms ih =>
      obtain ⟨n, rfl⟩ := Nat.exists_eq_succ_of_ne_zero (Nat.ne_zero_of_lt hn)
      have hrest := ih (fun w hw => hplain w (by simp [hw])) (fun w hw => hreads w (by simp [hw]))
        (Nat.lt_of_succ_lt_succ hn)
      refine moreMembers_eq_ok_iff.2 (Or.inr ⟨_, m, _, ms, ?_,
        memberAt_write (hplain m (by simp)) (hreads m (by simp)) _, hrest, rfl⟩)
      simp [writeFurther, skipBlanks_cons (c := ',') (by decide)]

theorem objectBody_write
    (hplain : ∀ m' ∈ m :: ms, m'.2.Plain)
    (hreads : ∀ m' ∈ m :: ms, Reads value (write l k m'.2) m'.2)
    (hn : ms.length < n)
    (k' : Nat) (rest : List Char) :
    objectBody value n (writeMembers l k (m :: ms) ++ (l.lineStart k' ++ '\x7d' :: rest)) =
      .ok (m :: ms, rest) := by
  rw [objectBody_eq_ok_iff, writeMembers_cons, List.append_assoc, List.append_assoc]
  exact Or.inr ⟨m, _, ms, memberAt_write (hplain m (by simp)) (hreads m (by simp)) _,
    moreMembers_write (fun w hw => hplain w (by simp [hw])) (fun w hw => hreads w (by simp [hw]))
      hn k' rest, rfl⟩

/-- The text of an array is longer than those of its elements, and than they are many. -/
theorem length_write_array (l : Layout) (k : Nat) (v : Json) (vs : List Json) :
    (∀ w ∈ v :: vs, (write l (k + 1) w).length < (write l k (.array (v :: vs))).length) ∧
      vs.length < (write l k (.array (v :: vs))).length := by
  have hlength : (write l (k + 1) v).length + (writeFurther l (k + 1) (write l (k + 1)) vs).length <
      (write l k (.array (v :: vs))).length := by
    simp only [write, writeItems_cons, List.length_append, List.length_cons]
    omega
  have hcount := length_le_writeFurther (l := l) (k := k + 1) (write l (k + 1)) vs
  refine ⟨?_, by omega⟩
  intro w hw
  rcases List.mem_cons.1 hw with rfl | hw
  · omega
  · have hw := length_le_writeFurther_of_mem (l := l) (k := k + 1) (write l (k + 1)) hw
    omega

/-- The text of an object is longer than those of its values, and than its members are many. -/
theorem length_write_object (l : Layout) (k : Nat) (m : String × Json)
    (ms : List (String × Json)) :
    (∀ m' ∈ m :: ms, (write l (k + 1) m'.2).length < (write l k (.object (m :: ms))).length) ∧
      ms.length < (write l k (.object (m :: ms))).length := by
  have hlength : (writeMember l (k + 1) m).length +
      (writeFurther l (k + 1) (writeMember l (k + 1)) ms).length <
        (write l k (.object (m :: ms))).length := by
    simp only [write, writeMembers_cons, List.length_append, List.length_cons]
    omega
  have hvalue : ∀ m' : String × Json,
      (write l (k + 1) m'.2).length ≤ (writeMember l (k + 1) m').length := by
    intro m'
    simp only [writeMember, List.length_append]
    omega
  have hcount := length_le_writeFurther (l := l) (k := k + 1) (writeMember l (k + 1)) ms
  refine ⟨?_, by omega⟩
  intro m' hm'
  refine Nat.lt_of_le_of_lt (hvalue m') ?_
  rcases List.mem_cons.1 hm' with rfl | hm'
  · omega
  · have hm' := length_le_writeFurther_of_mem (l := l) (k := k + 1) (writeMember l (k + 1)) hm'
    omega

/-- A plain value is read back from its text in either layout, within a limit that it does not
exceed. -/
theorem reads_write (l : Layout) (h : v.Plain) {k d n : Nat}
    (hd : v.depth ≤ d)
    (hn : (write l k v).length < n) :
    Reads (valueWithin n d) (write l k v) v := by
  have hvalue : ∃ inner, valueWithin n d = valueOf n inner := by
    cases d <;> exact ⟨_, rfl⟩
  induction h generalizing k d with
  | null =>
      intro cs rest hcs
      obtain ⟨inner, hinner⟩ := hvalue
      rw [hinner, valueOf, hcs]
      rfl
  | bool b =>
      intro cs rest hcs
      obtain ⟨inner, hinner⟩ := hvalue
      rw [hinner, valueOf, hcs]
      cases b <;> rfl
  | string s =>
      intro cs rest hcs
      obtain ⟨inner, hinner⟩ := hvalue
      have hquoted : write l k (.string s) ++ rest =
          '"' :: (s.toList.flatMap escaped ++ '"' :: rest) := by
        simp [write, quoted]
      rw [hquoted] at hcs
      rw [hinner, valueOf, hcs]
      simp only [text, unquoted_flatMap_escaped, bind, Except.bind, String.ofList_toList]
  | @array vs hplain ih =>
      obtain ⟨d, rfl⟩ := Nat.exists_eq_succ_of_ne_zero (Nat.ne_zero_of_lt hd)
      have hdepth : ∀ v ∈ vs, v.depth ≤ d := itemsDepth_le.1 (Nat.le_of_succ_le_succ hd)
      intro cs rest hcs
      cases vs with
      | nil =>
          exact valueOf_eq_ok_iff.2 (Or.inl ⟨_, ']' :: rest, [], rfl, hcs,
            arrayBody_eq_ok_iff.2 (Or.inl ⟨skipBlanks_cons (by decide) _, rfl⟩), rfl⟩)
      | cons v vs =>
          obtain ⟨hlength, hcount⟩ := length_write_array l k v vs
          have hreads : ∀ w ∈ v :: vs, Reads (valueWithin n d) (write l (k + 1) w) w :=
            fun w hw => ih w hw (hdepth w hw) (by have := hlength w hw; omega)
              (by cases d <;> exact ⟨_, rfl⟩)
          refine valueOf_eq_ok_iff.2 (Or.inl ⟨_, writeItems l (k + 1) (v :: vs) ++
            (l.lineStart k ++ ']' :: rest), v :: vs, rfl, ?_,
            arrayBody_write hplain hreads (by omega) k rest, rfl⟩)
          simpa [write] using hcs
  | @object ms hnodup hplain ih =>
      obtain ⟨d, rfl⟩ := Nat.exists_eq_succ_of_ne_zero (Nat.ne_zero_of_lt hd)
      have hdepth : ∀ m ∈ ms, m.2.depth ≤ d := membersDepth_le.1 (Nat.le_of_succ_le_succ hd)
      intro cs rest hcs
      rw [← ofMembers_of_nodup hnodup]
      cases ms with
      | nil =>
          exact valueOf_eq_ok_iff.2 (Or.inr (Or.inl ⟨_, '\x7d' :: rest, [], rfl, hcs,
            objectBody_eq_ok_iff.2 (Or.inl ⟨skipBlanks_cons (by decide) _, rfl⟩), rfl⟩))
      | cons m ms =>
          obtain ⟨hlength, hcount⟩ := length_write_object l k m ms
          have hreads : ∀ m' ∈ m :: ms, Reads (valueWithin n d) (write l (k + 1) m'.2) m'.2 :=
            fun m' hm' => ih m' hm' (hdepth m' hm') (by have := hlength m' hm'; omega)
              (by cases d <;> exact ⟨_, rfl⟩)
          refine valueOf_eq_ok_iff.2 (Or.inr (Or.inl ⟨_, writeMembers l (k + 1) (m :: ms) ++
            (l.lineStart k ++ '\x7d' :: rest), m :: ms, rfl, ?_,
            objectBody_write hplain hreads (by omega) k rest, rfl⟩))
          simpa [write] using hcs

/-- The text of a plain value with blanks behind it is a document with that value. -/
theorem documentWithin_write_append (l : Layout) (h : v.Plain) {d : Nat} (hd : v.depth ≤ d)
    {blanks : List Char} (hblanks : ∀ c ∈ blanks, isBlank c = true) :
    documentWithin d (write l 0 v ++ blanks) = .ok v := by
  obtain ⟨c, written, hwritten, hblank, -⟩ := exists_write_eq l 0 h
  have hn : (write l 0 v).length < (write l 0 v ++ blanks).length + 1 := by
    rw [List.length_append]
    omega
  have hread := reads_write l h hd hn (write l 0 v ++ blanks) blanks
    (by rw [hwritten, List.cons_append, skipBlanks_cons hblank])
  have hrest : skipBlanks blanks = [] := by
    have hall : skipBlanks (blanks ++ []) = skipBlanks [] := List.dropWhile_append_of_pos hblanks
    rwa [List.append_nil] at hall
  simp only [documentWithin, hread, bind, Except.bind, hrest]

/-- The text of a plain value is a document with that value. -/
theorem documentWithin_write (l : Layout) (h : v.Plain) {d : Nat} (hd : v.depth ≤ d) :
    documentWithin d (write l 0 v) = .ok v := by
  simpa using documentWithin_write_append l h hd (List.forall_mem_nil _)

/-- A plain value that is not nested too deeply is parsed from its text in either layout. -/
theorem parse_render (l : Layout) (h : v.Plain) (hd : v.depth ≤ maxDepth) :
    parse (v.render l) = .ok v := by
  rw [parse, render, String.toList_ofList, document_eq_documentWithin, documentWithin_write l h hd]

end ReadBack
end Json
end FieldTypes
