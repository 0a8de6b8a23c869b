import FieldTypes.Proofs.Reading

/-!
# Nesting of JSON values

The depth of a value is how many arrays and objects lie around each other in it. A reader that
is given a limit accepts no value beyond it: each array and object has its elements read with a
limit that is lower by one. The text may be nested deeper than its value, since an object loses the
members whose key appears again.

**Results.**
* `Json.depth_le_of_documentWithin`: what is accepted within a limit is nested within it.
* `Json.documentWithin_mono`: a higher limit accepts the same, and more.
-/

namespace FieldTypes
namespace Json

mutual

/-- The depth to which arrays and objects are nested in a value. -/
def depth : Json → Nat
  | array items => itemsDepth items + 1
  | object members => membersDepth members + 1
  | _ => 0

/-- The depth of the deepest element. -/
def itemsDepth : List Json → Nat
  | [] => 0
  | v :: vs => max (depth v) (itemsDepth vs)

/-- The depth of the deepest member. -/
def membersDepth : List (String × Json) → Nat
  | [] => 0
  | (_, v) :: ms => max (depth v) (membersDepth ms)

end

/-- Reads a document in which arrays and objects are nested to a depth of at most `depth`. -/
def documentWithin (depth : Nat) (cs : List Char) : Except Stop Json := do
  let (v, rest) ← valueWithin (cs.length + 1) depth cs
  match skipBlanks rest with
  | [] => .ok v
  | rest => .error (.upon .trailingCharacters rest)

theorem document_eq_documentWithin : document = documentWithin maxDepth :=
  rfl

section Depth

variable {d : Nat} {k : String} {v : Json} {vs : List Json} {ms : List (String × Json)}

theorem itemsDepth_le : itemsDepth vs ≤ d ↔ ∀ v ∈ vs, v.depth ≤ d := by
  induction vs with
  | nil =>
      simp [itemsDepth]
  | cons v vs ih =>
      rw [itemsDepth, Nat.max_le, ih, List.forall_mem_cons]

theorem membersDepth_le : membersDepth ms ≤ d ↔ ∀ m ∈ ms, m.2.depth ≤ d := by
  induction ms with
  | nil =>
      simp [membersDepth]
  | cons m ms ih =>
      rw [membersDepth, Nat.max_le, ih, List.forall_mem_cons]

theorem membersDepth_bindKey_le (hv : v.depth ≤ d) (hms : membersDepth ms ≤ d) :
    membersDepth (bindKey k v ms) ≤ d := by
  induction ms with
  | nil =>
      simpa [bindKey, membersDepth] using hv
  | cons m ms ih =>
      obtain ⟨hm, hms⟩ := Nat.max_le.1 hms
      unfold bindKey
      split_ifs
      · exact Nat.max_le.2 ⟨hv, hms⟩
      · exact Nat.max_le.2 ⟨hm, ih hms⟩

/-- Members that take another one's place do not make an object deeper. -/
theorem depth_ofMembers_le (h : membersDepth ms ≤ d) :
    (ofMembers ms).depth ≤ d + 1 := by
  have hfoldl : ∀ kept, membersDepth kept ≤ d →
      membersDepth (ms.foldl (fun ms m => bindKey m.1 m.2 ms) kept) ≤ d := by
    induction ms with
    | nil =>
        exact fun kept hkept => hkept
    | cons m ms ih =>
        obtain ⟨hm, hms⟩ := Nat.max_le.1 h
        exact fun kept hkept => ih hms _ (membersDepth_bindKey_le hm hkept)
  exact Nat.succ_le_succ (hfoldl [] (Nat.zero_le d))

end Depth

/-- Whether all values that the reader accepts are nested to a depth of at most `d`. -/
def Reader.Within (d : Nat) (value : Reader Json) : Prop :=
  ∀ cs v rest, value cs = .ok (v, rest) → v.depth ≤ d

section Within

variable {d n i : Nat} {value : Reader Json} {cs rest : List Char} {v : Json}
  {m : String × Json} {vs : List Json} {ms : List (String × Json)}

theorem depth_le_of_moreElements (hvalue : value.Within d)
    (h : moreElements value n i cs = .ok (vs, rest)) :
    itemsDepth vs ≤ d := by
  induction n generalizing i cs vs with
  | zero =>
      cases h
  | succ n ih =>
      obtain ⟨-, rfl⟩ | ⟨_, v, _, ws, -, ⟨_, _, -, -, hv⟩, hws, rfl⟩ := moreElements_eq_ok_iff.1 h
      · exact Nat.zero_le d
      · exact Nat.max_le.2 ⟨hvalue _ _ _ hv, ih hws⟩

theorem depth_le_of_arrayBody (hvalue : value.Within d)
    (h : arrayBody value n cs = .ok (vs, rest)) :
    itemsDepth vs ≤ d := by
  obtain ⟨-, rfl⟩ | ⟨v, _, ws, ⟨_, _, -, -, hv⟩, hws, rfl⟩ := arrayBody_eq_ok_iff.1 h
  · exact Nat.zero_le d
  · exact Nat.max_le.2 ⟨hvalue _ _ _ hv, depth_le_of_moreElements hvalue hws⟩

theorem depth_le_of_memberAt (hvalue : value.Within d) (h : MemberAt value cs m rest) :
    m.2.depth ≤ d := by
  obtain ⟨_, -, hm⟩ := h
  obtain ⟨_, _, -, -, hv⟩ := member_eq_ok_iff.1 hm
  exact hvalue _ _ _ hv

theorem depth_le_of_moreMembers (hvalue : value.Within d)
    (h : moreMembers value n cs = .ok (ms, rest)) :
    membersDepth ms ≤ d := by
  induction n generalizing cs ms with
  | zero =>
      cases h
  | succ n ih =>
      obtain ⟨-, rfl⟩ | ⟨_, m, _, ms', -, hm, hms, rfl⟩ := moreMembers_eq_ok_iff.1 h
      · exact Nat.zero_le d
      · exact Nat.max_le.2 ⟨depth_le_of_memberAt hvalue hm, ih hms⟩

theorem depth_le_of_objectBody (hvalue : value.Within d)
    (h : objectBody value n cs = .ok (ms, rest)) :
    membersDepth ms ≤ d := by
  obtain ⟨-, rfl⟩ | ⟨m, _, ms', hm, hms, rfl⟩ := objectBody_eq_ok_iff.1 h
  · exact Nat.zero_le d
  · exact Nat.max_le.2 ⟨depth_le_of_memberAt hvalue hm, depth_le_of_moreMembers hvalue hms⟩

theorem eq_of_word {w : Json} {expected : List Char}
    (h : word w expected cs = .ok (v, rest)) :
    v = w := by
  induction expected generalizing cs with
  | nil =>
      cases h
      rfl
  | cons c expected ih =>
      cases cs with
      | nil =>
          cases h
      | cons c' cs =>
          unfold word at h
          split_ifs at h
          exact ih h

/-- Without a reader of the values inside only those are accepted that have none. -/
theorem within_valueOf_none (n : Nat) : (valueOf n none).Within 0 := by
  intro cs v rest h
  unfold valueOf at h
  split at h
  · cases h
  · rw [eq_of_word h]
    exact Nat.le_refl 0
  · rw [eq_of_word h]
    exact Nat.le_refl 0
  · rw [eq_of_word h]
    exact Nat.le_refl 0
  · obtain ⟨s, -, h⟩ := exists_of_bind_eq_ok h
    cases h
    exact Nat.le_refl 0
  · cases h
  · cases h
  · split_ifs at h
    obtain ⟨after, -, h⟩ := exists_of_bind_eq_ok h
    cases h
    exact Nat.le_refl 0

theorem within_valueWithin (n d : Nat) : (valueWithin n d).Within d := by
  induction d with
  | zero =>
      exact within_valueOf_none n
  | succ d ih =>
      intro cs v rest h
      obtain ⟨_, _, vs, ⟨⟩, -, hvs, rfl⟩ | ⟨_, _, ms, ⟨⟩, -, hms, rfl⟩ | h := valueOf_eq_ok_iff.1 h
      · exact Nat.succ_le_succ (depth_le_of_arrayBody ih hvs)
      · exact depth_ofMembers_le (depth_le_of_objectBody ih hms)
      · exact Nat.le_trans (within_valueOf_none n cs v rest h) (Nat.zero_le _)

/-- What is accepted within a limit is nested within it. -/
theorem depth_le_of_documentWithin (h : documentWithin d cs = .ok v) :
    v.depth ≤ d := by
  obtain ⟨⟨w, after⟩, hw, h⟩ := exists_of_bind_eq_ok h
  simp only at h
  split at h
  · cases h
    exact within_valueWithin _ _ _ _ _ hw
  · cases h

end Within

/-- Whether a reader accepts all that another one does, as the same. -/
def Reader.Extends (value value' : Reader Json) : Prop :=
  ∀ cs v rest, value cs = .ok (v, rest) → value' cs = .ok (v, rest)

section Extends

variable {d d' n i : Nat} {value value' : Reader Json} {cs rest : List Char} {v : Json}
  {m : String × Json} {vs : List Json} {ms : List (String × Json)}

theorem ElementAt.mono (hvalue : value.Extends value') (h : ElementAt value cs v rest) :
    ElementAt value' cs v rest := by
  obtain ⟨c, after, hcs, hc, hv⟩ := h
  exact ⟨c, after, hcs, hc, hvalue _ _ _ hv⟩

theorem MemberAt.mono (hvalue : value.Extends value') (h : MemberAt value cs m rest) :
    MemberAt value' cs m rest := by
  obtain ⟨after, hcs, hm⟩ := h
  obtain ⟨colon, behind, hkey, hcolon, hv⟩ := member_eq_ok_iff.1 hm
  exact ⟨after, hcs, member_eq_ok_iff.2 ⟨colon, behind, hkey, hcolon, hvalue _ _ _ hv⟩⟩

theorem moreElements_mono (hvalue : value.Extends value')
    (h : moreElements value n i cs = .ok (vs, rest)) :
    moreElements value' n i cs = .ok (vs, rest) := by
  induction n generalizing i cs vs with
  | zero =>
      cases h
  | succ n ih =>
      rw [moreElements_eq_ok_iff] at h ⊢
      refine h.imp_right ?_
      rintro ⟨after, v, behind, ws, hcs, hv, hws, rfl⟩
      exact ⟨after, v, behind, ws, hcs, hv.mono hvalue, ih hws, rfl⟩

theorem arrayBody_mono (hvalue : value.Extends value')
    (h : arrayBody value n cs = .ok (vs, rest)) :
    arrayBody value' n cs = .ok (vs, rest) := by
  rw [arrayBody_eq_ok_iff] at h ⊢
  refine h.imp_right ?_
  rintro ⟨v, behind, ws, hv, hws, rfl⟩
  exact ⟨v, behind, ws, hv.mono hvalue, moreElements_mono hvalue hws, rfl⟩

theorem moreMembers_mono (hvalue : value.Extends value')
    (h : moreMembers value n cs = .ok (ms, rest)) :
    moreMembers value' n cs = .ok (ms, rest) := by
  induction n generalizing cs ms with
  | zero =>
      cases h
  | succ n ih =>
      rw [moreMembers_eq_ok_iff] at h ⊢
      refine h.imp_right ?_
      rintro ⟨after, m, behind, ms', hcs, hm, hms, rfl⟩
      exact ⟨after, m, behind, ms', hcs, hm.mono hvalue, ih hms, rfl⟩

theorem objectBody_mono (hvalue : value.Extends value')
    (h : objectBody value n cs = .ok (ms, rest)) :
    objectBody value' n cs = .ok (ms, rest) := by
  rw [objectBody_eq_ok_iff] at h ⊢
  refine h.imp_right ?_
  rintro ⟨m, behind, ms', hm, hms, rfl⟩
  exact ⟨m, behind, ms', hm.mono hvalue, moreMembers_mono hvalue hms, rfl⟩

theorem extends_valueWithin (n d : Nat) : (valueWithin n d).Extends (valueWithin n (d + 1)) := by
  induction d with
  | zero =>
      intro cs v rest h
      exact valueOf_eq_ok_iff.2 (Or.inr (Or.inr h))
  | succ d ih =>
      intro cs v rest h
      obtain ⟨_, after, vs, ⟨⟩, hcs, hvs, rfl⟩ | ⟨_, after, ms, ⟨⟩, hcs, hms, rfl⟩ | h :=
        valueOf_eq_ok_iff.1 h
      · exact valueOf_eq_ok_iff.2
          (Or.inl ⟨_, after, vs, rfl, hcs, arrayBody_mono ih hvs, rfl⟩)
      · exact valueOf_eq_ok_iff.2
          (Or.inr (Or.inl ⟨_, after, ms, rfl, hcs, objectBody_mono ih hms, rfl⟩))
      · exact valueOf_eq_ok_iff.2 (Or.inr (Or.inr h))

/-- What is accepted within a limit is accepted within a higher one, with the same value. -/
theorem documentWithin_mono (h : documentWithin d cs = .ok v) (hd : d ≤ d') :
    documentWithin d' cs = .ok v := by
  induction hd with
  | refl =>
      exact h
  | @step d' _ ih =>
      obtain ⟨⟨w, after⟩, hw, hrest⟩ := exists_of_bind_eq_ok ih
      rw [documentWithin, extends_valueWithin _ _ _ _ _ hw]
      exact hrest

/-- Whatever limits accept a text, they find the same value in it. -/
theorem eq_of_documentWithin {v' : Json} (h : documentWithin d cs = .ok v)
    (h' : documentWithin d' cs = .ok v') :
    v = v' := by
  have hmax := documentWithin_mono h (Nat.le_max_left d d')
  rw [documentWithin_mono h' (Nat.le_max_right d d')] at hmax
  exact (Except.ok.inj hmax).symm

end Extends

end Json
end FieldTypes
