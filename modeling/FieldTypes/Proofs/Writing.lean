import FieldTypes.FileTree
import FieldTypes.Proofs.Answers
import Mathlib.Tactic.SplitIfs

/-!
# What writing a file changes

Making a directory and writing a file both put a node at one place: the one that the path leads to
afterwards. Directories stay directories and what is there stays there, so paths that led somewhere
lead there still. Of the paths along which directories are made some may lead to directories that
are there already; the new directories are where the others lead.

**Results.**
* `FileTree.nodeAt_put`: what stands where after a node was put at a place.
* `FileTree.Grows.follow`: paths keep leading where they led.
* `FileTree.exists_put_of_makeDirectory`, `FileTree.exists_put_of_write`: what is put, and where.
* `FileTree.madeAlong_makeEach`: all that making directories along paths does.
* `FileTree.read_of_write`: what was written can be read.
-/

namespace FieldTypes
namespace FileTree

section Put

variable {place q : Place} {n : Node}

theorem lookup_map_put (nodes : List (Place × Node)) :
    (nodes.map fun e => if e.1 = place then (place, n) else e).lookup q =
      if q = place then (nodes.lookup place).map fun _ => n else nodes.lookup q := by
  induction nodes with
  | nil =>
      simp
  | cons e nodes ih =>
      obtain ⟨place', n'⟩ := e
      rw [List.map_cons]
      by_cases hplace : place' = place
      · subst hplace
        by_cases hq : q = place'
        · simp [hq]
        · simp [List.lookup_cons, hq, beq_false_of_ne hq, ih]
      · by_cases hq : q = place'
        · subst hq
          simp [hplace]
        · simp [List.lookup_cons, hplace, beq_false_of_ne hq, beq_false_of_ne (Ne.symm hplace), ih]

/-- What stands where after a node was put at a place. -/
theorem nodeAt_put (t : FileTree) (n : Node) (hplace : place ≠ []) (q : Place) :
    (t.put place n).nodeAt q = if q = place then some n else t.nodeAt q := by
  by_cases hq : q = []
  · rw [nodeAt, if_pos hq, if_neg fun h => hplace (h.symm.trans hq), nodeAt, if_pos hq]
  · have hput : (t.put place n).nodes.lookup q =
        if q = place then some n else t.nodes.lookup q := by
      unfold put
      split_ifs with hsome hqplace hqplace
      · obtain ⟨n', hn'⟩ := Option.isSome_iff_exists.1 hsome
        rw [lookup_map_put, if_pos hqplace, hn']
        rfl
      · rw [lookup_map_put, if_neg hqplace]
      · rw [List.lookup_append, hqplace, Option.not_isSome_iff_eq_none.1 hsome]
        simp
      · simp [List.lookup_append, List.lookup_cons, beq_false_of_ne hqplace]
    rw [nodeAt, if_neg hq, hput, nodeAt, if_neg hq]

@[simp] theorem workingDirectory_put (t : FileTree) (place : Place) (n : Node) :
    (t.put place n).workingDirectory = t.workingDirectory := by
  unfold put
  split_ifs <;> rfl

end Put

section Follow

variable {t t' : FileTree} {p : Path} {place q : Place} {s : List Char} {ss : List (List Char)}

theorem step_nil (hplace : t.nodeAt place = some .directory) :
    t.step place [] = .ok place := by
  rw [step, hplace]
  rfl

/-- A name leads from a directory to what has it there. -/
theorem step_of_isSome
    (hplace : t.nodeAt place = some .directory)
    (hs : s ≠ [])
    (hdots : isDots s = false)
    (hshort : (String.ofList s).utf8ByteSize ≤ nameLimit)
    (hthere : (t.nodeAt (place ++ [String.ofList s])).isSome) :
    t.step place s = .ok (place ++ [String.ofList s]) := by
  have hidle : ¬ (s = [] ∨ s = ['.']) := by
    rintro (rfl | rfl)
    · exact hs rfl
    · exact absurd hdots (by decide)
  have hup : s ≠ ['.', '.'] := by
    rintro rfl
    exact absurd hdots (by decide)
  rw [step, hplace]
  simp only [if_neg hidle, if_neg hup, if_neg (Nat.not_lt.2 hshort), if_pos hthere]

/-- What is there in one file tree is there in another one, the directories as directories. -/
structure Grows (t t' : FileTree) : Prop where
  workingDirectory : t'.workingDirectory = t.workingDirectory
  directory : ∀ q, t.nodeAt q = some .directory → t'.nodeAt q = some .directory
  present : ∀ q, (t.nodeAt q).isSome → (t'.nodeAt q).isSome

theorem Grows.step (h : Grows t t') (hs : t.step place s = .ok q) :
    t'.step place s = .ok q := by
  unfold FileTree.step at hs ⊢
  cases hplace : t.nodeAt place with
  | none =>
      rw [hplace] at hs
      cases hs
  | some n =>
      rw [hplace] at hs
      cases n with
      | file bytes =>
          cases hs
      | directory =>
          rw [h.directory place hplace]
          simp only at hs ⊢
          split_ifs at hs ⊢ with hidle hup hlong hthere' hthere hthere
          · exact hs
          · exact hs
          · exact hs
          · exact absurd (h.present _ hthere) hthere'

theorem Grows.foldlM_step (h : Grows t t') (hss : ss.foldlM t.step place = .ok q) :
    ss.foldlM t'.step place = .ok q := by
  induction ss generalizing place with
  | nil =>
      exact hss
  | cons s ss ih =>
      rw [List.foldlM_cons] at hss ⊢
      obtain ⟨place', hs, hss⟩ := exists_of_bind_eq_ok hss
      rw [h.step hs]
      exact ih hss

/-- Paths keep leading where they led. -/
theorem Grows.follow (h : Grows t t') (hp : t.follow p = .ok q) :
    t'.follow p = .ok q := by
  obtain ⟨_, hvet, hp⟩ := exists_of_bind_eq_ok hp
  rw [FileTree.follow, hvet, start, h.workingDirectory]
  exact h.foldlM_step hp

theorem Grows.put {n : Node} (hplace : place ≠ []) (hfree : t.nodeAt place ≠ some .directory) :
    Grows t (t.put place n) where
  workingDirectory := t.workingDirectory_put place n
  directory := by
    intro q hq
    rw [t.nodeAt_put n hplace, if_neg, hq]
    rintro rfl
    exact hfree hq
  present := by
    intro q hq
    rw [t.nodeAt_put n hplace]
    split_ifs
    · rfl
    · exact hq

end Follow

section Entry

variable {t t' : FileTree} {p : Path} {place q : Place} {s : List Char} {n : Node}

/-- In front of the first segment that is not empty there are empty ones. -/
theorem exists_replicate_of_dropWhile {ss outer : List (List Char)}
    (h : ss.dropWhile (· == []) = s :: outer) :
    s ≠ [] ∧ ∃ k, ss = List.replicate k [] ++ s :: outer ∧
      ((ss.head? == some []) = false → k = 0) := by
  induction ss with
  | nil =>
      cases h
  | cons u us ih =>
      by_cases hu : u = []
      · subst hu
        obtain ⟨hs, k, rfl, -⟩ := ih h
        exact ⟨hs, k + 1, rfl, fun hslashed => absurd hslashed (by simp)⟩
      · rw [List.dropWhile_cons_of_neg (by simpa using hu)] at h
        cases h
        exact ⟨hu, 0, rfl, fun _ => rfl⟩

/-- A path ends with its last segment and slashes. -/
theorem exists_segments_of_last (h : (entryOf p).last = some s) :
    s ≠ [] ∧ ∃ k, p.segments = (entryOf p).way ++ s :: List.replicate k [] ∧
      ((entryOf p).slashed = false → k = 0) := by
  unfold entryOf at h ⊢
  simp only at h ⊢
  split at h
  · cases h
  · next s' outer hrest =>
      cases h
      obtain ⟨hs, k, hsegments, hk⟩ := exists_replicate_of_dropWhile hrest
      refine ⟨hs, k, ?_, hk⟩
      rw [← List.reverse_reverse p.segments, hsegments]
      simp

theorem parentPlace_eq_ok_iff {e : FileTree.Entry} :
    t.parentPlace p e = .ok place ↔
      e.way.foldlM t.step (t.start p) = .ok place ∧ t.nodeAt place = some .directory := by
  unfold parentPlace
  cases e.way.foldlM t.step (t.start p) with
  | error e =>
      simp [bind, Except.bind]
  | ok q =>
      simp only [bind, Except.bind, Except.ok.injEq]
      cases hq : t.nodeAt q with
      | none =>
          simp only [reduceCtorEq, false_iff, not_and]
          rintro rfl
          simp [hq]
      | some n =>
          cases n with
          | file bytes =>
              simp only [reduceCtorEq, false_iff, not_and]
              rintro rfl
              simp [hq]
          | directory =>
              simp only [Except.ok.injEq, iff_self_and]
              rintro rfl
              exact hq

/-- A path leads to what was put in its directory under its last segment. Behind that segment it may
have slashes where a directory was put. -/
theorem follow_put
    (hvet : vet p = .ok ())
    (hparent : t.parentPlace p (entryOf p) = .ok place)
    (hlast : (entryOf p).last = some s)
    (hdots : isDots s = false)
    (hshort : (String.ofList s).utf8ByteSize ≤ nameLimit)
    (hfree : t.nodeAt (place ++ [String.ofList s]) ≠ some .directory)
    (hslashed : n = .directory ∨ (entryOf p).slashed = false) :
    (t.put (place ++ [String.ofList s]) n).follow p = .ok (place ++ [String.ofList s]) := by
  obtain ⟨hs, k, hsegments, hk⟩ := exists_segments_of_last hlast
  obtain ⟨hway, hplace⟩ := parentPlace_eq_ok_iff.1 hparent
  have hne : place ++ [String.ofList s] ≠ [] := by simp
  have hgrows : Grows t (t.put (place ++ [String.ofList s]) n) := Grows.put hne hfree
  have hput : (t.put (place ++ [String.ofList s]) n).nodeAt (place ++ [String.ofList s]) = some n := by
    rw [nodeAt_put t n hne, if_pos rfl]
  have hslashes : ∀ k, (n = .directory ∨ k = 0) →
      (List.replicate k []).foldlM (t.put (place ++ [String.ofList s]) n).step
        (place ++ [String.ofList s]) = .ok (place ++ [String.ofList s]) := by
    intro k
    induction k with
    | zero =>
        exact fun _ => rfl
    | succ k ih =>
        intro hn
        have hn := hn.resolve_right (Nat.succ_ne_zero k)
        rw [List.replicate_succ, List.foldlM_cons, step_nil (hput.trans (congrArg some hn))]
        exact ih (Or.inl hn)
  have hname := step_of_isSome (hgrows.directory place hplace) hs hdots hshort
    (by rw [hput]; rfl)
  have hway' : (entryOf p).way.foldlM (t.put (place ++ [String.ofList s]) n).step
      ((t.put (place ++ [String.ofList s]) n).start p) = .ok place := by
    rw [start, hgrows.workingDirectory]
    exact hgrows.foldlM_step hway
  rw [follow, hvet, hsegments]
  simp only [bind, Except.bind]
  rw [List.foldlM_append, hway']
  simp only [bind, Except.bind]
  rw [List.foldlM_cons, hname]
  exact hslashes k (hslashed.imp_right hk)

end Entry

section Operations

variable {t t' t'' : FileTree} {p : Path} {ps : List Path} {q : Place} {bytes : ByteArray}

/-- A directory that is made is put where its path leads then, and where nothing was. -/
theorem exists_put_of_makeDirectory (h : t.makeDirectory p = .ok t') :
    ∃ place, place ≠ [] ∧ t.nodeAt place = none ∧ t' = t.put place .directory ∧
      t'.follow p = .ok place := by
  obtain ⟨_, hvet, h⟩ := exists_of_bind_eq_ok h
  obtain ⟨place, hparent, h⟩ := exists_of_bind_eq_ok h
  cases hlast : (entryOf p).last with
  | none =>
      rw [hlast] at h
      cases h
  | some s =>
      rw [hlast] at h
      simp only at h
      split_ifs at h with hdots hlong hthere
      cases h
      have hfree : t.nodeAt (place ++ [String.ofList s]) = none :=
        Option.not_isSome_iff_eq_none.1 hthere
      refine ⟨place ++ [String.ofList s], by simp, hfree, rfl, ?_⟩
      exact follow_put hvet hparent hlast (by simpa using hdots) (Nat.not_lt.1 hlong)
        (by rw [hfree]; simp) (Or.inl rfl)

/-- A file that is written is put where its path leads then, and where no directory was. -/
theorem exists_put_of_write (h : t.write p bytes = .ok t') :
    ∃ place, place ≠ [] ∧ t.nodeAt place ≠ some .directory ∧ t' = t.put place (.file bytes) ∧
      t'.follow p = .ok place := by
  obtain ⟨_, hvet, h⟩ := exists_of_bind_eq_ok h
  obtain ⟨place, hparent, h⟩ := exists_of_bind_eq_ok h
  cases hlast : (entryOf p).last with
  | none =>
      rw [hlast] at h
      cases h
  | some s =>
      rw [hlast] at h
      simp only at h
      split_ifs at h with hdirectory hlong
      rw [Bool.or_eq_true, not_or] at hdirectory
      split at h
      · cases h
      · next hfree =>
          cases h
          refine ⟨place ++ [String.ofList s], by simp, hfree, rfl, ?_⟩
          exact follow_put hvet hparent hlast (by simpa using hdirectory.1) (Nat.not_lt.1 hlong)
            hfree (Or.inr (by simpa using hdirectory.2))

/-- What making directories along paths does to a file tree: where nothing was there may be a
directory then, if one of the paths leads there. -/
structure MadeAlong (ps : List Path) (t t' : FileTree) : Prop where
  workingDirectory : t'.workingDirectory = t.workingDirectory
  nodeAt : ∀ q, t'.nodeAt q = t.nodeAt q ∨
    t.nodeAt q = none ∧ t'.nodeAt q = some .directory ∧ ∃ p ∈ ps, t'.follow p = .ok q

theorem MadeAlong.grows (h : MadeAlong ps t t') : Grows t t' where
  workingDirectory := h.workingDirectory
  directory := by
    intro q hq
    rcases h.nodeAt q with hsame | ⟨hfree, -⟩
    · exact hsame.trans hq
    · rw [hfree] at hq
      cases hq
  present := by
    intro q hq
    rcases h.nodeAt q with hsame | ⟨-, hmade, -⟩
    · rwa [hsame]
    · rw [hmade]
      rfl

theorem MadeAlong.refl (ps : List Path) (t : FileTree) : MadeAlong ps t t where
  workingDirectory := rfl
  nodeAt := fun _ => Or.inl rfl

theorem MadeAlong.trans (h : MadeAlong ps t t') (h' : MadeAlong ps t' t'') :
    MadeAlong ps t t'' where
  workingDirectory := h'.workingDirectory.trans h.workingDirectory
  nodeAt := by
    intro q
    rcases h.nodeAt q with hsame | ⟨hfree, hmade, p, hp, hfollow⟩
    · rw [← hsame]
      exact h'.nodeAt q
    · exact Or.inr ⟨hfree, h'.grows.directory q hmade, p, hp, h'.grows.follow hfollow⟩

theorem MadeAlong.mono {ps' : List Path} (h : MadeAlong ps t t') (hps : ps ⊆ ps') :
    MadeAlong ps' t t' where
  workingDirectory := h.workingDirectory
  nodeAt := fun q => (h.nodeAt q).imp_right fun ⟨hfree, hmade, p, hp, hfollow⟩ =>
    ⟨hfree, hmade, p, hps hp, hfollow⟩

theorem madeAlong_makeDirectory (h : t.makeDirectory p = .ok t') :
    MadeAlong [p] t t' := by
  obtain ⟨place, hplace, hfree, rfl, hfollow⟩ := exists_put_of_makeDirectory h
  refine ⟨t.workingDirectory_put place .directory, fun q => ?_⟩
  have hput := t.nodeAt_put .directory hplace q
  by_cases hq : q = place
  · subst hq
    rw [if_pos rfl] at hput
    exact Or.inr ⟨hfree, hput, p, by simp, hfollow⟩
  · rw [if_neg hq] at hput
    exact Or.inl hput

/-- All that making directories along paths does, however far it comes. -/
theorem madeAlong_makeEach (t : FileTree) (ps : List Path) :
    MadeAlong ps t (t.makeEach ps).2 := by
  induction ps with
  | nil =>
      exact MadeAlong.refl [] t
  | cons p outer ih =>
      by_cases hempty : p.text = ""
      · rw [makeEach, if_pos hempty]
        exact MadeAlong.refl _ t
      · rw [makeEach, if_neg hempty]
        cases hmake : t.makeDirectory p with
        | ok made =>
            exact (madeAlong_makeDirectory hmake).mono (by simp)
        | error e =>
            by_cases hmissing : e = .notFound
            · subst hmissing
              have houter := ih.mono (List.subset_cons_self p outer)
              generalize t.makeEach outer = r at houter ⊢
              obtain ⟨e | u, made⟩ := r
              · exact houter
              · simp only at houter ⊢
                cases hagain : made.makeDirectory p with
                | ok made' =>
                    exact houter.trans ((madeAlong_makeDirectory hagain).mono (by simp))
                | error e =>
                    exact houter
            · cases e with
              | notFound =>
                  exact absurd rfl hmissing
              | alreadyExists | notADirectory | isADirectory | nameTooLong | nulInPath | notUtf8 =>
                  exact MadeAlong.refl _ t

/-- A text in a file is read from there. -/
theorem read_of_nodeAt {contents : String}
    (hfollow : t.follow p = .ok q)
    (hfile : t.nodeAt q = some (.file contents.toUTF8)) :
    t.read p = .ok contents := by
  have hvalid : contents.toUTF8.IsValidUTF8 := contents.isValidUTF8
  rw [read, node, hfollow]
  simp only [bind, Except.bind, hfile]
  rw [String.fromUTF8?, dif_pos hvalid]
  rfl

/-- What was written can be read. -/
theorem read_of_write {contents : String} (h : t.write p contents.toUTF8 = .ok t') :
    t'.read p = .ok contents := by
  obtain ⟨place, hplace, -, rfl, hfollow⟩ := exists_put_of_write h
  refine read_of_nodeAt hfollow ?_
  rw [t.nodeAt_put _ hplace, if_pos rfl]

end Operations
end FileTree
end FieldTypes
