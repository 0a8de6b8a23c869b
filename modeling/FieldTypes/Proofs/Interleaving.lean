import FieldTypes.Proofs.Journal

/-!
# Computations that run at once

A computation that loads documents and gives warnings is a strand: it is done, or it asks for one
document and goes on with the answer, or it gives one warning. Strands in a pool share a journal, and
any of them may be the next to go one step further. To load a document is one step: an entry of the
cache is made by the first who asks for it, and the others wait.

The journal never changes what it answers, so a step changes neither what its strand comes to nor what
the others do. Each step uses up one of finitely many, and strands that are not done have a next one.

**Results.**
* `Strand.run_fst`: what a strand comes to when nothing runs beside it.
* `Pool.Step.values_eq`, `Pool.Runs.values_eq`: a step, and a run, leave what the strands come to as
  it is.
* `Pool.Step.length_eq`, `Pool.Runs.length_eq`: steps are used up.
* `Pool.exists_step`: what is not done can go on.
-/

namespace FieldTypes

/-- A computation that loads documents and gives warnings, one at a time. -/
inductive Strand (α : Type) where
  | done (a : α)
  | load (p : Path) (next : Except LoadError Document → Strand α)
  | warn (w : Warning) (next : Strand α)

namespace Strand

variable {α β : Type}

/-- A strand from its beginning to its end. -/
def run (s : Source) : Strand α → Resolving α
  | done a, j => (a, j)
  | load p next, j =>
    match Resolving.load s p j with
    | (answer, j) => (next answer).run s j
  | warn w next, j =>
    match Resolving.warn w j with
    | ((), j) => next.run s j

/-- What a strand comes to where the view answers for all documents. -/
def value (v : Path → Except LoadError Document) : Strand α → α
  | done a => a
  | load p next => (next (v p.normalize)).value v
  | warn _ next => next.value v

/-- The number of steps that a strand takes where the view answers for all documents. -/
def length (v : Path → Except LoadError Document) : Strand α → Nat
  | done _ => 0
  | load p next => (next (v p.normalize)).length v + 1
  | warn _ next => next.length v + 1

/-- The number of steps that several strands take together. -/
def lengths (v : Path → Except LoadError Document) : List (Strand α) → Nat
  | [] => 0
  | t :: ts => t.length v + lengths v ts

/-- A strand, and another one behind it that depends on what the first one comes to. -/
def bind (t : Strand α) (f : α → Strand β) : Strand β :=
  match t with
  | done a => f a
  | load p next => .load p fun answer => (next answer).bind f
  | warn w next => .warn w (next.bind f)

variable {s : Source} {v : Path → Except LoadError Document}

/-- A strand comes to what the journal's view answers for it. -/
theorem run_fst (t : Strand α) {j : Journal} (h : j.view s = v) :
    (t.run s j).1 = t.value v := by
  induction t generalizing j with
  | done a =>
      rfl
  | load p next ih =>
      rw [value, ← h, ← Resolving.load_fst, h]
      exact ih _ ((Journal.Reaches.load p .refl).view_eq.trans h)
  | warn w next ih =>
      exact ih ((Journal.Reaches.warn w .refl).view_eq.trans h)

theorem lengths_append (ts us : List (Strand α)) :
    lengths v (ts ++ us) = lengths v ts + lengths v us := by
  induction ts with
  | nil =>
      rw [List.nil_append, lengths, Nat.zero_add]
  | cons t ts ih =>
      rw [List.cons_append, lengths, lengths, ih, Nat.add_assoc]

theorem lengths_done (as : List α) :
    lengths v (as.map .done) = 0 := by
  induction as with
  | nil =>
      rfl
  | cons a as ih =>
      rw [List.map_cons, lengths, ih, length]

theorem run_bind (t : Strand α) (f : α → Strand β) (j : Journal) :
    (t.bind f).run s j = (f (t.run s j).1).run s (t.run s j).2 := by
  induction t generalizing j with
  | done a =>
      rfl
  | load p next ih =>
      exact ih _ _
  | warn w next ih =>
      exact ih _

end Strand

/-- Strands that run at once, and the journal that they share. -/
structure Pool (α : Type) where
  strands : List (Strand α)
  journal : Journal

namespace Pool

variable {α : Type} {s : Source} {v : Path → Except LoadError Document} {n : Nat} {x y z : Pool α}

/-- One of the strands goes one step further. -/
inductive Step (s : Source) : Pool α → Pool α → Prop
  | load (before after : List (Strand α)) (p : Path)
      (next : Except LoadError Document → Strand α) (j : Journal) :
      Step s ⟨before ++ .load p next :: after, j⟩
        ⟨before ++ next (Resolving.load s p j).1 :: after, (Resolving.load s p j).2⟩
  | warn (before after : List (Strand α)) (w : Warning) (next : Strand α) (j : Journal) :
      Step s ⟨before ++ .warn w next :: after, j⟩
        ⟨before ++ next :: after, (Resolving.warn w j).2⟩

/-- A number of steps, each by any of the strands. -/
inductive Runs (s : Source) (x : Pool α) : Nat → Pool α → Prop
  | refl : Runs s x 0 x
  | step {n : Nat} {y z : Pool α} : Runs s x n y → Step s y z → Runs s x (n + 1) z

/-- All strands are done, with the results given. -/
def Done (x : Pool α) (as : List α) : Prop :=
  x.strands = as.map .done

/-- What the strands come to where the view answers for all documents. -/
def values (v : Path → Except LoadError Document) (x : Pool α) : List α :=
  x.strands.map (Strand.value v)

/-- The number of steps that the strands take where the view answers for all documents. -/
def length (v : Path → Except LoadError Document) (x : Pool α) : Nat :=
  Strand.lengths v x.strands

theorem Step.reaches (h : Step s x y) :
    x.journal.Reaches s y.journal := by
  cases h with
  | load before after p next j =>
      exact .load p .refl
  | warn before after w next j =>
      exact .warn w .refl

/-- A step leaves what the strands come to as it is. -/
theorem Step.values_eq (h : Step s x y) (hv : x.journal.view s = v) :
    y.values v = x.values v := by
  cases h with
  | load before after p next j =>
      simp only [values, List.map_append, List.map_cons, Strand.value, ← hv, Resolving.load_fst]
  | warn before after w next j =>
      simp only [values, List.map_append, List.map_cons, Strand.value]

/-- A step is one of those that the strands take. -/
theorem Step.length_eq (h : Step s x y) (hv : x.journal.view s = v) :
    x.length v = y.length v + 1 := by
  cases h with
  | load before after p next j =>
      simp only [length, Strand.lengths_append, Strand.lengths, Strand.length, ← hv,
        Resolving.load_fst]
      omega
  | warn before after w next j =>
      simp only [length, Strand.lengths_append, Strand.lengths, Strand.length]
      omega

theorem Runs.reaches (h : Runs s x n y) :
    x.journal.Reaches s y.journal := by
  induction h with
  | refl =>
      exact .refl
  | step _ hstep ih =>
      exact ih.trans hstep.reaches

/-- However the strands run, what they come to stays as it is. -/
theorem Runs.values_eq (h : Runs s x n y) (hv : x.journal.view s = v) :
    y.values v = x.values v := by
  induction h with
  | refl =>
      rfl
  | step hruns hstep ih =>
      rw [hstep.values_eq (hruns.reaches.view_eq.trans hv), ih]

/-- However the strands run, the steps taken and those to be taken are as many as at the start. -/
theorem Runs.length_eq (h : Runs s x n y) (hv : x.journal.view s = v) :
    x.length v = n + y.length v := by
  induction h with
  | refl =>
      rw [Nat.zero_add]
  | step hruns hstep ih =>
      rw [ih, hstep.length_eq (hruns.reaches.view_eq.trans hv)]
      omega

theorem Done.values_eq {as : List α} (h : x.Done as) :
    x.values v = as := by
  rw [values, h, List.map_map]
  exact List.map_id as

theorem Done.length_eq {as : List α} (h : x.Done as) :
    x.length v = 0 := by
  rw [length, h, Strand.lengths_done]

/-- Either all strands are done, or one of them can go on. -/
theorem exists_step (s : Source) (x : Pool α) :
    (∃ as, x.Done as) ∨ ∃ y, Step s x y := by
  obtain ⟨ts, j⟩ := x
  induction ts with
  | nil =>
      exact Or.inl ⟨[], rfl⟩
  | cons t ts ih =>
      cases t with
      | load p next =>
          exact Or.inr ⟨_, .load [] ts p next j⟩
      | warn w next =>
          exact Or.inr ⟨_, .warn [] ts w next j⟩
      | done a =>
          rcases ih with ⟨as, has⟩ | ⟨y, hy⟩
          · exact Or.inl ⟨a :: as, congrArg (Strand.done a :: ·) has⟩
          · right
            cases hy with
            | load before after p next =>
                exact ⟨_, .load (.done a :: before) after p next j⟩
            | warn before after w next =>
                exact ⟨_, .warn (.done a :: before) after w next j⟩

end Pool
end FieldTypes
