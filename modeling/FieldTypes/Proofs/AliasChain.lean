import FieldTypes.Proofs.Hops
import FieldTypes.Proofs.Journal
import Mathlib.Tactic.Push

/-!
# Chains of aliases

Following a reference is a walk from path to path. A document with a title ends it, as does one
with neither a title nor a reference, or one that cannot be loaded; a document without a title that
has a reference is an alias, and the walk goes on to the path that it points at. The program keeps
the paths that it has visited, and gives up when it comes to one of them again.

What a visit finds depends on the view of the journal alone, and loading changes no view, so the
walk through the cache is a walk through one fixed map.

**Results.**
* `followAliases_follows`: the program makes the walk, and its bound is never reached.
* `followReference_walk`: what following a reference returns, for every end of the walk and where
  there is none.
-/

namespace FieldTypes

/-- What a visit of a path finds: how the walk ends there, or the path that it goes on to. -/
def visit (v : Path → Except LoadError Document) (p : Path) :
    Except ReferenceError String ⊕ Path :=
  match v p with
  | .error e => .inl (.error (.unloadable e))
  | .ok d =>
    match d.title, d.reference with
    | some _, _ => .inl (.ok d.typeName)
    | none, none => .inl (.ok "")
    | none, some next => .inr (d.path.locate next)

/-- The path that an alias points at. -/
def hop (v : Path → Except LoadError Document) (p : Path) : Option Path :=
  match v p with
  | .error _ => none
  | .ok d => if d.title = none then d.reference.map d.path.locate else none

/-- The path that a reference in the document at a path comes to after a number of hops. -/
def chainAt (v : Path → Except LoadError Document) (document : Path) (reference : String)
    (k : Nat) : Option Path :=
  hops (hop v) k (document.locate reference)

section Visit

variable {v : Path → Except LoadError Document} {p q : Path}

theorem visit_eq_inr_iff : visit v p = .inr q ↔ hop v p = some q := by
  unfold visit hop
  cases v p with
  | error e =>
      simp
  | ok d =>
      cases ht : d.title with
      | some t =>
          simp [ht]
      | none =>
          cases hr : d.reference with
          | none =>
              simp [ht, hr]
          | some next =>
              simp [ht, hr]

theorem hop_eq_none_of_visit {r : Except ReferenceError String} (h : visit v p = .inl r) :
    hop v p = none := by
  cases hq : hop v p with
  | none =>
      rfl
  | some q =>
      rw [visit_eq_inr_iff.2 hq] at h
      cases h

theorem visit_of_error {e : LoadError} (h : v p = .error e) :
    visit v p = .inl (.error (.unloadable e)) := by
  simp [visit, h]

theorem visit_of_title {d : Document} (h : v p = .ok d) (ht : d.title ≠ none) :
    visit v p = .inl (.ok d.typeName) := by
  obtain ⟨t, ht⟩ := Option.ne_none_iff_exists'.1 ht
  simp [visit, h, ht]

theorem visit_of_untitled {d : Document} (h : v p = .ok d) (ht : d.title = none)
    (hr : d.reference = none) :
    visit v p = .inl (.ok "") := by
  simp [visit, h, ht, hr]

/-- The ends of a walk: a document with a title or without a reference, or none at all. -/
theorem exists_visit_eq_inl_iff :
    (∃ r, visit v p = .inl r) ↔
      (∃ d, v p = .ok d ∧ (d.title ≠ none ∨ d.reference = none)) ∨ ∃ e, v p = .error e := by
  unfold visit
  cases v p with
  | error e =>
      simp
  | ok d =>
      cases ht : d.title with
      | some t =>
          simp [ht]
      | none =>
          cases hr : d.reference with
          | none =>
              simp [ht, hr]
          | some next =>
              simp [ht, hr]

theorem visit_ne_cyclic : visit v p ≠ .inl (.error (.cyclic q)) := by
  unfold visit
  cases v p with
  | error e =>
      simp
  | ok d =>
      cases ht : d.title with
      | some t =>
          simp [ht]
      | none =>
          cases hr : d.reference <;> simp [ht, hr]

/-- An alias is a document without a title. -/
theorem exists_of_hop (h : hop v p = some q) :
    ∃ d, v p = .ok d ∧ d.title = none ∧ ∃ r, d.reference = some r ∧ d.path.locate r = q := by
  unfold hop at h
  cases hv : v p with
  | error e =>
      rw [hv] at h
      cases h
  | ok d =>
      rw [hv] at h
      simp only at h
      split_ifs at h with ht
      obtain ⟨r, hr, hq⟩ := Option.map_eq_some_iff.1 h
      exact ⟨d, rfl, ht, r, hr, hq⟩

/-- A chain that no visit finds an end of goes on for ever. -/
theorem endless_of_no_end {start : Path}
    (h : ¬ ∃ k p, hops (hop v) k start = some p ∧ ∃ r, visit v p = .inl r) (k : Nat) :
    hops (hop v) k start ≠ none := by
  induction k with
  | zero =>
      simp [hops]
  | succ k ih =>
      obtain ⟨p, hp⟩ := Option.ne_none_iff_exists'.1 ih
      rw [hops_succ_of_hops hp]
      cases hvisit : visit v p with
      | inl r =>
          exact absurd ⟨k, p, hp, r, hvisit⟩ h
      | inr next =>
          rw [visit_eq_inr_iff.1 hvisit]
          simp

/-- The documents on a cycle have no title. -/
theorem exists_untitled_of_cycle {m : Nat} (hm : 0 < m) (h : hops (hop v) m p = some p) :
    ∃ d, v p = .ok d ∧ d.title = none := by
  obtain ⟨q, hq⟩ := Option.ne_none_iff_exists'.1 (hops_ne_none_of_cycle hm h 1)
  have hhop : hop v p = some q := by
    rw [← hq, hops_succ_of_hops (show hops (hop v) 0 p = some p from rfl)]
  obtain ⟨d, hd, ht, -⟩ := exists_of_hop hhop
  exact ⟨d, hd, ht⟩

end Visit

/-- The walk from `target` on, when the paths in `visited` were passed before: the paths that it
loads, in order, and how it ends. -/
inductive Follows (v : Path → Except LoadError Document) :
    List Path → Path → List Path → Except ReferenceError String → Prop
  | returns {visited : List Path} {target : Path} :
      target ∈ visited → Follows v visited target [] (.error (.cyclic target))
  | ends {visited : List Path} {target : Path} {r : Except ReferenceError String} :
      target ∉ visited → visit v target = .inl r → Follows v visited target [target] r
  | goesOn {visited : List Path} {target next : Path} {ps : List Path}
      {r : Except ReferenceError String} :
      target ∉ visited → visit v target = .inr next →
      Follows v (target :: visited) next ps r →
      Follows v visited target (target :: ps) r

namespace Follows

variable {v : Path → Except LoadError Document} {visited ps qs : List Path} {target : Path}
  {r t : Except ReferenceError String}

/-- A walk is determined by what there is to visit. -/
theorem unique
    (h : Follows v visited target ps r) (h' : Follows v visited target qs t) :
    ps = qs ∧ r = t := by
  induction h generalizing qs with
  | returns hin =>
      cases h' with
      | returns =>
          exact ⟨rfl, rfl⟩
      | ends hout | goesOn hout =>
          exact absurd hin hout
  | ends hout hvisit =>
      cases h' with
      | returns hin =>
          exact absurd hin hout
      | ends _ hvisit' =>
          rw [hvisit] at hvisit'
          cases hvisit'
          exact ⟨rfl, rfl⟩
      | goesOn _ hvisit' =>
          rw [hvisit] at hvisit'
          cases hvisit'
  | goesOn hout hvisit _ ih =>
      cases h' with
      | returns hin =>
          exact absurd hin hout
      | ends _ hvisit' =>
          rw [hvisit] at hvisit'
          cases hvisit'
      | goesOn _ hvisit' hrest =>
          rw [hvisit] at hvisit'
          cases hvisit'
          obtain ⟨rfl, rfl⟩ := ih hrest
          exact ⟨rfl, rfl⟩

/-- No path is loaded twice. -/
theorem nodup (h : Follows v visited target ps r) :
    ps.Nodup ∧ ∀ p ∈ ps, p ∉ visited := by
  induction h with
  | returns =>
      simp
  | ends hout =>
      simpa using hout
  | goesOn hout _ _ ih =>
      obtain ⟨hnodup, hnew⟩ := ih
      refine ⟨List.nodup_cons.2 ⟨fun hmem => hnew _ hmem (by simp), hnodup⟩, ?_⟩
      intro p hp
      rcases List.mem_cons.1 hp with rfl | hp
      · exact hout
      · exact fun hvisited => hnew p hp (List.mem_cons_of_mem _ hvisited)

/-- The paths that are loaded are those along the chain. -/
theorem hops_eq (h : Follows v visited target ps r) {k : Nat} (hk : k < ps.length) :
    hops (hop v) k target = ps[k]? := by
  induction h generalizing k with
  | returns =>
      simp at hk
  | ends =>
      obtain rfl : k = 0 := by simpa using hk
      rfl
  | goesOn _ hvisit _ ih =>
      cases k with
      | zero =>
          rfl
      | succ k =>
          rw [hops_succ_of_next (visit_eq_inr_iff.1 hvisit), List.getElem?_cons_succ]
          exact ih (by simpa using hk)

/-- A walk ends where a visit finds an end, or comes to a path that it has passed. -/
theorem outcome (h : Follows v visited target ps r) :
    (∃ k p, hops (hop v) k target = some p ∧ visit v p = .inl r) ∨
      ∃ p, hops (hop v) ps.length target = some p ∧ (p ∈ visited ∨ p ∈ ps) ∧
        r = .error (.cyclic p) := by
  induction h with
  | @returns visited target hin =>
      exact Or.inr ⟨target, rfl, Or.inl hin, rfl⟩
  | @ends visited target r _ hvisit =>
      exact Or.inl ⟨0, target, rfl, hvisit⟩
  | @goesOn visited target next ps r _ hvisit _ ih =>
      have hnext := visit_eq_inr_iff.1 hvisit
      rcases ih with ⟨k, p, hp, hend⟩ | ⟨p, hp, hin, hr⟩
      · exact Or.inl ⟨k + 1, p, by rw [hops_succ_of_next hnext, hp], hend⟩
      · refine Or.inr ⟨p, by rw [List.length_cons, hops_succ_of_next hnext, hp], ?_, hr⟩
        simp only [List.mem_cons] at hin ⊢
        tauto

/-- A walk that was not begun before and returns does so to the first path that it visits
twice. -/
theorem firstReturn (h : Follows v [] target ps r) {p : Path} (hr : r = .error (.cyclic p)) :
    ∃ i, FirstReturn (hop v) target i ps.length p := by
  rcases h.outcome with ⟨k, q, -, hend⟩ | ⟨q, hq, hin, hrq⟩
  · exact absurd (hr ▸ hend) visit_ne_cyclic
  · obtain rfl : q = p := by simpa [hr] using hrq.symm
    have hmem : q ∈ ps := by simpa using hin
    obtain ⟨i, hi, hget⟩ := List.getElem_of_mem hmem
    refine ⟨i, hi, ?_, hq, ?_⟩
    · rw [h.hops_eq hi, List.getElem?_eq_getElem hi, hget]
    · intro k l hk hl heq
      rw [h.hops_eq hk, h.hops_eq hl, List.getElem?_eq_getElem hk, List.getElem?_eq_getElem hl,
        Option.some.injEq] at heq
      exact (List.Nodup.getElem_inj_iff h.nodup.1).1 heq

/-- The end that a chain comes to is what the walk along it returns. -/
theorem eq_of_visit (h : Follows v [] target ps r) {k : Nat} {p : Path}
    (hk : hops (hop v) k target = some p) (hend : visit v p = .inl t) :
    r = t := by
  have hstop : hops (hop v) (k + 1) target = none := by
    rw [hops_succ_of_hops hk, hop_eq_none_of_visit hend]
  rcases h.outcome with ⟨l, q, hl, hq⟩ | ⟨q, -, -, hr⟩
  · have hstop' : hops (hop v) (l + 1) target = none := by
      rw [hops_succ_of_hops hl, hop_eq_none_of_visit hq]
    have hlk : l = k := by
      by_contra hne
      rcases Nat.lt_or_gt_of_ne hne with hlt | hgt
      · exact hops_ne_none_of_le (Nat.succ_le_of_lt hlt) (by rw [hk]; simp) hstop'
      · exact hops_ne_none_of_le (Nat.succ_le_of_lt hgt) (by rw [hl]; simp) hstop
    subst hlk
    rw [hk, Option.some.injEq] at hl
    subst hl
    rw [hend] at hq
    cases hq
    rfl
  · obtain ⟨i, hreturn⟩ := h.firstReturn hr
    exact absurd hstop (hreturn.endless (k + 1))

end Follows

section Program

variable {s : Source} {j : Journal}

/-- One step of the program, said by what it finds. -/
theorem followAliases_succ
    (n : Nat) (visited : List Path) (target : Path) (j : Journal) :
    followAliases s (n + 1) visited target j =
      if target ∈ visited then (.error (.cyclic target), j)
      else
        match visit (j.view s) target.normalize with
        | .inl r => (r, (Resolving.load s target j).2)
        | .inr next =>
          followAliases s n (target :: visited) next (Resolving.load s target j).2 := by
  rw [followAliases]
  split_ifs with hvisited
  · rfl
  · have hload : (Resolving.load s target j).1 = j.view s target.normalize :=
      Resolving.load_fst
    rw [visit, ← hload]
    generalize Resolving.load s target j = a
    obtain ⟨e | d, k⟩ := a
    · rfl
    · simp only
      cases d.title with
      | some t =>
          rfl
      | none =>
          cases d.reference <;> rfl

theorem followAliases_reaches
    (n : Nat) (visited : List Path) (target : Path) (j : Journal) :
    j.Reaches s (followAliases s n visited target j).2 := by
  induction n generalizing visited target j with
  | zero =>
      exact .refl
  | succ n ih =>
      rw [followAliases_succ]
      split_ifs with hvisited
      · exact .refl
      · cases visit (j.view s) target.normalize with
        | inl r =>
            exact .load target .refl
        | inr next =>
            exact (Journal.Reaches.load target .refl).trans (ih _ next _)

/-- The program makes the walk. Each hop adds a path that has a document to those that it has
visited, so it does not come to its bound. -/
theorem followAliases_follows
    {v : Path → Except LoadError Document} {bound : Nat}
    (hbound : LoadsAtMost v bound)
    (n : Nat) (visited : List Path) (target : Path) (j : Journal)
    (hview : j.view s = v)
    (htarget : target.normalize = target)
    (hnodup : visited.Nodup)
    (hloads : ∀ p ∈ visited, ∃ d, v p = .ok d)
    (hn : bound < n + visited.length) :
    ∃ ps,
      Follows v visited target ps (followAliases s n visited target j).1 ∧
      (followAliases s n visited target j).2.lookups.map (·.path) =
        j.lookups.map (·.path) ++ ps := by
  induction n generalizing visited target j with
  | zero =>
      have := hbound visited hnodup hloads
      omega
  | succ n ih =>
      rw [followAliases_succ, hview, htarget]
      split_ifs with hvisited
      · exact ⟨[], .returns hvisited, by simp⟩
      · have hlookup : (Resolving.load s target j).2.lookups.map (·.path) =
            j.lookups.map (·.path) ++ [target] := by
          simp [Resolving.load]
        cases hvisit : visit v target with
        | inl r =>
            exact ⟨[target], .ends hvisited hvisit, hlookup⟩
        | inr next =>
            obtain ⟨d, hd, -, r, -, hnext⟩ := exists_of_hop (visit_eq_inr_iff.1 hvisit)
            have hloads' : ∀ p ∈ target :: visited, ∃ d, v p = .ok d := by
              intro p hp
              rcases List.mem_cons.1 hp with rfl | hp
              · exact ⟨d, hd⟩
              · exact hloads p hp
            obtain ⟨ps, hfollows, hlookups⟩ :=
              ih (target :: visited) next (Resolving.load s target j).2
                ((Journal.Reaches.load target .refl).view_eq.trans hview)
                (by rw [← hnext, Path.normalize_locate])
                (List.nodup_cons.2 ⟨hvisited, hnodup⟩) hloads'
                (by simp only [List.length_cons]; omega)
            refine ⟨target :: ps, .goesOn hvisited hvisit hfollows, ?_⟩
            rw [hlookups, hlookup, List.append_assoc]
            rfl

/-- Above the number of paths that have a document the bound makes no difference. -/
theorem followAliases_eq
    {v : Path → Except LoadError Document} {bound : Nat}
    (hbound : LoadsAtMost v bound)
    (n m : Nat) {visited : List Path} {target : Path} (j : Journal)
    (hview : j.view s = v)
    (htarget : target.normalize = target)
    (hnodup : visited.Nodup)
    (hloads : ∀ p ∈ visited, ∃ d, v p = .ok d)
    (hn : bound < n + visited.length)
    (hm : bound < m + visited.length) :
    followAliases s n visited target j = followAliases s m visited target j := by
  induction n generalizing m visited target j with
  | zero =>
      have := hbound visited hnodup hloads
      omega
  | succ n ih =>
      cases m with
      | zero =>
          have := hbound visited hnodup hloads
          omega
      | succ m =>
          rw [followAliases_succ, followAliases_succ, hview, htarget]
          split_ifs with hvisited
          · rfl
          · cases hvisit : visit v target with
            | inl r =>
                rfl
            | inr next =>
                obtain ⟨d, hd, -, r, -, hnext⟩ := exists_of_hop (visit_eq_inr_iff.1 hvisit)
                refine ih m _ ((Journal.Reaches.load target .refl).view_eq.trans hview)
                  (by rw [← hnext, Path.normalize_locate])
                  (List.nodup_cons.2 ⟨hvisited, hnodup⟩) ?_
                  (by simp only [List.length_cons]; omega)
                  (by simp only [List.length_cons]; omega)
                intro p hp
                rcases List.mem_cons.1 hp with rfl | hp
                · exact ⟨d, hd⟩
                · exact hloads p hp

/-- A bound above the number of paths that have a document is as good as none. -/
theorem followAliases_follows_of_lt
    {n : Nat} (hn : j.cache.size + s.capacity < n) {target : Path}
    (htarget : target.normalize = target) :
    ∃ ps,
      Follows (j.view s) [] target ps (followAliases s n [] target j).1 ∧
      (followAliases s n [] target j).2.lookups.map (·.path) = j.lookups.map (·.path) ++ ps :=
  followAliases_follows (j.loadsAtMost s) n [] target j rfl htarget List.nodup_nil (by simp) (by simpa using hn)

theorem followReference_follows (reference : String) (document : Path) (j : Journal) :
    ∃ ps,
      Follows (j.view s) [] (document.locate reference) ps
        (followReference s reference document j).1 ∧
      (followReference s reference document j).2.lookups.map (·.path) =
        j.lookups.map (·.path) ++ ps :=
  followAliases_follows_of_lt (Nat.lt_succ_self _) (Path.normalize_locate document reference)

theorem followReference_reaches (reference : String) (document : Path) (j : Journal) :
    j.Reaches s (followReference s reference document j).2 :=
  followAliases_reaches _ _ _ j

end Program

section Walk

variable (s : Source) (j : Journal) (reference : String) (document : Path)

/-- The end that a chain of aliases comes to is what following the reference returns. -/
theorem followReference_of_visit
    {k : Nat} {p : Path} {r : Except ReferenceError String}
    (hk : hops (hop (j.view s)) k (document.locate reference) = some p)
    (hend : visit (j.view s) p = .inl r) :
    (followReference s reference document j).1 = r := by
  obtain ⟨ps, hfollows, -⟩ := followReference_follows (s := s) reference document j
  exact hfollows.eq_of_visit hk hend

/-- Where following a reference fails with a cycle, the chain returns to the path it names. -/
theorem exists_firstReturn
    {path : Path}
    (h : (followReference s reference document j).1 = .error (.cyclic path)) :
    ∃ i n, FirstReturn (hop (j.view s)) (document.locate reference) i n path := by
  obtain ⟨ps, hfollows, -⟩ := followReference_follows (s := s) reference document j
  obtain ⟨i, hreturn⟩ := hfollows.firstReturn h
  exact ⟨i, ps.length, hreturn⟩

/-- A chain without an end is a cycle. -/
theorem exists_cyclic_of_endless
    (h : ∀ k, hops (hop (j.view s)) k (document.locate reference) ≠ none) :
    ∃ path, (followReference s reference document j).1 = .error (.cyclic path) := by
  obtain ⟨ps, hfollows, -⟩ := followReference_follows (s := s) reference document j
  rcases hfollows.outcome with ⟨k, p, hp, hend⟩ | ⟨p, -, -, hr⟩
  · refine absurd ?_ (h (k + 1))
    rw [hops_succ_of_hops hp, hop_eq_none_of_visit hend]
  · exact ⟨p, hr⟩

/-- A reference to a path of a cycle fails with that path. -/
theorem followReference_on_cycle
    {m : Nat} (hm : 0 < m)
    (h : hops (hop (j.view s)) m (document.locate reference) =
      some (document.locate reference)) :
    (followReference s reference document j).1 =
      .error (.cyclic (document.locate reference)) := by
  obtain ⟨path, hpath⟩ :=
    exists_cyclic_of_endless s j reference document (hops_ne_none_of_cycle hm h)
  obtain ⟨i, n, hreturn⟩ := exists_firstReturn s j reference document hpath
  rw [hpath, hreturn.eq_start hm h]

/-- Following a reference is the walk along its chain of aliases. It ends by itself, under any
bound that is large enough, and loads the paths along the chain, none of them twice. What it
returns is the name or the fault that the chain ends with. It fails with a cycle exactly where
the chain has no end, and names the first path that the chain visits twice. This path and all
that follow lie on the cycle, are aliases, and a reference to one of them fails with that one. -/
theorem followReference_walk :
    (∀ n, j.cache.size + s.capacity < n →
      followAliases s n [] (document.locate reference) j = followReference s reference document j) ∧
    (∃ ps : List Path,
      ps.Nodup ∧
      (∀ k < ps.length, chainAt (j.view s) document reference k = ps[k]?) ∧
      (followReference s reference document j).2.lookups.map (·.path) =
        j.lookups.map (·.path) ++ ps) ∧
    (∀ k p d, chainAt (j.view s) document reference k = some p → j.view s p = .ok d →
      d.title ≠ none → (followReference s reference document j).1 = .ok d.typeName) ∧
    (∀ k p d, chainAt (j.view s) document reference k = some p → j.view s p = .ok d →
      d.title = none → d.reference = none →
      (followReference s reference document j).1 = .ok "") ∧
    (∀ k p e, chainAt (j.view s) document reference k = some p → j.view s p = .error e →
      (followReference s reference document j).1 = .error (.unloadable e)) ∧
    ((∃ path, (followReference s reference document j).1 = .error (.cyclic path)) ↔
      ¬ ∃ k p, chainAt (j.view s) document reference k = some p ∧
        ((∃ d, j.view s p = .ok d ∧ (d.title ≠ none ∨ d.reference = none)) ∨
          ∃ e, j.view s p = .error e)) ∧
    (∀ path, (followReference s reference document j).1 = .error (.cyclic path) →
      (∃ i n, FirstReturn (hop (j.view s)) (document.locate reference) i n path ∧
        ∀ k < i, ∀ l, chainAt (j.view s) document reference l =
          chainAt (j.view s) document reference k → l = k) ∧
      (∃ m, 0 < m ∧ hops (hop (j.view s)) m path = some path) ∧
      ∀ k q, hops (hop (j.view s)) k path = some q →
        (∃ d, j.view s q = .ok d ∧ d.title = none) ∧
        ∀ reference' document', Path.locate document' reference' = q →
          (followReference s reference' document' j).1 = .error (.cyclic q)) := by
  refine ⟨?_, ?_, ?_, ?_, ?_, ?_, ?_⟩
  · intro n hn
    exact followAliases_eq (j.loadsAtMost s) n _ j rfl (Path.normalize_locate document reference)
      List.nodup_nil (by simp) (by simpa using hn) (by simp)
  · obtain ⟨ps, hfollows, hlookups⟩ := followReference_follows (s := s) reference document j
    exact ⟨ps, hfollows.nodup.1, fun k hk => hfollows.hops_eq hk, hlookups⟩
  · intro k p d hk hp ht
    exact followReference_of_visit s j reference document hk (visit_of_title hp ht)
  · intro k p d hk hp ht hr
    exact followReference_of_visit s j reference document hk (visit_of_untitled hp ht hr)
  · intro k p e hk hp
    exact followReference_of_visit s j reference document hk (visit_of_error hp)
  · constructor
    · rintro ⟨path, hpath⟩ ⟨k, p, hk, hp⟩
      obtain ⟨r, hr⟩ := exists_visit_eq_inl_iff.2 hp
      rw [followReference_of_visit s j reference document hk hr] at hpath
      rw [hpath] at hr
      exact visit_ne_cyclic hr
    · intro hnone
      refine exists_cyclic_of_endless s j reference document (endless_of_no_end ?_)
      rintro ⟨k, p, hk, hend⟩
      exact hnone ⟨k, p, hk, exists_visit_eq_inl_iff.1 hend⟩
  · intro path hpath
    obtain ⟨i, n, hreturn⟩ := exists_firstReturn s j reference document hpath
    have hm : 0 < n - i := Nat.sub_pos_of_lt hreturn.lt
    refine ⟨⟨i, n, hreturn, fun k hk l hl => hreturn.once hk hl⟩, ⟨n - i, hm, hreturn.cycle⟩, ?_⟩
    intro k q hq
    obtain ⟨c, hc, hcycle⟩ := exists_cycle_of_hops hm hreturn.cycle hq
    refine ⟨exists_untitled_of_cycle hc hcycle, ?_⟩
    rintro reference' document' rfl
    exact followReference_on_cycle s j reference' document' hc hcycle

end Walk

/-- An alias of one of two files that are aliases of each other. -/
def circlingAliases : FileTree where
  workingDirectory := []
  nodes := [
    (["tail.json"], .file "\x7b\"$ref\": \"a.json\"\x7d".toUTF8),
    (["a.json"], .file "\x7b\"$ref\": \"b.json\"\x7d".toUTF8),
    (["b.json"], .file "\x7b\"$ref\": \"./a.json\"\x7d".toUTF8)]

theorem followReference_walk_circlingAliases :
    (followReference circlingAliases.documents "tail.json" ⟨"m.json"⟩ {}).1 =
      .error (.cyclic ⟨"a.json"⟩) ∧
    (followReference circlingAliases.documents "x/../b.json" ⟨"m.json"⟩ {}).1 =
      .error (.cyclic ⟨"b.json"⟩) := by
  have htail : (followReference circlingAliases.documents "tail.json" ⟨"m.json"⟩ {}).1 =
      .error (.cyclic ⟨"a.json"⟩) := by
    decide +kernel
  have hnext : hops (hop (Journal.view circlingAliases.documents {})) 1 ⟨"a.json"⟩ =
      some ⟨"b.json"⟩ := by
    decide +kernel
  have hlocate : Path.locate ⟨"m.json"⟩ "x/../b.json" = ⟨"b.json"⟩ := by
    decide +kernel
  obtain ⟨-, -, -, -, -, -, hcyclic⟩ :=
    followReference_walk circlingAliases.documents {} "tail.json" ⟨"m.json"⟩
  obtain ⟨-, -, hcycle⟩ := hcyclic ⟨"a.json"⟩ htail
  exact ⟨htail, (hcycle 1 ⟨"b.json"⟩ hnext).2 "x/../b.json" ⟨"m.json"⟩ hlocate⟩

end FieldTypes
