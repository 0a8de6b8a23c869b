import FieldTypes.Proofs.Closure
import FieldTypes.Proofs.Reaching

/-!
# The walk as a loop over a map and a queue

The walk from model to model can be said with a map from paths to documents and a queue of paths,
where each turn takes the path at the front of the queue, and its document out of the map. Here
that loop is a relation, and a path of the queue that the map does not have would be a state
without a next one. The documents that had their turn and those that wait for it are such a map
and such a queue, so the loop goes through to its end, and finds what the program finds.

**Results.**
* `Walk.Runs.unique`: the loop has one run.
* `Walk.enter_arrange`: a turn of the loop is a turn of the program.
* `expand_runs`: the loop goes through, one turn for each document.
-/

namespace FieldTypes

/-- The documents found so far, under their paths, and the paths that wait for their turn. -/
structure Walk where
  documents : List (Path × Document)
  queue : List Path

namespace Walk

/-- What the loop has when the `done` documents had their turn and those in the `queue` wait. -/
def arrange (done queue : List Document) : Walk where
  documents := (done ++ queue).map fun d => (d.path, d)
  queue := queue.map (·.path)

/-- One turn: each of the paths that has no document in the map is loaded, and those that have
one then go into the map and the queue. -/
def enter (s : Source) : List Path → Walk → Resolving Walk
  | [], w, j => (w, j)
  | target :: targets, w, j =>
    if target ∈ w.documents.map (·.1) then enter s targets w j
    else
      match Resolving.load s target j with
      | (.ok d, j) =>
        enter s targets
          { documents := w.documents ++ [(target, d)], queue := w.queue ++ [target] } j
      | (.error e, j) =>
        match Resolving.warn (.skippedModel e) j with
        | ((), j) => enter s targets w j

/-- The loop goes from one state to the state where its queue is empty, and the paths come to the
front of the queue one after the other. -/
inductive Runs (s : Source) : Walk → Journal → List Path → Walk → Journal → Prop
  | ends {w : Walk} {j : Journal} : w.queue = [] → Runs s w j [] w j
  | turn {w w' : Walk} {j j' : Journal} {current : Path} {rest ps : List Path} {d : Document} :
      w.queue = current :: rest →
      w.documents.lookup current = some d →
      Runs s (enter s d.referenced { w with queue := rest } j).1
        (enter s d.referenced { w with queue := rest } j).2 ps w' j' →
      Runs s w j (current :: ps) w' j'

/-- The loop has one run. -/
theorem Runs.unique
    {s : Source} {w w₁ w₂ : Walk} {j j₁ j₂ : Journal} {ps qs : List Path}
    (h : Runs s w j ps w₁ j₁) (h' : Runs s w j qs w₂ j₂) :
    ps = qs ∧ w₁ = w₂ ∧ j₁ = j₂ := by
  induction h generalizing qs with
  | ends hqueue =>
      cases h' with
      | ends =>
          exact ⟨rfl, rfl, rfl⟩
      | turn hqueue' =>
          rw [hqueue] at hqueue'
          cases hqueue'
  | turn hqueue hlookup _ ih =>
      cases h' with
      | ends hqueue' =>
          rw [hqueue] at hqueue'
          cases hqueue'
      | turn hqueue' hlookup' hrest =>
          rw [hqueue] at hqueue'
          cases hqueue'
          rw [hlookup] at hlookup'
          cases hlookup'
          obtain ⟨rfl, rfl, rfl⟩ := ih hrest
          exact ⟨rfl, rfl, rfl⟩

section Enter

variable {s : Source} {j : Journal} {w : Walk} {target : Path} {targets : List Path}

theorem enter_cons_of_mem (h : target ∈ w.documents.map (·.1)) :
    enter s (target :: targets) w j = enter s targets w j := by
  rw [enter, if_pos h]

theorem enter_cons_of_ok {d : Document}
    (hnew : target ∉ w.documents.map (·.1)) (hd : j.view s target.normalize = .ok d) :
    enter s (target :: targets) w j =
      enter s targets
        { documents := w.documents ++ [(target, d)], queue := w.queue ++ [target] }
        (Resolving.load s target j).2 := by
  rw [enter, if_neg hnew, Resolving.load_eq hd]

theorem enter_cons_of_error {e : LoadError}
    (hnew : target ∉ w.documents.map (·.1)) (he : j.view s target.normalize = .error e) :
    enter s (target :: targets) w j =
      enter s targets w (Resolving.warn (.skippedModel e) (Resolving.load s target j).2).2 := by
  rw [enter, if_neg hnew, Resolving.load_eq he]

theorem enter_reaches (targets : List Path) (w : Walk) (j : Journal) :
    j.Reaches s (enter s targets w j).2 := by
  induction targets generalizing w j with
  | nil =>
      exact .refl
  | cons target targets ih =>
      rw [enter]
      split_ifs with hin
      · exact ih w j
      · have hload := Resolving.load_reaches (s := s) target j
        generalize Resolving.load s target j = r at hload ⊢
        obtain ⟨e | d, k⟩ := r
        · exact hload.trans ((Resolving.warn_reaches _ k).trans (ih w _))
        · exact hload.trans (ih _ k)

end Enter

section Arrange

variable {s : Source} {v : Path → Except LoadError Document} {done queue : List Document}

theorem keys_arrange :
    (arrange done queue).documents.map (·.1) = (done ++ queue).map (·.path) := by
  rw [arrange, List.map_map]
  rfl

theorem arrange_append_singleton {d : Document} {p : Path} (h : d.path = p) :
    arrange done (queue ++ [d]) =
      { documents := (arrange done queue).documents ++ [(p, d)],
        queue := (arrange done queue).queue ++ [p] } := by
  simp [arrange, ← h]

theorem lookup_map_path
    {ds : List Document} {d : Document}
    (hnodup : (ds.map (·.path)).Nodup)
    (hd : d ∈ ds) :
    (ds.map fun d => (d.path, d)).lookup d.path = some d := by
  induction ds with
  | nil =>
      simp at hd
  | cons e ds ih =>
      obtain ⟨hnew, hnodup⟩ := List.nodup_cons.1 hnodup
      rw [List.map_cons, List.lookup_cons]
      rcases List.mem_cons.1 hd with rfl | hd
      · simp
      · have hne : (d.path == e.path) = false := by
          have hmem : d.path ∈ ds.map (·.path) := List.mem_map_of_mem hd
          rw [beq_eq_false_iff_ne]
          intro heq
          rw [heq] at hmem
          exact hnew hmem
        rw [hne]
        exact ih hnodup hd

/-- A turn of the loop is a turn of the program: what is in the map is what is known. -/
theorem enter_arrange
    (hpath : ∀ p d, v p = .ok d → d.path = p)
    (known targets : List Path)
    (queue : List Document)
    (j : Journal)
    (hview : j.view s = v)
    (hnormal : ∀ t ∈ targets, t.normalize = t)
    (hknown : ∀ t, t ∈ known ↔ t ∈ (done ++ queue).map (·.path)) :
    enter s targets (arrange done queue) j =
      (arrange done (queue ++ (discover s known targets j).1),
        (discover s known targets j).2) := by
  induction targets generalizing known queue j with
  | nil =>
      simp [enter, discover]
  | cons t ts ih =>
      have hts : ∀ u ∈ ts, u.normalize = u := fun u hu => hnormal u (by simp [hu])
      have hload : j.view s t.normalize = v t := by
        rw [hview, hnormal t (by simp)]
      have hreach : j.Reaches s (Resolving.load s t j).2 := Resolving.load_reaches t j
      by_cases hin : t ∈ known
      · rw [enter_cons_of_mem (by rwa [keys_arrange, ← hknown]), discover_cons_of_mem hin]
        exact ih known queue j hview hts hknown
      · have hout : t ∉ (arrange done queue).documents.map (·.1) := by
          rwa [keys_arrange, ← hknown]
        cases ht : v t with
        | error e =>
            rw [enter_cons_of_error hout (hload.trans ht),
              discover_cons_of_error hin (hload.trans ht)]
            exact ih known queue _ ((hreach.warn _).view_eq.trans hview) hts hknown
        | ok d =>
            have hknown' : ∀ u, u ∈ t :: known ↔ u ∈ (done ++ (queue ++ [d])).map (·.path) := by
              intro u
              rw [← List.append_assoc, List.map_append, List.mem_append, ← hknown,
                List.map_singleton, List.mem_singleton, hpath t d ht, List.mem_cons, or_comm]
            rw [enter_cons_of_ok hout (hload.trans ht), discover_cons_of_ok hin (hload.trans ht),
              ← arrange_append_singleton (hpath t d ht),
              ih (t :: known) (queue ++ [d]) _ (hreach.view_eq.trans hview) hts hknown',
              List.append_assoc, List.singleton_append]

end Arrange

end Walk

/-- The loop goes through, with one turn for each document that the program adds to those that
are done. -/
theorem expand_runs
    {s : Source} {v : Path → Except LoadError Document} {roots : List Path} {bound : Nat}
    (hpath : ∀ p d, v p = .ok d → d.path = p)
    (hbound : LoadsAtMost v bound)
    (n : Nat) {done queue : List Document} (j : Journal)
    (hview : j.view s = v)
    (h : Frontier v roots done queue)
    (hn : bound < n + done.length) :
    ∃ ps,
      (expand s n done queue j).1.map (·.path) = done.map (·.path) ++ ps ∧
      Walk.Runs s (.arrange done queue) j ps
        (.arrange (expand s n done queue j).1 []) (expand s n done queue j).2 := by
  induction n generalizing done queue j with
  | zero =>
      have := h.length_le hbound
      omega
  | succ n ih =>
      cases queue with
      | nil =>
          exact ⟨[], by simp [expand], .ends rfl⟩
      | cons d queue =>
          have hlookup : (Walk.arrange done (d :: queue)).documents.lookup d.path = some d :=
            Walk.lookup_map_path h.nodup (by simp)
          have henter : Walk.enter s d.referenced
              { Walk.arrange done (d :: queue) with queue := queue.map (·.path) } j =
                (.arrange (done ++ [d])
                  (queue ++ newcomers v ((done ++ d :: queue).map (·.path)) d),
                  (discover s ((done ++ d :: queue).map (·.path)) d.referenced j).2) := by
            have hstate : ({ Walk.arrange done (d :: queue) with
                queue := queue.map (·.path) } : Walk) = .arrange (done ++ [d]) queue := by
              simp [Walk.arrange]
            rw [hstate, newcomers, ← discover_fst _ j hview
              (fun _ => Document.normalize_of_mem_referenced) d.nodup_referenced]
            exact Walk.enter_arrange hpath _ _ _ j hview
              (fun _ => Document.normalize_of_mem_referenced) (by simp)
          rw [expand_cons hview]
          obtain ⟨ps, hps, hruns⟩ := ih _ ((discover_reaches _ _ j).view_eq.trans hview)
            (h.step hpath) (by rw [List.length_append, List.length_singleton]; omega)
          refine ⟨d.path :: ps, by rw [hps]; simp, .turn rfl hlookup ?_⟩
          rw [henter]
          exact hruns

end FieldTypes
