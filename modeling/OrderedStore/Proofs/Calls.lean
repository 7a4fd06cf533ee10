import OrderedStore.StoreM

/-!
# Rows of calls

Calls are made one after the other, either up to the first failure or whatever becomes of them.  To
tell in which order calls are made, and how often, a list of marks is put beside the state.

* `StoreM.attemptAll` makes calls past those that fail; `List.forM` makes them up to the first failure.
* `StoreM.marked` is a call that leaves a mark when it is made.
-/

namespace OrderedStore.StoreM

variable {σ μ ι α : Type}

/-! ### Attempts -/

/-- Makes a call for each element, past those that fail, and tells what has become of each. -/
def attemptAll (call : ι → StoreM σ α) (list : List ι) :
    StateM σ (List (ι × Except StoreError α)) :=
  list.mapM fun i => do return (i, ← (call i).attempt)

@[simp] theorem run_attemptAll_nil (call : ι → StoreM σ α) (state : σ) :
    (attemptAll call []).run state = ([], state) := rfl

theorem run_attemptAll_cons (call : ι → StoreM σ α) {i : ι} {state between : σ}
    {outcome : Except StoreError α} (h : (call i).run.run state = (outcome, between))
    (list : List ι) :
    (attemptAll call (i :: list)).run state =
      ((i, outcome) :: ((attemptAll call list).run between).1,
        ((attemptAll call list).run between).2) := by
  have hattempt : (call i).attempt.run state = (outcome, between) := h
  rw [attemptAll, List.mapM_cons, StateT.run_bind, StateT.run_bind, hattempt]
  rfl

/-- Every element is attempted once, in order. -/
theorem map_fst_attemptAll (call : ι → StoreM σ α) (list : List ι) (state : σ) :
    ((attemptAll call list).run state).1.map Prod.fst = list := by
  induction list generalizing state with
  | nil => rfl
  | cons i list ih =>
    rcases hcall : (call i).run.run state with ⟨outcome, between⟩
    rw [run_attemptAll_cons call hcall, List.map_cons, ih]

/-! ### Marks -/

/-- The call, which puts its mark behind the marks that are there. -/
def marked (mark : μ) (call : StoreM σ α) : StoreM (σ × List μ) α :=
  ExceptT.mk do
    let (state, marks) ← get
    let (outcome, after) := call.run.run state
    set (after, marks ++ [mark])
    return outcome

theorem run_marked (mark : μ) {call : StoreM σ α} {state after : σ} {outcome : Except StoreError α}
    (h : call.run.run state = (outcome, after)) (marks : List μ) :
    (call.marked mark).run.run (state, marks) = (outcome, (after, marks ++ [mark])) := by
  show ((call.run.run state).1, ((call.run.run state).2, marks ++ [mark])) = _
  rw [h]

/-- Calls that all succeed leave all their marks. -/
theorem run_forM_marked (mark : ι → μ) {call : ι → StoreM σ Unit} {list : List ι} {state after : σ}
    (h : (list.forM call).run.run state = (.ok (), after)) (marks : List μ) :
    (list.forM fun i => (call i).marked (mark i)).run.run (state, marks) =
      (.ok (), (after, marks ++ list.map mark)) := by
  induction list generalizing state marks with
  | nil =>
    cases h
    rw [List.map_nil, List.append_nil]
    rfl
  | cons i list ih =>
    obtain ⟨⟨⟩, between, hcall, hrest⟩ := run_bind_eq_ok_iff.1 h
    refine (run_bind_of_ok (run_marked (mark i) hcall marks)).trans ((ih hrest _).trans ?_)
    rw [List.map_cons, List.append_assoc, List.singleton_append]

/-- Calls that are attempted leave all their marks, whatever becomes of them. -/
theorem run_attemptAll_marked (mark : ι → μ) (call : ι → StoreM σ α) (list : List ι) (state : σ)
    (marks : List μ) :
    (attemptAll (fun i => (call i).marked (mark i)) list).run (state, marks) =
      (((attemptAll call list).run state).1,
        (((attemptAll call list).run state).2, marks ++ list.map mark)) := by
  induction list generalizing state marks with
  | nil => simp
  | cons i list ih =>
    rcases hcall : (call i).run.run state with ⟨outcome, between⟩
    rw [run_attemptAll_cons (fun i => (call i).marked (mark i)) (run_marked (mark i) hcall marks),
      run_attemptAll_cons call hcall, ih, List.map_cons, List.append_assoc, List.singleton_append]

end OrderedStore.StoreM
