import OrderedStore.Proofs.View.Confined
import OrderedStore.Proofs.View.Writes

/-!
# Views are independent

What is done through a view stays under its stem, so that a view under another stem, of which neither
begins with the other, answers as if nothing had been done.

* `Session.runShared` takes the steps of two sessions on one state.
* `Session.runShared_alike` compares it with the second session alone.
* `Session.views_confined_and_independent` says that views are confined and independent.
-/

namespace OrderedStore

variable {ρ σ : Type} {holds : σ → Contents → Prop} {stem other : Bytes}

/-! ### Contents that differ under another stem -/

/-- Keys under stems of which neither begins with the other are different. -/
theorem Bytes.not_isPrefix_append (h : ¬ stem <+: other) (h' : ¬ other <+: stem) (key : Bytes) :
    ¬ stem <+: other ++ key := fun hstem =>
  (List.prefix_or_prefix_of_prefix hstem (List.prefix_append other key)).elim h h'

/-- A view shows the same of contents that differ under another stem only. -/
theorem Contents.stripped_eq_of_outside {a b : Contents} (hstem : ¬ stem <+: other)
    (hother : ¬ other <+: stem) (h : ∀ key, ¬ stem <+: key → a.get? key = b.get? key) :
    a.stripped other = b.stripped other := by
  refine eq_of_get?_eq fun key => ?_
  rw [get?_stripped, get?_stripped]
  exact h _ (Bytes.not_isPrefix_append hstem hother key)

namespace Session

/-! ### Two sessions on one state -/

/-- Takes steps of two sessions that work on the same state.  Answers what the second one is answered, and
the second session in the end. -/
def runShared (roots roots' : ρ → Store σ) :
    Session ρ σ → Session ρ σ → List (Step ⊕ Step) → List (Except Refusal Answer) × Session ρ σ
  | _, right, [] => ([], right)
  | left, right, .inl step :: steps =>
    let left := (left.step roots step).2
    runShared roots roots' left { right with state := left.state } steps
  | left, right, .inr step :: steps =>
    let (answer, right) := right.step roots' step
    let (answers, last) := runShared roots roots' { left with state := right.state } right steps
    (answer :: answers, last)

variable {source : Store σ} {left right alone : Session Unit σ}

/-- The states hold contents of which a view under the stem shows the same. -/
def Seen (holds : σ → Contents → Prop) (stem : Bytes) : σ → σ → Prop :=
  Relation.Comp (Relation.Comp holds (Contents.Shows stem))
    (flip (Relation.Comp holds (Contents.Shows stem)))

/-- A view on states of which it shows the same cannot be told apart from itself. -/
theorem view_alike_seen (hsource : source.Faultless holds) (stem : Bytes) :
    (source.view stem).Alike (Seen holds stem) (source.view stem) := by
  have hview := (hsource.alike.view stem).comp (Contents.view_alike_stripped stem)
  exact hview.comp hview.symm

/-- The second session is answered as if the first one took no steps. -/
theorem runShared_alike (hsource : source.Faultless holds) (hstem : ¬ stem <+: other)
    (hother : ¬ other <+: stem) (hleft : left.Confined holds stem) (hstate : left.state = right.state)
    (hright : right.Alike (Seen holds other) alone) (steps : List (Step ⊕ Step)) :
    let both := runShared (fun _ => source.view stem) (fun _ => source.view other) left right steps
    let only := alone.run (fun _ => source.view other) (steps.filterMap Sum.getRight?)
    List.Forall₂ (SameOutcome Answer.Alike) both.1 only.1 ∧ both.2.Alike (Seen holds other) only.2 := by
  induction steps generalizing left right alone with
  | nil => exact ⟨.nil, hright⟩
  | cons step steps ih =>
    cases step with
    | inl step =>
      -- The step changes the state, but nothing that the second session sees of it.
      obtain ⟨shown, ⟨contents, hs, hshown⟩, halone⟩ := hright.state
      rw [← hstate] at hs
      obtain ⟨hafter, after, hafterState, houtside⟩ :=
        step_confined hsource.failsCleanly hleft hs step
      have hseen : contents.stripped other = shown := hshown
      have hsame := Contents.stripped_eq_of_outside hstem hother houtside
      exact ih hafter rfl
        { hright with state := ⟨shown, ⟨after, hafterState, hsame.trans hseen⟩, halone⟩ }
    | inr step =>
      obtain ⟨hanswer, hafter⟩ := step_alike step (fun _ : Unit => view_alike_seen hsource other)
        (fun _ _ => .pure rfl) hright
      let right' := (right.step (fun _ => source.view other) step).2
      have hconfined : Confined holds stem { left with state := right'.state } :=
        ⟨hleft.batches, hleft.transactions⟩
      obtain ⟨hanswers, hend⟩ := ih hconfined (show _ = right'.state from rfl) hafter
      exact ⟨.cons hanswer hanswers, hend⟩

/-- **Views are confined and independent.**  The source is a store in memory or over an engine of which
failing calls change nothing.  Whatever steps are taken through a view, with whatever failures, all keys
of the source that do not begin with its stem keep their values.  If the source does not fail, a view under
another stem, neither of which begins with the other, is therefore answered in any interleaving as if no
steps were taken through the first view, and shows the same in the end. -/
theorem views_confined_and_independent (hsource : source.FailsCleanly holds) (stem : Bytes) {state : σ}
    {contents : Contents} (hs : holds state contents) :
    (∀ steps : List Step, ∃ after,
      holds ((ofRoot () state).run (fun _ => source.view stem) steps).2.state after ∧
        ∀ key, ¬ stem <+: key → after.get? key = contents.get? key) ∧
    (source.Faultless holds → ∀ other, ¬ stem <+: other → ¬ other <+: stem →
      ∀ steps : List (Step ⊕ Step),
        let both := runShared (fun _ => source.view stem) (fun _ => source.view other) (ofRoot () state)
          (ofRoot () state) steps
        let alone := (ofRoot () state).run (fun _ => source.view other) (steps.filterMap Sum.getRight?)
        List.Forall₂ (SameOutcome Answer.Alike) both.1 alone.1 ∧
          ∃ seen seen', holds both.2.state seen ∧ holds alone.2.state seen' ∧
            seen.stripped other = seen'.stripped other) := by
  refine ⟨run_confined hsource (confined_ofRoot state) hs, ?_⟩
  intro hfaultless other hstem hother steps
  have hsame : Seen holds other state state := ⟨_, ⟨contents, hs, rfl⟩, contents, hs, rfl⟩
  obtain ⟨hanswers, hend⟩ := runShared_alike hfaultless hstem hother (confined_ofRoot state) rfl
    (alike_ofRoot () hsame) steps
  obtain ⟨shown, ⟨seen, hseen, hshown⟩, seen', hseen', hshown'⟩ := hend.state
  exact ⟨hanswers, seen, seen', hseen, hseen', Eq.trans hshown hshown'.symm⟩

/-- A batch on an engine that fails in the midst of it and again when it is undone, and two views of a
memory, where the second one walks its entries while the first one writes around them. -/
theorem views_confined_and_independent_scripted :
    let faulty : Scripted := { Scripted.empty with
      contents := .ofList [⟨[1, 5], [6]⟩, ⟨[2], [9]⟩]
      faults := [(.put [1, 4], "full"), (.remove [1, 3], "stuck")] }
    let undone := (ofRoot () faulty).run (fun _ => (Scripted.engine false).store.view [1])
      [.onStore 0 .batch, .onBatch 0 (.push (.set [5] [7])), .onBatch 0 (.push (.set [3] [7])),
        .onBatch 0 (.push (.set [4] [8])), .onBatch 0 (.write true)]
    let steps : List (Step ⊕ Step) :=
      [.inr (.onStore 0 (.write false (.set [4] [8]))), .inr (.onStore 0 (.iterate .descending .all)),
        .inl (.onStore 0 (.write false (.set [9] [7]))), .inl (.onStore 0 (.write false (.delete [4]))),
        .inr (.onIterator 0 (.drain none)), .inr (.onStore 0 (.has [4]))]
    let both := runShared (fun _ => Memory.store.view [1]) (fun _ => Memory.store.view [2, 255])
      (ofRoot () OrderedMap.empty) (ofRoot () OrderedMap.empty) steps
    (undone.2.state.contents.get? [1, 5] = none ∧ undone.2.state.contents.get? [2] = some [9]) ∧
      List.Forall₂ (SameOutcome Answer.Alike) both.1
        [.ok .done, .ok (.made 0), .ok (.entries [⟨[4], [8]⟩]), .ok (.flag true)] := by
  intro faulty undone steps both
  obtain ⟨hconfined, -⟩ := views_confined_and_independent (.engine (Scripted.failsCleanly false)) [1]
    (show faulty.contents = .ofList [⟨[1, 5], [6]⟩, ⟨[2], [9]⟩] from rfl)
  obtain ⟨after, rfl, houtside⟩ := hconfined
    [.onStore 0 .batch, .onBatch 0 (.push (.set [5] [7])), .onBatch 0 (.push (.set [3] [7])),
      .onBatch 0 (.push (.set [4] [8])), .onBatch 0 (.write true)]
  obtain ⟨-, hindependent⟩ := views_confined_and_independent .memory [1] OrderedMap.holds_empty
  obtain ⟨hanswers, -⟩ := hindependent .memory [2, 255] (by decide) (by decide) steps
  exact ⟨⟨rfl, houtside [2] (by decide)⟩, hanswers⟩

end Session

end OrderedStore
