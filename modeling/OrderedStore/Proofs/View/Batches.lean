import OrderedStore.Proofs.Batch.Requests
import OrderedStore.Proofs.Simulation.Store

/-!
# Batches of views

In the batch of a view, operations wait under the stem of the view.  It is alike the batch of another view
if what the two apply is alike whenever the same operations wait, each under its stem.

* `Batch.viewQueued` is the batch of a view in which operations wait.
* `Batch.viewQueued_alike` compares two of them.
-/

namespace OrderedStore.Batch

variable {σ τ : Type} {R : σ → τ → Prop}

/-- The batch of a view in which operations wait; `none` if it is closed. -/
def viewQueued (stem : Bytes) (apply : Bool → List Operation → StoreM σ Unit)
    (waiting : Option (List Operation)) : Batch σ :=
  view stem (queued apply ⟨waiting.map (List.map (Operation.under stem))⟩)

theorem send_viewQueued_push (stem : Bytes) (apply : Bool → List Operation → StoreM σ Unit)
    (waiting : Option (List Operation)) {op : Operation} (h : op.key ≠ []) :
    (viewQueued stem apply waiting).send (.push op) =
      match waiting with
      | none => (viewQueued stem apply none, throw .batchClosed)
      | some ops => (viewQueued stem apply (some (ops ++ [op])), pure ()) := by
  have hunder : (op.under stem).key ≠ [] := by simp [h]
  rw [viewQueued, send, BatchRequest.under, requireKey_of_ne_nil h]
  cases waiting with
  | none => rfl
  | some ops =>
    simp only [send, WriteQueue.push, Option.map_some, requireKey_of_ne_nil hunder, viewQueued,
      List.map_append, List.map_singleton]

theorem viewQueued_alike {apply : Bool → List Operation → StoreM σ Unit}
    {apply' : Bool → List Operation → StoreM τ Unit} {stem stem' : Bytes}
    (h : ∀ sync (ops : List Operation), CallsAgree R Eq (apply sync (ops.map (Operation.under stem)))
      (apply' sync (ops.map (Operation.under stem')))) (waiting : Option (List Operation)) :
    Alike R (viewQueued stem apply waiting) (viewQueued stem' apply' waiting) := by
  -- The same operations wait from request to request.
  refine ⟨fun a b => ∃ waiting, a = viewQueued stem apply waiting ∧ b = viewQueued stem' apply' waiting,
    ?_, waiting, rfl, rfl⟩
  rintro _ _ ⟨waiting, rfl, rfl⟩ request
  cases request with
  | push op =>
    by_cases hkey : op.key = []
    · rw [send_push_of_key_eq_nil _ hkey, send_push_of_key_eq_nil _ hkey]
      exact ⟨⟨waiting, rfl, rfl⟩, .throw _⟩
    · rw [send_viewQueued_push _ _ _ hkey, send_viewQueued_push _ _ _ hkey]
      cases waiting with
      | none => exact ⟨⟨none, rfl, rfl⟩, .throw _⟩
      | some ops => exact ⟨⟨_, rfl, rfl⟩, .pure rfl⟩
  | write sync =>
    cases waiting with
    | none => exact ⟨⟨none, rfl, rfl⟩, .throw _⟩
    | some ops => exact ⟨⟨none, rfl, rfl⟩, h sync ops⟩
  | close => exact ⟨⟨none, rfl, rfl⟩, .pure rfl⟩

end OrderedStore.Batch
