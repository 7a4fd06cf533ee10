import OrderedStore.Proofs.Simulation.Session
import OrderedStore.Proofs.Store.Recorded
import OrderedStore.Proofs.View.Compose

/-!
# A view of a view is one view

A session on a view of a view answers as a session on one view under both stems, and both make the same
calls on the store below.  Their batches make the same requests of the same batch of that store.

* `Batch.SameSource` compares what batches ask of the batch below them, `Batch.SendAlike` what becomes of a
  request that is sent to each of them.
* `Session.view_view_answers` compares the sessions.
-/

namespace OrderedStore

variable {σ : Type}

/-! ### Requests to the batch below -/

/-- The request that comes out below views under the stems, the first of which is met first. -/
def BatchRequest.underAll : List Bytes → BatchRequest → Except StoreError BatchRequest
  | [], request => .ok request
  | stem :: stems, request => (request.under stem).bind (underAll stems)

theorem BatchRequest.underAll_singleton (stem : Bytes) (request : BatchRequest) :
    request.underAll [stem] = request.under stem := by
  show (request.under stem).bind .ok = _
  cases request.under stem <;> rfl

namespace Batch

/-- The batch of views under the stems, the first of which is met first. -/
def behind (source : Batch σ) : List Bytes → Batch σ
  | [] => source
  | stem :: stems => view stem (source.behind stems)

/-- The batch below the views is sent what comes out below them, and nothing if they refuse. -/
theorem send_behind (source : Batch σ) (stems : List Bytes) (request : BatchRequest) :
    (source.behind stems).send request =
      match request.underAll stems with
      | .error error => (source.behind stems, throw error)
      | .ok handed => ((source.send handed).1.behind stems, (source.send handed).2) := by
  induction stems generalizing request with
  | nil => rfl
  | cons stem stems ih =>
    rw [behind, BatchRequest.underAll]
    cases hunder : request.under stem with
    | error error => exact send_view_of_error hunder
    | ok between =>
      rw [send_view_of_ok hunder, ih]
      show _ = match between.underAll stems with
        | .error error => _
        | .ok handed => _
      cases between.underAll stems with
      | error error => rfl
      | ok handed => rfl

/-- The batches are those of views of one batch, and make the same requests of it. -/
def SameSource (a b : Batch σ) : Prop :=
  ∃ source : Batch σ, ∃ stems stems', a = source.behind stems ∧ b = source.behind stems' ∧
    ∀ request : BatchRequest, request.underAll stems = request.underAll stems'

theorem SameSource.view (stem : Bytes) {a b : Batch σ} (h : SameSource a b) :
    SameSource (Batch.view stem a) (Batch.view stem b) := by
  obtain ⟨source, stems, stems', rfl, rfl, hrequests⟩ := h
  refine ⟨source, stem :: stems, stem :: stems', rfl, rfl, fun request => ?_⟩
  rw [BatchRequest.underAll, BatchRequest.underAll, funext hrequests]

theorem sameSource_view_view (outer inner : Bytes) (source : Batch σ) :
    SameSource (.view inner (.view outer source)) (.view (outer ++ inner) source) := by
  refine ⟨source, [inner, outer], [outer ++ inner], rfl, rfl, fun request => ?_⟩
  rw [BatchRequest.underAll_singleton, BatchRequest.underAll,
    funext (BatchRequest.underAll_singleton outer), BatchRequest.under_bind]

/-- Batches that make the same requests go on to make the same requests. -/
theorem SameSource.send {a b : Batch σ} (h : SameSource a b) (request : BatchRequest) :
    SameSource (a.send request).1 (b.send request).1 ∧
      CallsAgree Eq Eq (a.send request).2 (b.send request).2 := by
  obtain ⟨source, stems, stems', rfl, rfl, hrequests⟩ := h
  rw [send_behind, send_behind, hrequests]
  cases request.underAll stems' with
  | error error => exact ⟨⟨source, stems, stems', rfl, rfl, hrequests⟩, .throw error⟩
  | ok handed => exact ⟨⟨_, stems, stems', rfl, rfl, hrequests⟩, .refl (fun _ => rfl) _⟩

/-- The batches are those of views of one batch.  A request that is sent to them is either refused by both,
with the same error and without a request to that batch, or comes out below the views as the same request, which
is sent to that batch. -/
def SendAlike (a b : Batch σ) : Prop :=
  ∃ source : Batch σ, ∃ stems stems', a = source.behind stems ∧ b = source.behind stems' ∧
    ∀ request : BatchRequest,
      (∃ error, request.underAll stems = .error error ∧ request.underAll stems' = .error error ∧
        a.send request = (a, throw error) ∧ b.send request = (b, throw error)) ∨
      ∃ handed, request.underAll stems = .ok handed ∧ request.underAll stems' = .ok handed ∧
        a.send request = ((source.send handed).1.behind stems, (source.send handed).2) ∧
        b.send request = ((source.send handed).1.behind stems', (source.send handed).2)

theorem SameSource.sendAlike {a b : Batch σ} (h : SameSource a b) : SendAlike a b := by
  obtain ⟨source, stems, stems', rfl, rfl, hrequests⟩ := h
  refine ⟨source, stems, stems', rfl, rfl, fun request => ?_⟩
  have hleft := send_behind source stems request
  have hright := send_behind source stems' request
  have hboth := hrequests request
  cases hhanded : request.underAll stems with
  | error error =>
    rw [hhanded] at hleft hboth
    rw [← hboth] at hright
    exact .inl ⟨error, rfl, hboth.symm, hleft, hright⟩
  | ok handed =>
    rw [hhanded] at hleft hboth
    rw [← hboth] at hright
    exact .inr ⟨handed, rfl, hboth.symm, hleft, hright⟩

end Batch

/-! ### Sessions -/

section Sessions

variable (store : Store σ) (outer inner : Bytes)

/-- Batches made through the same handle make the same requests. -/
theorem Handle.newBatch_sameSource (handle : Handle Unit) :
    Agree Eq Batch.SameSource (handle.store fun _ => (store.view outer).view inner).newBatch
      (handle.store fun _ => store.view (outer ++ inner)).newBatch := by
  refine handle.newBatch_agree (fun _ => ?_) fun stem _ _ hbatch => hbatch.view stem
  rintro state _ rfl
  exact ⟨Batch.sameSource_view_view outer inner _, rfl⟩

/-- Sessions on the view of a view and on the one view answer alike, and keep batches that make the same
requests. -/
theorem Session.run_view_view (state : σ) (steps : List Step) :
    let twice := (ofRoot () state).run (fun _ => (store.view outer).view inner) steps
    let once := (ofRoot () state).run (fun _ => store.view (outer ++ inner)) steps
    List.Forall₂ (SameOutcome Answer.Alike) twice.1 once.1 ∧
      twice.2.AlikeWith Batch.SameSource Eq once.2 := by
  refine run_alikeWith steps (fun handle => ?_) (fun _ _ => .pure rfl) (fun _ _ h => h.send)
    (alikeWith_ofRoot () rfl)
  exact (handle.store_alike fun _ => Store.view_view_alike store outer inner).alikeWith
    (handle.newBatch_sameSource store outer inner)

/-- **A view of a view is one view.**  On any store, whatever its calls do, all steps are answered through
a view of a view as they are through one view under both stems.  On the same store with a record of its
calls, both ways leave the same state and the same calls in the record, and batches that make the same
requests of the same batch of the store; so do all batches that are made in a step and not kept.  What is sent
to such batches is refused by both with the same error, or is sent to that batch by both as the same
request. -/
theorem Session.view_view_answers (state : σ) (steps : List Step) :
    let twice := fun _ : Unit => (store.recorded.view outer).view inner
    let once := fun _ : Unit => store.recorded.view (outer ++ inner)
    let left := ((ofRoot () (state, [])).run twice steps).2
    let right := ((ofRoot () (state, [])).run once steps).2
    List.Forall₂ (SameOutcome Answer.Alike)
        ((ofRoot () state).run (fun _ => (store.view outer).view inner) steps).1
        ((ofRoot () state).run (fun _ => store.view (outer ++ inner)) steps).1 ∧
      left.state = right.state ∧ List.Forall₂ Batch.SameSource left.batches right.batches ∧
      (∀ handle : Handle Unit,
        Agree Eq Batch.SameSource (handle.store twice).newBatch (handle.store once).newBatch) ∧
      ∀ a b : Batch (σ × List StoreCall), a.SameSource b → a.SendAlike b := by
  intro twice once left right
  obtain ⟨-, hrecorded⟩ := run_view_view store.recorded outer inner (state, []) steps
  exact ⟨(run_view_view store outer inner state steps).1, hrecorded.state, hrecorded.batches,
    fun handle => handle.newBatch_sameSource store.recorded outer inner, fun _ _ => Batch.SameSource.sendAlike⟩

end Sessions

end OrderedStore
