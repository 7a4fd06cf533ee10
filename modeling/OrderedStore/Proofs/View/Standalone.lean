import OrderedStore.Proofs.Backend.Faultless
import OrderedStore.Proofs.View.Writes

/-!
# A view is a store of its own

A session on a view answers as a session on a store in memory that holds what the view shows.  There is
one exception: an operation with an empty key is refused as such by the batch of a view even if that
batch is closed, while a closed batch of the store refuses it as a closed batch.

* `Contents.view_nil_alikeWith` compares the view of contents under the empty stem with the contents.
* `Session.step_screened` compares the steps of sessions on them.
* `Session.view_answers_as_store` compares a view of any backend with a store in memory.
-/

namespace OrderedStore

open StoreM

/-! ### Contents without the empty key -/

namespace Contents

/-- No value is stored for the empty key. -/
def HasKeys (contents : Contents) : Prop := contents.get? [] = none

variable {contents : Contents}

theorem HasKeys.applyTo (h : contents.HasKeys) {op : Operation} (hop : op.key ≠ []) :
    (contents.applyTo op).HasKeys :=
  (get?_applyTo_of_ne contents (Ne.symm hop)).trans h

theorem HasKeys.foldl_applyTo (h : contents.HasKeys) {ops : List Operation}
    (hops : ∀ op ∈ ops, op.key ≠ []) : (ops.foldl Contents.applyTo contents).HasKeys := by
  refine (get?_foldl_applyTo_of_notMem contents fun hmem => ?_).trans h
  obtain ⟨op, hop, hkey⟩ := List.mem_map.1 hmem
  exact hops op hop hkey

theorem queued_alike_hasKeys {queue : WriteQueue} (h : queue.HasKeys) :
    Batch.Alike (Same HasKeys) (.queued (fun _ => applyAll) queue) (.queued (fun _ => applyAll) queue) :=
  Batch.alike_queued (fun _ _ hops => .same (fun _ => rfl) fun _ h => h.foldl_applyTo hops) h

/-- A store never comes to hold a value for the empty key. -/
theorem store_alike_hasKeys : store.Alike (Same HasKeys) store where
  get key := .same (fun _ => rfl) fun _ h => by cases key <;> exact h
  has key := .same (fun _ => rfl) fun _ h => by cases key <;> exact h
  write sync op := .same (fun _ => rfl) fun contents h => by
    by_cases hkey : op.key = []
    · rwa [store_write_of_eq_nil hkey]
    · rw [run_write contents hkey]
      exact h.applyTo hkey
  iterator direction bounds := .same Iterator.Alike.refl fun contents h => by
    cases hbounds : bounds.hasEmpty with
    | true => rwa [store_iterator_of_hasEmpty hbounds]
    | false => rwa [run_iterator contents hbounds]
  newBatch := .pure (queued_alike_hasKeys WriteQueue.hasKeys_empty)

/-! ### The empty stem -/

/-- A view of the contents and the same view of their view under the empty stem cannot be told apart. -/
theorem view_nil_view_alike (stem : Bytes) :
    ((store.view []).view stem).Alike (Same HasKeys) (store.view stem) := by
  have hcompose := (Store.view_view_alike store [] stem).comp (store_alike_hasKeys.view stem)
  rwa [Relation.eq_comp] at hcompose

/-- The second batch is the first one without a view of the empty stem, or cannot be told apart from
it. -/
inductive Screened : Batch Contents → Batch Contents → Prop where
  | ofQueue (queue : WriteQueue) (h : queue.HasKeys) :
    Screened (.view [] (.queued (fun _ => applyAll) queue)) (.queued (fun _ => applyAll) queue)
  | ofAlike {a b : Batch Contents} (h : a.Alike (Same HasKeys) b) : Screened a b

/-- Screened batches answer alike and stay screened, unless an operation without a key is pushed to a
closed batch. -/
theorem Screened.send {a b : Batch Contents} (h : Screened a b) (request : BatchRequest) :
    (Screened (a.send request).1 (b.send request).1 ∧
        CallsAgree (Same HasKeys) Eq (a.send request).2 (b.send request).2) ∨
      ∃ op, request = .push op ∧ op.key = [] ∧ b.isClosed = true ∧
        a.send request = (a, throw .emptyKey) ∧ b.send request = (b, throw .batchClosed) := by
  cases h with
  | ofAlike h => exact .inl ⟨.ofAlike (h.send request).1, (h.send request).2⟩
  | ofQueue queue hqueue =>
    by_cases hrequest : ∃ op, request = .push op ∧ op.key = []
    · obtain ⟨op, rfl, hkey⟩ := hrequest
      have hview : (Batch.view [] (.queued (fun _ => applyAll) queue)).send (.push op) =
          (.view [] (.queued (fun _ => applyAll) queue), throw .emptyKey) :=
        Batch.send_push_of_key_eq_nil _ hkey
      rw [hview, Batch.send_push_of_key_eq_nil _ hkey]
      by_cases hclosed : queue.isClosed = true
      · rw [if_pos ⟨rfl, hclosed⟩]
        exact .inr ⟨op, rfl, hkey, hclosed, rfl, rfl⟩
      · rw [if_neg fun h => hclosed h.2]
        exact .inl ⟨.ofQueue queue hqueue, .throw _⟩
    · have hunder : request.under [] = .ok request :=
        BatchRequest.under_nil fun op hpush hkey => hrequest ⟨op, hpush, hkey⟩
      rw [Batch.send_view_of_ok hunder]
      obtain ⟨after, hafter, hsend⟩ := Batch.send_queued (fun _ => applyAll) hqueue request
      refine .inl ⟨?_, ?_⟩
      · rw [hsend]
        exact .ofQueue after hafter
      · exact ((queued_alike_hasKeys hqueue).send request).2

/-- Operations are pushed alike to open batches. -/
theorem Screened.pushAll {a b : Batch Contents} (h : Screened a b) (hopen : b.isClosed = false)
    (ops : List Operation) :
    CallsAgree (Same HasKeys) Screened (a.pushAll ops) (b.pushAll ops) := by
  induction ops generalizing a b with
  | nil => exact .pure h
  | cons op ops ih =>
    rw [Batch.pushAll, Batch.pushAll]
    obtain ⟨hafter, hcall⟩ | ⟨_, -, -, hclosed, -⟩ := h.send (.push op)
    · exact .bind hcall fun _ _ _ => ih hafter ((b.isClosed_send_push op).trans hopen)
    · exact absurd (hopen.symm.trans hclosed) Bool.false_ne_true

/-- The view of contents under the empty stem cannot be told apart from the contents, except that its
batches are screened. -/
theorem view_nil_alikeWith : (store.view []).AlikeWith Screened (Same HasKeys) store where
  get key := by
    by_cases hkey : key = []
    · rw [hkey]
      exact .throw _
    · rw [Store.view_get_of_ne_nil _ _ hkey]
      exact store_alike_hasKeys.get key
  has key := by
    by_cases hkey : key = []
    · rw [hkey]
      exact .throw _
    · rw [Store.view_has_of_ne_nil _ _ hkey]
      exact store_alike_hasKeys.has key
  write sync op := by
    by_cases hkey : op.key = []
    · rw [Store.view_write_of_eq_nil _ _ hkey, store_write_of_eq_nil hkey]
      exact .throw _
    · rw [Store.view_write_of_ne_nil _ _ hkey, Operation.under_nil]
      exact store_alike_hasKeys.write sync op
  iterator direction bounds := by
    cases hbounds : bounds.hasEmpty with
    | true =>
      rw [Store.view_iterator_of_hasEmpty _ _ hbounds, store_iterator_of_hasEmpty hbounds]
      exact .throw _
    | false =>
      rintro contents _ ⟨rfl, h⟩
      obtain ⟨it, hrun, hit⟩ := contents.view_iterator [] direction hbounds
      rw [hrun, contents.run_iterator hbounds]
      rw [stripped_nil] at hit
      exact ⟨.ok hit, rfl, h⟩
  newBatch := .pure (.ofQueue _ WriteQueue.hasKeys_empty)
  writeBatch sync ops := by
    refine .bind (P := fun a b => Screened a b ∧ b.isClosed = false)
      (.ofState (.pure ⟨.ofQueue _ WriteQueue.hasKeys_empty, rfl⟩)) ?_
    rintro a b ⟨hnew, hopen⟩
    refine .bind (hnew.pushAll hopen ops) ?_
    intro a b hpushed
    obtain ⟨-, hcall⟩ | ⟨_, hpush, -⟩ := hpushed.send (.write sync)
    · exact hcall
    · cases hpush

end Contents

/-! ### Handles -/

/-- The handles of a session on the view under the empty stem stand for what those of a session on the
contents stand for, except that batches are screened. -/
theorem Handle.view_nil_alikeWith (handle : Handle Unit) :
    (handle.store fun _ => Contents.store.view []).AlikeWith Contents.Screened (Same Contents.HasKeys)
      (handle.store fun _ => Contents.store) := by
  cases handle with
  | root name => exact Contents.view_nil_alikeWith
  | view stem source =>
    have halike : ((source.view stem).store fun _ => Contents.store.view []).Alike
        (Same Contents.HasKeys) ((source.view stem).store fun _ => Contents.store) := by
      induction source generalizing stem with
      | root name => exact Contents.view_nil_view_alike stem
      | view inner source ih => exact (ih inner).view stem
    exact halike.alikeWith (halike.newBatch.mono fun _ _ => .ofAlike)

/-! ### Sessions -/

namespace Session

open Contents

/-- The answers to a step are alike, or it pushes an operation without a key, and only the second session
says that the batch is closed. -/
def AnsweredAlike (step : Step) (asked expected : Except Refusal Answer) : Prop :=
  SameOutcome Answer.Alike asked expected ∨
    ∃ number op, step = .onBatch number (.push op) ∧ op.key = [] ∧
      asked = .error (.failed .emptyKey) ∧ expected = .error (.failed .batchClosed)

variable {a b : Session Unit Contents}

theorem step_screened (hab : a.AlikeWith Screened (Same HasKeys) b) (step : Step) :
    AnsweredAlike step (a.step (fun _ => store.view []) step).1 (b.step (fun _ => store) step).1 ∧
      (a.step (fun _ => store.view []) step).2.AlikeWith Screened (Same HasKeys)
        (b.step (fun _ => store) step).2 := by
  by_cases hpush : ∃ number op x y, step = .onBatch number (.push op) ∧ op.key = [] ∧
      a.batches[number]? = some x ∧ b.batches[number]? = some y ∧ Screened x y ∧
      x.send (.push op) = (x, throw .emptyKey) ∧ y.send (.push op) = (y, throw .batchClosed)
  · obtain ⟨number, op, x, y, rfl, hkey, hx, hy, hxy, hxsend, hysend⟩ := hpush
    have hafter : Screened (x.send (.push op)).1 (y.send (.push op)).1 := by rwa [hxsend, hysend]
    obtain ⟨outcome, outcome', ⟨rfl, rfl⟩, hasked, hexpected, halike⟩ :=
      step_onBatch_agree (fun _ => store.view []) (fun _ => store) hab hx hy (.push op)
        hafter (Q := fun left right => left = .error .emptyKey ∧ right = .error .batchClosed)
        (by rw [hxsend, hysend]; exact .pure ⟨rfl, rfl⟩)
    exact ⟨.inr ⟨number, op, rfl, hkey, hasked, hexpected⟩, halike⟩
  · refine (step_alikeWith Handle.view_nil_alikeWith step (fun _ _ => .pure rfl) hab ?_).imp_left .inl
    intro number request hstep x y hx hy hxy
    obtain hsame | ⟨op, rfl, hkey, -, hxsend, hysend⟩ := hxy.send request
    · exact hsame
    · exact absurd ⟨number, op, x, y, hstep, hkey, hx, hy, hxy, hxsend, hysend⟩ hpush

theorem run_screened (hab : a.AlikeWith Screened (Same HasKeys) b) (steps : List Step) :
    (a.run (fun _ => store.view []) steps).2.AlikeWith Screened (Same HasKeys)
      (b.run (fun _ => store) steps).2 := by
  induction steps generalizing a b with
  | nil => exact hab
  | cons step steps ih => exact ih (step_screened hab step).2

/-- Only a closed batch answers that it is closed. -/
theorem isClosed_of_step_push {ρ σ : Type} {roots : ρ → Store σ} {session : Session ρ σ} {number : Nat}
    {op : Operation} (hkey : op.key = [])
    (h : (session.step roots (.onBatch number (.push op))).1 = .error (.failed .batchClosed)) :
    ∃ batch, session.batches[number]? = some batch ∧ batch.isClosed = true := by
  cases hbatch : session.batches[number]? with
  | none =>
    rw [step_onBatch_of_eq_none hbatch] at h
    cases h
  | some batch =>
    refine ⟨batch, rfl, ?_⟩
    rw [step_onBatch hbatch, Batch.send_push_of_key_eq_nil _ hkey] at h
    by_contra hopen
    rw [if_neg fun hboth => hopen hboth.2] at h
    cases h

/-- **A view is a store of its own.**  The source of the view is a store in memory or over an engine that
acts as a sorted map, and holds no value at the stem itself.  Whatever steps are taken through the view,
the next one is answered as it is by a store in memory that began with the entries that the view showed,
unless it pushes an operation without a key to a batch that is closed.  After it, the store in memory
holds what the view shows, and the source still holds no value at the stem. -/
theorem view_answers_as_store {σ : Type} {source : Store σ} {holds : σ → Contents → Prop}
    (hsource : source.Faultless holds) (stem : Bytes) {state : σ} {contents : Contents}
    (hstate : holds state contents) (hstem : contents.get? stem = none) {map : OrderedMap}
    (hmap : map.Holds (contents.stripped stem)) (before : List Step) (step : Step) :
    let viewed := ((ofRoot () state).run (fun _ => source.view stem) before).2
    let standalone := ((ofRoot () map).run (fun _ => Memory.store) before).2
    let asked := viewed.step (fun _ => source.view stem) step
    let expected := standalone.step (fun _ => Memory.store) step
    (SameOutcome Answer.Alike asked.1 expected.1 ∨
      ∃ number op batch, step = .onBatch number (.push op) ∧ op.key = [] ∧
        standalone.batches[number]? = some batch ∧ batch.isClosed = true ∧
        asked.1 = .error (.failed .emptyKey) ∧ expected.1 = .error (.failed .batchClosed)) ∧
    ∃ after, holds asked.2.state after ∧ expected.2.state.Holds (after.stripped stem) ∧
      after.get? stem = none := by
  intro viewed standalone asked expected
  -- The view of the source is compared with the view of what it shows, and that with the contents.
  have hview : (source.view stem).Alike (Relation.Comp holds (Shows stem)) (Contents.store.view []) :=
    (hsource.alike.view stem).comp (view_alike_stripped stem)
  have hkeys : (contents.stripped stem).HasKeys := by
    rw [HasKeys, get?_stripped, List.append_nil, hstem]
  have hviewed := (run_alike before (fun _ : Unit => hview) (fun _ _ => .pure rfl)
    (alike_ofRoot () ⟨contents, hstate, rfl⟩)).2
  have hscreened := run_screened (alikeWith_ofRoot () ⟨rfl, hkeys⟩) before
  have hstandalone := (run_alike before (fun _ : Unit => Memory.store_alike) (fun _ _ => .pure rfl)
    (alike_ofRoot () hmap)).2
  obtain ⟨hasked, hasked'⟩ := step_alike step (fun _ : Unit => hview) (fun _ _ => .pure rfl) hviewed
  obtain ⟨hanswer, hmiddle⟩ := step_screened hscreened step
  obtain ⟨hexpected, hexpected'⟩ :=
    step_alike step (fun _ : Unit => Memory.store_alike) (fun _ _ => .pure rfl) hstandalone
  constructor
  · obtain hsame | ⟨number, op, rfl, hkey, hrefused, hclosed⟩ := hanswer
    · refine .inl ?_
      exact (hasked.comp hsame fun _ _ _ => Answer.Alike.trans).comp
        (hexpected.symm fun _ _ => Answer.Alike.symm) fun _ _ _ => Answer.Alike.trans
    · rw [hrefused] at hasked
      rw [hclosed] at hexpected
      obtain ⟨batch, hbatch, hbatchClosed⟩ := isClosed_of_step_push hkey hexpected.eq_error
      exact .inr ⟨number, op, batch, rfl, hkey, hbatch, hbatchClosed, hasked.eq_error,
        hexpected.eq_error⟩
  · obtain ⟨after, hafter, hshown⟩ := hasked'.state
    obtain ⟨hsame, hkeys'⟩ := hmiddle.state
    have hexpectedState := hexpected'.state
    rw [← hsame, ← hshown] at hexpectedState
    rw [← hshown, HasKeys, get?_stripped, List.append_nil] at hkeys'
    exact ⟨after, hafter, hexpectedState, hkeys'⟩

/-- A view under the greatest byte on an engine, with entries below the stem and an iterator that is older
than a deletion. -/
theorem view_answers_as_store_scripted :
    let contents := Contents.ofList [⟨[254], [1]⟩, ⟨[255, 0], [7]⟩, ⟨[255, 255], [8]⟩]
    let state : Scripted := { Scripted.empty with contents }
    let roots := fun _ : Unit => (Scripted.engine false).store.view [255]
    let before : List Step := [.onStore 0 (.iterate .descending .all), .onStore 0 .batch,
      .onBatch 0 (.push (.delete [0])), .onBatch 0 (.write true)]
    let asked := ((ofRoot () state).run roots before).2.step roots (.onIterator 0 (.drain none))
    asked.1 = .ok (.entries [⟨[255], [8]⟩, ⟨[0], [7]⟩]) ∧
      ∃ after, asked.2.state.FaultlessWith after ∧ after.get? [255] = none := by
  intro contents state roots before asked
  have hmap : ((OrderedMap.empty.insert ⟨[0], [7]⟩).1.insert ⟨[255], [8]⟩).1.Holds
      (contents.stripped [255]) :=
    (OrderedMap.holds_empty.insert ⟨[0], [7]⟩).insert ⟨[255], [8]⟩
  obtain ⟨hanswer, after, hafter, -, hstem⟩ := view_answers_as_store (.engine (Scripted.actsAs false))
    [255] (show state.FaultlessWith contents from ⟨rfl, rfl, rfl, rfl⟩) rfl hmap before
    (.onIterator 0 (.drain none))
  refine ⟨?_, after, hafter, hstem⟩
  obtain hsame | ⟨_, _, _, hpush, -⟩ := hanswer
  · change SameOutcome Answer.Alike asked.1 (.ok (.entries [⟨[255], [8]⟩, ⟨[0], [7]⟩])) at hsame
    generalize asked.1 = answer at hsame ⊢
    cases hsame with
    | ok halike => cases halike; rfl
  · cases hpush

end Session

end OrderedStore
