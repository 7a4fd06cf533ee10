import OrderedStore.Proofs.Simulation.Iterator
import OrderedStore.Script
import OrderedStore.View

/-!
# Stores that cannot be told apart

Two stores on different states are alike if all their calls agree.  Everything that is made of the
calls of a store then agrees as well: views, walks of a stem, and dumps.

* `Batch.Alike` compares batches, `Store.Alike` compares stores.
* `Store.Alike.view` keeps stores alike, as do `Store.Alike.comp` and `Store.Alike.symm`.
* `Store.AlikeWith` compares stores whose batches are related in a way of their own.

Statistics and closing are not calls in this sense.
-/

namespace OrderedStore

variable {σ τ υ : Type} {R : σ → τ → Prop} {R' : τ → υ → Prop}

/-! ### Batches -/

namespace Batch

/-- A relation between batches that answer every request with agreeing calls. -/
def IsBisimulation (R : σ → τ → Prop) (S : Batch σ → Batch τ → Prop) : Prop :=
  ∀ a b, S a b → ∀ request,
    S (a.send request).1 (b.send request).1 ∧ CallsAgree R Eq (a.send request).2 (b.send request).2

/-- The batches cannot be told apart. -/
def Alike (R : σ → τ → Prop) (a : Batch σ) (b : Batch τ) : Prop := ∃ S, IsBisimulation R S ∧ S a b

/-- Being alike is itself a bisimulation. -/
theorem Alike.isBisimulation : IsBisimulation R (Alike R) := by
  rintro a b ⟨S, hS, h⟩ request
  obtain ⟨hafter, hcall⟩ := hS a b h request
  exact ⟨⟨S, hS, hafter⟩, hcall⟩

theorem Alike.send {a : Batch σ} {b : Batch τ} (h : Alike R a b) (request : BatchRequest) :
    Alike R (a.send request).1 (b.send request).1 ∧
      CallsAgree R Eq (a.send request).2 (b.send request).2 :=
  isBisimulation a b h request

theorem Alike.refl (batch : Batch σ) : Alike Eq batch batch := by
  refine ⟨Eq, ?_, rfl⟩
  rintro batch _ rfl request
  exact ⟨rfl, .refl (fun _ => rfl) _⟩

theorem Alike.comp {a : Batch σ} {b : Batch τ} {c : Batch υ} (h : Alike R a b) (h' : Alike R' b c) :
    Alike (Relation.Comp R R') a c := by
  refine ⟨fun a c => ∃ b, Alike R a b ∧ Alike R' b c, ?_, b, h, h'⟩
  rintro a c ⟨b, h, h'⟩ request
  exact ⟨⟨_, (h.send request).1, (h'.send request).1⟩,
    (h.send request).2.comp (h'.send request).2 fun _ _ _ => Eq.trans⟩

theorem Alike.symm {a : Batch σ} {b : Batch τ} (h : Alike R a b) : Alike (flip R) b a := by
  refine ⟨fun b a => Alike R a b, ?_, h⟩
  intro b a h request
  exact ⟨(h.send request).1, (h.send request).2.symm fun _ _ => Eq.symm⟩

/-- Batches of alike batches, under the same stem. -/
theorem Alike.view (stem : Bytes) {a : Batch σ} {b : Batch τ} (h : Alike R a b) :
    Alike R (Batch.view stem a) (Batch.view stem b) := by
  refine ⟨fun left right => ∃ a b, Alike R a b ∧ left = .view stem a ∧ right = .view stem b, ?_,
    a, b, h, rfl, rfl⟩
  rintro _ _ ⟨a, b, h, rfl, rfl⟩ request
  rw [Batch.send, Batch.send]
  cases request.under stem with
  | error error => exact ⟨⟨a, b, h, rfl, rfl⟩, .throw error⟩
  | ok request =>
    obtain ⟨hafter, hcall⟩ := h.send request
    exact ⟨⟨_, _, hafter, rfl, rfl⟩, hcall⟩

/-- Batches with the same queue are alike if what they apply agrees. -/
theorem alike_queued {apply : Bool → List Operation → StoreM σ Unit}
    {apply' : Bool → List Operation → StoreM τ Unit}
    (h : ∀ sync ops, (∀ op ∈ ops, op.key ≠ []) → CallsAgree R Eq (apply sync ops) (apply' sync ops))
    {queue : WriteQueue} (hqueue : queue.HasKeys) :
    Alike R (queued apply queue) (queued apply' queue) := by
  -- The batches keep the same queue from request to request.
  refine ⟨fun a b => ∃ queue : WriteQueue, queue.HasKeys ∧ a = queued apply queue ∧
    b = queued apply' queue, ?_, queue, hqueue, rfl, rfl⟩
  rintro _ _ ⟨queue, hqueue, rfl, rfl⟩ request
  cases request with
  | push op =>
    rw [send, send]
    cases hpush : queue.push op with
    | error error => exact ⟨⟨queue, hqueue, rfl, rfl⟩, .throw error⟩
    | ok after => exact ⟨⟨after, hqueue.push hpush, rfl, rfl⟩, .pure rfl⟩
  | write sync =>
    rw [send, send]
    cases htake : queue.take with
    | error error => exact ⟨⟨queue, hqueue, rfl, rfl⟩, .throw error⟩
    | ok taken =>
      obtain ⟨hops, hafter⟩ := hqueue.take htake
      exact ⟨⟨taken.2, hafter, rfl, rfl⟩, h sync taken.1 hops⟩
  | close => exact ⟨⟨.closed, WriteQueue.hasKeys_closed, rfl, rfl⟩, .pure rfl⟩

theorem Alike.pushAll {a : Batch σ} {b : Batch τ} (h : Alike R a b) (ops : List Operation) :
    CallsAgree R (Alike R) (a.pushAll ops) (b.pushAll ops) := by
  induction ops generalizing a b with
  | nil => exact .pure h
  | cons op ops ih =>
    rw [Batch.pushAll, Batch.pushAll]
    obtain ⟨hafter, hcall⟩ := h.send (.push op)
    exact .bind hcall fun _ _ _ => ih hafter

end Batch

/-! ### Stores -/

/-- All calls of the stores agree. -/
structure Store.Alike (R : σ → τ → Prop) (a : Store σ) (b : Store τ) : Prop where
  get : ∀ key, CallsAgree R Eq (a.get key) (b.get key)
  has : ∀ key, CallsAgree R Eq (a.has key) (b.has key)
  write : ∀ sync op, CallsAgree R Eq (a.write sync op) (b.write sync op)
  iterator : ∀ direction bounds,
    CallsAgree R Iterator.Alike (a.iterator direction bounds) (b.iterator direction bounds)
  newBatch : Agree R (Batch.Alike R) a.newBatch b.newBatch

theorem Iterator.Alike.view (stem : Bytes) (bounds : Bounds) {a b : Iterator} (h : Alike a b) :
    Alike (Iterator.view stem bounds a) (Iterator.view stem bounds b) := by
  refine ⟨fun left right => ∃ a b, Alike a b ∧ left = .view stem bounds a ∧
    right = .view stem bounds b, ⟨?_, ?_, ?_, ?_, ?_⟩, a, b, h, rfl, rfl⟩
  · rintro _ _ ⟨a, b, h, rfl, rfl⟩
    exact congrArg (Option.bind · (Entry.strip? stem)) (isBisimulation.entry? h)
  · rintro _ _ ⟨a, b, h, rfl, rfl⟩
    rfl
  · rintro _ _ ⟨a, b, h, rfl, rfl⟩
    show a.error? = b.error?
    exact isBisimulation.error? h
  · rintro _ _ ⟨a, b, h, rfl, rfl⟩ hvalid
    refine ⟨_, _, isBisimulation.advance h ?_, rfl, rfl⟩
    -- A view is valid only where its source is.
    rw [valid, entry?] at hvalid
    rw [valid]
    cases hentry : a.entry? with
    | none => rw [hentry] at hvalid; cases hvalid
    | some entry => rfl
  · rintro _ _ ⟨a, b, h, rfl, rfl⟩
    exact ⟨_, _, isBisimulation.close h, rfl, rfl⟩

namespace Store.Alike

variable {a : Store σ} {b : Store τ}

theorem refl (store : Store σ) : store.Alike Eq store where
  get _ := .refl (fun _ => rfl) _
  has _ := .refl (fun _ => rfl) _
  write _ _ := .refl (fun _ => rfl) _
  iterator _ _ := .refl Iterator.Alike.refl _
  newBatch := .refl Batch.Alike.refl _

theorem comp {c : Store υ} (h : a.Alike R b) (h' : b.Alike R' c) :
    a.Alike (Relation.Comp R R') c where
  get key := (h.get key).comp (h'.get key) fun _ _ _ => Eq.trans
  has key := (h.has key).comp (h'.has key) fun _ _ _ => Eq.trans
  write sync op := (h.write sync op).comp (h'.write sync op) fun _ _ _ => Eq.trans
  iterator direction bounds := (h.iterator direction bounds).comp (h'.iterator direction bounds)
    fun _ _ _ => Iterator.Alike.trans
  newBatch := h.newBatch.comp h'.newBatch fun _ _ _ => Batch.Alike.comp

theorem trans_eq {c : Store τ} (h : a.Alike R b) (h' : b.Alike Eq c) : a.Alike R c :=
  Relation.comp_eq (r := R) ▸ h.comp h'

theorem symm (h : a.Alike R b) : b.Alike (flip R) a where
  get key := (h.get key).symm fun _ _ => Eq.symm
  has key := (h.has key).symm fun _ _ => Eq.symm
  write sync op := (h.write sync op).symm fun _ _ => Eq.symm
  iterator direction bounds := (h.iterator direction bounds).symm fun _ _ => Iterator.Alike.symm
  newBatch := h.newBatch.symm.mono fun _ _ => Batch.Alike.symm

/-- Views of alike stores under the same stem are alike. -/
theorem view (h : a.Alike R b) (stem : Bytes) : (a.view stem).Alike R (b.view stem) where
  get key := .bind (.ofExcept _) fun _ _ _ => h.get (stem ++ key)
  has key := .bind (.ofExcept _) fun _ _ _ => h.has (stem ++ key)
  write sync op := .bind (.ofExcept _) fun _ _ _ => h.write sync (op.under stem)
  iterator direction bounds :=
    .bind (.ofExcept _) fun _ _ _ =>
      .bind (h.iterator direction (bounds.under stem)) fun _ _ hit => .pure (hit.view stem bounds)
  newBatch := .bind h.newBatch fun _ _ hbatch => .pure (hbatch.view stem)

theorem writeBatch (h : a.Alike R b) (sync : Bool) (ops : List Operation) :
    CallsAgree R Eq (a.writeBatch sync ops) (b.writeBatch sync ops) :=
  .bind (.ofState h.newBatch) fun _ _ hbatch =>
    .bind (hbatch.pushAll ops) fun _ _ hpushed => (hpushed.send (.write sync)).2

end Store.Alike

/-! ### Stores with other batches -/

/-- All calls of the stores agree, batches that are written at once included.  What is asked of batches
that are kept is left to the relation `B`. -/
structure Store.AlikeWith (B : Batch σ → Batch τ → Prop) (R : σ → τ → Prop) (a : Store σ)
    (b : Store τ) : Prop where
  get : ∀ key, CallsAgree R Eq (a.get key) (b.get key)
  has : ∀ key, CallsAgree R Eq (a.has key) (b.has key)
  write : ∀ sync op, CallsAgree R Eq (a.write sync op) (b.write sync op)
  iterator : ∀ direction bounds,
    CallsAgree R Iterator.Alike (a.iterator direction bounds) (b.iterator direction bounds)
  newBatch : Agree R B a.newBatch b.newBatch
  writeBatch : ∀ sync ops, CallsAgree R Eq (a.writeBatch sync ops) (b.writeBatch sync ops)

/-- Alike stores are alike with whatever relation their new batches meet. -/
theorem Store.Alike.alikeWith {B : Batch σ → Batch τ → Prop} {a : Store σ} {b : Store τ}
    (h : a.Alike R b) (hB : Agree R B a.newBatch b.newBatch) : a.AlikeWith B R b :=
  ⟨h.get, h.has, h.write, h.iterator, hB, h.writeBatch⟩

namespace Store.AlikeWith

variable {B : Batch σ → Batch τ → Prop} {a : Store σ} {b : Store τ}

theorem writeAll (h : a.AlikeWith B R b) (sync : Bool) (ops : List Operation) :
    CallsAgree R Eq (a.writeAll sync ops) (b.writeAll sync ops) := by
  induction ops with
  | nil => exact .pure rfl
  | cons op ops ih => exact .bind (h.write sync op) fun _ _ _ => ih

theorem scan (h : a.AlikeWith B R b) (direction : Direction) (bounds : Bounds) :
    CallsAgree R Eq (a.scan direction bounds) (b.scan direction bounds) := by
  refine .bind (h.iterator direction bounds) ?_
  intro it it' hit
  obtain ⟨hentries, hafter⟩ := hit.drainAll
  refine .pure ?_
  show (it.drainAll.1, it.drainAll.2.error?) = (it'.drainAll.1, it'.drainAll.2.error?)
  rw [hentries, Iterator.Alike.isBisimulation.error? hafter]

theorem dump (h : a.AlikeWith B R b) (sink : Sink) : Agree R Eq (a.dump sink) (b.dump sink) := by
  refine .bind (h.iterator .ascending .all) ?_
  intro outcome outcome' houtcome
  cases houtcome with
  | error error => exact .pure rfl
  | ok hit => exact .pure (hit.writeLines_remaining_eq sink)

end Store.AlikeWith

end OrderedStore
