import OrderedStore.Proofs.Backend.Clean
import OrderedStore.Proofs.Contents
import OrderedStore.Proofs.Simulation.Session
import OrderedStore.Proofs.View.Batches

/-!
# A view writes under its stem

Whatever is done through a view, whatever fails and whatever is undone after a failure, the keys of the
source that do not begin with the stem of the view keep their values.

* `Outside` speaks of these keys.
* `Engine.FailsCleanly.applyBatch_agree` follows batches, with the deletions that undo them.
* `Session.step_confined` and `Session.run_confined` follow the steps of a session on a view.
-/

namespace OrderedStore

variable {σ α : Type} {holds : σ → Contents → Prop} {stem : Bytes} {values : Bytes → Option Bytes}

/-! ### Keys that do not begin with a stem -/

theorem Contents.get?_applyTo_of_not_isPrefix (contents : Contents) {op : Operation} {key : Bytes}
    (hop : stem <+: op.key) (hkey : ¬ stem <+: key) :
    (contents.applyTo op).get? key = contents.get? key :=
  get?_applyTo_of_ne contents fun heq => hkey (heq ▸ hop)

theorem Contents.get?_foldl_applyTo_of_not_isPrefix (contents : Contents) {ops : List Operation}
    {key : Bytes} (hops : ∀ op ∈ ops, stem <+: op.key) (hkey : ¬ stem <+: key) :
    (ops.foldl applyTo contents).get? key = contents.get? key := by
  refine get?_foldl_applyTo_of_notMem contents fun hmem => ?_
  obtain ⟨op, hop, rfl⟩ := List.mem_map.1 hmem
  exact hkey (hops op hop)

/-- The state holds contents in which the keys that do not begin with the stem have the given values. -/
def Outside (holds : σ → Contents → Prop) (stem : Bytes) (values : Bytes → Option Bytes) (state : σ) :
    Prop :=
  ∃ contents, holds state contents ∧ ∀ key, ¬ stem <+: key → contents.get? key = values key

theorem StoreM.Settles.outside {call : StoreM σ α} {change : Contents → Contents}
    (h : Settles holds call change)
    (hchange : ∀ contents key, ¬ stem <+: key → (change contents).get? key = contents.get? key)
    {Q : α → α → Prop} (hQ : ∀ a, Q a a) : CallsAgree (Same (Outside holds stem values)) Q call call := by
  refine .same hQ ?_
  rintro state ⟨contents, hs, hvalues⟩
  have hcall := h state contents hs
  rcases hrun : call.run.run state with ⟨error | a, after⟩
  · rw [hrun] at hcall
    exact ⟨contents, hcall, hvalues⟩
  · rw [hrun] at hcall
    exact ⟨_, hcall, fun key hkey => (hchange contents key hkey).trans (hvalues key hkey)⟩

/-! ### Batches -/

/-- A batch under the stem, made as one or undone in part, keeps the keys outside. -/
theorem Engine.FailsCleanly.applyBatch_agree {engine : Engine σ} (h : engine.FailsCleanly holds)
    (sync : Bool) {ops : List Operation} (hops : ∀ op ∈ ops, stem <+: op.key) :
    CallsAgree (Same (Outside holds stem values)) Eq (engine.applyBatch sync ops)
      (engine.applyBatch sync ops) := by
  refine Engine.applyBatch_agree rfl sync (fun hatomic => ?_) fun sync op hop => ?_
  · exact (h.applyAll hatomic sync ops).outside
      (fun contents _ hkey => contents.get?_foldl_applyTo_of_not_isPrefix hops hkey) fun _ => rfl
  · obtain ⟨_, hmem, hkey⟩ := List.mem_map.1 hop
    exact ((h.write sync op).of_check _).outside
      (fun contents _ => contents.get?_applyTo_of_not_isPrefix (hkey ▸ hops _ hmem)) fun _ => rfl

/-- The batches agree on whatever values there are outside. -/
def Batch.Confined (holds : σ → Contents → Prop) (stem : Bytes) (a b : Batch σ) : Prop :=
  ∀ values, a.Alike (Same (Outside holds stem values)) b

/-- The batch of a view is confined if what is applied under its stem is. -/
theorem Batch.confined_viewQueued {apply : Bool → List Operation → StoreM σ Unit}
    (happly : ∀ values sync ops, (∀ op ∈ ops, stem <+: op.key) →
      CallsAgree (Same (Outside holds stem values)) Eq (apply sync ops) (apply sync ops))
    (waiting : Option (List Operation)) :
    Confined holds stem (viewQueued stem apply waiting) (viewQueued stem apply waiting) := by
  refine fun values => viewQueued_alike (fun sync ops => happly values sync _ fun op hop => ?_) waiting
  obtain ⟨waiting, -, rfl⟩ := List.mem_map.1 hop
  rw [Operation.key_under]
  exact List.prefix_append stem waiting.key

/-! ### Stores -/

namespace Store.FailsCleanly

variable {store : Store σ}

/-- New batches of a store that are filled under the stem keep the keys outside. -/
theorem newBatch_view (h : store.FailsCleanly holds) :
    Agree (Same (Outside holds stem values)) (Batch.Confined holds stem) (store.view stem).newBatch
      (store.view stem).newBatch := by
  cases h with
  | memory =>
    refine .pure (Batch.confined_viewQueued (fun _ _ ops hops => ?_) (some []))
    have happly : StoreM.Settles OrderedMap.Holds (Memory.applyAll ops) fun contents =>
        ops.foldl Contents.applyTo contents := fun _ _ hs => Memory.holds_foldl_applyTo hs ops
    exact happly.outside (fun contents _ hkey => contents.get?_foldl_applyTo_of_not_isPrefix hops hkey)
      fun _ => rfl
  | engine h =>
    exact .pure (Batch.confined_viewQueued (fun _ sync _ hops => h.applyBatch_agree sync hops) (some []))

/-- Calls through a view keep the keys outside its stem. -/
theorem view_alike (h : store.FailsCleanly holds) :
    (store.view stem).Alike (Same (Outside holds stem values)) (store.view stem) where
  get key := ((h.get _).of_check _).outside (fun _ _ _ => rfl) fun _ => rfl
  has key := ((h.has _).of_check _).outside (fun _ _ _ => rfl) fun _ => rfl
  write sync op := ((h.write sync (op.under stem)).of_check _).outside
    (fun contents _ hkey => contents.get?_applyTo_of_not_isPrefix (by simp) hkey) fun _ => rfl
  iterator direction bounds := (((h.iterator direction _).map _).of_check _).outside (fun _ _ _ => rfl)
    Iterator.Alike.refl
  newBatch := h.newBatch_view.mono fun _ _ hbatch => hbatch values

end Store.FailsCleanly

/-! ### Sessions -/

namespace Session

variable {source : Store σ} {session : Session Unit σ} {contents : Contents}

/-- What the session holds keeps the keys outside the stem. -/
structure Confined (holds : σ → Contents → Prop) (stem : Bytes) (session : Session Unit σ) : Prop where
  batches : List.Forall₂ (Batch.Confined holds stem) session.batches session.batches
  transactions : List.Forall₂ Transaction.AlwaysAlike session.transactions session.transactions

theorem confined_ofRoot (state : σ) : (ofRoot () state).Confined holds stem := ⟨.nil, .nil⟩

/-- A step through a view keeps the keys outside its stem. -/
theorem step_confined (hsource : source.FailsCleanly holds) (h : session.Confined holds stem)
    (hs : holds session.state contents) (step : Step) :
    let after := (session.step (fun _ => source.view stem) step).2
    after.Confined holds stem ∧ Outside holds stem contents.get? after.state := by
  intro after
  -- The session is compared with itself, on states that have the same values outside.
  have hself : session.AlikeWith (Batch.Confined holds stem) (Same (Outside holds stem contents.get?))
      session :=
    ⟨⟨rfl, contents, hs, fun _ _ => rfl⟩, rfl, List.forall₂_same.2 fun it _ => .refl it, h.batches,
      h.transactions⟩
  have hstores : ∀ handle : Handle Unit, (handle.store fun _ => source.view stem).AlikeWith
      (Batch.Confined holds stem) (Same (Outside holds stem contents.get?))
      (handle.store fun _ => source.view stem) := fun handle =>
    (handle.store_alike fun _ => hsource.view_alike).alikeWith
      (handle.newBatch_agree (fun _ => hsource.newBatch_view) fun inner _ _ hbatch values =>
        (hbatch values).view inner)
  obtain ⟨-, hafter⟩ := step_alikeWith hstores step (fun _ _ => .pure rfl) hself
    fun _ request _ x y _ _ hxy => ⟨fun values => ((hxy values).send request).1, ((hxy _).send request).2⟩
  exact ⟨⟨hafter.batches, hafter.transactions⟩, hafter.state.2⟩

/-- All steps through a view keep the keys outside its stem. -/
theorem run_confined (hsource : source.FailsCleanly holds) (h : session.Confined holds stem)
    (hs : holds session.state contents) (steps : List Step) :
    Outside holds stem contents.get? (session.run (fun _ => source.view stem) steps).2.state := by
  induction steps generalizing session contents with
  | nil => exact ⟨contents, hs, fun _ _ => rfl⟩
  | cons step steps ih =>
    obtain ⟨hafter, between, hbetween, hvalues⟩ := step_confined hsource h hs step
    obtain ⟨last, hlast, hvalues'⟩ := ih hafter hbetween
    exact ⟨last, hlast, fun key hkey => (hvalues' key hkey).trans (hvalues key hkey)⟩

end Session

end OrderedStore
