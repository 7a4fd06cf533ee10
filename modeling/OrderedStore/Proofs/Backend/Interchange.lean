import OrderedStore.Proofs.Backend.Faultless
import OrderedStore.Proofs.Simulation.Session

/-!
# Backends are interchangeable

A store in memory and a store over an engine that acts as a sorted map answer every list of steps
alike, through whatever views, iterators, batches and transactions, as both answer as the contents
do.

* `Engine.ActsAs.answers_alike` compares the two backends.
-/

namespace OrderedStore

/-- Lists of answers are alike if both are like a third one. -/
theorem answersAlike_of_common {as bs cs : List (Except Refusal Answer)}
    (hac : List.Forall₂ (SameOutcome Answer.Alike) as cs)
    (hbc : List.Forall₂ (SameOutcome Answer.Alike) bs cs) :
    List.Forall₂ (SameOutcome Answer.Alike) as bs :=
  answersAlike_trans hac (answersAlike_symm hbc)

/-- **Backends are interchangeable**: from the same contents, a store in memory and a store over an
engine that acts as a sorted map answer all steps alike, whether or not the engine applies batches
as one.  Only if a step closes the store does it matter what the engine does to close. -/
theorem Engine.ActsAs.answers_alike {σ : Type} {engine : Engine σ} {holds : σ → Contents → Prop}
    (h : engine.ActsAs holds) {map : OrderedMap} {state : σ} {contents : Contents}
    (hmap : map.Holds contents) (hstate : holds state contents) (steps : List Step)
    (hclose : (∃ number, .onStore number .close ∈ steps) →
      StoreM.Yields holds engine.close (fun _ => ()) id) :
    List.Forall₂ (SameOutcome Answer.Alike)
      ((Session.ofRoot () map).run (fun _ => Memory.store) steps).1
      ((Session.ofRoot () state).run (fun _ => engine.store) steps).1 := by
  -- Both runs are compared with the run on the contents themselves.
  have hmemory := Session.run_alike steps (fun _ : Unit => Memory.store_alike)
    (fun _ _ => .pure rfl) (Session.alike_ofRoot () hmap)
  have hengine := Session.run_alike steps (fun _ : Unit => h.store_alike)
    (fun hc _ => (hclose hc).agree (fun _ => rfl) fun _ => rfl) (Session.alike_ofRoot () hstate)
  exact answersAlike_of_common hmemory.1 hengine.1

/-- An engine that applies batches write by write, used through a view, with an iterator that is
older than a batch, a walk that ends, an empty key and a store that is closed. -/
theorem Engine.ActsAs.answers_alike_scripted :
    let steps : List Step :=
      [.onStore 0 (.write false (.set [1, 2] [7])), .onStore 0 (.view [1]), .onStore 1 .batch,
        .onBatch 0 (.push (.set [2] [8])), .onBatch 0 (.push (.delete [3])),
        .onStore 1 (.iterate .descending ⟨none, some [3]⟩), .onBatch 0 (.write true),
        .onIterator 0 .value, .onIterator 0 .next, .onIterator 0 .key, .onStore 0 (.get []),
        .onStore 1 (.dump (some 5)), .onStore 0 .close, .onStore 0 (.has [1, 2])]
    List.Forall₂ (SameOutcome Answer.Alike)
      ((Session.ofRoot () OrderedMap.empty).run (fun _ => Memory.store) steps).1
      ((Session.ofRoot () Scripted.empty).run (fun _ => (Scripted.engine false).store) steps).1 :=
  (Scripted.actsAs false).answers_alike OrderedMap.holds_empty ⟨rfl, rfl, rfl, rfl⟩ _
    fun _ => Scripted.receive_yields .close

end OrderedStore
