import OrderedStore.Proofs.Backend.Keys
import OrderedStore.Proofs.View.Standalone

/-!
# Empty keys

Whatever a session does, no empty key gets through to a memory or to an engine.

* `Session.step_of_lacksKey` says that requests with an empty key or bound are refused.
* `Session.step_makes` says that every other request to read, write or walk is one call on the engine.
* `Session.run_keeps` says that a run keeps what the engine keeps.
* `Session.empty_keys_never_get_through` combines them.
-/

namespace OrderedStore

open StoreM

variable {ρ σ : Type}

/-! ### Refused requests -/

/-- The store is a memory, or a store over an engine. -/
inductive Store.Direct : {σ : Type} → Store σ → Prop where
  | memory : Direct Memory.store
  | engine {σ : Type} (engine : Engine σ) : Direct engine.store

/-- Empty keys and empty bounds are refused without any call. -/
structure Store.RefusesEmpty (store : Store σ) : Prop where
  get : store.get [] = throw .emptyKey
  has : store.has [] = throw .emptyKey
  write : ∀ sync (op : Operation), op.key = [] → store.write sync op = throw .emptyKey
  iterator : ∀ direction (bounds : Bounds), bounds.hasEmpty = true →
    store.iterator direction bounds = throw .emptyKey

theorem Store.Direct.refusesEmpty {store : Store σ} (h : store.Direct) : store.RefusesEmpty := by
  cases h with
  | memory =>
    refine ⟨rfl, rfl, fun sync op hkey => ?_, fun direction bounds hbounds => ?_⟩
    · show (StoreM.ofExcept (requireKey op.key) >>= _) = _
      rw [hkey]
      rfl
    · show (StoreM.ofExcept (requireBounds bounds) >>= _) = _
      rw [requireBounds_of_hasEmpty hbounds]
      rfl
  | engine engine =>
    exact ⟨rfl, rfl, fun sync _ hkey => engine.points_write_of_eq_nil hkey sync,
      fun direction _ hbounds => engine.store_iterator_of_hasEmpty hbounds direction⟩

/-- A view refuses on its own. -/
theorem Store.refusesEmpty_view (source : Store σ) (stem : Bytes) : (source.view stem).RefusesEmpty :=
  ⟨view_get_nil source stem, view_has_nil source stem,
    fun sync _ hkey => view_write_of_eq_nil source stem hkey sync,
    fun direction _ hbounds => view_iterator_of_hasEmpty source stem hbounds direction⟩

theorem Handle.refusesEmpty {roots : ρ → Store σ} (hroots : ∀ name, (roots name).Direct)
    (handle : Handle ρ) : (handle.store roots).RefusesEmpty := by
  cases handle with
  | root name => exact (hroots name).refusesEmpty
  | view stem source => exact Store.refusesEmpty_view _ stem

/-! ### Requests with a key -/

/-- The request reads or writes the empty key, or walks from or to an empty bound. -/
def StoreRequest.lacksKey : StoreRequest → Bool
  | get key => key.isEmpty
  | has key => key.isEmpty
  | write _ op => op.key.isEmpty
  | iterate _ bounds => bounds.hasEmpty
  | _ => false

/-- The call on an engine that a request to read, write or walk comes to through views with the stem. -/
def StoreRequest.engineCall? (stem : Bytes) : StoreRequest → Option EngineCall
  | get key => some (.get (stem ++ key))
  | has key => some (.get (stem ++ key))
  | write sync op => some (.write sync (op.under stem))
  | iterate direction bounds => some (.cursor direction (bounds.under stem))
  | _ => none

namespace Session

variable {n : Nat} {request : StoreRequest}

theorem step_of_lacksKey {roots : ρ → Store σ} (hroots : ∀ name, (roots name).Direct)
    (session : Session ρ σ) {handle : Handle ρ} (h : session.handles[n]? = some handle)
    (hlacks : request.lacksKey = true) :
    session.step roots (.onStore n request) = (.error (.failed .emptyKey), session) := by
  have hrefuses := handle.refusesEmpty hroots
  cases request with
  | get key =>
    obtain rfl := List.isEmpty_iff.1 hlacks
    have hcall : ((handle.store roots).get []).run.run session.state =
        (.error .emptyKey, session.state) := by
      rw [hrefuses.get]
      rfl
    exact step_get h hcall
  | has key =>
    obtain rfl := List.isEmpty_iff.1 hlacks
    have hcall : ((handle.store roots).has []).run.run session.state =
        (.error .emptyKey, session.state) := by
      rw [hrefuses.has]
      rfl
    exact step_has h hcall
  | write sync op =>
    have hcall : ((handle.store roots).write sync op).run.run session.state =
        (.error .emptyKey, session.state) := by
      rw [hrefuses.write sync op (List.isEmpty_iff.1 hlacks)]
      rfl
    exact step_write h hcall
  | iterate direction bounds =>
    have hcall : ((handle.store roots).iterator direction bounds).run.run session.state =
        (.error .emptyKey, session.state) := by
      rw [hrefuses.iterator direction bounds hlacks]
      rfl
    exact step_iterate_of_error h hcall
  | _ => cases hlacks

/-! ### Single calls -/

section Calls

variable {engine : Engine σ} {session : Session Unit (σ × List EngineCall)} {handle : Handle Unit}
  {step : Step} {call : EngineCall}

/-- The step makes one call on the engine, which is put down in the record, and reports its failure.
Nothing else changes, except that an iterator may be added. -/
def Makes (engine : Engine σ) (session : Session Unit (σ × List EngineCall)) (step : Step)
    (call : EngineCall) : Prop :=
  ∃ answer iterators, session.step (fun _ => engine.recorded.store) step =
      (answer, { session with
        state := (((engine.make call).run.run session.state.1).2, session.state.2 ++ [call]), iterators }) ∧
    answer.map (fun _ => ()) = ((engine.make call).run.run session.state.1).1.mapError .failed

/-- A step that passes on the answer of a call. -/
theorem makes_of_map {α : Type} {storeCall : StoreM (σ × List EngineCall) α} {f : α → Answer}
    (h : engine.Makes call storeCall)
    (hstep : ∀ {outcome after}, storeCall.run.run session.state = (outcome, after) →
      session.step (fun _ => engine.recorded.store) step =
        ((outcome.mapError .failed).map f, { session with state := after })) :
    session.Makes engine step call := by
  obtain ⟨outcome, hrun, houtcome⟩ := h session.state.1 session.state.2
  refine ⟨_, session.iterators, hstep hrun, ?_⟩
  rw [← houtcome]
  cases outcome <;> rfl

/-- A request to read, write or walk that has a key makes one call, under all stems. -/
theorem step_makes (engine : Engine σ) (h : session.handles[n]? = some handle)
    (hkey : request.lacksKey = false) (hcall : request.engineCall? handle.stem = some call) :
    session.Makes engine (.onStore n request) call := by
  have hne : ∀ {key : Bytes}, key.isEmpty = false → key ≠ [] := by
    rintro _ hempty rfl
    cases hempty
  have hunder : ∀ {key : Bytes}, key ≠ [] → handle.stem ++ key ≠ [] := by
    intro key hkey
    simp [hkey]
  cases request with
  | get key =>
    cases hcall
    have hmakes := engine.makes_get (hunder (hne hkey))
    rw [← handle.get_of_ne_nil (fun _ => engine.recorded.store) (hne hkey)] at hmakes
    exact makes_of_map hmakes fun hrun => step_get h hrun
  | has key =>
    cases hcall
    have hmakes := engine.makes_has (hunder (hne hkey))
    rw [← handle.has_of_ne_nil (fun _ => engine.recorded.store) (hne hkey)] at hmakes
    exact makes_of_map hmakes fun hrun => step_has h hrun
  | write sync op =>
    cases hcall
    have hop : (op.under handle.stem).key ≠ [] := by
      rw [Operation.key_under]
      exact hunder (hne hkey)
    have hmakes := engine.makes_write hop sync
    rw [← handle.write_of_ne_nil (fun _ => engine.recorded.store) (hne hkey)] at hmakes
    exact makes_of_map hmakes fun hrun => step_write h hrun
  | iterate direction bounds =>
    cases hcall
    obtain ⟨shown, hshown⟩ :=
      handle.iterator_of_hasEmpty_eq_false (fun _ => engine.recorded.store) hkey direction
    have hmakes := (engine.makes_iterator (Bounds.hasEmpty_under hkey handle.stem) direction).map shown
    rw [← hshown] at hmakes
    obtain ⟨outcome, hrun, houtcome⟩ := hmakes session.state.1 session.state.2
    cases outcome with
    | ok it => exact ⟨_, _, step_iterate h hrun, by rw [← houtcome]; rfl⟩
    | error error => exact ⟨_, _, step_iterate_of_error h hrun, by rw [← houtcome]; rfl⟩
  | _ => cases hcall

end Calls

/-! ### Runs -/

/-- A run keeps what the engine keeps. -/
theorem run_keeps {engine : Engine σ} {I : σ → Prop} (h : engine.Keeps I) {state : σ} (hs : I state)
    (steps : List Step) : I ((ofRoot () state).run (fun _ => engine.store) steps).2.state :=
  (run_alike steps (fun _ : Unit => h.store_alike) (fun _ _ => h.close)
    (alike_ofRoot () ⟨rfl, hs⟩)).2.state.2

/-- A memory does not come to hold a value for the empty key. -/
theorem run_memory_hasKeys {map : OrderedMap} {contents : Contents} (hmap : map.Holds contents)
    (h : contents.HasKeys) (steps : List Step) :
    ∃ after, ((ofRoot () map).run (fun _ => Memory.store) steps).2.state.Holds after ∧ after.HasKeys := by
  have halike := (run_alike steps
    (fun _ : Unit => Memory.store_alike.comp Contents.store_alike_hasKeys) (fun _ _ => .pure rfl)
    (alike_ofRoot () ⟨contents, hmap, rfl, h⟩)).2
  obtain ⟨after, hafter, rfl, hkeys⟩ := halike.state
  exact ⟨_, hafter, hkeys⟩

/-- **Empty keys never get through.**  Through any stack of views on memories and engines, whatever the
state and whatever the engine does, a request to read, write or walk with an empty key or bound is refused,
and the session stays as it is.  Every other such request is one call on the engine, under all stems.

In every run, an engine receives only calls with keys and bounds that are not empty.  If it stores no key
that it is not asked to write, it therefore never comes to store the empty key, and neither does a
memory. -/
theorem empty_keys_never_get_through :
    (∀ {roots : ρ → Store σ}, (∀ name, (roots name).Direct) → ∀ (session : Session ρ σ) {n handle},
      session.handles[n]? = some handle → ∀ request : StoreRequest, request.lacksKey = true →
        session.step roots (.onStore n request) = (.error (.failed .emptyKey), session)) ∧
    (∀ (engine : Engine σ) (session : Session Unit (σ × List EngineCall)) {n handle},
      session.handles[n]? = some handle → ∀ request : StoreRequest, request.lacksKey = false →
        ∀ call, request.engineCall? handle.stem = some call →
          session.Makes engine (.onStore n request) call) ∧
    (∀ (engine : Engine σ) (state : σ) (steps : List Step),
      ∀ call ∈ ((ofRoot () (state, [])).run (fun _ => engine.recorded.store) steps).2.state.2,
        engine.Accepts call) ∧
    (∀ (engine : Engine σ) (stored : σ → Bytes → Prop), engine.StoresOnlyWritten stored →
      ∀ state, ¬ stored state [] → ∀ steps,
        ¬ stored ((ofRoot () state).run (fun _ => engine.store) steps).2.state []) ∧
    ∀ (map : OrderedMap) (contents : Contents), map.Holds contents → contents.HasKeys → ∀ steps, ∃ after,
      ((ofRoot () map).run (fun _ => Memory.store) steps).2.state.Holds after ∧ after.HasKeys := by
  refine ⟨?_, ?_, ?_, ?_, ?_⟩
  · intro roots hroots session n handle h request hlacks
    exact step_of_lacksKey hroots session h hlacks
  · intro engine session n handle h request hkey call hcall
    exact step_makes engine h hkey hcall
  · intro engine state steps
    exact run_keeps engine.recorded_keeps_accepted (fun _ hcall => (List.not_mem_nil hcall).elim) steps
  · intro engine stored hstored state hs steps
    exact run_keeps hstored.keeps hs steps
  · intro map contents hmap hkeys steps
    exact run_memory_hasKeys hmap hkeys steps

/-- A view of a view on an engine that fails to write one key: empty keys are refused, a batch under the
empty stem is undone when it fails, and a transaction is undone that has a step without a key. -/
theorem empty_keys_never_get_through_scripted :
    let engine := Scripted.engine false
    let faulty : Scripted := { Scripted.empty with faults := [(.put [1, 4], "full")] }
    let views : List Step := [.onStore 0 (.view []), .onStore 1 (.view [1])]
    let steps : List Step := views ++ [.onStore 1 .batch, .onBatch 0 (.push (.set [2] [7])),
      .onBatch 0 (.push (.set [] [8])), .onBatch 0 (.push (.set [1, 4] [9])), .onBatch 0 (.write true),
      .newTransaction, .onTransaction 0 (.append [] (.ofWrite false (.set [3] [7]))),
      .onTransaction 0 (.write false (.set [4] [8])), .onStore 2 (.runTransaction 0)]
    let session := ((ofRoot () (faulty, [])).run (fun _ => engine.recorded.store) views).2
    session.step (fun _ => engine.recorded.store) (.onStore 2 (.iterate .descending ⟨some [], none⟩)) =
        (.error (.failed .emptyKey), session) ∧
      session.Makes engine (.onStore 2 (.write true (.set [4] [8]))) (.write true (.set [1, 4] [8])) ∧
      (∀ call ∈ ((ofRoot () (faulty, [])).run (fun _ => engine.recorded.store) steps).2.state.2,
        engine.Accepts call) ∧
      ((ofRoot () faulty).run (fun _ => engine.store) steps).2.state.contents.get? [] = none ∧
      ∃ after, ((ofRoot () OrderedMap.empty).run (fun _ => Memory.store) steps).2.state.Holds after ∧
        after.HasKeys := by
  intro engine faulty views steps session
  obtain ⟨hrefused, -⟩ := empty_keys_never_get_through (ρ := Unit) (σ := Scripted × List EngineCall)
  obtain ⟨-, hmakes, haccepted, hstored, hmemory⟩ :=
    empty_keys_never_get_through (ρ := Unit) (σ := Scripted)
  have hhandle : session.handles[2]? = some (.view [1] (.view [] (.root ()))) := rfl
  refine ⟨?_, ?_, ?_, ?_, ?_⟩
  · exact hrefused (fun _ => .engine engine.recorded) session hhandle _ rfl
  · exact hmakes engine session hhandle _ rfl _ rfl
  · exact haccepted engine faulty steps
  · have hempty : ¬ faulty.contents.get? [] ≠ none := not_not.2 rfl
    have hreached := hstored engine _ (Scripted.storesOnlyWritten false) faulty hempty steps
    exact not_not.1 hreached
  · exact hmemory .empty .empty OrderedMap.holds_empty rfl steps

end Session

end OrderedStore
