import OrderedStore.Proofs.Pointwise
import OrderedStore.Proofs.Session.Batches
import OrderedStore.Proofs.Simulation.Script

/-!
# Sessions that cannot be told apart

Sessions on alike stores answer every list of steps alike: the answers are equal, except that
statistics may differ, and a refusal has the same cause.

* `Session.AlikeWith` compares the states of sessions, `Answer.Alike` answers.
* `Session.step_alikeWith` compares one step, `Session.run_alikeWith` compares whole runs.
* `Session.run_alike` compares whole runs on stores that are alike.
-/

namespace OrderedStore

variable {ρ σ τ α β : Type} {R : σ → τ → Prop}

/-- The answers are equal, or both are statistics. -/
inductive Answer.Alike : Answer → Answer → Prop where
  | same (answer : Answer) : Alike answer answer
  | stats (a b : Stats) : Alike (.stats a) (.stats b)

theorem Answer.Alike.symm {a b : Answer} (h : a.Alike b) : b.Alike a := by
  cases h with
  | same => exact .same _
  | stats => exact .stats _ _

theorem Answer.Alike.trans {a b c : Answer} (h : a.Alike b) (h' : b.Alike c) : a.Alike c := by
  cases h with
  | same => exact h'
  | stats =>
    cases h' with
    | same => exact .stats _ _
    | stats => exact .stats _ _

theorem answersAlike_trans {as bs cs : List (Except Refusal Answer)}
    (h : List.Forall₂ (SameOutcome Answer.Alike) as bs)
    (h' : List.Forall₂ (SameOutcome Answer.Alike) bs cs) :
    List.Forall₂ (SameOutcome Answer.Alike) as cs :=
  forall₂_comp (fun _ _ _ hab hbc => hab.comp hbc fun _ _ _ => Answer.Alike.trans) h h'

theorem answersAlike_symm {as bs : List (Except Refusal Answer)}
    (h : List.Forall₂ (SameOutcome Answer.Alike) as bs) :
    List.Forall₂ (SameOutcome Answer.Alike) bs as :=
  .flip (h.imp fun _ _ hab => hab.symm fun _ _ => Answer.Alike.symm)

/-- The sessions hold the same handles, related states, iterators and transactions that cannot be told
apart, and related batches. -/
structure Session.AlikeWith (B : Batch σ → Batch τ → Prop) (R : σ → τ → Prop) (a : Session ρ σ)
    (b : Session ρ τ) : Prop where
  state : R a.state b.state
  handles : a.handles = b.handles
  iterators : List.Forall₂ Iterator.Alike a.iterators b.iterators
  batches : List.Forall₂ B a.batches b.batches
  transactions : List.Forall₂ Transaction.AlwaysAlike a.transactions b.transactions

/-- The sessions hold batches that cannot be told apart either. -/
abbrev Session.Alike (R : σ → τ → Prop) (a : Session ρ σ) (b : Session ρ τ) : Prop :=
  a.AlikeWith (Batch.Alike R) R b

/-- Handles stand for alike stores if their roots do. -/
theorem Handle.store_alike {roots : ρ → Store σ} {roots' : ρ → Store τ}
    (hroots : ∀ name, (roots name).Alike R (roots' name)) (handle : Handle ρ) :
    (handle.store roots).Alike R (handle.store roots') := by
  induction handle with
  | root name => exact hroots name
  | view stem source ih => exact ih.view stem

/-- Handles make related batches if their roots do and views keep batches related. -/
theorem Handle.newBatch_agree {B : Batch σ → Batch τ → Prop} {roots : ρ → Store σ}
    {roots' : ρ → Store τ}
    (hroots : ∀ name, Agree R B (roots name).newBatch (roots' name).newBatch)
    (hview : ∀ stem a b, B a b → B (.view stem a) (.view stem b)) (handle : Handle ρ) :
    Agree R B (handle.store roots).newBatch (handle.store roots').newBatch := by
  induction handle with
  | root name => exact hroots name
  | view stem source ih => exact .bind ih fun _ _ hbatch => .pure (hview stem _ _ hbatch)

/-- Closing a view closes nothing. -/
theorem Handle.close_agree {roots : ρ → Store σ} {roots' : ρ → Store τ}
    (hclose : ∀ name, CallsAgree R Eq (roots name).close (roots' name).close) (handle : Handle ρ) :
    CallsAgree R Eq (handle.store roots).close (handle.store roots').close := by
  cases handle with
  | root name => exact hclose name
  | view stem source => exact .pure rfl

namespace Session

variable {B : Batch σ → Batch τ → Prop}

theorem alikeWith_ofRoot (root : ρ) {s : σ} {t : τ} (h : R s t) :
    AlikeWith B R (ofRoot root s) (ofRoot root t) :=
  ⟨h, rfl, .nil, .nil, .nil⟩

theorem alike_ofRoot (root : ρ) {s : σ} {t : τ} (h : R s t) :
    Alike R (ofRoot root s) (ofRoot root t) :=
  alikeWith_ofRoot root h

/-! ### Parts of sessions -/

theorem lookup_agree {P : α → β → Prop} {as : List α} {bs : List β} (h : List.Forall₂ P as bs)
    (number : Nat) :
    CallsAgree (AlikeWith B R) P (lookup as number : SessionM ρ σ α)
      (lookup bs number : SessionM ρ τ β) := by
  rw [lookup, lookup]
  obtain ⟨ha, hb⟩ | ⟨a, b, ha, hb, hab⟩ := forall₂_getElem? h number
  · rw [ha, hb]
    exact .throw _
  · rw [ha, hb]
    exact .pure hab

theorem onState_agree {Q : α → β → Prop} {action : StateM σ α} {action' : StateM τ β}
    (h : Agree R Q action action') :
    CallsAgree (AlikeWith B R) Q (onState action : SessionM ρ σ α)
      (onState action' : SessionM ρ τ β) := by
  intro a b hab
  obtain ⟨hanswer, hstate⟩ := h a.state b.state hab.state
  exact ⟨.ok hanswer, { hab with state := hstate }⟩

theorem call_agree {Q : α → β → Prop} {storeCall : StoreM σ α} {storeCall' : StoreM τ β}
    (h : CallsAgree R Q storeCall storeCall') :
    CallsAgree (AlikeWith B R) Q (call storeCall : SessionM ρ σ α)
      (call storeCall' : SessionM ρ τ β) := by
  rw [call, call]
  refine .bind (onState_agree h) ?_
  intro outcome outcome' houtcome
  cases houtcome with
  | ok hanswer => exact .pure hanswer
  | error error => exact .throw _

theorem addHandle_agree (handle : Handle ρ) :
    CallsAgree (AlikeWith B R) Answer.Alike (addHandle handle : SessionM ρ σ Answer)
      (addHandle handle : SessionM ρ τ Answer) := by
  refine .modifyGet fun a b hab => ⟨?_, { hab with handles := ?_ }⟩
  · rw [hab.handles]
    exact .same _
  · show a.handles ++ [handle] = b.handles ++ [handle]
    rw [hab.handles]

theorem addIterator_agree {it it' : Iterator} (hit : it.Alike it') :
    CallsAgree (AlikeWith B R) Answer.Alike (addIterator it : SessionM ρ σ Answer)
      (addIterator it' : SessionM ρ τ Answer) := by
  refine .modifyGet fun a b hab =>
    ⟨?_, { hab with iterators := List.rel_append hab.iterators (.cons hit .nil) }⟩
  rw [hab.iterators.length_eq]
  exact .same _

theorem addBatch_agree {batch : Batch σ} {batch' : Batch τ} (hbatch : B batch batch') :
    CallsAgree (AlikeWith B R) Answer.Alike (addBatch batch : SessionM ρ σ Answer)
      (addBatch batch' : SessionM ρ τ Answer) := by
  refine .modifyGet fun a b hab =>
    ⟨?_, { hab with batches := List.rel_append hab.batches (.cons hbatch .nil) }⟩
  rw [hab.batches.length_eq]
  exact .same _

theorem addTransaction_agree {tx : Transaction (Store σ) σ} {tx' : Transaction (Store τ) τ}
    (htx : tx.AlwaysAlike tx') :
    CallsAgree (AlikeWith B R) Answer.Alike (addTransaction tx : SessionM ρ σ Answer)
      (addTransaction tx' : SessionM ρ τ Answer) := by
  refine .modifyGet fun a b hab =>
    ⟨?_, { hab with transactions := List.rel_append hab.transactions (.cons htx .nil) }⟩
  rw [hab.transactions.length_eq]
  exact .same _

theorem setIterator_agree (number : Nat) {it it' : Iterator} (hit : it.Alike it') :
    CallsAgree (AlikeWith B R) Eq (setIterator number it : SessionM ρ σ Unit)
      (setIterator number it' : SessionM ρ τ Unit) :=
  .modify fun _ _ hab => { hab with iterators := forall₂_set hab.iterators number hit }

theorem setTransaction_agree (number : Nat) {tx : Transaction (Store σ) σ}
    {tx' : Transaction (Store τ) τ} (htx : tx.AlwaysAlike tx') :
    CallsAgree (AlikeWith B R) Eq (setTransaction number tx : SessionM ρ σ Unit)
      (setTransaction number tx' : SessionM ρ τ Unit) :=
  .modify fun _ _ hab => { hab with transactions := forall₂_set hab.transactions number htx }

/-! ### Requests -/

theorem answer_pure (answer : Answer) :
    CallsAgree (AlikeWith B R) Answer.Alike (pure answer : SessionM ρ σ Answer)
      (pure answer : SessionM ρ τ Answer) :=
  .pure (.same answer)

theorem onIterator_agree (number : Nat) (request : IteratorRequest) :
    CallsAgree (AlikeWith B R) Answer.Alike (onIterator number request : SessionM ρ σ Answer)
      (onIterator number request : SessionM ρ τ Answer) := by
  rw [onIterator, onIterator]
  refine .bind .get ?_
  intro a b hab
  refine .bind (lookup_agree hab.iterators number) ?_
  intro it it' hit
  have hentry := Iterator.Alike.isBisimulation.entry? hit
  cases request with
  | valid =>
    rw [hit.valid_eq]
    exact answer_pure _
  | next =>
    obtain ⟨ha, hb⟩ | ⟨ha, hb, hafter⟩ := hit.next?
    · rw [ha, hb]
      exact .throw _
    · rw [ha, hb]
      refine .bind (setIterator_agree number hafter) ?_
      intro _ _ _
      rw [hafter.valid_eq]
      exact answer_pure _
  | key =>
    rw [Iterator.key?, Iterator.key?, hentry]
    cases it'.entry? with
    | none => exact .throw _
    | some entry => exact answer_pure _
  | value =>
    rw [Iterator.value?, Iterator.value?, hentry]
    cases it'.entry? with
    | none => exact .throw _
    | some entry => exact answer_pure _
  | entry =>
    rw [hentry]
    exact answer_pure _
  | bounds =>
    rw [Iterator.Alike.isBisimulation.bounds hit]
    exact answer_pure _
  | error =>
    rw [Iterator.Alike.isBisimulation.error? hit]
    exact answer_pure _
  | drain count =>
    have hdrain : (it.drain (count.getD it.remaining)).1 = (it'.drain (count.getD it'.remaining)).1 ∧
        (it.drain (count.getD it.remaining)).2.Alike (it'.drain (count.getD it'.remaining)).2 := by
      cases count with
      | none => exact hit.drainAll
      | some count => exact hit.drain count
    refine .bind (setIterator_agree number hdrain.2) ?_
    intro _ _ _
    rw [hdrain.1]
    exact answer_pure _
  | close =>
    dsimp only
    rw [it.fst_close, it'.fst_close]
    exact .bind (setIterator_agree number (Iterator.Alike.isBisimulation.close hit)) fun _ _ _ =>
      .bind (call_agree (.pure rfl)) fun _ _ _ => answer_pure _

theorem onTransaction_agree (number : Nat) (request : TransactionRequest) :
    CallsAgree (AlikeWith B R) Answer.Alike (onTransaction number request : SessionM ρ σ Answer)
      (onTransaction number request : SessionM ρ τ Answer) := by
  rw [onTransaction, onTransaction]
  refine .bind .get ?_
  intro a b hab
  refine .bind (lookup_agree hab.transactions number) ?_
  intro tx tx' htx
  cases request with
  | write sync op =>
    refine .bind (setTransaction_agree number fun R => (htx R).append ⟨rfl, fun h => h.write sync op⟩) ?_
    exact fun _ _ _ => answer_pure _
  | append key script =>
    refine .bind (setTransaction_agree number fun R =>
      (htx R).append ⟨rfl, fun h => script.run_agree h⟩) ?_
    exact fun _ _ _ => answer_pure _
  | progress =>
    rw [Transaction.isEmpty, Transaction.isEmpty, htx.size_eq, htx.state_eq]
    exact answer_pure _

theorem runTransaction_agree {store : Store σ} {store' : Store τ} (h : store.ServesAlike R store')
    (number : Nat) :
    CallsAgree (AlikeWith B R) Answer.Alike (runTransaction store number : SessionM ρ σ Answer)
      (runTransaction store' number : SessionM ρ τ Answer) := by
  rw [runTransaction, runTransaction]
  refine .bind .get ?_
  intro a b hab
  refine .bind (lookup_agree hab.transactions number) ?_
  intro tx tx' htx
  refine .bind (onState_agree (htx.runTransaction h)) ?_
  rintro ⟨outcome, tx⟩ ⟨_, tx'⟩ ⟨rfl, htx⟩
  refine .bind (setTransaction_agree number htx) ?_
  intro _ _ _
  exact .bind (call_agree (.ofExcept outcome)) fun _ _ _ => answer_pure _

variable {roots : ρ → Store σ} {roots' : ρ → Store τ}

theorem onStore_agree
    (hstores : ∀ handle : Handle ρ, (handle.store roots).AlikeWith B R (handle.store roots'))
    (number : Nat) (request : StoreRequest)
    (hclose : request = .close → ∀ name, CallsAgree R Eq (roots name).close (roots' name).close) :
    CallsAgree (AlikeWith B R) Answer.Alike (onStore roots number request)
      (onStore roots' number request) := by
  rw [onStore, onStore]
  refine .bind .get ?_
  intro a b hab
  -- Both sessions hold the same handles, so the same one is found.
  rw [hab.handles]
  refine .bind (lookup_agree (List.forall₂_eq_eq_eq ▸ rfl) number) ?_
  rintro handle _ rfl
  have hstore := hstores handle
  cases request with
  | get key =>
    refine .bind (call_agree (hstore.get key)) ?_
    rintro value _ rfl
    exact answer_pure _
  | has key =>
    refine .bind (call_agree (hstore.has key)) ?_
    rintro value _ rfl
    exact answer_pure _
  | write sync op => exact .bind (call_agree (hstore.write sync op)) fun _ _ _ => answer_pure _
  | writeAll sync ops =>
    exact .bind (call_agree (hstore.writeAll sync ops)) fun _ _ _ => answer_pure _
  | iterate direction bounds =>
    exact .bind (call_agree (hstore.iterator direction bounds)) fun _ _ hit => addIterator_agree hit
  | iterateStem stem =>
    exact .bind (call_agree (hstore.iterator .ascending (.ofStem stem))) fun _ _ hit =>
      addIterator_agree hit
  | batch => exact .bind (onState_agree hstore.newBatch) fun _ _ hbatch => addBatch_agree hbatch
  | runTransaction transaction => exact runTransaction_agree hstore.servesAlike transaction
  | dump limit =>
    refine .bind (onState_agree (hstore.dump (.ofLimit limit))) ?_
    rintro ⟨outcome, sink⟩ _ rfl
    cases outcome with
    | ok _ => exact answer_pure _
    | error error => exact answer_pure _
  | stats =>
    -- The only answers that need not be equal.
    exact .bind .get fun _ _ _ => .pure (.stats _ _)
  | close =>
    exact .bind (call_agree (handle.close_agree (hclose rfl))) fun _ _ _ => answer_pure _
  | clone => exact addHandle_agree handle
  | view stem => exact addHandle_agree (.view stem handle)
  | stem =>
    cases handle with
    | root name => exact .throw _
    | view stem source => exact answer_pure _
  | source =>
    cases handle with
    | root name => exact .throw _
    | view stem source => exact addHandle_agree source
  | release => exact answer_pure _

/-! ### Requests to batches -/

/-- A request is answered by related batches, or by none. -/
theorem step_onBatch_cases (roots : ρ → Store σ) (roots' : ρ → Store τ) {a : Session ρ σ}
    {b : Session ρ τ} (hab : a.AlikeWith B R b) (number : Nat) :
    ((∀ request, a.step roots (.onBatch number request) = (.error .unknown, a)) ∧
      ∀ request, b.step roots' (.onBatch number request) = (.error .unknown, b)) ∨
    ∃ x y, a.batches[number]? = some x ∧ b.batches[number]? = some y ∧ B x y := by
  obtain ⟨ha, hb⟩ | hboth := forall₂_getElem? hab.batches number
  · exact .inl ⟨step_onBatch_of_eq_none ha, step_onBatch_of_eq_none hb⟩
  · exact .inr hboth

/-- What is asked of the calls of batches holds of what they are answered with. -/
theorem step_onBatch_agree (roots : ρ → Store σ) (roots' : ρ → Store τ) {a : Session ρ σ}
    {b : Session ρ τ} (hab : a.AlikeWith B R b) {number : Nat} {x : Batch σ} {y : Batch τ}
    (hx : a.batches[number]? = some x) (hy : b.batches[number]? = some y)
    (request : BatchRequest) (hafter : B (x.send request).1 (y.send request).1)
    {Q : Except StoreError Unit → Except StoreError Unit → Prop}
    (hcall : Agree R Q (x.send request).2.run (y.send request).2.run) :
    ∃ outcome outcome', Q outcome outcome' ∧
      (a.step roots (.onBatch number request)).1 = (outcome.mapError .failed).map (fun _ => .done) ∧
      (b.step roots' (.onBatch number request)).1 = (outcome'.mapError .failed).map (fun _ => .done) ∧
      (a.step roots (.onBatch number request)).2.AlikeWith B R
        (b.step roots' (.onBatch number request)).2 := by
  rw [step_onBatch hx, step_onBatch hy]
  obtain ⟨houtcome, hstate⟩ := hcall a.state b.state hab.state
  exact ⟨_, _, houtcome, rfl, rfl,
    { hab with state := hstate, batches := forall₂_set hab.batches number hafter }⟩

/-! ### Runs -/

/-- Sessions that are alike answer a step alike and stay alike, if the batches do that are asked. -/
theorem step_alikeWith
    (hstores : ∀ handle : Handle ρ, (handle.store roots).AlikeWith B R (handle.store roots')) (step : Step)
    (hclose : (∃ number, step = .onStore number .close) →
      ∀ name, CallsAgree R Eq (roots name).close (roots' name).close) {a : Session ρ σ}
    {b : Session ρ τ} (hab : a.AlikeWith B R b)
    (hbatch : ∀ number request, step = .onBatch number request → ∀ x y, a.batches[number]? = some x →
      b.batches[number]? = some y → B x y → B (x.send request).1 (y.send request).1 ∧
        CallsAgree R Eq (x.send request).2 (y.send request).2) :
    SameOutcome Answer.Alike (a.step roots step).1 (b.step roots' step).1 ∧
      (a.step roots step).2.AlikeWith B R (b.step roots' step).2 := by
  cases step with
  | onStore number request =>
    exact onStore_agree hstores number request (fun h => hclose ⟨number, by rw [h]⟩) a b hab
  | onIterator number request => exact onIterator_agree number request a b hab
  | onBatch number request =>
    obtain ⟨ha, hb⟩ | ⟨x, y, hx, hy, hxy⟩ := step_onBatch_cases roots roots' hab number
    · rw [ha, hb]
      exact ⟨.error _, hab⟩
    · obtain ⟨hafter, hcall⟩ := hbatch number request rfl x y hx hy hxy
      obtain ⟨outcome, outcome', houtcome, ha, hb, halike⟩ :=
        step_onBatch_agree roots roots' hab hx hy request hafter hcall
      rw [ha, hb, sameOutcome_eq_iff.1 houtcome]
      refine ⟨?_, halike⟩
      cases outcome' with
      | ok _ => exact .ok (.same _)
      | error error => exact .error _
  | newTransaction => exact addTransaction_agree Transaction.alwaysAlike_empty a b hab
  | onTransaction number request => exact onTransaction_agree number request a b hab

/-- Sessions that are alike answer all steps alike and stay alike. -/
theorem run_alikeWith (steps : List Step)
    (hstores : ∀ handle : Handle ρ, (handle.store roots).AlikeWith B R (handle.store roots'))
    (hclose : (∃ number, .onStore number .close ∈ steps) →
      ∀ name, CallsAgree R Eq (roots name).close (roots' name).close)
    (hbatches : ∀ x y, B x y → ∀ request, B (x.send request).1 (y.send request).1 ∧
      CallsAgree R Eq (x.send request).2 (y.send request).2) {a : Session ρ σ} {b : Session ρ τ}
    (hab : a.AlikeWith B R b) :
    List.Forall₂ (SameOutcome Answer.Alike) (a.run roots steps).1 (b.run roots' steps).1 ∧
      (a.run roots steps).2.AlikeWith B R (b.run roots' steps).2 := by
  induction steps generalizing a b with
  | nil => exact ⟨.nil, hab⟩
  | cons step steps ih =>
    have hfirst : (∃ number, step = .onStore number .close) →
        ∀ name, CallsAgree R Eq (roots name).close (roots' name).close := by
      rintro ⟨number, rfl⟩
      exact hclose ⟨number, List.mem_cons_self⟩
    obtain ⟨hanswer, hafter⟩ := step_alikeWith hstores step hfirst hab
      fun _ request _ x y _ _ hxy => hbatches x y hxy request
    have hrest : (∃ number, .onStore number .close ∈ steps) →
        ∀ name, CallsAgree R Eq (roots name).close (roots' name).close := by
      rintro ⟨number, h⟩
      exact hclose ⟨number, List.mem_cons_of_mem _ h⟩
    obtain ⟨hanswers, hend⟩ := ih hrest hafter
    exact ⟨.cons hanswer hanswers, hend⟩

/-- Sessions on alike stores answer a step alike and stay alike. -/
theorem step_alike (step : Step) (hroots : ∀ name, (roots name).Alike R (roots' name))
    (hclose : (∃ number, step = .onStore number .close) →
      ∀ name, CallsAgree R Eq (roots name).close (roots' name).close) {a : Session ρ σ}
    {b : Session ρ τ} (hab : a.Alike R b) :
    SameOutcome Answer.Alike (a.step roots step).1 (b.step roots' step).1 ∧
      (a.step roots step).2.Alike R (b.step roots' step).2 := by
  refine step_alikeWith (fun handle => ?_) step hclose hab fun _ request _ x y _ _ hxy =>
    Batch.Alike.isBisimulation x y hxy request
  have hstore := handle.store_alike hroots
  exact hstore.alikeWith hstore.newBatch

/-- Sessions on alike stores answer all steps alike and stay alike. -/
theorem run_alike (steps : List Step) (hroots : ∀ name, (roots name).Alike R (roots' name))
    (hclose : (∃ number, .onStore number .close ∈ steps) →
      ∀ name, CallsAgree R Eq (roots name).close (roots' name).close) {a : Session ρ σ}
    {b : Session ρ τ} (hab : a.Alike R b) :
    List.Forall₂ (SameOutcome Answer.Alike) (a.run roots steps).1 (b.run roots' steps).1 ∧
      (a.run roots steps).2.Alike R (b.run roots' steps).2 := by
  refine run_alikeWith steps (fun handle => ?_) hclose Batch.Alike.isBisimulation hab
  have hstore := handle.store_alike hroots
  exact hstore.alikeWith hstore.newBatch

end Session

end OrderedStore
