import OrderedStore.Proofs.Backend.Engine
import OrderedStore.Proofs.Calls
import OrderedStore.Proofs.View.Basic

/-!
# Deletions that remove their key

What a successful deletion does to a store: its key is no longer present, and all other keys are as
they were.

* `Store.Present` is presence as the store itself tells it.
* `Store.ErasesExactly` is what is asked of deletions; `Store.ErasesExactly.attemptAll` is the same for
  a list of deletions.
* `Memory.store_erasesExactly`, `Engine.ActsAs.store_erasesExactly` and `Store.ErasesExactly.view` are
  the stores that meet it.
-/

namespace OrderedStore

variable {σ τ : Type} {R : σ → τ → Prop} {Sound : σ → Prop}

namespace Store

/-- Deletes a key, without waiting until that is durable. -/
def erase (store : Store σ) (key : Bytes) : StoreM σ Unit := store.write false (.delete key)

/-- A key is present if the store says so. -/
def Present (store : Store σ) (state : σ) (key : Bytes) : Prop :=
  ∃ after, (store.has key).run.run state = (.ok true, after)

/-- In a sound state, a deletion that succeeds removes its key and no other, and leaves a sound
state. -/
def ErasesExactly (store : Store σ) (Sound : σ → Prop) : Prop :=
  ∀ state key after, Sound state →
    (store.erase key).run.run state = (.ok (), after) →
      Sound after ∧ ∀ other, store.Present after other ↔ other ≠ key ∧ store.Present state other

/-! ### Many deletions -/

/-- Deletions that all succeed remove their keys and no others. -/
theorem ErasesExactly.attemptAll {store : Store σ} (h : store.ErasesExactly Sound) {state : σ}
    (hstate : Sound state) (keys : List Bytes) :
    let deletions := (StoreM.attemptAll store.erase keys).run state
    (∀ deletion ∈ deletions.1, deletion.2 = .ok ()) →
      Sound deletions.2 ∧
        ∀ other, store.Present deletions.2 other ↔ other ∉ keys ∧ store.Present state other := by
  induction keys generalizing state with
  | nil => exact fun _ => ⟨hstate, fun other => by simp⟩
  | cons key keys ih =>
    rcases herase : (store.erase key).run.run state with ⟨outcome, between⟩
    rw [StoreM.run_attemptAll_cons _ herase]
    intro deletions hall
    obtain ⟨rfl, hrest⟩ := List.forall_mem_cons.1 hall
    obtain ⟨hbetween, hpresent⟩ := h state key between hstate herase
    obtain ⟨hafter, hpresent'⟩ := ih hbetween hrest
    refine ⟨hafter, fun other => (hpresent' other).trans ?_⟩
    rw [hpresent, List.mem_cons, not_or]
    tauto

/-! ### Stores that delete exactly -/

theorem Alike.erase {a : Store σ} {b : Store τ} (h : a.Alike R b) (key : Bytes) :
    CallsAgree R Eq (a.erase key) (b.erase key) :=
  h.write false (.delete key)

theorem Alike.present_iff {a : Store σ} {b : Store τ} (h : a.Alike R b) {s : σ} {t : τ} (hR : R s t)
    (key : Bytes) : a.Present s key ↔ b.Present t key := by
  obtain ⟨hanswer, -⟩ := h.has key s t hR
  have heq := sameOutcome_eq_iff.1 hanswer
  constructor
  · rintro ⟨after, hrun⟩
    exact ⟨_, Prod.ext (heq.symm.trans (congrArg Prod.fst hrun)) rfl⟩
  · rintro ⟨after, hrun⟩
    exact ⟨_, Prod.ext (heq.trans (congrArg Prod.fst hrun)) rfl⟩

/-- What cannot be told apart from a store that always deletes exactly does so as well. -/
theorem Alike.erasesExactly {a : Store σ} {b : Store τ} (h : a.Alike R b)
    (hb : b.ErasesExactly fun _ => True) : a.ErasesExactly fun s => ∃ t, R s t := by
  rintro s key s' ⟨t, hR⟩ hrun
  obtain ⟨hanswer, hR'⟩ := h.erase key s t hR
  have heq := sameOutcome_eq_iff.1 hanswer
  rw [hrun] at heq hR'
  obtain ⟨-, hpresent⟩ := hb t key _ trivial (Prod.ext heq.symm rfl)
  refine ⟨⟨_, hR'⟩, fun other => ?_⟩
  rw [h.present_iff hR', h.present_iff hR, hpresent]

/-! ### Views -/

/-- Through a view, the keys are present that are present under its stem; the empty key is not. -/
theorem present_view_iff (store : Store σ) (stem : Bytes) (state : σ) (key : Bytes) :
    (store.view stem).Present state key ↔ key ≠ [] ∧ store.Present state (stem ++ key) := by
  by_cases hkey : key = []
  · subst hkey
    simp only [ne_eq, not_true_eq_false, false_and, iff_false]
    rintro ⟨after, hrun⟩
    cases hrun
  · simp only [Present, view_has_of_ne_nil store stem hkey, ne_eq, hkey, not_false_eq_true, true_and]

/-- A view deletes exactly if its source does. -/
theorem ErasesExactly.view {store : Store σ} (h : store.ErasesExactly Sound) (stem : Bytes) :
    (store.view stem).ErasesExactly Sound := by
  intro state key after hstate hrun
  by_cases hkey : key = []
  · subst hkey
    cases hrun
  · have hsource : (store.erase (stem ++ key)).run.run state = (.ok (), after) := by
      change (StoreM.ofExcept (requireKey key) >>= _).run.run state = _ at hrun
      rwa [requireKey_of_ne_nil hkey] at hrun
    obtain ⟨hafter, hpresent⟩ := h state (stem ++ key) after hstate hsource
    refine ⟨hafter, fun other => ?_⟩
    rw [present_view_iff, present_view_iff, hpresent, (List.append_right_injective stem).ne_iff]
    tauto

end Store

/-! ### Sorted contents -/

namespace Contents

theorem present_store_iff (contents : Contents) (key : Bytes) :
    store.Present contents key ↔ key ≠ [] ∧ (contents.get? key).isSome = true := by
  by_cases hkey : key = []
  · subst hkey
    simp only [ne_eq, not_true_eq_false, false_and, iff_false]
    rintro ⟨after, hrun⟩
    cases hrun
  · have hrun : (store.has key).run.run contents = (.ok (contents.get? key).isSome, contents) := by
      show (StoreM.ofExcept (requireKey key) >>= _).run.run contents = _
      rw [requireKey_of_ne_nil hkey]
      rfl
    constructor
    · rintro ⟨after, hpresent⟩
      rw [hrun] at hpresent
      exact ⟨hkey, Except.ok.inj (congrArg Prod.fst hpresent)⟩
    · rintro ⟨-, hsome⟩
      exact ⟨contents, by rw [hrun, hsome]⟩

/-- Sorted contents delete exactly. -/
theorem store_erasesExactly : store.ErasesExactly fun _ => True := by
  intro contents key after _ hrun
  refine ⟨trivial, fun other => ?_⟩
  by_cases hkey : key = []
  · subst hkey
    cases hrun
  · have hafter : contents.erase key = after := by
      change (StoreM.ofExcept (requireKey key) >>= _).run.run contents = _ at hrun
      rw [requireKey_of_ne_nil hkey] at hrun
      exact congrArg Prod.snd hrun
    rw [present_store_iff, present_store_iff, ← hafter, get?_erase]
    by_cases hother : other = key
    · simp [hother]
    · simp [hother]

end Contents

/-- Stores in memory delete exactly. -/
theorem Memory.store_erasesExactly :
    Memory.store.ErasesExactly fun map => ∃ contents, map.Holds contents :=
  Memory.store_alike.erasesExactly Contents.store_erasesExactly

/-- Stores over engines that act as sorted maps delete exactly. -/
theorem Engine.ActsAs.store_erasesExactly {engine : Engine σ} {holds : σ → Contents → Prop}
    (h : engine.ActsAs holds) :
    engine.store.ErasesExactly fun state => ∃ contents, holds state contents :=
  h.store_alike.erasesExactly Contents.store_erasesExactly

end OrderedStore
