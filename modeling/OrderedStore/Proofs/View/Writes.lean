import OrderedStore.Proofs.Contents
import OrderedStore.Proofs.View.Batches
import OrderedStore.Proofs.View.Contents

/-!
# Contents written through a view

What is written through a view is written to what the view shows.  A view of sorted contents therefore
is the view of what it shows under the empty stem, which only refuses empty keys and bounds.

* `Contents.stripped_applyTo_under` says what a write under the stem does to what is shown.
* `Contents.view_alike_stripped` compares a view of contents with what it shows.
-/

namespace OrderedStore

/-- The empty stem leaves a request as it is, if it has a key. -/
theorem BatchRequest.under_nil {request : BatchRequest} (h : ∀ op, request = .push op → op.key ≠ []) :
    request.under [] = .ok request := by
  cases request with
  | push op => rw [under, requireKey_of_ne_nil (h op rfl), Operation.under_nil]
  | write sync => rfl
  | close => rfl

namespace Contents

variable {contents : Contents} {stem : Bytes}

/-! ### What is shown after writes -/

theorem stripped_nil (contents : Contents) : contents.stripped [] = contents :=
  eq_of_get?_eq fun key => get?_stripped contents [] key

theorem stripped_stripped (contents : Contents) (outer inner : Bytes) :
    (contents.stripped outer).stripped inner = contents.stripped (outer ++ inner) :=
  eq_of_get?_eq fun key => by rw [get?_stripped, get?_stripped, get?_stripped, List.append_assoc]

/-- A write under the stem is a write of what is shown. -/
theorem stripped_applyTo_under (contents : Contents) (stem : Bytes) (op : Operation) :
    (contents.applyTo (op.under stem)).stripped stem = (contents.stripped stem).applyTo op := by
  refine eq_of_get?_eq fun key => ?_
  rw [get?_stripped]
  cases op with
  | set written value =>
    show (contents.insert ⟨stem ++ written, value⟩).get? _ =
      ((contents.stripped stem).insert ⟨written, value⟩).get? key
    rw [get?_insert, get?_insert, get?_stripped]
    simp only [List.append_cancel_left_eq]
  | delete erased =>
    show (contents.erase (stem ++ erased)).get? _ = ((contents.stripped stem).erase erased).get? key
    rw [get?_erase, get?_erase, get?_stripped]
    simp only [List.append_cancel_left_eq]

theorem stripped_foldl_applyTo_under (contents : Contents) (stem : Bytes) (ops : List Operation) :
    ((ops.map (Operation.under stem)).foldl applyTo contents).stripped stem =
      ops.foldl applyTo (contents.stripped stem) := by
  induction ops generalizing contents with
  | nil => rfl
  | cons op ops ih => rw [List.map_cons, List.foldl_cons, List.foldl_cons, ih, stripped_applyTo_under]

/-! ### A view of contents -/

/-- The second contents are what a view of the first ones shows. -/
def Shows (stem : Bytes) (contents shown : Contents) : Prop := contents.stripped stem = shown

theorem view_get_agree (stem key : Bytes) :
    CallsAgree (Shows stem) Eq ((store.view stem).get key) ((store.view []).get key) := by
  by_cases hkey : key = []
  · rw [hkey]
    exact .throw _
  · rintro contents _ rfl
    rw [view_get _ _ hkey, view_get _ _ hkey, stripped_nil]
    exact ⟨.ok rfl, rfl⟩

theorem view_has_agree (stem key : Bytes) :
    CallsAgree (Shows stem) Eq ((store.view stem).has key) ((store.view []).has key) := by
  by_cases hkey : key = []
  · rw [hkey]
    exact .throw _
  · rintro contents _ rfl
    rw [view_has _ _ hkey, view_has _ _ hkey, stripped_nil]
    exact ⟨.ok rfl, rfl⟩

theorem view_write_agree (stem : Bytes) (sync : Bool) (op : Operation) :
    CallsAgree (Shows stem) Eq ((store.view stem).write sync op) ((store.view []).write sync op) := by
  by_cases hkey : op.key = []
  · rw [Store.view_write_of_eq_nil _ _ hkey, Store.view_write_of_eq_nil _ _ hkey]
    exact .throw _
  · rintro contents _ rfl
    rw [view_write _ _ hkey, view_write _ _ hkey, Operation.under_nil]
    exact ⟨.ok rfl, stripped_applyTo_under contents stem op⟩

theorem view_iterator_agree (stem : Bytes) (direction : Direction) (bounds : Bounds) :
    CallsAgree (Shows stem) Iterator.Alike ((store.view stem).iterator direction bounds)
      ((store.view []).iterator direction bounds) := by
  cases hbounds : bounds.hasEmpty with
  | true =>
    rw [Store.view_iterator_of_hasEmpty _ _ hbounds, Store.view_iterator_of_hasEmpty _ _ hbounds]
    exact .throw _
  | false =>
    rintro contents _ rfl
    obtain ⟨it, hrun, hit⟩ := contents.view_iterator stem direction hbounds
    obtain ⟨it', hrun', hit'⟩ := (contents.stripped stem).view_iterator [] direction hbounds
    rw [stripped_nil] at hit'
    rw [hrun, hrun']
    exact ⟨.ok (hit.trans hit'.symm), rfl⟩

/-- Applying operations under the stem applies them to what is shown. -/
theorem applyAll_under_agree (stem : Bytes) (ops : List Operation) :
    CallsAgree (Shows stem) Eq (applyAll (ops.map (Operation.under stem)))
      (applyAll (ops.map (Operation.under []))) := by
  rw [Operation.map_under_nil]
  refine .modify ?_
  rintro contents _ rfl
  exact stripped_foldl_applyTo_under contents stem ops

/-- A view of contents cannot be told apart from the view of what it shows under the empty stem. -/
theorem view_alike_stripped (stem : Bytes) :
    (store.view stem).Alike (Shows stem) (store.view []) where
  get := view_get_agree stem
  has := view_has_agree stem
  write := view_write_agree stem
  iterator := view_iterator_agree stem
  newBatch := .pure (Batch.viewQueued_alike (fun _ => applyAll_under_agree stem) (some []))

end Contents

end OrderedStore
