import OrderedStore.Proofs.Bytes.Stem
import OrderedStore.Proofs.Simulation.Store
import OrderedStore.Proofs.View.Basic

/-!
# Views of views

A view of a view cannot be told apart from one view under both stems.

* `Entry.strip?_bind` takes off stems one after the other.
* `Iterator.view_view_alike` and `Batch.view_view_alike` compose the iterators and batches of views.
* `Store.view_view_alike` composes views.
-/

namespace OrderedStore

variable {σ : Type}

/-! ### Entries -/

namespace Entry

theorem strip?_eq_some_iff {stem : Bytes} {entry stripped : Entry} :
    entry.strip? stem = some stripped ↔ entry = stripped.under stem := by
  obtain ⟨key, value⟩ := entry
  obtain ⟨key', value'⟩ := stripped
  rw [strip?, under]
  constructor
  · intro h
    split at h
    · rename_i hprefix
      obtain ⟨rest, rfl⟩ := List.isPrefixOf_iff_prefix.1 hprefix
      simp_all
    · cases h
  · rintro ⟨⟩
    simp

theorem strip?_eq_none_iff {stem : Bytes} {entry : Entry} :
    entry.strip? stem = none ↔ ¬ stem <+: entry.key := by
  rw [strip?]
  simp

/-- Stems are taken off one after the other, or at once. -/
theorem strip?_bind (outer inner : Bytes) (entry : Entry) :
    (entry.strip? outer).bind (strip? inner) = entry.strip? (outer ++ inner) := by
  refine Option.ext fun stripped => ?_
  rw [Option.bind_eq_some_iff, strip?_eq_some_iff]
  simp only [strip?_eq_some_iff]
  simp [under]

end Entry

/-! ### Iterators -/

theorem Iterator.view_view_alike (outer inner : Bytes) (bounds between : Bounds) (source : Iterator) :
    Alike (view inner bounds (view outer between source)) (view (outer ++ inner) bounds source) := by
  refine ⟨fun a b => ∃ source, a = view inner bounds (view outer between source) ∧
    b = view (outer ++ inner) bounds source, ⟨?_, ?_, ?_, ?_, ?_⟩, source, rfl, rfl⟩
  · rintro _ _ ⟨source, rfl, rfl⟩
    show (source.entry?.bind (Entry.strip? outer)).bind (Entry.strip? inner) =
      source.entry?.bind (Entry.strip? (outer ++ inner))
    rw [Option.bind_assoc]
    exact congrArg _ (funext fun entry => Entry.strip?_bind outer inner entry)
  · rintro _ _ ⟨source, rfl, rfl⟩
    rfl
  · rintro _ _ ⟨source, rfl, rfl⟩
    rfl
  · rintro _ _ ⟨source, rfl, rfl⟩ -
    exact ⟨source.advance, rfl, rfl⟩
  · rintro _ _ ⟨source, rfl, rfl⟩
    exact ⟨source.close.2, rfl, rfl⟩

/-! ### Batches -/

theorem Operation.under_nil (op : Operation) : op.under [] = op := by
  cases op <;> rfl

theorem Operation.map_under_nil (ops : List Operation) : ops.map (under []) = ops :=
  (List.map_congr_left fun op _ => op.under_nil).trans (List.map_id ops)

theorem Operation.under_under (outer inner : Bytes) (op : Operation) :
    (op.under inner).under outer = op.under (outer ++ inner) := by
  cases op <;> simp [under]

/-- A request is put under both stems if it is put under them at once. -/
theorem BatchRequest.under_bind (outer inner : Bytes) (request : BatchRequest) :
    (request.under inner).bind (under outer) = request.under (outer ++ inner) := by
  cases request with
  | push op =>
    rw [under, under]
    by_cases hkey : op.key = []
    · rw [hkey, requireKey_nil]
      rfl
    · rw [requireKey_of_ne_nil hkey]
      have hinner : (op.under inner).key ≠ [] := by simp [hkey]
      show under outer (push (op.under inner)) = _
      rw [under, requireKey_of_ne_nil hinner]
      simp only [Operation.under_under]
  | write sync => rfl
  | close => rfl

namespace Batch

variable {stem : Bytes} {source : Batch σ} {request : BatchRequest}

theorem send_view_of_error {error : StoreError} (h : request.under stem = .error error) :
    (view stem source).send request = (view stem source, throw error) := by
  rw [send, h]

theorem send_view_of_ok {request' : BatchRequest} (h : request.under stem = .ok request') :
    (view stem source).send request =
      (view stem (source.send request').1, (source.send request').2) := by
  rw [send, h]

theorem view_view_alike (outer inner : Bytes) (source : Batch σ) :
    Alike Eq (view inner (view outer source)) (view (outer ++ inner) source) := by
  refine ⟨fun a b => ∃ source, a = view inner (view outer source) ∧ b = view (outer ++ inner) source,
    ?_, source, rfl, rfl⟩
  rintro _ _ ⟨source, rfl, rfl⟩ request
  have hboth := BatchRequest.under_bind outer inner request
  cases hinner : request.under inner with
  | error error =>
    rw [hinner] at hboth
    rw [send_view_of_error hinner, send_view_of_error hboth.symm]
    exact ⟨⟨source, rfl, rfl⟩, .throw error⟩
  | ok between =>
    rw [hinner] at hboth
    cases houter : between.under outer with
    | error error =>
      rw [send_view_of_ok hinner, send_view_of_error houter,
        send_view_of_error (hboth.symm.trans houter)]
      exact ⟨⟨source, rfl, rfl⟩, .throw error⟩
    | ok request' =>
      rw [send_view_of_ok hinner, send_view_of_ok houter, send_view_of_ok (hboth.symm.trans houter)]
      exact ⟨⟨_, rfl, rfl⟩, .refl (fun _ => rfl) _⟩

end Batch

/-! ### Stores -/

namespace Store

variable (store : Store σ) (outer inner : Bytes)

theorem view_view_get (key : Bytes) :
    ((store.view outer).view inner).get key = (store.view (outer ++ inner)).get key := by
  by_cases hkey : key = []
  · rw [hkey, view_get_nil, view_get_nil]
  · rw [view_get_of_ne_nil _ _ hkey, view_get_of_ne_nil _ _ hkey,
      view_get_of_ne_nil _ _ (by simp [hkey]), List.append_assoc]

theorem view_view_has (key : Bytes) :
    ((store.view outer).view inner).has key = (store.view (outer ++ inner)).has key := by
  by_cases hkey : key = []
  · rw [hkey, view_has_nil, view_has_nil]
  · rw [view_has_of_ne_nil _ _ hkey, view_has_of_ne_nil _ _ hkey,
      view_has_of_ne_nil _ _ (by simp [hkey]), List.append_assoc]

theorem view_view_write (sync : Bool) (op : Operation) :
    ((store.view outer).view inner).write sync op = (store.view (outer ++ inner)).write sync op := by
  by_cases hkey : op.key = []
  · rw [view_write_of_eq_nil _ _ hkey, view_write_of_eq_nil _ _ hkey]
  · rw [view_write_of_ne_nil _ _ hkey, view_write_of_ne_nil _ _ hkey,
      view_write_of_ne_nil _ _ (by simp [hkey]), Operation.under_under]

theorem view_view_iterator_agree (direction : Direction) (bounds : Bounds) :
    CallsAgree Eq Iterator.Alike (((store.view outer).view inner).iterator direction bounds)
      ((store.view (outer ++ inner)).iterator direction bounds) := by
  cases hbounds : bounds.hasEmpty with
  | true =>
    rw [view_iterator_of_hasEmpty _ _ hbounds, view_iterator_of_hasEmpty _ _ hbounds]
    exact .throw _
  | false =>
    rw [view_iterator_of_hasEmpty_eq_false _ _ hbounds, view_iterator_of_hasEmpty_eq_false _ _ hbounds,
      view_iterator_of_hasEmpty_eq_false _ _ (Bounds.hasEmpty_under hbounds inner), Bounds.under_under,
      Functor.map_map]
    refine .map (.refl (fun _ => rfl) _) ?_
    rintro source _ rfl
    exact Iterator.view_view_alike outer inner _ _ source

/-- A view of a view cannot be told apart from one view under both stems. -/
theorem view_view_alike : ((store.view outer).view inner).Alike Eq (store.view (outer ++ inner)) where
  get key := by
    rw [view_view_get]
    exact .refl (fun _ => rfl) _
  has key := by
    rw [view_view_has]
    exact .refl (fun _ => rfl) _
  write sync op := by
    rw [view_view_write]
    exact .refl (fun _ => rfl) _
  iterator := view_view_iterator_agree store outer inner
  newBatch := by
    rintro s _ rfl
    exact ⟨Batch.view_view_alike _ _ _, rfl⟩

end Store

end OrderedStore
