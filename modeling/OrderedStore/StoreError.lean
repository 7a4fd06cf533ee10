import OrderedStore.Entry

/-!
# Store errors

The causes for which a call on a store, a batch or a transaction fails, and the one place where
they are worded.

* `StoreError.message` is the text of a cause; a cause that contains others ends with their texts.
* `requireKey` and `requireBounds` refuse empty keys and empty bounds.
-/

namespace OrderedStore

/-- The cause of a failed call. -/
inductive StoreError where
  /-- A key, or a bound that is present, has no bytes. -/
  | emptyKey
  /-- The batch has been written or closed before. -/
  | batchClosed
  /-- No backend of this name is known, or none is registered. -/
  | unknownBackend (name : String)
  /-- The transaction has been run before. -/
  | transactionFinished
  /-- The step `index` failed and every earlier step was undone. -/
  | rolledBack (index : Nat) (source : StoreError)
  /-- A step failed with `cause` and undoing an earlier one at `key` failed as well. -/
  | rollbackFailed (key : Bytes) (cause source : StoreError)
  /-- The walk that feeds an iterator was aborted. -/
  | walkAborted
  /-- The storage below reports a failure in its own words. -/
  | backend (text : String)
  deriving DecidableEq, Inhabited

namespace StoreError

/-- The text of an error. -/
def message : StoreError → String
  | emptyKey => "key cannot be empty"
  | batchClosed => "batch has been written or closed"
  | unknownBackend name => "unknown db backend `" ++ name ++ "`"
  | transactionFinished => "transaction has already been committed or rolled back"
  | rolledBack index source =>
    "operation " ++ toString index ++ " failed, transaction rolled back: " ++ source.message
  | rollbackFailed key cause source =>
    "rollback failed to delete key `" ++ String.ofList key.hex ++ "` after `" ++ cause.message ++
      "`: " ++ source.message
  | walkAborted => "iterator producer thread panicked"
  | backend text => "backend failure: " ++ text

end StoreError

/-- Refuses the empty key. -/
def requireKey (key : Bytes) : Except StoreError Unit :=
  if key.isEmpty then .error .emptyKey else .ok ()

/-- Refuses bounds of which one is present but empty. -/
def requireBounds (bounds : Bounds) : Except StoreError Unit :=
  if bounds.hasEmpty then .error .emptyKey else .ok ()

@[simp] theorem requireKey_nil : requireKey [] = .error .emptyKey := rfl

@[simp] theorem requireKey_cons (byte : UInt8) (rest : Bytes) :
    requireKey (byte :: rest) = .ok () := rfl

theorem requireKey_of_ne_nil {key : Bytes} (h : key ≠ []) : requireKey key = .ok () := by
  cases key with
  | nil => exact absurd rfl h
  | cons byte rest => rfl

theorem requireBounds_of_hasEmpty_eq_false {bounds : Bounds} (h : bounds.hasEmpty = false) :
    requireBounds bounds = .ok () := by
  rw [requireBounds, h]
  rfl

theorem requireBounds_of_hasEmpty {bounds : Bounds} (h : bounds.hasEmpty = true) :
    requireBounds bounds = .error .emptyKey := by
  rw [requireBounds, h]
  rfl

@[simp] theorem requireBounds_all : requireBounds .all = .ok () := rfl

end OrderedStore
