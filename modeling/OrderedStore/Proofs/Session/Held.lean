import OrderedStore.Proofs.Session.Applied
import OrderedStore.Proofs.Session.Views
import OrderedStore.Proofs.View.Ranges
import OrderedStore.Script

/-!
# Iterators and batches that are held while calls are made

A script walks a range by one call and writes a batch by one call.  It loses nothing by that.  An iterator
shows what one scan answers at the time when it is made, whatever is called before it has been read, and the
operations of a batch take effect when it is written, whatever is called before.

* `Iterator.SameWalk.alike` says that an iterator is known by its walk.
* `Store.Assembled.iterator_bind` puts a scan in the place of an iterator, whatever is done with it;
  `Store.read_between` is the case in which a call is made between two reads.
* `Handle.push_between` makes a call first that is made between two pushes.
-/

namespace OrderedStore

open StoreM

/-! ### Iterators -/

namespace Iterator

/-- The iterators have the same bounds, and their walks the same entries and the same end. -/
structure SameWalk (a b : Iterator) : Prop where
  left : a.Sound
  right : b.Sound
  bounds : a.bounds = b.bounds
  entries : a.drainAll.1 = b.drainAll.1
  ending : a.drainAll.2.error? = b.drainAll.2.error?

namespace SameWalk

variable {a b : Iterator}

theorem entry?_eq (h : SameWalk a b) : a.entry? = b.entry? := by
  rw [a.entry?_eq_getElem?_drainAll, b.entry?_eq_getElem?_drainAll, h.entries]

/-- A valid iterator has no error, and the one of an invalid iterator is that of its walk. -/
theorem error?_eq (h : SameWalk a b) : a.error? = b.error? := by
  have hentry := h.entry?_eq
  cases ha : a.entry? with
  | some entry =>
    rw [h.left.error?_eq_none (valid_of_entry?_eq_some ha),
      h.right.error?_eq_none (valid_of_entry?_eq_some (hentry.symm.trans ha))]
  | none =>
    have hending := h.ending
    rwa [drainAll_of_entry?_eq_none ha, drainAll_of_entry?_eq_none (hentry.symm.trans ha)] at hending

theorem advance (h : SameWalk a b) (hvalid : a.valid = true) : SameWalk a.advance b.advance := by
  obtain ⟨entry, ha⟩ := Option.isSome_iff_exists.1 hvalid
  have hb : b.entry? = some entry := h.entry?_eq.symm.trans ha
  have hentries := h.entries
  have hending := h.ending
  rw [drainAll_eq_of_entry?_eq_some ha, drainAll_eq_of_entry?_eq_some hb] at hentries hending
  exact {
    left := h.left.advance hvalid
    right := h.right.advance (valid_of_entry?_eq_some hb)
    bounds := by rw [bounds_advance, bounds_advance, h.bounds]
    entries := List.tail_eq_of_cons_eq hentries
    ending := hending }

theorem close (h : SameWalk a b) : SameWalk a.close.2 b.close.2 where
  left := h.left.close
  right := h.right.close
  bounds := by rw [bounds_close, bounds_close, h.bounds]
  entries := by
    rw [drainAll_of_entry?_eq_none a.entry?_close, drainAll_of_entry?_eq_none b.entry?_close]
  ending := by
    rw [drainAll_of_entry?_eq_none a.entry?_close, drainAll_of_entry?_eq_none b.entry?_close, error?_close,
      error?_close, h.error?_eq]

end SameWalk

/-- Iterators with the same bounds whose walks are the same cannot be told apart. -/
theorem SameWalk.alike {a b : Iterator} (h : SameWalk a b) : a.Alike b :=
  ⟨SameWalk, ⟨SameWalk.entry?_eq, SameWalk.bounds, SameWalk.error?_eq, SameWalk.advance, SameWalk.close⟩, h⟩

/-- The iterator with the given bounds over the entries of a walk, which ends with the given error. -/
def replay (bounds : Bounds) (entries : List Entry) (failure : Option StoreError) : Iterator :=
  view [] bounds (ofWalk entries failure)

/-- The walk of a sound iterator, under its bounds, cannot be told from the iterator. -/
theorem Sound.alike_replay {it : Iterator} (h : it.Sound) :
    it.Alike (replay it.bounds it.drainAll.1 it.drainAll.2.error?) := by
  obtain ⟨hentries, hending⟩ := drainAll_ofWalk it.drainAll.1 it.drainAll.2.error?
  have hall : ∀ entry ∈ (ofWalk it.drainAll.1 it.drainAll.2.error?).drainAll.1, [] <+: entry.key :=
    fun entry _ => entry.key.nil_prefix
  have hwalk := drain_view_of_forall hall it.bounds (ofWalk it.drainAll.1 it.drainAll.2.error?).remaining
  have hsame : SameWalk it (replay it.bounds it.drainAll.1 it.drainAll.2.error?) := {
    left := h
    right := sound_draw .all _
    bounds := rfl
    entries := (hwalk.1.trans hentries).symm.trans (List.map_id' _)
    ending := (congrArg error? hwalk.2).trans hending |>.symm }
  exact hsame.alike

end Iterator

namespace Store

variable {σ α : Type} {store : Store σ}

/-- **A scan stands for an iterator.**  Whatever is done with an iterator, with whatever calls in between, can
be done with what a scan answers at the time when the iterator is made. -/
theorem Assembled.iterator_bind (h : store.Assembled) (direction : Direction) (bounds : Bounds)
    {next : Iterator → StoreM σ α} (hnext : ∀ {a b : Iterator}, a.Alike b → next a = next b) :
    store.iterator direction bounds >>= next = (do
      let (entries, failure) ← store.scan direction bounds
      next (.replay bounds entries failure)) := by
  refine funext fun state => ?_
  show (store.iterator direction bounds >>= next).run.run state = StateT.run (ExceptT.run _) state
  rw [scan, bind_assoc]
  rcases hrun : (store.iterator direction bounds).run.run state with ⟨error | it, after⟩
  · rw [run_bind_of_error hrun, run_bind_of_error hrun]
  · obtain ⟨hsound, rfl⟩ := h.iterator hrun
    rw [run_bind_of_ok hrun, run_bind_of_ok hrun, pure_bind, hnext hsound.alike_replay]

/-- Entries that are read behind a call are those that a scan before the call has answered. -/
theorem read_between (store : Store σ) (direction : Direction) (bounds : Bounds) (count : Nat)
    (call : List Entry → StoreM σ α) :
    (do
      let it ← store.iterator direction bounds
      let answer ← call (it.drain count).1
      let (entries, last) := (it.drain count).2.drainAll
      return (answer, entries, last.error?)) = (do
      let (entries, failure) ← store.scan direction bounds
      let answer ← call (entries.take count)
      return (answer, entries.drop count, failure)) := by
  rw [scan, bind_assoc]
  refine bind_congr fun it => ?_
  have hlast : (it.drain count).2.drainAll.2 = it.drainAll.2 := (Prod.ext_iff.1 (it.drainAll_drain count)).2
  rw [pure_bind]
  dsimp only
  rw [Iterator.fst_drain, Iterator.drainAll_snd_drain, hlast]

end Store

/-! ### Batches -/

namespace Batch

variable {σ : Type} {apply : Bool → List Operation → StoreM σ Unit} {ops : List Operation} {stem : Bytes}
  {batch : Batch σ}

/-- Operations that are pushed in two parts are pushed one after the other. -/
theorem pushAll_append (batch : Batch σ) (first second : List Operation) :
    batch.pushAll (first ++ second) = batch.pushAll first >>= fun batch => batch.pushAll second := by
  induction first generalizing batch with
  | nil => rfl
  | cons op first ih =>
    rw [List.cons_append, pushAll, pushAll, bind_assoc]
    exact bind_congr fun _ => ih _

/-- Operations with keys wait behind the others; nothing is called. -/
theorem Waits.pushAll (h : Waits apply ops stem batch) {more : List Operation}
    (hkeys : ∀ op ∈ more, op.key ≠ []) :
    ∃ after, batch.pushAll more = pure after ∧
      Waits apply (ops ++ more.map (Operation.under stem)) stem after := by
  induction more generalizing ops batch with
  | nil => exact ⟨batch, rfl, by rwa [List.map_nil, List.append_nil]⟩
  | cons op more ih =>
    obtain ⟨hkey, hkeys⟩ := List.forall_mem_cons.1 hkeys
    obtain ⟨next, hsend, hnext⟩ := h.send_push hkey
    obtain ⟨after, hpush, hafter⟩ := ih hnext hkeys
    refine ⟨after, ?_, ?_⟩
    · rw [Batch.pushAll, hsend]
      exact hpush
    · rwa [List.append_assoc] at hafter

end Batch

/-- **A batch that is written at once stands for one that is held.**  Operations that are pushed before a call
wait, so that they may as well be pushed behind it. -/
theorem Handle.push_between {ρ σ α : Type} (roots : ρ → Store σ)
    {apply : Bool → List Operation → StoreM σ Unit} (handle : Handle ρ)
    (h : (roots handle.base).newBatch = pure (.queued apply .empty)) {first : List Operation}
    (hkeys : ∀ op ∈ first, op.key ≠ []) (call : StoreM σ α) (second : α → List Operation)
    (sync : Bool) :
    (do
      let batch ← (← .ofState (handle.store roots).newBatch).pushAll first
      let answer ← call
      let batch ← batch.pushAll (second answer)
      (batch.send (.write sync)).2) = (do
      let answer ← call
      (handle.store roots).writeBatch sync (first ++ second answer)) := by
  obtain ⟨batch, hnew, hwaits⟩ := handle.newBatch_waits roots h
  obtain ⟨after, hpush, -⟩ := hwaits.pushAll hkeys
  have hnew' : (StoreM.ofState (handle.store roots).newBatch : StoreM σ (Batch σ)) = pure batch := by
    rw [hnew]
    rfl
  have hwrite : ∀ answer, (handle.store roots).writeBatch sync (first ++ second answer) =
      after.pushAll (second answer) >>= fun batch => (batch.send (.write sync)).2 := fun answer => by
    rw [Store.writeBatch, hnew', pure_bind, Batch.pushAll_append, hpush, pure_bind]
  rw [hnew', pure_bind, hpush, pure_bind]
  exact bind_congr fun answer => (hwrite answer).symm

end OrderedStore
