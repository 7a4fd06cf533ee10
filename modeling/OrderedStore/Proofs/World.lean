import Mathlib.Data.List.GetD
import OrderedStore.Proofs.Backend.Sled
import OrderedStore.World

/-!
# Disk stores in a world

A disk store of a world is opened, walked and closed as the database below it; beside that, only what is
reported is written.

* `Part.Restores.run_call` says that a call which keeps a part keeps the whole.
* `World.run_reportAll` says what is written by reports.
* `World.run_openStore_disk`, `World.walks_disk` and `World.run_close_disk` follow a disk store from when it is
  opened to when it is closed.
-/

namespace OrderedStore

/-! ### Parts -/

namespace Part

variable {σ τ α : Type}

/-- Putting back what was read changes nothing. -/
def Restores (part : Part σ τ) : Prop := ∀ state, part.replace (part.read state) state = state

/-- A call on a part leaves the whole with the part that it has left. -/
theorem run_call (part : Part σ τ) (state : σ) {call : StoreM τ α} {outcome : Except StoreError α}
    {after : τ} (hcall : call.run.run (part.read state) = (outcome, after)) :
    (part.call call).run.run state = (outcome, part.replace after state) := by
  show ((call.run.run (part.read state)).1, part.replace (call.run.run (part.read state)).2 state) = _
  rw [hcall]

/-- A call that keeps the part keeps the whole. -/
theorem Restores.run_call {part : Part σ τ} (h : part.Restores) {call : StoreM τ α} {state : σ}
    {outcome : Except StoreError α}
    (hcall : call.run.run (part.read state) = (outcome, part.read state)) :
    (part.call call).run.run state = (outcome, state) := by
  rw [part.run_call state hcall, h]

/-- A store on a part walks what the store walks. -/
theorem Restores.walks {part : Part σ τ} (h : part.Restores) {store : Store τ} {state : σ}
    {contents : Contents} (hwalks : store.Walks (part.read state) contents) :
    (store.focus part).Walks state contents := by
  intro direction bounds hbounds
  obtain ⟨it, hrun, hit⟩ := hwalks direction bounds hbounds
  exact ⟨it, h.run_call hrun, hit⟩

end Part

namespace World

variable {φ : Type} {sled : Sled φ} {meaning : Sled.Meaning φ}

/-! ### Reports -/

/-- The world in which further pieces have been written. -/
def printing (world : World φ) (pieces : List Printed) : World φ :=
  { world with printed := world.printed ++ pieces }

/-- The world in which the disk stores have changed. -/
def withDisks (world : World φ) (disks : φ) : World φ := { world with disks }

theorem printing_printing (world : World φ) (first second : List Printed) :
    (world.printing first).printing second = world.printing (first ++ second) := by
  simp [printing]

theorem run_reportAll (events : List Event) (world : World φ) :
    (reportAll events).run world = ((), world.printing (events.map .event)) := by
  induction events generalizing world with
  | nil =>
    rw [printing, List.map_nil, List.append_nil]
    rfl
  | cons event events ih =>
    have hfirst : (report event).run world = ((), world.printing [.event event]) := rfl
    rw [reportAll, StoreM.run_bind_of_run_eq hfirst, ih, printing_printing]
    rfl

/-- What is left of a world is what the disk stores keep, and what was written. -/
theorem run_onDisks {α : Type} {action : StateM (World φ) α} {disks : φ} {answer : α} {world : World φ}
    (h : action.run (.ofDisks disks) = (answer, world)) :
    (onDisks action).run disks = ((answer, world.printed), world.disks) := by
  have hget : (get : StateM φ φ).run disks = (disks, disks) := rfl
  rw [onDisks, StoreM.run_bind_of_run_eq hget, h]
  rfl

/-! ### Disk stores -/

theorem restores_diskPart : (diskPart : Part (World φ) φ).Restores := fun _ => rfl

/-- The store of a name in a directory is opened at its path. -/
theorem run_openStore_disk (h : sled.Lawful meaning) {world : World φ} {name dir : String}
    (hready : meaning.Ready world.disks (pathOf name dir)) :
    ∃ db after,
      ((Registry.standard sled).openStore ⟨name, .disk, dir⟩).attempt.run world =
        (.ok (.disk db), (world.withDisks after).printing
          [.event (.openingStore name .disk dir), .event (.openingDatabase (pathOf name dir))]) ∧
      meaning.Holds after db (pathOf name dir) (meaning.stored world.disks (pathOf name dir)) ∧
      meaning.stored after = meaning.stored world.disks := by
  obtain ⟨db, after, hrun, hholds, hstored⟩ := h.openAt hready
  refine ⟨db, after, ?_, hholds, hstored⟩
  -- Both reports come before the call of the package.
  have hopen := diskPart.run_call ((world.printing [.event (.openingStore name .disk dir)]).printing
    [.event (.openingDatabase (pathOf name dir))]) (SledEngine.run_ofSled_of_ok hrun)
  refine (StoreM.run_bind_of_ok hopen : (Creator.disk sled name dir).run.run _ = _).trans ?_
  rw [printing_printing]
  rfl

/-- A disk store walks what its database holds. -/
theorem walks_disk (h : sled.Lawful meaning) {world : World φ} {db : Nat} {path : String} {contents : Contents}
    (hs : meaning.Holds world.disks db path contents) : (store sled (.disk db)).Walks world contents :=
  restores_diskPart.walks (SledEngine.walks h hs)

/-- A disk store is closed when its writes are durable. -/
theorem run_close_disk (h : sled.Lawful meaning) {world : World φ} {db : Nat} {path : String}
    {contents : Contents} (hs : meaning.Holds world.disks db path contents) :
    ∃ after,
      (store sled (.disk db)).close.attempt.run world =
        (.ok (), (world.withDisks after).printing [.event (.closingEngine "sled")]) ∧
      meaning.stored after path = contents ∧
      (meaning.stored world.disks path = contents → meaning.stored after = meaning.stored world.disks) := by
  obtain ⟨written, after, hrun, -, hkept, hsame⟩ := h.flush hs
  refine ⟨after, ?_, hkept, hsame⟩
  have hclose : (SledEngine.engine sled db).close.run.run world.disks = (.ok (), after) :=
    StoreM.run_bind_of_ok (SledEngine.run_ofSled_of_ok hrun)
  exact diskPart.run_call (world.printing [.event (.closingEngine "sled")]) hclose

end World

end OrderedStore
