import Mathlib.Data.List.GetD
import OrderedStore.Proofs.Backend.Sled

/-!
# Databases over sorted contents

Databases over sorted contents keep an ordered map at every place, so that all that is said of stores over
sled holds of them.

* `Disks.meaning` is what they keep, `Disks.lawful` that this is what is taken for granted of the package.
-/

namespace OrderedStore

namespace Disks

/-- What databases over sorted contents keep.  A place that is known is one of a database. -/
def meaning : Sled.Meaning Disks where
  stored disks path :=
    match disks.databaseAt? (Path.resolve path) with
    | some db => disks.contents db
    | none => .empty
  Ready disks path := ∀ db ∈ disks.databaseAt? (Path.resolve path), db < disks.databases.length
  Holds disks db path contents :=
    disks.databaseAt? (Path.resolve path) = some db ∧ disks.databases[db]? = some contents

variable {disks : Disks} {db : Nat} {path : String} {contents : Contents}

theorem contents_eq (h : disks.databases[db]? = some contents) : disks.contents db = contents := by
  rw [Disks.contents, List.getD_eq_getElem?_getD, h]
  rfl

theorem stored_of_eq_some (h : disks.databaseAt? (Path.resolve path) = some db) :
    meaning.stored disks path = disks.contents db := by
  show (match disks.databaseAt? (Path.resolve path) with | some db => disks.contents db | none => _) = _
  rw [h]

theorem stored_of_eq_none (h : disks.databaseAt? (Path.resolve path) = none) :
    meaning.stored disks path = .empty := by
  show (match disks.databaseAt? (Path.resolve path) with | some db => disks.contents db | none => _) = _
  rw [h]

theorem stored_eq (h : meaning.Holds disks db path contents) : meaning.stored disks path = contents :=
  (stored_of_eq_some h.1).trans (contents_eq h.2)

/-- The database at a path is opened again. -/
theorem run_openAt_of_eq_some (h : disks.databaseAt? (Path.resolve path) = some db) :
    (openAt path).run.run disks = (.ok db, disks) := by
  rw [openAt, StoreM.run_bind_of_ok (StoreM.run_get disks), h]
  rfl

/-- The databases behind a new one at a path. -/
def withNew (disks : Disks) (path : String) : Disks :=
  ⟨disks.databases ++ [.empty], (Path.resolve path, disks.databases.length) :: disks.places⟩

theorem run_openAt_of_eq_none (h : disks.databaseAt? (Path.resolve path) = none) :
    (openAt path).run.run disks = (.ok disks.databases.length, disks.withNew path) := by
  rw [openAt, StoreM.run_bind_of_ok (StoreM.run_get disks), h]
  rfl

theorem databaseAt?_withNew (place : List Path.Component) :
    (disks.withNew path).databaseAt? place =
      if Path.resolve path = place then some disks.databases.length else disks.databaseAt? place := by
  rw [databaseAt?, withNew, List.find?_cons]
  by_cases hplace : Path.resolve path = place
  · rw [if_pos hplace, decide_eq_true hplace]
    rfl
  · rw [if_neg hplace, decide_eq_false hplace]
    rfl

/-- A new database is empty, as what is read where there is none. -/
theorem contents_withNew (db : Nat) : (disks.withNew path).contents db = disks.contents db := by
  rw [Disks.contents, Disks.contents, List.getD_eq_getElem?_getD, List.getD_eq_getElem?_getD, withNew]
  rcases Nat.lt_trichotomy db disks.databases.length with hlt | rfl | hgt
  · rw [List.getElem?_append_left hlt]
  · rw [List.getElem?_concat_length, List.getElem?_eq_none Nat.le.refl]
    rfl
  · rw [List.getElem?_eq_none (by simp; omega), List.getElem?_eq_none (Nat.le_of_lt hgt)]

theorem stored_withNew (h : disks.databaseAt? (Path.resolve path) = none) :
    meaning.stored (disks.withNew path) = meaning.stored disks := by
  funext other
  have hplaces : (disks.withNew path).databaseAt? (Path.resolve other) = _ :=
    databaseAt?_withNew (Path.resolve other)
  by_cases hplace : Path.resolve path = Path.resolve other
  · rw [if_pos hplace] at hplaces
    rw [stored_of_eq_some hplaces, stored_of_eq_none (hplace ▸ h), contents_withNew]
    exact List.getD_eq_default _ _ Nat.le.refl
  · rw [if_neg hplace] at hplaces
    cases hknown : disks.databaseAt? (Path.resolve other) with
    | none => rw [stored_of_eq_none (hplaces.trans hknown), stored_of_eq_none hknown]
    | some db => rw [stored_of_eq_some (hplaces.trans hknown), stored_of_eq_some hknown, contents_withNew]

/-- A change of a database is made to what it holds. -/
theorem run_change (h : meaning.Holds disks db path contents) (f : Contents → Contents) :
    ∃ after, (change db f).run.run disks = (.ok contents, after) ∧
      meaning.Holds after db path (f contents) := by
  obtain ⟨hplace, hdb⟩ := h
  obtain ⟨hlt, -⟩ := List.getElem?_eq_some_iff.1 hdb
  refine ⟨{ disks with databases := disks.databases.set db (f contents) }, ?_, hplace, ?_⟩
  · show (Except.ok (disks.contents db), _) = _
    rw [contents_eq hdb]
  · exact List.getElem?_set_self hlt

/-- Databases over sorted contents are what is taken for granted of the package. -/
theorem lawful : sled.Lawful meaning where
  openAt := by
    intro disks path hready
    cases hplace : disks.databaseAt? (Path.resolve path) with
    | some db =>
      have hdb : disks.databases[db]? = some (disks.contents db) := by
        rw [Disks.contents, List.getD_eq_getElem _ _ (hready db hplace),
          List.getElem?_eq_getElem (hready db hplace)]
      refine ⟨db, disks, run_openAt_of_eq_some hplace, ⟨hplace, ?_⟩, rfl⟩
      rw [stored_eq ⟨hplace, hdb⟩, hdb]
    | none =>
      refine ⟨_, _, run_openAt_of_eq_none hplace, ⟨?_, ?_⟩, stored_withNew hplace⟩
      · rw [databaseAt?_withNew, if_pos rfl]
      · rw [stored_of_eq_none hplace]
        exact List.getElem?_concat_length
  get := by
    intro disks db path contents h key
    rw [← contents_eq h.2]
    rfl
  insert := by
    intro disks db path contents h key value
    obtain ⟨after, hrun, hafter⟩ := run_change h fun contents => contents.insert ⟨key, value⟩
    exact ⟨after, StoreM.run_bind_of_ok hrun, hafter⟩
  remove := by
    intro disks db path contents h key
    obtain ⟨after, hrun, hafter⟩ := run_change h fun contents => contents.erase key
    exact ⟨after, StoreM.run_bind_of_ok hrun, hafter⟩
  range := by
    intro disks db path contents h lower upper _
    rw [← contents_eq h.2]
    rfl
  applyBatch := by
    intro disks db path contents h ops
    obtain ⟨after, hrun, hafter⟩ := run_change h fun contents => ops.foldl Contents.applyTo contents
    exact ⟨after, StoreM.run_bind_of_ok hrun, hafter⟩
  flush := by
    intro disks db path contents h
    exact ⟨0, disks, rfl, h, stored_eq h, fun _ => rfl⟩
  len := by
    intro disks db path contents h
    rw [← contents_eq h.2]
    rfl

theorem stored_ofContents (path : String) (contents : Contents) :
    meaning.stored (ofContents (Path.resolve path) contents) path = contents := by
  have hplace : (ofContents (Path.resolve path) contents).databaseAt? (Path.resolve path) = some 0 := by
    simp [ofContents, databaseAt?]
  exact stored_of_eq_some hplace

theorem ready_ofContents (path other : String) (contents : Contents) :
    meaning.Ready (ofContents (Path.resolve path) contents) other := by
  intro db hdb
  simp [ofContents, databaseAt?, List.find?_singleton] at hdb
  simp [ofContents, hdb]

end Disks

end OrderedStore
