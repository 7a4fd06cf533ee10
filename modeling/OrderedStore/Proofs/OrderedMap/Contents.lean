import OrderedStore.Contents
import OrderedStore.Proofs.OrderedMap.WellFormed

/-!
# The contents of ordered maps

A well-formed map stands for sorted contents: the list of its entries.  Searching, inserting and
removing are what they are on the list, whatever the shape of the tree.
-/

namespace OrderedStore.OrderedMap

/-- The map is well formed and has the entries of the contents. -/
structure Holds (map : OrderedMap) (contents : Contents) : Prop where
  wellFormed : map.WellFormed
  toList_eq : map.toList = contents.entries

variable {map : OrderedMap} {contents : Contents}

theorem holds_empty : empty.Holds .empty := ⟨wellFormed_empty, rfl⟩

theorem Holds.get?_eq (hc : map.Holds contents) (key : Bytes) :
    map.get? key = contents.get? key := by
  rw [get?, Tree.get?_eq_find? hc.wellFormed.ordered]
  show (map.toList.find? _).map _ = _
  rw [hc.toList_eq]
  rfl

theorem Holds.size_eq (hc : map.Holds contents) : map.size = contents.size := by
  rw [hc.wellFormed.size_eq, ← Tree.length_toList]
  exact congrArg List.length hc.toList_eq

theorem Holds.insert (hc : map.Holds contents) (entry : Entry) :
    (map.insert entry).1.Holds (contents.insert entry) := by
  refine ⟨hc.wellFormed.insert entry, ?_⟩
  rw [toList, root_insert, Tree.toList_insert hc.wellFormed.ordered, Contents.entries_insert,
    ← hc.toList_eq]
  rfl

theorem Holds.remove (hc : map.Holds contents) (key : Bytes) :
    (map.remove key).1.Holds (contents.erase key) := by
  refine ⟨hc.wellFormed.remove key, ?_⟩
  rw [toList, root_remove, Tree.toList_remove hc.wellFormed.ordered, Contents.entries_erase,
    ← hc.toList_eq]
  rfl

end OrderedStore.OrderedMap
