import OrderedStore.Proofs.Tree.Order
import OrderedStore.Tree.Walk

/-!
# Walks show ranges

A walk through an ordered tree shows exactly the entries of its range, one after the other and in
order, as a walk along the list of entries does.  The subtrees that the walk leaves out hold no
entry of the range.

* `Tree.visitAll` walks along a list until the visitor asks to stop.
* `Tree.ascend_eq`, `Tree.discard_ascend` and `Tree.descend_eq` say which list a walk through a tree
  shows.
-/

namespace OrderedStore.Tree

variable {m : Type → Type} [Monad m]

/-- Shows the entries of a list until the visitor asks to stop. -/
def visitAll (visit : Entry → m Bool) : List Entry → m Bool
  | [] => pure true
  | entry :: entries => andThen (visit entry) (visitAll visit entries)

/-! ### Actions that may stop -/

section Lawful

variable [LawfulMonad m] {first second third : m Bool}

@[simp] theorem andThen_pure_true_left : andThen (pure true) second = second := by
  simp [andThen]

@[simp] theorem andThen_pure_false_left : andThen (pure false) second = pure false := by
  simp [andThen]

@[simp] theorem andThen_pure_true_right : andThen first (pure true) = first := by
  have h : (fun goesOn : Bool => (if goesOn then pure true else pure false : m Bool)) = pure := by
    funext goesOn
    cases goesOn <;> rfl
  rw [andThen, h, bind_pure]

@[simp] theorem andThen_pure_pure (a b : Bool) :
    andThen (pure a : m Bool) (pure b) = pure (a && b) := by
  cases a <;> simp

theorem andThen_assoc :
    andThen (andThen first second) third = andThen first (andThen second third) := by
  simp only [andThen, bind_assoc]
  congr 1
  funext goesOn
  cases goesOn <;> simp

theorem visitAll_append (visit : Entry → m Bool) (a b : List Entry) :
    visitAll visit (a ++ b) = andThen (visitAll visit a) (visitAll visit b) := by
  induction a with
  | nil => simp [visitAll]
  | cons entry a ih => rw [List.cons_append, visitAll, visitAll, ih, andThen_assoc]

theorem discard_eq_bind {α : Type} (action : m α) :
    discard action = action >>= fun _ => pure PUnit.unit := by
  rw [bind_pure_comp]
  show Functor.mapConst PUnit.unit action = _
  rw [LawfulFunctor.map_const]
  rfl

/-- Once it is dropped, it does not matter what a walk answers about its end. -/
theorem discard_andThen_pure (goesOn : Bool) :
    discard (andThen first (pure goesOn)) = discard first := by
  rw [discard_eq_bind, discard_eq_bind, andThen, bind_assoc]
  apply bind_congr
  intro b
  cases b <;> simp

end Lawful

theorem run_visitAll_nil {σ : Type} (visit : Entry → StateM σ Bool) (s : σ) :
    (visitAll visit []).run s = (true, s) := rfl

/-- A visitor with a state, at the first entry of a list. -/
theorem run_visitAll_cons {σ : Type} (visit : Entry → StateM σ Bool) (entry : Entry)
    (entries : List Entry) (s : σ) :
    (visitAll visit (entry :: entries)).run s =
      if ((visit entry).run s).1 then (visitAll visit entries).run ((visit entry).run s).2
      else (false, ((visit entry).run s).2) := by
  rw [visitAll, andThen, StateT.run_bind]
  show (match (visit entry).run s with
    | (goesOn, s') =>
      (if goesOn then visitAll visit entries else pure false : StateM σ Bool).run s') = _
  rcases (visit entry).run s with ⟨goesOn, s'⟩
  cases goesOn <;> rfl

/-! ### Ascending -/

theorem lowerAdmits_of_lt {bounds : Bounds} {a b : Bytes} (h : a < b)
    (ha : bounds.lowerAdmits a = true) : bounds.lowerAdmits b = true := by
  obtain ⟨lower, upper⟩ := bounds
  cases lower with
  | none => rfl
  | some lower =>
    simp only [Bounds.lowerAdmits, Option.all_some, decide_eq_true_eq] at ha ⊢
    exact List.le_trans ha (List.le_of_lt h)

theorem upperAdmits_of_lt {bounds : Bounds} {a b : Bytes} (h : a < b)
    (hb : bounds.upperAdmits b = true) : bounds.upperAdmits a = true := by
  obtain ⟨lower, upper⟩ := bounds
  cases upper with
  | none => rfl
  | some upper =>
    simp only [Bounds.upperAdmits, Option.all_some, decide_eq_true_eq] at hb ⊢
    exact List.lt_trans h hb

theorem filter_contains_of_lowerAdmits {bounds : Bounds} {entries : List Entry}
    (h : ∀ e ∈ entries, ¬ bounds.lowerAdmits e.key = true) :
    entries.filter (fun e => bounds.contains e.key) = [] :=
  List.filter_eq_nil_iff.2 fun e he => by simp [Bounds.contains, h e he]

theorem filter_contains_of_upperAdmits {bounds : Bounds} {entries : List Entry}
    (h : ∀ e ∈ entries, ¬ bounds.upperAdmits e.key = true) :
    entries.filter (fun e => bounds.contains e.key) = [] :=
  List.filter_eq_nil_iff.2 fun e he => by simp [Bounds.contains, h e he]

theorem ascend_node (bounds : Bounds) (visit : Entry → m Bool) (entry : Entry) (h : Nat)
    (left right : Tree) :
    (node entry h left right).ascend bounds visit =
      andThen (onlyIf (bounds.lowerAdmits entry.key) (left.ascend bounds visit))
        (andThen (pure (bounds.upperAdmits entry.key))
          (andThen (onlyIf (bounds.lowerAdmits entry.key) (visit entry))
            (right.ascend bounds visit))) := rfl

variable [LawfulMonad m]

/-- An ascending walk shows the entries of the range, and goes to its end unless the visitor stops
it or a key reaches the upper bound. -/
theorem ascend_eq (bounds : Bounds) (visit : Entry → m Bool) {tree : Tree} (ho : tree.Ordered) :
    tree.ascend bounds visit =
      andThen (visitAll visit (tree.toList.filter fun e => bounds.contains e.key))
        (pure (tree.toList.all fun e => bounds.upperAdmits e.key)) := by
  induction tree with
  | leaf => simp [ascend, visitAll]
  | node entry h left right ihl ihr =>
    obtain ⟨hbelow, habove, hleft, hright⟩ := ho
    rw [ascend_node, ihl hleft, ihr hright, toList_node, List.filter_append, visitAll_append,
      List.all_append, List.all_cons]
    -- The tests of the node decide which of its subtrees can hold entries of the range.
    by_cases hlow : bounds.lowerAdmits entry.key = true
    · rw [onlyIf, onlyIf, if_pos hlow, if_pos hlow]
      by_cases hup : bounds.upperAdmits entry.key = true
      · have hall : left.toList.all (fun e => bounds.upperAdmits e.key) = true :=
          List.all_eq_true.2 fun e he => upperAdmits_of_lt (hbelow e he) hup
        rw [List.filter_cons_of_pos (by simp [Bounds.contains, hlow, hup]), hall, hup, visitAll]
        simp [andThen_assoc]
      · have hrest : ∀ e ∈ right.toList, ¬ bounds.upperAdmits e.key = true := fun e he he' =>
          hup (upperAdmits_of_lt (habove e he) he')
        rw [List.filter_cons_of_neg (by simp [Bounds.contains, hup]),
          filter_contains_of_upperAdmits hrest, andThen_assoc]
        simp [hup, visitAll]
    · have hfirst : ∀ e ∈ left.toList, ¬ bounds.lowerAdmits e.key = true := fun e he he' =>
        hlow (lowerAdmits_of_lt (hbelow e he) he')
      rw [filter_contains_of_lowerAdmits hfirst, onlyIf, onlyIf, if_neg hlow, if_neg hlow,
        List.filter_cons_of_neg (by simp [Bounds.contains, hlow])]
      by_cases hup : bounds.upperAdmits entry.key = true
      · have hall : left.toList.all (fun e => bounds.upperAdmits e.key) = true :=
          List.all_eq_true.2 fun e he => upperAdmits_of_lt (hbelow e he) hup
        simp [hall, hup, visitAll]
      · have hrest : ∀ e ∈ right.toList, ¬ bounds.upperAdmits e.key = true := fun e he he' =>
          hup (upperAdmits_of_lt (habove e he) he')
        rw [filter_contains_of_upperAdmits hrest]
        simp [hup, visitAll]

theorem discard_ascend (bounds : Bounds) (visit : Entry → m Bool) {tree : Tree}
    (ho : tree.Ordered) :
    discard (tree.ascend bounds visit) =
      discard (visitAll visit (tree.toList.filter fun e => bounds.contains e.key)) := by
  rw [ascend_eq bounds visit ho, discard_andThen_pure]

/-! ### Descending -/

omit [LawfulMonad m] in
theorem descend_node (highest : Option Bytes) (visit : Entry → m Bool) (entry : Entry) (h : Nat)
    (left right : Tree) :
    (node entry h left right).descend highest visit =
      andThen
        (onlyIf (upTo highest entry.key) (andThen (right.descend highest visit) (visit entry)))
        (left.descend highest visit) := rfl

theorem upTo_of_lt {highest : Option Bytes} {a b : Bytes} (h : a < b)
    (hb : upTo highest b = true) : upTo highest a = true := by
  cases highest with
  | none => rfl
  | some highest =>
    simp only [upTo, Option.all_some, decide_eq_true_eq] at hb ⊢
    exact List.le_trans (List.le_of_lt h) hb

/-- A descending walk shows the entries up to the highest key, the last one first. -/
theorem descend_eq (highest : Option Bytes) (visit : Entry → m Bool) {tree : Tree}
    (ho : tree.Ordered) :
    tree.descend highest visit =
      visitAll visit (tree.toList.filter fun e => upTo highest e.key).reverse := by
  induction tree with
  | leaf => rfl
  | node entry h left right ihl ihr =>
    obtain ⟨-, habove, hleft, hright⟩ := ho
    rw [descend_node, ihl hleft, ihr hright, toList_node, List.filter_append, List.reverse_append,
      visitAll_append]
    congr 1
    by_cases hup : upTo highest entry.key = true
    · rw [onlyIf, if_pos hup, List.filter_cons_of_pos (by exact hup), List.reverse_cons,
        visitAll_append]
      simp [visitAll]
    · have hrest : ∀ e ∈ right.toList, ¬ upTo highest e.key = true := fun e he he' =>
        hup (upTo_of_lt (habove e he) he')
      rw [onlyIf, if_neg hup, List.filter_cons_of_neg (by exact hup), List.filter_eq_nil_iff.2 hrest]
      rfl

end OrderedStore.Tree
