import OrderedStore.Proofs.Session.Progress

/-!
# Cursors that yield anything

An engine may hand out any items: entries in any order, more than once or outside the bounds, and errors at
any place.  The iterator shows the entries before the first item that is not an entry within the bounds.  It
then ends, with the error if that item is one, and never looks at the items behind.

* `Item.isWithin` tells the entries within the bounds from all other items.
* `Iterator.drainAll_draw` says what a cursor shows and how it ends.
* `Session.cursor_yields_leading` says what it yields and reports in a session.
-/

namespace OrderedStore

/-- The item is an entry within the bounds. -/
def Item.isWithin (bounds : Bounds) : Item → Bool
  | .ok entry => bounds.contains entry.key
  | .error _ => false

namespace Iterator

/-- A cursor shows the entries before the first item that is not an entry within the bounds, and ends with
the error that this item is, if it is one. -/
theorem drainAll_draw (bounds : Bounds) (items : List Item) :
    (draw bounds none items).drainAll.1.map .ok = items.takeWhile (Item.isWithin bounds) ∧
      ∀ error, (draw bounds none items).drainAll.2.error? = some error ↔
        (items.dropWhile (Item.isWithin bounds)).head? = some (.error error) := by
  induction items with
  | nil =>
    rw [drainAll_of_entry?_eq_none rfl]
    exact ⟨rfl, fun error => by simp [draw, error?]⟩
  | cons item items ih =>
    cases item with
    | error failure =>
      have hout : ¬ Item.isWithin bounds (.error failure) = true := Bool.false_ne_true
      rw [drainAll_of_entry?_eq_none rfl, List.takeWhile_cons_of_neg hout,
        List.dropWhile_cons_of_neg hout]
      exact ⟨rfl, fun error => by simp [draw, error?]⟩
    | ok entry =>
      by_cases hin : bounds.contains entry.key = true
      · have hwithin : Item.isWithin bounds (.ok entry) = true := hin
        have hdraw : draw bounds none (.ok entry :: items) = cursor bounds (some entry) items none :=
          if_pos hin
        rw [hdraw, drainAll_eq_of_entry?_eq_some rfl, List.map_cons, List.takeWhile_cons_of_pos hwithin,
          List.dropWhile_cons_of_pos hwithin]
        exact ⟨congrArg _ ih.1, ih.2⟩
      · have hout : ¬ Item.isWithin bounds (.ok entry) = true := hin
        have hdraw : draw bounds none (.ok entry :: items) = cursor bounds none [] none := if_neg hin
        rw [hdraw, drainAll_of_entry?_eq_none rfl, List.takeWhile_cons_of_neg hout,
          List.dropWhile_cons_of_neg hout]
        exact ⟨rfl, fun error => by simp [error?]⟩

end Iterator

namespace Session

variable {ρ σ : Type} {session : Session ρ σ} {number : Nat}

/-- **What a cursor yields.**  A session holds the iterator over any items that an engine has handed out for
any bounds, and takes any steps.  What the iterator has yielded comes first among the entries before the first
item that is not an entry within the bounds.  As long as it is valid it stands on the next of these entries;
unless it is closed, it is invalid only when it has yielded them all, and then it is invalid for ever.  From
then on it has the error that the item behind them is, if it is one, and before that it has none. -/
theorem cursor_yields_leading (roots : ρ → Store σ) {bounds : Bounds} {items : List Item}
    (h : session.iterators[number]? = some (.ofItems bounds items)) :
    ∃ entries : List Entry, entries.map .ok = items.takeWhile (Item.isWithin bounds) ∧
      ∀ steps : List Step,
        let yielded := session.yielded roots number steps
        let reached := (session.run roots steps).2
        yielded <+: entries ∧ ∃ valid error, reached.Stands roots number bounds valid error ∧
          (valid = true → (reached.step roots (.onIterator number .entry)).1 =
            .ok (.entry entries[yielded.length]?)) ∧
          (.onIterator number .close ∉ steps → valid = false → yielded = entries) ∧
          (yielded = entries → valid = false) ∧
          ∀ failure, error = some failure ↔ yielded = entries ∧
            (items.dropWhile (Item.isWithin bounds)).head? = some (.error failure) := by
  obtain ⟨hentries, hending⟩ := Iterator.drainAll_draw bounds items
  refine ⟨_, hentries, fun steps => ?_⟩
  have hsound : (Iterator.ofItems bounds items).Sound := Iterator.sound_draw bounds items
  obtain ⟨later, hlater, hbehind, hopen⟩ := behind_run roots h hsound steps
  obtain ⟨reached, hreached, hsound', hcontinues⟩ := continues_run roots h hsound steps
  cases hlater.symm.trans hreached
  have hstands := stands_of_sound roots hlater hsound'
  rw [hcontinues.bounds_eq, Iterator.ofItems, Iterator.bounds_draw] at hstands
  refine ⟨hbehind.first, later.valid, later.error?, hstands, fun hvalid => ?_, hopen, hbehind.ended,
    fun failure => ?_⟩
  · rw [step_onIterator hlater]
    exact congrArg (Except.ok ∘ Answer.entry) (hbehind.entry hvalid)
  · rw [hbehind.error, ← hending]
    rfl

/-- The items of an engine out of order, with an error before the last of them; the error is reported when
the entries before it have been yielded, and still when the iterator has been closed. -/
theorem cursor_yields_leading_torn :
    let roots := fun _ : Unit => (Scripted.engine false).store
    let bounds : Bounds := ⟨some [2], some [5]⟩
    let items : List Item :=
      [.ok ⟨[3], [7]⟩, .ok ⟨[2], [8]⟩, .error (.backend "torn"), .ok ⟨[4], [9]⟩]
    let torn : Scripted := { Scripted.empty with items := some items }
    let session := ((ofRoot () torn).step roots (.onStore 0 (.iterate .ascending bounds))).2
    let steps : List Step := [.onIterator 0 .next, .onStore 0 (.write false (.set [4] [1])),
      .onIterator 0 .next, .onIterator 0 .close]
    session.iterators[0]? = some (.ofItems bounds items) ∧
      session.yielded roots 0 steps = [⟨[3], [7]⟩, ⟨[2], [8]⟩] ∧
      (session.run roots steps).2.Stands roots 0 bounds false (some (.backend "torn")) := by
  intro roots bounds items torn session steps
  have hit : session.iterators[0]? = some (.ofItems bounds items) := rfl
  obtain ⟨entries, hentries, hsteps⟩ := cursor_yields_leading roots hit
  have hall : entries = [⟨[3], [7]⟩, ⟨[2], [8]⟩] :=
    List.map_injective_iff.2 (fun _ _ => Except.ok.inj) (hentries.trans rfl)
  have hyielded : session.yielded roots 0 steps = [⟨[3], [7]⟩, ⟨[2], [8]⟩] := by decide +kernel
  obtain ⟨-, valid, error, hstands, -, -, hended, herror⟩ := hsteps steps
  have hvalid : valid = false := hended (hyielded.trans hall.symm)
  have htorn : error = some (.backend "torn") := (herror _).2 ⟨hyielded.trans hall.symm, rfl⟩
  rw [hvalid, htorn] at hstands
  exact ⟨hit, hyielded, hstands⟩

end Session

end OrderedStore
