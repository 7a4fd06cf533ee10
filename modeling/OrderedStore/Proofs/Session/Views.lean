import OrderedStore.Proofs.Session.Cursors
import OrderedStore.Proofs.View.Leading

/-!
# What a view yields

The iterator of a view yields the leading run of its source: the entries before the first key without the
stem, whether or not its source goes on behind it, and whatever the source does with bounds.

* `Iterator.exists_sound_drainAll` says that a source can go on with any entries and end with any error.
* `Session.view_yields_leading` says what a view yields and reports in a session.
-/

namespace OrderedStore

namespace Iterator

/-- The cursor over the entries of a walk, which ends with the given error. -/
def ofWalk (entries : List Entry) (failure : Option StoreError) : Iterator :=
  draw .all none (entries.map .ok ++ failure.toList.map .error)

theorem drainAll_ofWalk (entries : List Entry) (failure : Option StoreError) :
    (ofWalk entries failure).drainAll.1 = entries ∧ (ofWalk entries failure).drainAll.2.error? = failure := by
  let items : List Item := entries.map .ok ++ failure.toList.map .error
  have hwithin : ∀ item ∈ entries.map Except.ok, Item.isWithin .all item = true := fun item hitem => by
    obtain ⟨entry, -, rfl⟩ := List.mem_map.1 hitem
    rfl
  have hleading : items.takeWhile (Item.isWithin .all) = entries.map .ok := by
    rw [List.takeWhile_append_of_pos hwithin]
    cases failure <;> simp [Item.isWithin]
  have hbehind : items.dropWhile (Item.isWithin .all) = failure.toList.map .error := by
    rw [List.dropWhile_append_of_pos hwithin]
    cases failure <;> simp [Item.isWithin]
  obtain ⟨hentries, hending⟩ := drainAll_draw .all items
  refine ⟨List.map_injective_iff.2 (fun _ _ => Except.ok.inj) (hentries.trans hleading),
    Option.ext fun error => (hending error).trans ?_⟩
  rw [hbehind]
  cases failure <;> simp

/-- An iterator may show any entries, in any order and under any keys, and then end with any error or
without one. -/
theorem exists_sound_drainAll (entries : List Entry) (failure : Option StoreError) :
    ∃ it : Iterator, it.Sound ∧ it.drainAll.1 = entries ∧ it.drainAll.2.error? = failure :=
  ⟨ofWalk entries failure, sound_draw .all _, drainAll_ofWalk entries failure⟩

variable {source : Iterator}

/-- However far a source is moved, it has an error only if no entry is left, and then the one with which it
ends. -/
theorem Sound.error?_drain_eq_some_iff (h : source.Sound) {count : Nat} {error : StoreError} :
    (source.drain count).2.error? = some error ↔
      source.drainAll.1[count]? = none ∧ source.drainAll.2.error? = some error := by
  cases hnext : source.drainAll.1[count]? with
  | none => rw [drain_eq_drainAll hnext, and_iff_right rfl]
  | some entry =>
    rw [← entry?_drain] at hnext
    rw [(h.drain count).error?_eq_none (valid_of_entry?_eq_some hnext)]
    simp

/-- A view ends with the error of its source, if its source has no entry left. -/
theorem Sound.error?_drainAll_view (h : source.Sound) (stem : Bytes) (bounds : Bounds)
    {error : StoreError} :
    (view stem bounds source).drainAll.2.error? = some error ↔
      source.drainAll.1[(view stem bounds source).drainAll.1.length]? = none ∧
        source.drainAll.2.error? = some error := by
  rw [(drainAll_view stem bounds source).2.1]
  exact h.error?_drain_eq_some_iff

end Iterator

/-- The entry that a view shows is read off its source: behind the stem, and with the same value. -/
theorem Flagged.InSync.reads_source {stem : Bytes} {bounds : Bounds} {flag : Bool} {below : Flagged}
    (h : (view stem bounds flag below).InSync) {shown : Entry}
    (hshown : Iterator.entry? (.view stem bounds below.erase) = some shown) :
    below.key? = some (stem ++ shown.key) ∧ below.value? = some shown.value := by
  obtain ⟨entry, hentry, hstrip⟩ := Option.bind_eq_some_iff.1 hshown
  obtain ⟨-, hkey, hvalue⟩ := h.1.reads
  rw [hkey, hvalue, hentry, Entry.strip?_eq_some_iff.1 hstrip]
  exact ⟨rfl, rfl⟩

namespace Session

variable {ρ σ : Type} {session : Session ρ σ} {number : Nat} {stem : Bytes} {bounds : Bounds}
  {source : Iterator}

/-- A valid iterator of the session answers with its entry. -/
theorem step_read (roots : ρ → Store σ) {it : Iterator} (h : session.iterators[number]? = some it)
    {entry : Entry} (hentry : it.entry? = some entry) :
    (session.step roots (.onIterator number .key)).1 = .ok (.bytes entry.key) ∧
      (session.step roots (.onIterator number .value)).1 = .ok (.bytes entry.value) := by
  rw [step_onIterator h, step_onIterator h, Iterator.respond, Iterator.respond, Iterator.key?,
    Iterator.value?, hentry]
  exact ⟨rfl, rfl⟩

/-- The view of a session stays a view, and so does the one with flags, which answers the same. -/
theorem flagged_view_run (roots : ρ → Store σ)
    (h : session.iterators[number]? = some (.view stem bounds source)) (steps : List Step) :
    let reached := (session.run roots steps).2
    let kept := (Flagged.ofIterator (.view stem bounds source)).after
      (steps.filterMap (Step.requestTo? number))
    (∀ request, (kept.respond request).1 = (reached.step roots (.onIterator number request)).1) ∧
      ∃ flag below, kept = .view stem bounds flag below ∧ (Flagged.view stem bounds flag below).InSync ∧
        reached.iterators[number]? = some (.view stem bounds below.erase) := by
  intro reached kept
  obtain ⟨hsync, hkept⟩ := flagged_run roots (Flagged.inSync_ofIterator _)
    (h.trans (congrArg some (Flagged.erase_ofIterator _).symm)) steps
  have hanswers : ∀ request,
      (kept.respond request).1 = (reached.step roots (.onIterator number request)).1 := fun request => by
    rw [step_onIterator hkept]
    exact (hsync.respond request).1
  obtain ⟨flag, below, hview⟩ : ∃ flag below, kept = .view stem bounds flag below :=
    Flagged.exists_after_view stem bounds _ (Flagged.ofIterator source) _
  change kept.InSync at hsync
  change reached.iterators[number]? = some kept.erase at hkept
  rw [hview] at hsync hkept
  exact ⟨hanswers, flag, below, hview, hsync, hkept⟩

/-- A view that is not closed and has yielded all its entries has left its source at the next one. -/
theorem left_view_run (roots : ρ → Store σ)
    (h : session.iterators[number]? = some (.view stem bounds source)) {steps : List Step}
    (hopen : .onIterator number .close ∉ steps) {below : Iterator}
    (hbelow : (session.run roots steps).2.iterators[number]? = some (.view stem bounds below))
    (hinvalid : (Iterator.view stem bounds below).valid = false) :
    below.entry? = source.drainAll.1[(Iterator.view stem bounds source).drainAll.1.length]? := by
  obtain ⟨later, hlater, hleft⟩ := left_run roots h hopen
  cases hbelow.symm.trans hlater
  rw [Iterator.drainAll_of_entry?_eq_none (Iterator.entry?_eq_none_of_not_valid hinvalid)] at hleft
  have hlast := (congrArg Prod.snd hleft).trans (Iterator.drainAll_view stem bounds source).2.1
  rw [← Iterator.entry?_drain, (Iterator.view.inj hlast).2.2]

/-- **A view yields the leading run of its source.**  A session holds the iterator of a view, whose source
may show any entries and end with any error, and takes any steps.  The entries that the source shows before
the first key without the stem are the entries of the view, with the stem taken off.  The view yields them in
turn.  As long as its flag is set it stands on the next of them, and its source on the same key behind the
stem and the same value; unless it is closed, the flag is cleared only when all are yielded, and then it is
cleared for ever.  From then on the view has the error with which its source has ended, if there is no key
without the stem; if there is one, it never has an error, and its source is left standing on this key. -/
theorem view_yields_leading (roots : ρ → Store σ)
    (h : session.iterators[number]? = some (.view stem bounds source)) (hsound : source.Sound) :
    ∃ entries : List Entry,
      entries.map (Entry.under stem) = source.drainAll.1.takeWhile (Entry.isUnder stem) ∧
      (session.step roots (.onIterator number (.drain none))).1 = .ok (.entries entries) ∧
      ∀ steps : List Step,
        let yielded := session.yielded roots number steps
        let reached := (session.run roots steps).2
        let kept := (Flagged.ofIterator (.view stem bounds source)).after
          (steps.filterMap (Step.requestTo? number))
        yielded <+: entries ∧
        (∀ request, (kept.respond request).1 = (reached.step roots (.onIterator number request)).1) ∧
        ∃ flag below error, kept = .view stem bounds flag below ∧
          reached.Stands roots number bounds flag error ∧
          (flag = true → ∃ shown, entries[yielded.length]? = some shown ∧
            below.key? = some (stem ++ shown.key) ∧ below.value? = some shown.value ∧
            (reached.step roots (.onIterator number .key)).1 = .ok (.bytes shown.key) ∧
            (reached.step roots (.onIterator number .value)).1 = .ok (.bytes shown.value)) ∧
          (.onIterator number .close ∉ steps → flag = false → yielded = entries) ∧
          (yielded = entries → flag = false) ∧
          (∀ failure, error = some failure ↔ yielded = entries ∧
            source.drainAll.1[entries.length]? = none ∧ source.drainAll.2.error? = some failure) ∧
          ∀ foreign, source.drainAll.1[entries.length]? = some foreign →
            ¬ stem <+: foreign.key ∧ error = none ∧
            (.onIterator number .close ∉ steps → yielded = entries →
              below.valid = true ∧ below.entry? = some foreign) := by
  obtain ⟨hentries, -, hforeign⟩ := Iterator.drainAll_view stem bounds source
  refine ⟨_, hentries, by rw [step_onIterator h]; rfl, fun steps => ?_⟩
  intro yielded reached kept
  have hview : (Iterator.view stem bounds source).Sound := hsound
  obtain ⟨hanswers, flag, below, hkept, hsync, hlater⟩ := flagged_view_run roots h steps
  obtain ⟨_, hreached, hbehind, hopen⟩ := behind_run roots h hview steps
  cases hlater.symm.trans hreached
  obtain ⟨_, hreached, hlast, -⟩ := continues_run roots h hview steps
  cases hlater.symm.trans hreached
  have hflag : flag = (Iterator.view stem bounds below.erase).valid := hsync.reads.1
  have herror : ∀ failure, below.erase.error? = some failure ↔ yielded = _ ∧
      source.drainAll.1[_]? = none ∧ source.drainAll.2.error? = some failure := fun failure =>
    (hbehind.error failure).trans (and_congr_right fun _ => hsound.error?_drainAll_view stem bounds)
  refine ⟨hbehind.first, hanswers, flag, below, below.erase.error?, hkept, ?_, fun hset => ?_,
    fun hclose hunset => hopen hclose (hflag.symm.trans hunset),
    fun hall => hflag.trans (hbehind.ended hall), herror, fun foreign hnext => ?_⟩
  · rw [hflag]
    exact stands_of_sound roots hlater hlast
  · have hvalid := hflag.symm.trans hset
    obtain ⟨shown, hshown⟩ := Option.isSome_iff_exists.1 hvalid
    obtain ⟨hkey, hvalue⟩ := hsync.reads_source hshown
    exact ⟨shown, (hbehind.entry hvalid).symm.trans hshown, hkey, hvalue, step_read roots hlater hshown⟩
  · refine ⟨hforeign foreign hnext, ?_, fun hclose hall => ?_⟩
    · refine Option.eq_none_iff_forall_ne_some.2 fun failure hfailure => ?_
      obtain ⟨-, hnone, -⟩ := (herror failure).1 hfailure
      rw [hnext] at hnone
      cases hnone
    · have hentry := (left_view_run roots h hclose hlater (hbehind.ended hall)).trans hnext
      exact ⟨by rw [hsync.1.reads.1, hentry]; rfl, hsync.1.entry?_eq.trans hentry⟩

/-- A view that descends through a store that ignores bounds, over an engine with any items.  At a key
without the stem it ends without an error, and its source is still valid; at an error it ends with it. -/
theorem view_yields_leading_unbounded :
    let roots := fun _ : Unit => (Scripted.engine false).store.unbounded
    let bounds : Bounds := ⟨none, some [6]⟩
    let made := fun items : List Item => ((ofRoot () { Scripted.empty with items := some items }).run roots
      [.onStore 0 (.view [1]), .onStore 1 (.iterate .descending bounds)]).2
    let astray := made [.ok ⟨[1, 5], [7]⟩, .ok ⟨[1], [8]⟩, .ok ⟨[2], [9]⟩, .ok ⟨[1, 3], [6]⟩]
    let torn := made [.ok ⟨[1, 5], [7]⟩, .error (.backend "torn")]
    let next : Step := .onIterator 0 .next
    astray.yielded roots 0 [next, next] = [⟨[5], [7]⟩, ⟨[], [8]⟩] ∧
      (astray.run roots [next, next]).2.Stands roots 0 bounds false none ∧
      (∃ it below, astray.iterators[0]? = some it ∧
        (Flagged.ofIterator it).after [.next, .next] = .view [1] bounds false below ∧ below.valid = true) ∧
      (torn.run roots [next]).2.Stands roots 0 bounds false (some (.backend "torn")) := by
  intro roots bounds made astray torn next
  have hastray : astray.iterators[0]? = some (.view [1] bounds (.ofItems .all
      [.ok ⟨[1, 5], [7]⟩, .ok ⟨[1], [8]⟩, .ok ⟨[2], [9]⟩, .ok ⟨[1, 3], [6]⟩])) := rfl
  have htorn : torn.iterators[0]? = some (.view [1] bounds (.ofItems .all
      [.ok ⟨[1, 5], [7]⟩, .error (.backend "torn")])) := rfl
  have hyielded : astray.yielded roots 0 [next, next] = [⟨[5], [7]⟩, ⟨[], [8]⟩] := by decide +kernel
  have hyielded' : torn.yielded roots 0 [next] = [⟨[5], [7]⟩] := by decide +kernel
  refine ⟨hyielded, ?_⟩
  obtain ⟨entries, hentries, -, hsteps⟩ :=
    view_yields_leading roots hastray (Iterator.sound_draw .all _)
  obtain rfl : entries = [⟨[5], [7]⟩, ⟨[], [8]⟩] :=
    List.map_injective_iff.2 (Entry.under_injective [1]) (hentries.trans rfl)
  obtain ⟨-, -, flag, below, error, hkept, hstands, -, -, hended, -, hforeign⟩ := hsteps [next, next]
  obtain ⟨-, rfl, hsource⟩ := hforeign ⟨[2], [9]⟩ rfl
  cases hended hyielded
  refine ⟨hstands, ⟨_, below, hastray, hkept, (hsource (by simp [next]) hyielded).1⟩, ?_⟩
  obtain ⟨entries, hentries, -, hsteps⟩ :=
    view_yields_leading roots htorn (Iterator.sound_draw .all _)
  obtain rfl : entries = [⟨[5], [7]⟩] :=
    List.map_injective_iff.2 (Entry.under_injective [1]) (hentries.trans rfl)
  obtain ⟨-, -, flag, -, error, -, hstands, -, -, hended, herror, -⟩ := hsteps [next]
  cases hended hyielded'
  cases (herror (.backend "torn")).2 ⟨hyielded', rfl, rfl⟩
  exact hstands

end Session

end OrderedStore
