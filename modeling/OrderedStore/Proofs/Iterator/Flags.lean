import OrderedStore.Proofs.Iterator.States
import OrderedStore.Proofs.View.Compose

/-!
# Views that keep a flag

An iterator of a view can keep a flag that says whether it is valid, which is set when it is made and when
it is moved, and cleared when it is closed.  It then reads its source only if the flag is set, and its
source is valid whenever that is so: the flags of a stack of views stay in step with what is below them, and
the iterator answers as one that looks at its source each time.

* `Flagged` is an iterator whose views keep flags.
* `Flagged.InSync` says that every flag says what it should.
* `Flagged.InSync.respond` compares it with the iterator without flags.
* `Flagged.exists_after_view` says that a view stays one.
-/

namespace OrderedStore

/-- An iterator whose views each keep a flag. -/
inductive Flagged where
  | plain (it : Iterator)
  | view (stem : Bytes) (bounds : Bounds) (flag : Bool) (source : Flagged)

namespace Flagged

/-! ### Requests -/

def valid : Flagged → Bool
  | plain it => it.valid
  | view _ _ flag _ => flag

/-- The key; `none` if reading it is refused, by the view or by what is below. -/
def key? : Flagged → Option Bytes
  | plain it => it.key?
  | view stem _ flag source => if flag then source.key?.map (List.drop stem.length) else none

def value? : Flagged → Option Bytes
  | plain it => it.value?
  | view _ _ flag source => if flag then source.value? else none

def entry? (it : Flagged) : Option Entry :=
  match it.key?, it.value? with
  | some key, some value => some ⟨key, value⟩
  | _, _ => none

def bounds : Flagged → Bounds
  | plain it => it.bounds
  | view _ bounds _ _ => bounds

def error? : Flagged → Option StoreError
  | plain it => it.error?
  | view _ _ _ source => source.error?

/-- The view of an iterator, which sets its flag by what it finds below. -/
def update (stem : Bytes) (bounds : Bounds) (source : Flagged) : Flagged :=
  view stem bounds (source.valid && source.key?.any stem.isPrefixOf) source

/-- Moves on; refused if the flag is not set, or by what is below. -/
def next? : Flagged → Option Flagged
  | plain it => it.next?.map plain
  | view stem bounds flag source => if flag then source.next?.map (update stem bounds) else none

def close : Flagged → Except StoreError Unit × Flagged
  | plain it => (it.close.1, plain it.close.2)
  | view stem bounds _ source => (source.close.1, view stem bounds false source.close.2)

def remaining : Flagged → Nat
  | plain it => it.remaining
  | view _ _ _ source => source.remaining

def drain : Nat → Flagged → List Entry × Flagged
  | 0, it => ([], it)
  | count + 1, it =>
    match it.entry?, it.next? with
    | some entry, some next =>
      let (entries, last) := next.drain count
      (entry :: entries, last)
    | _, _ => ([], it)

/-- The answer to a request, and the iterator after it. -/
def respond (it : Flagged) : IteratorRequest → Except Refusal Answer × Flagged
  | .valid => (.ok (.flag it.valid), it)
  | .next =>
    match it.next? with
    | none => (.error (.misused .next), it)
    | some next => (.ok (.flag next.valid), next)
  | .key =>
    match it.key? with
    | none => (.error (.misused .key), it)
    | some key => (.ok (.bytes key), it)
  | .value =>
    match it.value? with
    | none => (.error (.misused .value), it)
    | some value => (.ok (.bytes value), it)
  | .entry => (.ok (.entry it.entry?), it)
  | .bounds => (.ok (.bounds it.bounds), it)
  | .error => (.ok (.error it.error?), it)
  | .drain count =>
    let (entries, drained) := it.drain (count.getD it.remaining)
    (.ok (.entries entries), drained)
  | .close =>
    match it.close with
    | (.ok (), closed) => (.ok .done, closed)
    | (.error error, closed) => (.error (.failed error), closed)

/-! ### Flags -/

/-- The iterator with flags, as it is made. -/
def ofIterator : Iterator → Flagged
  | .snapshot bounds rest => plain (.snapshot bounds rest)
  | .cursor bounds current rest failure => plain (.cursor bounds current rest failure)
  | .view stem bounds source => update stem bounds (ofIterator source)

/-- The iterator without flags. -/
def erase : Flagged → Iterator
  | plain it => it
  | view stem bounds _ source => .view stem bounds source.erase

/-- A flag is set just if the source of its view is valid and stands on a key with the stem. -/
def InSync : Flagged → Prop
  | plain _ => True
  | view stem _ flag source =>
    source.InSync ∧ (flag = true ↔ source.valid = true ∧ ∃ key, source.key? = some key ∧ stem <+: key)

variable {it source : Flagged} {stem : Bytes} {bounds : Bounds}

/-- A flag that is set is that of a view whose source is valid. -/
theorem InSync.valid_source (h : (view stem bounds true source).InSync) : source.valid = true :=
  (h.2.1 rfl).1

theorem InSync.update (h : source.InSync) : (update stem bounds source).InSync := by
  refine ⟨h, ?_⟩
  cases source.key? <;> simp

theorem erase_ofIterator (it : Iterator) : (ofIterator it).erase = it := by
  induction it with
  | snapshot => rfl
  | cursor => rfl
  | view stem bounds source ih => exact congrArg (Iterator.view stem bounds) ih

theorem inSync_ofIterator (it : Iterator) : (ofIterator it).InSync := by
  induction it with
  | snapshot => trivial
  | cursor => trivial
  | view stem bounds source ih => exact ih.update

/-! ### Reading -/

/-- The iterator stands on the entry that is found, or is invalid if none is. -/
def Reads (it : Flagged) (found : Option Entry) : Prop :=
  it.valid = found.isSome ∧ it.key? = found.map Entry.key ∧ it.value? = found.map Entry.value

/-- A view reads the entry of its source without the stem if its flag is set, and nothing otherwise. -/
theorem Reads.view {found : Option Entry} (h : source.Reads found) (stem : Bytes) (bounds : Bounds)
    {flag : Bool}
    (hflag : flag = true ↔ source.valid = true ∧ ∃ key, source.key? = some key ∧ stem <+: key) :
    (view stem bounds flag source).Reads (found.bind (Entry.strip? stem)) := by
  obtain ⟨hvalid, hkey, hvalue⟩ := h
  rw [hvalid, hkey] at hflag
  cases found with
  | none =>
    have hunset : flag = false := by simpa using hflag
    rw [hunset]
    exact ⟨rfl, rfl, rfl⟩
  | some entry =>
    have hset : flag = true ↔ stem <+: entry.key := by simpa using hflag
    by_cases hstem : stem <+: entry.key
    · have hstrip : entry.strip? stem = some ⟨entry.key.drop stem.length, entry.value⟩ :=
        if_pos (List.isPrefixOf_iff_prefix.2 hstem)
      rw [hset.2 hstem, Reads, Option.bind_some, hstrip, key?, value?, hkey, hvalue]
      exact ⟨rfl, rfl, rfl⟩
    · have hunset : flag = false := by simpa using mt hset.1 hstem
      rw [hunset, Reads, Option.bind_some, Entry.strip?_eq_none_iff.2 hstem]
      exact ⟨rfl, rfl, rfl⟩

/-- An iterator whose flags are in step reads the entry on which the iterator without flags stands. -/
theorem InSync.reads (h : it.InSync) : it.Reads it.erase.entry? := by
  induction it with
  | plain it => exact ⟨rfl, rfl, rfl⟩
  | view stem bounds flag source ih => exact (ih h.1).view stem bounds h.2

theorem InSync.entry?_eq (h : it.InSync) : it.entry? = it.erase.entry? := by
  obtain ⟨-, hkey, hvalue⟩ := h.reads
  unfold entry?
  rw [hkey, hvalue]
  cases it.erase.entry? <;> rfl

theorem bounds_erase (it : Flagged) : it.erase.bounds = it.bounds := by
  cases it <;> rfl

theorem error?_erase (it : Flagged) : it.erase.error? = it.error? := by
  induction it with
  | plain it => rfl
  | view stem bounds flag source ih => exact ih

theorem remaining_erase (it : Flagged) : it.erase.remaining = it.remaining := by
  induction it with
  | plain it => rfl
  | view stem bounds flag source ih => exact ih

/-! ### Moving -/

theorem erase_close (it : Flagged) : it.close.2.erase = it.erase.close.2 := by
  induction it with
  | plain it => rfl
  | view stem bounds flag source ih => exact congrArg (Iterator.view stem bounds) ih

theorem fst_close (it : Flagged) : it.close.1 = .ok () := by
  induction it with
  | plain it => exact it.fst_close
  | view stem bounds flag source ih => exact ih

theorem respond_close (it : Flagged) : it.respond .close = (.ok .done, it.close.2) := by
  have hclose : it.close = (.ok (), it.close.2) := Prod.ext it.fst_close rfl
  rw [respond, hclose]

theorem InSync.close (h : it.InSync) : it.close.2.InSync := by
  induction it with
  | plain it => trivial
  | view stem bounds flag source ih =>
    have hsource := ih h.1
    refine ⟨hsource, ?_⟩
    -- Closing the source makes it invalid, which is what the cleared flag says.
    have hinvalid : source.close.2.valid = false := by
      rw [hsource.reads.1, erase_close, Iterator.entry?_close]
      rfl
    simp [hinvalid]

/-- Moving is refused as it is without flags, and leaves the flags in step. -/
theorem InSync.next? (h : it.InSync) :
    it.next?.map erase = it.erase.next? ∧ ∀ next, it.next? = some next → next.InSync := by
  induction it with
  | plain it =>
    rw [Flagged.next?, Option.map_map]
    refine ⟨Option.map_id' .., ?_⟩
    rintro next hnext
    obtain ⟨_, -, rfl⟩ := Option.map_eq_some_iff.1 hnext
    trivial
  | view stem bounds flag source ih =>
    obtain ⟨herase, hsync⟩ := ih h.1
    have hvalid : flag = (Iterator.view stem bounds source.erase).valid := h.reads.1
    rw [erase, Iterator.next?, ← hvalid]
    cases flag with
    | false => exact ⟨rfl, fun _ hnext => by cases hnext⟩
    | true =>
      -- The flag is set, so the source is valid and is not refused to move.
      have hsource : source.erase.valid = true := h.1.reads.1.symm.trans h.valid_source
      rw [Iterator.next?, if_pos hsource] at herase
      obtain ⟨next, hnext, hadvance⟩ := Option.map_eq_some_iff.1 herase
      rw [Flagged.next?, hnext, Iterator.advance, ← hadvance]
      refine ⟨rfl, ?_⟩
      rintro _ ⟨⟩
      exact (hsync next hnext).update

theorem InSync.drain (h : it.InSync) (count : Nat) :
    (it.drain count).1 = (it.erase.drain count).1 ∧
      (it.drain count).2.erase = (it.erase.drain count).2 ∧ (it.drain count).2.InSync := by
  induction count generalizing it with
  | zero => exact ⟨rfl, rfl, h⟩
  | succ count ih =>
    obtain ⟨herase, hsync⟩ := h.next?
    rw [Flagged.drain, h.entry?_eq]
    cases hentry : it.erase.entry? with
    | none =>
      rw [Iterator.drain_of_entry?_eq_none hentry]
      exact ⟨rfl, rfl, h⟩
    | some entry =>
      rw [Iterator.next?, if_pos (Iterator.valid_of_entry?_eq_some hentry)] at herase
      obtain ⟨next, hnext, hadvance⟩ := Option.map_eq_some_iff.1 herase
      obtain ⟨hentries, hlast, hend⟩ := ih (hsync next hnext)
      rw [Iterator.drain_of_entry?_eq_some hentry, hnext, ← hadvance]
      exact ⟨congrArg (entry :: ·) hentries, hlast, hend⟩

/-! ### Requests -/

/-- With flags that are in step, a request is answered as without flags, and leaves the flags in step. -/
theorem InSync.respond (h : it.InSync) (request : IteratorRequest) :
    (it.respond request).1 = (it.erase.respond request).1 ∧
      (it.respond request).2.erase = (it.erase.respond request).2 ∧ (it.respond request).2.InSync := by
  obtain ⟨hvalid, hkey, hvalue⟩ := h.reads
  cases request with
  | valid => exact ⟨congrArg (Except.ok ∘ Answer.flag) hvalid, rfl, h⟩
  | next =>
    obtain ⟨herase, hsync⟩ := h.next?
    rw [Flagged.respond, Iterator.respond, ← herase]
    cases hnext : it.next? with
    | none => exact ⟨rfl, rfl, h⟩
    | some next => exact ⟨congrArg (Except.ok ∘ Answer.flag) (hsync next hnext).reads.1, rfl, hsync next hnext⟩
  | key =>
    rw [Flagged.respond, Iterator.respond, Iterator.key?, hkey]
    cases it.erase.entry? <;> exact ⟨rfl, rfl, h⟩
  | value =>
    rw [Flagged.respond, Iterator.respond, Iterator.value?, hvalue]
    cases it.erase.entry? <;> exact ⟨rfl, rfl, h⟩
  | entry => exact ⟨congrArg (Except.ok ∘ Answer.entry) h.entry?_eq, rfl, h⟩
  | bounds => exact ⟨congrArg (Except.ok ∘ Answer.bounds) it.bounds_erase.symm, rfl, h⟩
  | error => exact ⟨congrArg (Except.ok ∘ Answer.error) it.error?_erase.symm, rfl, h⟩
  | drain count =>
    rw [Flagged.respond, Iterator.respond, ← it.remaining_erase]
    obtain ⟨hentries, herase, hsync⟩ := h.drain (count.getD it.erase.remaining)
    exact ⟨congrArg (Except.ok ∘ Answer.entries) hentries, herase, hsync⟩
  | close =>
    rw [it.respond_close, it.erase.respond_close]
    exact ⟨rfl, it.erase_close, h.close⟩

/-- Every request keeps what moving on and closing keep. -/
theorem respond_preserves {P : Flagged → Prop}
    (hnext : ∀ it next : Flagged, P it → it.next? = some next → P next)
    (hclose : ∀ it : Flagged, P it → P it.close.2) (h : P it) (request : IteratorRequest) :
    P (it.respond request).2 := by
  have hdrain : ∀ count, P (it.drain count).2 := by
    intro count
    induction count generalizing it with
    | zero => exact h
    | succ count ih =>
      rw [drain]
      split
      · rename_i hmoved
        exact ih (hnext it _ h hmoved)
      · exact h
  cases request with
  | next =>
    rw [respond]
    split
    · exact h
    · rename_i hmoved
      exact hnext it _ h hmoved
  | key => rw [respond]; cases it.key? <;> exact h
  | value => rw [respond]; cases it.value? <;> exact h
  | drain count => exact hdrain _
  | close =>
    rw [it.respond_close]
    exact hclose it h
  | valid => exact h
  | entry => exact h
  | bounds => exact h
  | error => exact h

/-- The iterator after requests. -/
def after (it : Flagged) (requests : List IteratorRequest) : Flagged :=
  requests.foldl (fun it request => (it.respond request).2) it

/-- A view with a flag stays one, under the same stem and with the same bounds. -/
theorem exists_after_view (stem : Bytes) (bounds : Bounds) (flag : Bool) (source : Flagged)
    (requests : List IteratorRequest) :
    ∃ flag' source', (view stem bounds flag source).after requests = view stem bounds flag' source' := by
  induction requests generalizing flag source with
  | nil => exact ⟨flag, source, rfl⟩
  | cons request requests ih =>
    obtain ⟨flag', source', hrespond⟩ : ∃ flag' source',
        ((view stem bounds flag source).respond request).2 = view stem bounds flag' source' := by
      refine respond_preserves (P := fun it => ∃ flag' source', it = view stem bounds flag' source') ?_ ?_
        ⟨flag, source, rfl⟩ request
      · rintro _ next ⟨flag', source', rfl⟩ hnext
        cases flag' with
        | false => cases hnext
        | true =>
          obtain ⟨moved, -, rfl⟩ := Option.map_eq_some_iff.1 hnext
          exact ⟨_, moved, rfl⟩
      · rintro _ ⟨flag', source', rfl⟩
        exact ⟨false, source'.close.2, rfl⟩
    rw [after, List.foldl_cons, hrespond]
    exact ih flag' source'

end Flagged

end OrderedStore
