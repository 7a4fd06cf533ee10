import OrderedStore.Memory.Walker
import OrderedStore.Proofs.Iterator.States
import OrderedStore.Proofs.Memory.Range

/-!
# Threads that walk show a snapshot

The caller of an iterator whose walk runs in a thread of its own cannot tell it from one that holds all
entries of the range, however the two take turns.  What waits in the channel and what the thread is still to
send are what the iterator has left to show.  Neither waits for the other forever: as long as a call has not
returned one of them can act, and between two calls they act only so often.

* `Memory.Walker.toIterator` is the iterator that is seen.
* `Memory.Walker.Sound` are the states that are reached.
* `Memory.Walker.produces` and `Memory.Walker.Sound.consume` are what a single act does,
  `Memory.Walker.Sound.act` and `Memory.Walker.Sound.run` follow a run.
* `Memory.Walker.run_start` is the result about iterators of a memory.
-/

namespace OrderedStore.Memory

/-! ### What a thread sends -/

/-- The entries that are gathered along a list. -/
def gathered (lowest skip : Option Bytes) (entries : List Entry) : List Entry :=
  ((Tree.visitAll (gather lowest) entries).run ⟨skip, []⟩).2.seen.reverse

/-- What has been seen before stays behind what is gathered. -/
theorem seen_visitAll_gather_append (lowest skip : Option Bytes) (entries seen : List Entry) :
    ((Tree.visitAll (gather lowest) entries).run ⟨skip, seen⟩).2.seen =
      ((Tree.visitAll (gather lowest) entries).run ⟨skip, []⟩).2.seen ++ seen := by
  induction entries generalizing skip seen with
  | nil => rfl
  | cons entry entries ih =>
    rw [Tree.run_visitAll_cons, Tree.run_visitAll_cons]
    by_cases hskip : skip = some entry.key
    · rw [run_gather_of_skip _ hskip, run_gather_of_skip _ hskip, if_pos rfl, if_pos rfl, ih]
    · by_cases hbelow : isBelow lowest entry.key = true
      · rw [run_gather_of_isBelow _ hskip hbelow, run_gather_of_isBelow _ hskip hbelow]
        rfl
      · rw [run_gather_of_not_isBelow _ hskip hbelow, run_gather_of_not_isBelow _ hskip hbelow, if_pos rfl,
          if_pos rfl, ih skip (entry :: seen), ih skip [entry], List.append_assoc, List.singleton_append]

/-- What a thread is still to send. -/
def Producer.toSend (lowest : Option Bytes) : Producer → List Entry
  | walking skip rest => gathered lowest skip rest
  | looking skip entry rest => entry :: gathered lowest skip rest
  | sending skip entry rest => entry :: gathered lowest skip rest
  | finished => []
  | panicked => []

/-- The visitor hands over what is gathered. -/
theorem toSend_visit (lowest skip : Option Bytes) (entry : Entry) (rest : List Entry) :
    (Walker.visit lowest skip entry rest).toSend lowest = gathered lowest skip (entry :: rest) := by
  rw [Walker.visit, gathered, Tree.run_visitAll_cons]
  by_cases hskip : skip = some entry.key
  · rw [if_pos hskip, run_gather_of_skip _ hskip]
    rfl
  · by_cases hbelow : isBelow lowest entry.key = true
    · rw [if_neg hskip, if_pos hbelow, run_gather_of_isBelow _ hskip hbelow]
      rfl
    · rw [if_neg hskip, if_neg hbelow, run_gather_of_not_isBelow _ hskip hbelow, if_pos rfl,
        seen_visitAll_gather_append, List.reverse_append]
      rfl

/-- Without a key to skip and one to stop at, everything is gathered. -/
theorem gathered_none_none (entries : List Entry) : gathered none none entries = entries := by
  induction entries with
  | nil => rfl
  | cons entry entries ih =>
    rw [← toSend_visit]
    exact congrArg (entry :: ·) ih

/-- A bound for what a thread still does. -/
def Producer.measure : Producer → ℕ
  | walking _ rest => 3 * rest.length + 1
  | looking _ _ rest => 3 * rest.length + 3
  | sending _ _ rest => 3 * rest.length + 2
  | finished => 0
  | panicked => 0

/-- A bound for what the caller still does. -/
def Phase.measure : Phase → ℕ
  | returned _ => 0
  | receiving => 1
  | cancelling => 3
  | dropping => 2
  | joining => 1

theorem Producer.eq_finished {producer : Producer} (h : producer ≠ .panicked)
    (hended : producer.hasEnded = true) : producer = .finished := by
  cases producer with
  | finished => rfl
  | panicked => exact absurd rfl h
  | walking => cases hended
  | looking => cases hended
  | sending => cases hended

namespace Walker

variable {walker after : Walker}

/-! ### What is seen -/

/-- What waits to be received, and what is still to be sent. -/
def pending (walker : Walker) : List Entry :=
  walker.waiting.getD [] ++ walker.producer.toSend walker.lowest

/-- The entries that the iterator is to show when the last call has returned. -/
def rest (walker : Walker) : List Entry :=
  match walker.phase with
  | .returned _ => walker.current.elim [] fun entry => entry :: walker.pending
  | .receiving => walker.pending
  | _ => []

/-- The iterator that is seen when the last call has returned. -/
def toIterator (walker : Walker) : Iterator := .snapshot walker.bounds walker.rest

/-- The states that are reached.  No entry is left when the iterator has become invalid, and the thread has
finished when the iterator has been closed. -/
inductive Sound : Walker → Prop
  | standing {bounds lowest producer waiting current} (hproducer : producer ≠ .panicked)
      (hlength : waiting.length ≤ capacity)
      (hend : current = none → producer = .finished ∧ waiting = []) :
      Sound ⟨bounds, lowest, producer, some waiting, false, current, true, .returned (.ok ())⟩
  | receiving {bounds lowest producer waiting current} (hproducer : producer ≠ .panicked)
      (hlength : waiting.length ≤ capacity) :
      Sound ⟨bounds, lowest, producer, some waiting, false, current, true, .receiving⟩
  | cancelling {bounds lowest producer waiting} (hproducer : producer ≠ .panicked)
      (hlength : waiting.length ≤ capacity) :
      Sound ⟨bounds, lowest, producer, some waiting, false, none, false, .cancelling⟩
  | dropping {bounds lowest producer waiting} (hproducer : producer ≠ .panicked)
      (hlength : waiting.length ≤ capacity) :
      Sound ⟨bounds, lowest, producer, some waiting, true, none, false, .dropping⟩
  | joining {bounds lowest producer} (hproducer : producer ≠ .panicked) :
      Sound ⟨bounds, lowest, producer, none, true, none, false, .joining⟩
  | closed {bounds lowest} :
      Sound ⟨bounds, lowest, .finished, none, true, none, false, .returned (.ok ())⟩

theorem sound_start (map : OrderedMap) (direction : Direction) (bounds : Bounds) :
    (start map direction bounds).Sound :=
  .receiving Producer.noConfusion (Nat.zero_le _)

/-- The channel never holds more than it can. -/
theorem Sound.length_le (h : walker.Sound) : ∀ waiting ∈ walker.waiting, waiting.length ≤ capacity := by
  cases h with
  | standing _ hlength _ => rintro _ ⟨⟩; exact hlength
  | receiving _ hlength => rintro _ ⟨⟩; exact hlength
  | cancelling _ hlength => rintro _ ⟨⟩; exact hlength
  | dropping _ hlength => rintro _ ⟨⟩; exact hlength
  | joining => rintro _ ⟨⟩
  | closed => rintro _ ⟨⟩

/-- A call that has returned was successful, and the iterator stands where the one that is seen does. -/
theorem Sound.returned (h : walker.Sound) {outcome : Except StoreError Unit}
    (hphase : walker.phase = .returned outcome) :
    outcome = .ok () ∧ walker.current = walker.toIterator.entry? := by
  cases h with
  | @standing _ _ _ _ current =>
    obtain rfl := Phase.returned.inj hphase
    cases current <;> exact ⟨rfl, rfl⟩
  | closed =>
    obtain rfl := Phase.returned.inj hphase
    exact ⟨rfl, rfl⟩
  | receiving => cases hphase
  | cancelling => cases hphase
  | dropping => cases hphase
  | joining => cases hphase

/-! ### Single acts -/

/-- What an act of the thread changes.  Unless the walk has been cancelled, no entry is lost. -/
structure Produces (walker after : Walker) : Prop where
  frame : after = { walker with producer := after.producer, waiting := after.waiting }
  running : walker.producer.hasEnded = false
  notPanicked : after.producer ≠ .panicked
  measure_lt : after.producer.measure < walker.producer.measure
  gone : walker.waiting = none → after.waiting = none
  kept : ∀ waiting, walker.waiting = some waiting → ∃ waiting', after.waiting = some waiting' ∧
    (waiting.length ≤ capacity → waiting'.length ≤ capacity) ∧
    (walker.cancelled = false →
      waiting' ++ after.producer.toSend walker.lowest = waiting ++ walker.producer.toSend walker.lowest)

theorem produces (h : walker.produce? = some after) : walker.Produces after := by
  obtain ⟨bounds, lowest, producer, waiting, cancelled, current, joinable, phase⟩ := walker
  cases producer with
  | walking skip rest =>
    cases rest with
    | nil =>
      obtain rfl := Option.some.inj h
      exact ⟨rfl, rfl, Producer.noConfusion, Nat.succ_pos _, id, fun waiting hwaiting =>
        ⟨waiting, hwaiting, id, fun _ => rfl⟩⟩
    | cons entry rest =>
      obtain rfl := Option.some.inj h
      refine ⟨rfl, rfl, ?_, ?_, id, fun waiting hwaiting => ⟨waiting, hwaiting, id, fun _ => ?_⟩⟩
      · show visit lowest skip entry rest ≠ _
        rw [visit]
        split_ifs <;> exact Producer.noConfusion
      · show (visit lowest skip entry rest).measure < _
        rw [visit]
        split_ifs <;> simp only [Producer.measure, List.length_cons] <;> omega
      · exact congrArg (waiting ++ ·) (toSend_visit lowest skip entry rest)
  | looking skip entry rest =>
    obtain rfl := Option.some.inj h
    refine ⟨rfl, rfl, ?_, ?_, id, fun waiting hwaiting => ⟨waiting, hwaiting, id, fun hcancelled => ?_⟩⟩
    · cases cancelled <;> exact Producer.noConfusion
    · cases cancelled <;> simp [Producer.measure]
    · cases cancelled with
      | false => rfl
      | true => cases hcancelled
  | sending skip entry rest =>
    cases waiting with
    | none =>
      obtain rfl := Option.some.inj h
      exact ⟨rfl, rfl, Producer.noConfusion, Nat.succ_pos _, id, fun _ hwaiting => by cases hwaiting⟩
    | some waiting =>
      have hproduce : (if waiting.length < capacity then _ else none) = some after := h
      split_ifs at hproduce with hlength
      obtain rfl := Option.some.inj hproduce
      refine ⟨rfl, rfl, Producer.noConfusion, Nat.lt_succ_self _, fun hgone => (by cases hgone), ?_⟩
      rintro _ ⟨⟩
      refine ⟨_, rfl, fun _ => ?_, fun _ => ?_⟩
      · rw [List.length_append]
        exact hlength
      · rw [List.append_assoc]
        rfl
  | finished => cases h
  | panicked => cases h

/-- An act of the thread changes nothing that is seen. -/
theorem Sound.produce (h : walker.Sound) (hproduce : walker.produce? = some after) :
    after.Sound ∧ after.toIterator = walker.toIterator := by
  obtain ⟨hframe, hrunning, hproducer, -, hgone, hkept⟩ := produces hproduce
  rw [hframe]
  cases h with
  | @standing bounds lowest producer waiting current _ hlength hend =>
    obtain ⟨waiting', hwaiting', hlength', hpending⟩ := hkept waiting rfl
    rw [hwaiting']
    refine ⟨.standing hproducer (hlength' hlength) fun hnone => ?_, ?_⟩
    · -- An invalid iterator has a thread that has finished.
      rw [(hend hnone).1] at hrunning
      cases hrunning
    · cases current with
      | none => rfl
      | some entry => exact congrArg (fun entries => Iterator.snapshot bounds (entry :: entries)) (hpending rfl)
  | @receiving bounds lowest producer waiting current _ hlength =>
    obtain ⟨waiting', hwaiting', hlength', hpending⟩ := hkept waiting rfl
    rw [hwaiting']
    exact ⟨.receiving hproducer (hlength' hlength), congrArg (Iterator.snapshot bounds) (hpending rfl)⟩
  | @cancelling bounds lowest producer waiting _ hlength =>
    obtain ⟨waiting', hwaiting', hlength', -⟩ := hkept waiting rfl
    rw [hwaiting']
    exact ⟨.cancelling hproducer (hlength' hlength), rfl⟩
  | @dropping bounds lowest producer waiting _ hlength =>
    obtain ⟨waiting', hwaiting', hlength', -⟩ := hkept waiting rfl
    rw [hwaiting']
    exact ⟨.dropping hproducer (hlength' hlength), rfl⟩
  | joining =>
    rw [hgone rfl]
    exact ⟨.joining hproducer, rfl⟩
  | closed => cases hrunning

/-- An act of the caller changes nothing that is seen, and brings the call nearer to its end. -/
theorem Sound.consume (h : walker.Sound) (hconsume : walker.consume? = some after) :
    after.Sound ∧ after.toIterator = walker.toIterator ∧ after.producer = walker.producer ∧
      after.phase.measure < walker.phase.measure := by
  cases h with
  | standing => cases hconsume
  | @receiving bounds lowest producer waiting current hproducer hlength =>
    cases waiting with
    | nil =>
      rw [consume?] at hconsume
      split_ifs at hconsume with hended
      obtain rfl := Option.some.inj hconsume
      obtain rfl := Producer.eq_finished hproducer hended
      exact ⟨.standing hproducer hlength fun _ => ⟨rfl, rfl⟩, rfl, rfl, Nat.one_pos⟩
    | cons entry waiting =>
      obtain rfl := Option.some.inj hconsume
      exact ⟨.standing hproducer (Nat.le_of_succ_le hlength) fun hnone => (by cases hnone), rfl, rfl,
        Nat.one_pos⟩
  | cancelling hproducer hlength =>
    obtain rfl := Option.some.inj hconsume
    exact ⟨.dropping hproducer hlength, rfl, rfl, Nat.lt_succ_self 2⟩
  | dropping hproducer hlength =>
    obtain rfl := Option.some.inj hconsume
    exact ⟨.joining hproducer, rfl, rfl, Nat.lt_succ_self 1⟩
  | @joining bounds lowest producer hproducer =>
    cases producer with
    | finished =>
      obtain rfl := Option.some.inj hconsume
      exact ⟨.closed, rfl, rfl, Nat.one_pos⟩
    | panicked => exact absurd rfl hproducer
    | walking => cases hconsume
    | looking => cases hconsume
    | sending => cases hconsume
  | closed => cases hconsume

/-- As long as a call has not returned, the thread or the caller can act. -/
theorem Sound.can_act (h : walker.Sound) (hphase : ∀ outcome, walker.phase ≠ .returned outcome) :
    walker.produce?.isSome ∨ walker.consume?.isSome := by
  cases h with
  | standing => exact absurd rfl (hphase _)
  | @receiving bounds lowest producer waiting current hproducer =>
    cases waiting with
    | cons entry waiting => exact .inr rfl
    | nil =>
      cases producer with
      | walking skip rest => cases rest <;> exact .inl rfl
      | looking => exact .inl rfl
      | sending => exact .inl rfl
      | finished => exact .inr rfl
      | panicked => exact absurd rfl hproducer
  | cancelling => exact .inr rfl
  | dropping => exact .inr rfl
  | @joining bounds lowest producer hproducer =>
    -- Without a receiving end nothing keeps the thread from ending.
    cases producer with
    | walking skip rest => cases rest <;> exact .inl rfl
    | looking => exact .inl rfl
    | sending => exact .inl rfl
    | finished => exact .inr rfl
    | panicked => exact absurd rfl hproducer
  | closed => exact absurd rfl (hphase _)

/-! ### Runs -/

/-- An event is no call. -/
def Event.isSilent : Event → Bool
  | produce => true
  | consume => true
  | _ => false

/-- What an event makes of the iterator that is seen. -/
def Event.respond (it : Iterator) : Event → Iterator
  | produce => it
  | consume => it
  | next => (it.respond .next).2
  | close => (it.respond .close).2

/-- A bound for what the thread and the caller still do before the next call. -/
def measure (walker : Walker) : ℕ := walker.producer.measure + walker.phase.measure

theorem Sound.next (h : walker.Sound) {outcome : Except StoreError Unit}
    (hphase : walker.phase = .returned outcome) :
    (walker.next?.getD walker).Sound ∧
      (walker.next?.getD walker).toIterator = (walker.toIterator.respond .next).2 := by
  cases h with
  | @standing bounds lowest producer waiting current hproducer hlength hend =>
    cases current with
    | none => exact ⟨.standing hproducer hlength hend, rfl⟩
    | some entry => exact ⟨.receiving hproducer hlength, rfl⟩
  | closed => exact ⟨.closed, rfl⟩
  | receiving => cases hphase
  | cancelling => cases hphase
  | dropping => cases hphase
  | joining => cases hphase

theorem Sound.close (h : walker.Sound) {outcome : Except StoreError Unit}
    (hphase : walker.phase = .returned outcome) :
    walker.close.Sound ∧ walker.close.toIterator = (walker.toIterator.respond .close).2 := by
  cases h with
  | standing hproducer hlength => exact ⟨.cancelling hproducer hlength, rfl⟩
  | closed => exact ⟨.closed, rfl⟩
  | receiving => cases hphase
  | cancelling => cases hphase
  | dropping => cases hphase
  | joining => cases hphase

/-- A call changes what is seen as it changes an iterator that holds the entries; all else changes nothing
that is seen. -/
theorem Sound.act (h : walker.Sound) {event : Event} (hact : walker.act? event = some after) :
    after.Sound ∧ after.toIterator = event.respond walker.toIterator := by
  cases event with
  | produce => exact h.produce hact
  | consume =>
    obtain ⟨hsound, hsame, -⟩ := h.consume hact
    exact ⟨hsound, hsame⟩
  | next =>
    rw [act?] at hact
    split at hact
    · rename_i outcome hphase
      obtain rfl := Option.some.inj hact
      exact h.next hphase
    · cases hact
  | close =>
    rw [act?] at hact
    split at hact
    · rename_i outcome hphase
      obtain rfl := Option.some.inj hact
      exact h.close hphase
    · cases hact

theorem Sound.measure_lt (h : walker.Sound) {event : Event} (hsilent : event.isSilent = true)
    (hact : walker.act? event = some after) : after.measure < walker.measure := by
  cases event with
  | produce =>
    obtain ⟨hframe, -, -, hlt, -⟩ := produces hact
    have hphase : after.phase = walker.phase := by rw [hframe]
    rw [measure, measure, hphase]
    exact Nat.add_lt_add_right hlt _
  | consume =>
    obtain ⟨-, -, hproducer, hlt⟩ := h.consume hact
    rw [measure, measure, hproducer]
    exact Nat.add_lt_add_left hlt _
  | next => cases hsilent
  | close => cases hsilent

/-- What is seen after a run is what the calls have made of it. -/
theorem Sound.run (h : walker.Sound) {events : List Event} (hrun : walker.run? events = some after) :
    after.Sound ∧ after.toIterator = events.foldl Event.respond walker.toIterator := by
  induction events generalizing walker with
  | nil =>
    obtain rfl := Option.some.inj hrun
    exact ⟨h, rfl⟩
  | cons event events ih =>
    obtain ⟨between, hact, hrest⟩ := Option.bind_eq_some_iff.1 hrun
    obtain ⟨hsound, hshown⟩ := h.act hact
    rw [List.foldl_cons, ← hshown]
    exact ih hsound hrest

/-- Between two calls, the thread and the caller act only so often. -/
theorem Sound.length_le_measure (h : walker.Sound) {events : List Event}
    (hsilent : ∀ event ∈ events, event.isSilent = true) (hrun : walker.run? events = some after) :
    events.length ≤ walker.measure := by
  induction events generalizing walker with
  | nil => exact Nat.zero_le _
  | cons event events ih =>
    obtain ⟨hevent, hevents⟩ := List.forall_mem_cons.1 hsilent
    obtain ⟨between, hact, hrest⟩ := Option.bind_eq_some_iff.1 hrun
    have hlength := ih (h.act hact).1 hevents hrest
    have hlt := h.measure_lt hevent hact
    rw [List.length_cons]
    omega

/-! ### Iterators of a memory -/

variable {map : OrderedMap} {contents : Contents}

/-- Whatever a visitor does, it is shown the entries that the walk meets, in order. -/
theorem walkBy_eq (hc : map.Holds contents) {m : Type → Type} [Monad m] [LawfulMonad m] (direction : Direction)
    (bounds : Bounds) (visitor : Entry → m Bool) :
    walkBy map direction bounds visitor = discard (Tree.visitAll visitor (met map direction bounds)) := by
  have hway : ∀ {m : Type → Type} [Monad m] [LawfulMonad m] (visitor : Entry → m Bool),
      walkBy map direction bounds visitor =
        discard (Tree.visitAll visitor (contents.onWay (wayOf direction bounds))) := by
    intro m _ _ visitor
    rw [← hc.follow_eq]
    obtain ⟨lower, upper⟩ := bounds
    cases direction <;> cases lower <;> cases upper <;> rfl
  have hmet : met map direction bounds = contents.onWay (wayOf direction bounds) := by
    rw [met, hway]
    exact gathered_none_none _
  rw [hway, hmet]

/-- What is seen at first is the iterator that holds the range. -/
theorem toIterator_start (hc : map.Holds contents) (direction : Direction) (bounds : Bounds) :
    (start map direction bounds).toIterator = .snapshot bounds (Memory.range map direction bounds) := by
  rw [Memory.range, walk, walkBy_eq hc]
  rfl

/-- The iterator that a memory answers. -/
theorem eq_snapshot_of_run_iterator {direction : Direction} {bounds : Bounds} {it : Iterator}
    {state : OrderedMap} (h : (Memory.store.iterator direction bounds).run.run map = (.ok it, state)) :
    it = .snapshot bounds (Memory.range map direction bounds) := by
  have hrun : ((StoreM.ofExcept (requireBounds bounds) >>= fun _ => do
      return .snapshot bounds (Memory.range (← getThe OrderedMap) direction bounds) :
        StoreM OrderedMap Iterator).run.run map) = (.ok it, state) := h
  cases hbounds : requireBounds bounds with
  | error error =>
    rw [hbounds] at hrun
    cases hrun
  | ok =>
    rw [hbounds] at hrun
    cases hrun
    rfl

/-- **A thread that walks shows the snapshot.**  The iterator that a memory answers holds all entries of its
range.  One whose walk runs in a thread of its own shows the same, whatever the order in which the thread and
the caller act and whatever calls are made: the channel never holds more than it can; whenever a call has
returned it was successful, and the iterator stands on the same entry; until it has returned, the thread
or the caller can act; and without another call they act only so often. -/
theorem run_start (hc : map.Holds contents) {direction : Direction} {bounds : Bounds} {it : Iterator}
    {state : OrderedMap} (hiterator : (Memory.store.iterator direction bounds).run.run map = (.ok it, state))
    {events : List Event} (hrun : (start map direction bounds).run? events = some walker) :
    (∀ waiting ∈ walker.waiting, waiting.length ≤ capacity) ∧
      (∀ outcome, walker.phase = .returned outcome →
        outcome = .ok () ∧ walker.current = Iterator.entry? (events.foldl Event.respond it)) ∧
      ((∀ outcome, walker.phase ≠ .returned outcome) →
        ∃ event : Event, event.isSilent = true ∧ (walker.act? event).isSome) ∧
      ∀ more : List Event, (∀ event ∈ more, event.isSilent = true) → (walker.run? more).isSome →
        more.length ≤ walker.measure := by
  have hit : it = (start map direction bounds).toIterator :=
    (eq_snapshot_of_run_iterator hiterator).trans (toIterator_start hc direction bounds).symm
  obtain ⟨hsound, hshown⟩ := (sound_start map direction bounds).run hrun
  rw [← hit] at hshown
  refine ⟨hsound.length_le, fun outcome hphase => ?_, fun hphase => ?_, fun more hsilent hmore => ?_⟩
  · obtain ⟨hok, hcurrent⟩ := hsound.returned hphase
    exact ⟨hok, hshown ▸ hcurrent⟩
  · rcases hsound.can_act hphase with hproduce | hconsume
    · exact ⟨.produce, rfl, hproduce⟩
    · exact ⟨.consume, rfl, hconsume⟩
  · obtain ⟨last, hlast⟩ := Option.isSome_iff_exists.1 hmore
    exact hsound.length_le_measure hsilent hlast

end Walker

end OrderedStore.Memory
