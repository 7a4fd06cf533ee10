import Mathlib.Data.List.Nodup
import OrderedStore.Proofs.Dump.Lossless
import OrderedStore.Proofs.Utf8
import OrderedStore.Proofs.View.Contents

/-!
# The statistics of stacks of views

A view sets the statistics of its source under names of its own, beside those that tell its stem.  No name of
a source, whatever it is, comes to stand on another one, so that the outermost view of a stack shows the stem
of every view and all statistics of the store below.

* `Stats.setAll_of_nodup` sets values without overwriting any.
* `Stats.nested` is the name of a statistic that has been handed through some views.
* `Stats.ofStack` lists what a stack of views is to show; `Handle.stats_eq_ofStack` shows it.
-/

namespace OrderedStore

/-! ### Reading hexadecimal text -/

/-- The byte string that a hexadecimal text stands for. -/
def Bytes.ofHex? : List Char → Option Bytes
  | [] => some []
  | high :: low :: rest => do return (← Dump.byte? high low) :: (← ofHex? rest)
  | _ => none

theorem Bytes.ofHex?_hex (bytes : Bytes) : ofHex? bytes.hex = some bytes := by
  induction bytes with
  | nil => rfl
  | cons byte bytes ih =>
    rw [hex_cons, ofHex?, Dump.byte?_eq_some_iff.2 ⟨rfl, rfl⟩, ih]
    rfl

namespace Stats

/-! ### Statistics without repetitions -/

/-- The names of statistics. -/
def names (stats : Stats) : List String := stats.map Prod.fst

variable {stats others : Stats} {stat : String × String}

@[simp] theorem names_append (stats others : Stats) : names (stats ++ others) = names stats ++ names others :=
  List.map_append

theorem set_of_notMem (h : stat.1 ∉ names stats) : set stats stat = stats ++ [stat] := by
  have hkeep : stats.filter (fun other => other.1 != stat.1) = stats := by
    refine List.filter_eq_self.2 fun other hother => bne_iff_ne.2 ?_
    rintro heq
    exact h (heq ▸ List.mem_map_of_mem hother)
  rw [set, hkeep]

/-- New names are added behind the others, and nothing is overwritten. -/
theorem setAll_of_nodup (h : (names (stats ++ others)).Nodup) : setAll stats others = stats ++ others := by
  induction others generalizing stats with
  | nil => rw [List.append_nil]; rfl
  | cons stat others ih =>
    have hnew : stat.1 ∉ names stats := fun hmem => by
      rw [names_append, List.nodup_append'] at h
      exact h.2.2 hmem List.mem_cons_self
    have hset := set_of_notMem hnew
    rw [List.append_cons] at h
    show setAll (set stats stat) others = _
    rw [hset, ih h, List.append_assoc]
    rfl

/-- What is listed under a name that is not repeated is found under it. -/
theorem lookup_eq_some_of_mem (h : (names stats).Nodup) (hmem : stat ∈ stats) :
    stats.lookup stat.1 = some stat.2 := by
  obtain ⟨before, behind, rfl⟩ := List.append_of_mem hmem
  refine List.lookup_eq_some_iff.2 ⟨before, behind, rfl, fun other hother => bne_iff_ne.2 ?_⟩
  rintro heq
  rw [names_append, List.nodup_append'] at h
  exact h.2.2 (heq ▸ List.mem_map_of_mem hother) List.mem_cons_self

/-! ### Names -/

/-- The name that a statistic has after it has been handed through some views. -/
def nested : Nat → String → String
  | 0, name => name
  | depth + 1, name => Store.sourceName (nested depth name)

theorem sourceName_inj {a b : String} : Store.sourceName a = Store.sourceName b ↔ a = b :=
  String.append_right_inj _

/-- The statistics that a view has besides those of its source. -/
def ofStem (stem : Bytes) : Stats :=
  [("prefixdb.prefix.string", Utf8.decodeLossy stem), ("prefixdb.prefix.hex", String.ofList stem.hex)]

theorem nodup_names_ofStem (stem : Bytes) : (names (ofStem stem)).Nodup := by
  show ["prefixdb.prefix.string", "prefixdb.prefix.hex"].Nodup
  decide

theorem take_sourceName (name : String) :
    (Store.sourceName name).toList.take 16 = "prefixdb.source.".toList := by
  have happend : (Store.sourceName name).toList = "prefixdb.source.".toList ++ name.toList :=
    String.toList_append
  exact (congrArg (List.take 16) happend).trans (List.take_left' (by decide))

/-- A view gives no statistic of its source a name that it has itself. -/
theorem sourceName_notMem_names_ofStem (name : String) (stem : Bytes) :
    Store.sourceName name ∉ names (ofStem stem) := by
  have hown : ∀ own ∈ ["prefixdb.prefix.string", "prefixdb.prefix.hex"],
      own.toList.take 16 ≠ "prefixdb.source.".toList := by decide
  exact fun h => hown _ h (take_sourceName name)

/-- The names of a view are all different if those of its source are. -/
theorem nodup_names_view (h : (names stats).Nodup) (stem : Bytes) :
    (names (ofStem stem ++ stats.map fun stat => (Store.sourceName stat.1, stat.2))).Nodup := by
  have hnames : names (stats.map fun stat => (Store.sourceName stat.1, stat.2)) =
      (names stats).map Store.sourceName := by
    rw [names, names, List.map_map, List.map_map]
    rfl
  rw [names_append, hnames]
  refine List.nodup_append.2 ⟨nodup_names_ofStem stem, h.map fun _ _ => sourceName_inj.1, ?_⟩
  intro own hown other hother heq
  obtain ⟨name, -, rfl⟩ := List.mem_map.1 hother
  exact sourceName_notMem_names_ofStem name stem (heq ▸ hown)

theorem viewStats_eq (h : (names stats).Nodup) (stem : Bytes) :
    Store.viewStats stem stats =
      ofStem stem ++ stats.map fun stat => (Store.sourceName stat.1, stat.2) :=
  setAll_of_nodup (nodup_names_view h stem)

/-! ### Stacks -/

/-- What a stack of views under the stems, the outermost first, is to show of its stems and of the statistics
of the store below. -/
def ofStack (stems : List Bytes) (base : Stats) : Stats :=
  (stems.zipIdx.flatMap fun level => (ofStem level.1).map fun stat => (nested level.2 stat.1, stat.2)) ++
    base.map fun stat => (nested stems.length stat.1, stat.2)

theorem ofStack_nil (base : Stats) : ofStack [] base = base := by
  show base.map id = base
  exact List.map_id _

/-- One more view hands all names through. -/
theorem ofStack_cons (stem : Bytes) (stems : List Bytes) (base : Stats) :
    ofStack (stem :: stems) base =
      ofStem stem ++ (ofStack stems base).map fun stat => (Store.sourceName stat.1, stat.2) := by
  simp only [ofStack, List.zipIdx_cons, List.zipIdx_succ, List.flatMap_cons, List.flatMap_map, List.map_append,
    List.map_flatMap, List.map_map, List.length_cons, List.append_assoc]
  rfl

theorem mem_ofStack_of_level {stems : List Bytes} {base : Stats} {depth : Nat} {stem : Bytes}
    (h : stems[depth]? = some stem) (hstat : stat ∈ ofStem stem) :
    (nested depth stat.1, stat.2) ∈ ofStack stems base := by
  refine List.mem_append_left _ (List.mem_flatMap.2 ⟨(stem, depth), ?_, List.mem_map_of_mem hstat⟩)
  exact List.mem_zipIdx_iff_getElem?.2 h

theorem mem_ofStack_of_base {stems : List Bytes} {base : Stats} (hstat : stat ∈ base) :
    (nested stems.length stat.1, stat.2) ∈ ofStack stems base :=
  List.mem_append_right _ (List.mem_map_of_mem hstat)

end Stats

namespace Handle

variable {ρ σ : Type}

/-- The stems of the views of a handle one by one, the outermost first. -/
def stems : Handle ρ → List Bytes
  | root _ => []
  | view stem source => stem :: source.stems

/-- Nothing is overwritten on the way up. -/
theorem stats_eq_ofStack (roots : ρ → Store σ) (handle : Handle ρ) (state : σ)
    (hbase : (Stats.names ((roots handle.base).stats state)).Nodup) :
    (handle.store roots).stats state = Stats.ofStack handle.stems ((roots handle.base).stats state) ∧
      (Stats.names ((handle.store roots).stats state)).Nodup := by
  induction handle with
  | root name => exact ⟨(Stats.ofStack_nil _).symm, hbase⟩
  | view stem source ih =>
    obtain ⟨hsource, hnodup⟩ := ih hbase
    have hview : ((view stem source).store roots).stats state = _ := Stats.viewStats_eq hnodup stem
    rw [hview]
    refine ⟨?_, Stats.nodup_names_view hnodup stem⟩
    rw [hsource, stems, Stats.ofStack_cons]
    rfl

/-- **Stacks of views lose no statistics.**  Let the statistics of a store have different names, whatever they
are.  Through a stack of views the stem of every view is found as text and in hexadecimal, and every value of
the store as it was, each under a name that tells how many views it has been handed through.  These names are
all different and there are no others.  A stem is read off its hexadecimal text, and one that encodes a text is
shown as this text. -/
theorem stats_of_stack (roots : ρ → Store σ) (handle : Handle ρ) (state : σ)
    (hbase : (Stats.names ((roots handle.base).stats state)).Nodup) :
    let base := (roots handle.base).stats state
    let stats := (handle.store roots).stats state
    (∀ (depth : Nat) (stem : Bytes), handle.stems[depth]? = some stem →
        stats.lookup (Stats.nested depth "prefixdb.prefix.string") = some (Utf8.decodeLossy stem) ∧
          (∀ text, stem = Bytes.ofString text → Utf8.decodeLossy stem = text) ∧
          ∃ hex, stats.lookup (Stats.nested depth "prefixdb.prefix.hex") = some hex ∧
            hex = String.ofList stem.hex ∧ Bytes.ofHex? hex.toList = some stem) ∧
      (∀ stat ∈ base, stats.lookup (Stats.nested handle.stems.length stat.1) = some stat.2) ∧
      stats = Stats.ofStack handle.stems base ∧ (Stats.names stats).Nodup := by
  intro base stats
  have hall : stats = Stats.ofStack handle.stems base ∧ (Stats.names stats).Nodup :=
    handle.stats_eq_ofStack roots state hbase
  obtain ⟨hstack, hnodup⟩ := hall
  have hfound : ∀ stat ∈ Stats.ofStack handle.stems base, stats.lookup stat.1 = some stat.2 := by
    intro stat hstat
    rw [← hstack] at hstat
    exact Stats.lookup_eq_some_of_mem hnodup hstat
  refine ⟨fun depth stem hstem => ⟨?_, ?_, String.ofList stem.hex, ?_, rfl, ?_⟩, fun stat hstat => ?_, hstack,
    hnodup⟩
  · exact hfound _ (Stats.mem_ofStack_of_level hstem List.mem_cons_self)
  · rintro text rfl
    exact Utf8.decodeLossy_ofString text
  · exact hfound _ (Stats.mem_ofStack_of_level hstem (List.mem_cons_of_mem _ List.mem_cons_self))
  · rw [String.toList_ofList, Bytes.ofHex?_hex]
  · exact hfound _ (Stats.mem_ofStack_of_base hstat)

/-- Two views of an engine whose own statistics are named like those of views. -/
theorem stats_of_stack_clashing :
    let extra : Stats := [("prefixdb.prefix.hex", "00"), ("prefixdb.source.prefixdb.prefix.hex", "01")]
    let roots := fun _ : Unit => (SortedEngine.engine "odd" extra).store
    let handle : Handle Unit := .view [0xC3, 0xA9] (.view [0xFF] (.root ()))
    let stats := (handle.store roots).stats .empty
    (Stats.names ((roots handle.base).stats .empty)).Nodup ∧
      stats.lookup "prefixdb.prefix.string" = some "é" ∧
      stats.lookup "prefixdb.source.prefixdb.prefix.hex" = some "FF" ∧
      stats.lookup "prefixdb.source.prefixdb.source.prefixdb.prefix.hex" = some "00" ∧
      stats.lookup "prefixdb.source.prefixdb.source.prefixdb.source.prefixdb.prefix.hex" = some "01" ∧
      stats.length = 8 ∧ (Stats.names stats).Nodup := by
  intro extra roots handle stats
  have hbase : (Stats.names ((roots handle.base).stats .empty)).Nodup := by decide
  obtain ⟨hlevels, hbelow, hstack, hnodup⟩ := handle.stats_of_stack roots .empty hbase
  obtain ⟨htext, hread, -⟩ := hlevels 0 [0xC3, 0xA9] rfl
  obtain ⟨-, -, hex, hhex, hvalue, -⟩ := hlevels 1 [0xFF] rfl
  rw [hread "é" (by decide)] at htext
  have hfirst := hbelow ("prefixdb.prefix.hex", "00") (by decide)
  have hsecond := hbelow ("prefixdb.source.prefixdb.prefix.hex", "01") (by decide)
  exact ⟨hbase, htext, hhex.trans (congrArg some (hvalue.trans (by decide))), hfirst, hsecond,
    (congrArg List.length hstack).trans rfl, hnodup⟩

end Handle

end OrderedStore
