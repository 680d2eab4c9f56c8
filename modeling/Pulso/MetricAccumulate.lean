import Pulso.MetricTiers

/-! Accumulating the sources of one pass: the builder holds exactly the rows of the
segments read so far that fall in its partition, in order. -/
namespace Pulso.MetricTiers
open Pulso.Metric List

def inPartition (partition : Option (UInt32 × UInt32)) (row : Row) : Bool :=
  match partition with
  | none => true
  | some (index,count) => Native.namePartition row.labels.metricName count = index

variable {b b' : Builder} {xs ys : List Row}

namespace Builder

def stored (b : Builder) : List Row := b.rows.filterMap b.row

structure Grows (b b' : Builder) : Prop where
  partition : b'.partition = b.partition
  bounds : b'.start = b.start ∧ b'.finish = b.finish ∧ b'.maxRows = b.maxRows
  series : b.series.canonical <+: b'.series.canonical
  extras : b.extras <+: b'.extras

theorem Grows.refl (b : Builder) : b.Grows b := ⟨rfl,⟨rfl,rfl,rfl⟩,prefix_rfl,prefix_rfl⟩

theorem Grows.trans {a c : Builder} (first : a.Grows b) (second : b.Grows c) : a.Grows c where
  partition := second.partition.trans first.partition
  bounds := ⟨second.bounds.1.trans first.bounds.1,second.bounds.2.1.trans first.bounds.2.1,
    second.bounds.2.2.trans first.bounds.2.2⟩
  series := first.series.trans second.series
  extras := first.extras.trans second.extras

theorem prefixGet {α : Type} {xs ys} (h : xs <+: ys) {i : Nat} {x : α} (found : xs[i]? = some x) : ys[i]? = some x := by
  obtain ⟨rest,rfl⟩ := h
  have bound := (List.getElem?_eq_some_iff.mp found).1
  rw [getElem?_append_left bound,found]

theorem Grows.row (h : b.Grows b') {c : CompactRow} {r : Row} (found : b.row c = some r) : b'.row c = some r := by
  simp only [Builder.row,bind,Option.bind_eq_some_iff] at found ⊢
  obtain ⟨canonical,series,labels,parsed,extra,read,last⟩ := found
  refine ⟨canonical,prefixGet h.series series,labels,parsed,extra,?_,last⟩
  cases at' : c.extra with
  | none =>
    rw [at'] at read
    exact read
  | some index =>
    rw [at'] at read
    exact prefixGet h.extras read

structure Wf (b : Builder) : Prop where
  readable : ∀ c ∈ b.rows, ∃ row, b.row c = some row
  fewSeries : b.series.canonical.length ≤ b.rows.length
  fewExtras : b.extras.length ≤ b.rows.length

theorem newWf (start finish : Int) (maxRows : Nat) (partition : Option (UInt32 × UInt32)) :
    (new start finish maxRows partition).Wf := ⟨by simp [new],Nat.le_refl _,Nat.le_refl _⟩

theorem Wf.storedLength (h : b.Wf) : b.stored.length = b.rows.length := by
  have total : ∀ rows : List CompactRow, (∀ c ∈ rows, ∃ row, b.row c = some row) →
      (rows.filterMap b.row).length = rows.length := by
    intro rows readable
    induction rows with
    | nil => rfl
    | cons c rows ih =>
      obtain ⟨row,read⟩ := readable c mem_cons_self
      rw [filterMap_cons_some read,length_cons,length_cons,ih (forall_mem_cons.mp readable).2]
  exact total b.rows h.readable

theorem Wf.storedGrows (h : b.Wf) (grows : b.Grows b') : b.rows.filterMap b'.row = b.stored := by
  apply filterMap_congr
  intro c mem
  obtain ⟨row,read⟩ := h.readable c mem
  rw [read,grows.row read]

structure Adds (b b' : Builder) (rows : List Row) : Prop where
  grows : b.Grows b'
  wf : b'.Wf
  stored : b'.stored = b.stored ++ rows.filter (inPartition b.partition)

theorem Adds.none (h : b.Wf) : b.Adds b [] := ⟨.refl b,h,by simp⟩

theorem Adds.trans {a c : Builder} (first : a.Adds b xs) (second : b.Adds c ys) : a.Adds c (xs ++ ys) where
  grows := first.grows.trans second.grows
  wf := second.wf
  stored := by rw [second.stored,first.stored,first.grows.partition,filter_append,append_assoc]

end Builder

theorem Series.internCases {s s' : Series} {canonical index} (h : s.intern canonical = .ok (index,s')) :
    s'.canonical[index]? = some canonical ∧ (s' = s ∨ s'.canonical = s.canonical ++ [canonical]) := by
  unfold intern at h
  split at h
  · rename_i found
    cases h
    obtain ⟨bound,same,_⟩ := findIdx?_eq_some_iff_getElem.mp found
    exact ⟨List.getElem?_eq_some_iff.mpr ⟨bound,by simpa using same⟩,.inl rfl⟩
  · split at h
    · cases h
    simp only [bind,Except.bind] at h
    split at h
    · cases h
    · cases h
      exact ⟨by simp,.inr rfl⟩

theorem Series.internOk (s : Series) (labels : Labels) (room : s.canonical.length < maxSeries) :
    ∃ index s', s.intern labels.canonical = .ok (index,s') := by
  unfold intern
  split
  · exact ⟨_,_,rfl⟩
  · rw [if_neg (by omega),validatedName,labels.fromCanonicalSelf]
    exact ⟨_,_,rfl⟩

namespace Builder

def Slotted (b : Builder) (labels : Labels) : Slot → Prop
  | .unread => True
  | .skipped => ∀ row : Row, row.labels = labels → inPartition b.partition row = false
  | .series index => (∀ row : Row, row.labels = labels → inPartition b.partition row = true) ∧
      b.series.canonical[index]? = some labels.canonical

variable {labels : Labels} {slot : Slot}

theorem Slotted.grows (grows : b.Grows b') (h : b.Slotted labels slot) : b'.Slotted labels slot := by
  cases slot with
  | unread => trivial
  | skipped =>
    unfold Slotted
    rw [grows.partition]
    exact h
  | series index =>
    unfold Slotted
    rw [grows.partition]
    exact ⟨h.1,prefixGet grows.series h.2⟩

structure Placed (b b' : Builder) : Prop where
  grows : b.Grows b'
  rows : b'.rows = b.rows
  extras : b'.extras = b.extras
  series : b'.series.canonical.length ≤ b.series.canonical.length + 1

theorem internCases {canonical : Bytes} (h : b.intern canonical = .ok (slot,b')) :
    b.Placed b' ∧ ∃ index, slot = .series index ∧ b'.series.canonical[index]? = some canonical := by
  obtain ⟨out,interned,h⟩ := Results.bindOk h
  cases h
  obtain ⟨found,same | grown⟩ := Series.internCases interned
  · refine ⟨⟨⟨rfl,⟨rfl,rfl,rfl⟩,?_,prefix_rfl⟩,rfl,rfl,?_⟩,_,rfl,found⟩
    · exact ⟨[],by rw [same,append_nil]⟩
    · rw [same]; exact Nat.le_succ _
  refine ⟨⟨⟨rfl,⟨rfl,rfl,rfl⟩,?_,prefix_rfl⟩,rfl,rfl,?_⟩,_,rfl,found⟩
  · rw [grown]; exact prefix_append _ _
  · rw [grown,length_append]; exact Nat.le_refl _

@[simp] theorem validatedNameSelf (labels : Labels) : validatedName labels.canonical = .ok labels.metricName := by
  rw [validatedName,labels.fromCanonicalSelf]

theorem placeCases (h : b.place labels.canonical = .ok (slot,b')) :
    b.Placed b' ∧ b'.Slotted labels slot ∧ (slot = .skipped ∧ b' = b ∨ ∃ index, slot = .series index) := by
  have kept (all : ∀ row : Row, row.labels = labels → inPartition b.partition row = true)
      (h : b.intern labels.canonical = .ok (slot,b')) :
      b.Placed b' ∧ b'.Slotted labels slot ∧ (slot = .skipped ∧ b' = b ∨ ∃ index, slot = .series index) := by
    obtain ⟨placed,index,rfl,found⟩ := internCases h
    exact ⟨placed,⟨placed.grows.partition ▸ all,found⟩,.inr ⟨index,rfl⟩⟩
  unfold place at h
  split at h
  · rename_i index count part
    simp only [validatedNameSelf,bind,Except.bind] at h
    split at h
    · rename_i other
      cases h
      refine ⟨⟨.refl b,rfl,rfl,Nat.le_succ _⟩,?_,.inl ⟨rfl,rfl⟩⟩
      rintro row rfl
      simp only [inPartition,part,decide_eq_false_iff_not]
      exact other
    · rename_i same
      refine kept ?_ h
      rintro row rfl
      simp only [inPartition,part,decide_eq_true_eq]
      exact not_not.mp same
  · rename_i whole
    refine kept ?_ h
    rintro row rfl
    simp only [inPartition,whole]

theorem placeOk (b : Builder) (row : Row)
    (room : inPartition b.partition row = true → b.series.canonical.length < maxSeries) :
    ∃ slot b', b.place row.labels.canonical = .ok (slot,b') := by
  have whole (room : b.series.canonical.length < maxSeries) :
      ∃ slot b', b.intern row.labels.canonical = .ok (slot,b') := by
    obtain ⟨index,series,interned⟩ := b.series.internOk row.labels room
    exact ⟨.series index,{ b with series := series },by simp only [intern,interned,bind,Except.bind]⟩
  unfold place
  split
  · rename_i index count part
    simp only [validatedNameSelf,bind,Except.bind]
    split
    · exact ⟨_,_,rfl⟩
    · rename_i same
      exact whole (room (by simpa only [inPartition,part,decide_eq_true_eq] using not_not.mp same))
  · rename_i all
    exact whole (room (by simp only [inPartition,all]))

def cellRow {n : Nat} (cell : Cell n) (labels : Labels) : Row := ⟨cell.toExtra,cell.seriesId,cell.ts,cell.value,labels⟩

theorem pushCases {n index} {cell : Cell n}
    (found : b.series.canonical[index]? = some labels.canonical) (h : b.push index cell = .ok b') :
    b.Grows b' ∧ b'.series = b.series ∧ b'.extras.length ≤ b.extras.length + 1 ∧
      ∃ c, b'.rows = b.rows ++ [c] ∧ b'.row c = some (cellRow cell labels) := by
  unfold push at h
  split at h
  · cases h
  split at h
  · cases h
  split at h
  · rename_i plain
    cases h
    refine ⟨⟨rfl,⟨rfl,rfl,rfl⟩,prefix_rfl,prefix_rfl⟩,rfl,Nat.le_succ _,_,rfl,?_⟩
    have bare : cell.toExtra = ⟨none,none,none,none⟩ := by
      cases cell with
      | mk extra => cases extra; simp_all
    simp [row,extraOf,found,labels.fromCanonicalSelf,cellRow,bare]
  · split at h
    · cases h
    cases h
    refine ⟨⟨rfl,⟨rfl,rfl,rfl⟩,prefix_rfl,prefix_append _ _⟩,rfl,by simp,_,rfl,?_⟩
    simp [row,extraOf,found,labels.fromCanonicalSelf,cellRow]

theorem pushOk {n} (b : Builder) (index : Nat) (cell : Cell n) (room : b.rows.length < b.maxRows)
    (started : cell.start ≠ some 0) (extras : b.extras.length < noExtra - 1) : ∃ b', b.push index cell = .ok b' := by
  unfold push
  rw [if_neg (by omega),if_neg started]
  split
  · exact ⟨_,rfl⟩
  · rw [if_neg (by omega)]
    exact ⟨_,rfl⟩

theorem keptGrows (wf : b.Wf) (grows : b.Grows b') {c r}
    (rows : b'.rows = b.rows ++ [c]) (read : b'.row c = some r) (kept : inPartition b.partition r = true)
    (series : b'.series.canonical.length ≤ b.series.canonical.length + 1)
    (extras : b'.extras.length ≤ b.extras.length + 1) : b.Adds b' [r] := by
  have one : b'.rows.length = b.rows.length + 1 := by rw [rows,length_append,length_singleton]
  refine ⟨grows,⟨?_,?_,?_⟩,?_⟩
  · intro d mem
    rw [rows] at mem
    rcases mem_append.mp mem with old | new
    · obtain ⟨row,found⟩ := wf.readable d old
      exact ⟨row,grows.row found⟩
    · cases mem_singleton.mp new
      exact ⟨r,read⟩
  · have := wf.fewSeries
    omega
  · have := wf.fewExtras
    omega
  · rw [stored,rows,filterMap_append,wf.storedGrows grows,filterMap_cons_some read,filterMap_nil,
      filter_cons_of_pos kept,filter_nil]

structure Slots (b : Builder) (dictionary : List Labels) (slots : List Slot) : Prop where
  length : slots.length = dictionary.length
  right : ∀ key : Fin dictionary.length, b.Slotted (dictionary.get key) (slots.getD key .unread)

variable {dictionary : List Labels} {slots : List Slot}

theorem Slots.fill (h : b.Slots dictionary slots)
    (grows : b.Grows b') {key} (right : b'.Slotted (dictionary.get key) slot) :
    b'.Slots dictionary (slots.set key slot) := by
  refine ⟨by rw [length_set,h.length],?_⟩
  intro other
  by_cases same : key = other
  · subst same
    have bound : key.val < slots.length := by
      rw [h.length]
      exact key.isLt
    rw [getD_eq_getElem?_getD,getElem?_set_self bound]
    exact right
  · have apart : key.val ≠ other.val := fun eq => same (Fin.ext eq)
    rw [getD_eq_getElem?_getD,getElem?_set_ne apart,← getD_eq_getElem?_getD]
    exact (h.right other).grows grows

theorem slotOfCases {key} (right : b.Slots dictionary slots) (h : slotOf dictionary (b,slots) key = .ok (slot,b')) :
    b.Placed b' ∧ b'.Slotted (dictionary.get key) slot ∧ (slot = .skipped ∧ b' = b ∨ ∃ index, slot = .series index) := by
  have known := right.right key
  unfold slotOf at h
  split at h
  · exact placeCases h
  rename_i filled other
  cases h
  refine ⟨⟨.refl b,rfl,rfl,Nat.le_succ _⟩,known,?_⟩
  cases read : slots.getD key .unread with
  | unread => exact absurd read other
  | skipped => exact .inl ⟨rfl,rfl⟩
  | series index => exact .inr ⟨index,rfl⟩

theorem addCellCases {slots' cell} (wf : b.Wf) (right : b.Slots dictionary slots)
    (h : addCell dictionary (b,slots) cell = .ok (b',slots')) :
    b.Adds b' [cellRow cell (dictionary.get cell.key)] ∧ b'.Slots dictionary slots' := by
  obtain ⟨⟨slot,placed⟩,found,h⟩ := Results.bindOk h
  obtain ⟨step,slotted,⟨rfl,rfl⟩ | ⟨index,rfl⟩⟩ := slotOfCases right found
  · cases h
    have other := slotted (cellRow cell (dictionary.get cell.key)) rfl
    refine ⟨⟨.refl _,wf,?_⟩,right.fill (.refl _) slotted⟩
    rw [filter_cons_of_neg (by rw [other]; decide),filter_nil,append_nil]
  obtain ⟨final,pushed,h⟩ := Results.bindOk h
  cases h
  obtain ⟨grows,series,extras,c,rows,read⟩ := pushCases slotted.2 pushed
  have all := step.grows.trans grows
  rw [step.rows] at rows
  rw [step.extras] at extras
  have kept := slotted.1 (cellRow cell (dictionary.get cell.key)) rfl
  rw [step.grows.partition] at kept
  exact ⟨keptGrows wf all rows read kept (series ▸ step.series) extras,right.fill all (slotted.grows grows)⟩

structure Fits (b : Builder) (rows : List Row) : Prop where
  limit : b.maxRows ≤ maxSeries
  started : ∀ row ∈ rows, row.start ≠ some 0
  room : b.rows.length + (rows.filter (inPartition b.partition)).length ≤ b.maxRows

theorem Fits.first (h : b.Fits (xs ++ ys)) : b.Fits xs where
  limit := h.limit
  started row mem := h.started row (mem_append_left ys mem)
  room := by
    have := h.room
    rw [filter_append,length_append] at this
    omega

theorem Fits.rest (h : b.Fits (xs ++ ys)) (wf : b.Wf) (adds : b.Adds b' xs) : b'.Fits ys where
  limit := adds.grows.bounds.2.2 ▸ h.limit
  started row mem := h.started row (mem_append_right xs mem)
  room := by
    have whole := h.room
    have held := congrArg List.length adds.stored
    rw [length_append,adds.wf.storedLength,wf.storedLength] at held
    rw [filter_append,length_append] at whole
    rw [adds.grows.bounds.2.2,adds.grows.partition]
    omega

theorem addCellOk {cell}
    (wf : b.Wf) (right : b.Slots dictionary slots) (fits : b.Fits [cellRow cell (dictionary.get cell.key)]) :
    ∃ state, addCell dictionary (b,slots) cell = .ok state := by
  have room : inPartition b.partition (cellRow cell (dictionary.get cell.key)) = true → b.rows.length < b.maxRows := by
    intro kept
    have := fits.room
    rw [filter_cons_of_pos kept,length_cons] at this
    omega
  have limit := fits.limit
  have few := wf.fewSeries
  have extras := wf.fewExtras
  have found : ∃ slot placed, slotOf dictionary (b,slots) cell.key = .ok (slot,placed) := by
    unfold slotOf
    split
    · exact placeOk b (cellRow cell (dictionary.get cell.key)) (fun kept => by have := room kept; omega)
    · exact ⟨_,_,rfl⟩
  obtain ⟨slot,placed,found⟩ := found
  unfold addCell
  simp only [found,bind,Except.bind]
  obtain ⟨step,slotted,⟨rfl,rfl⟩ | ⟨index,rfl⟩⟩ := slotOfCases right found
  · exact ⟨_,rfl⟩
  have kept := slotted.1 (cellRow cell (dictionary.get cell.key)) rfl
  rw [step.grows.partition] at kept
  have open' := room kept
  obtain ⟨final,pushed⟩ := pushOk placed index cell
    (by rw [step.rows,step.grows.bounds.2.2]; exact open')
    (fits.started _ mem_cons_self)
    (by rw [step.extras]; simp only [noExtra,maxSeries] at *; omega)
  simp only [pushed]
  exact ⟨_,rfl⟩

structure Accumulates {ε σ α : Type} (step : σ → α → Except ε σ) (builder : σ → Builder) (rowsOf : α → List Row)
    (Inv : σ → Prop) : Prop where
  wf : ∀ {s}, Inv s → (builder s).Wf
  adds : ∀ {s x s'}, Inv s → step s x = .ok s' → (builder s).Adds (builder s') (rowsOf x) ∧ Inv s'

section Runs
variable {ε σ α : Type} {step : σ → α → Except ε σ} {builder : σ → Builder} {rowsOf : α → List Row} {Inv : σ → Prop}

theorem Accumulates.run (each : Accumulates step builder rowsOf Inv) {xs : List α} {s s'} (inv : Inv s)
    (h : xs.foldlM step s = .ok s') : (builder s).Adds (builder s') (xs.flatMap rowsOf) ∧ Inv s' := by
  induction xs generalizing s with
  | nil =>
    cases h
    exact ⟨.none (each.wf inv),inv⟩
  | cons x xs ih =>
    obtain ⟨next,first,h⟩ := Results.bindOk h
    obtain ⟨here,inv⟩ := each.adds inv first
    obtain ⟨later,inv⟩ := ih inv h
    exact ⟨here.trans later,inv⟩

theorem Accumulates.runs (each : Accumulates step builder rowsOf Inv)
    (able : ∀ {s x}, Inv s → (builder s).Fits (rowsOf x) → ∃ s', step s x = .ok s') {xs : List α} {s} (inv : Inv s)
    (fits : (builder s).Fits (xs.flatMap rowsOf)) : ∃ s', xs.foldlM step s = .ok s' := by
  induction xs generalizing s with
  | nil => exact ⟨s,rfl⟩
  | cons x xs ih =>
    rw [flatMap_cons] at fits
    obtain ⟨next,first⟩ := able inv fits.first
    obtain ⟨here,later⟩ := each.adds inv first
    obtain ⟨s',rest⟩ := ih later (fits.rest (each.wf inv) here)
    refine ⟨s',?_⟩
    rw [foldlM_cons]
    simpa only [first,bind,Except.bind] using rest

end Runs

theorem flatMapRows (batch : Batch) :
    batch.cells.flatMap (fun c => [cellRow c (batch.dictionary.get c.key)]) = batch.rows := map_eq_flatMap.symm

theorem freshSlots (b : Builder) (dictionary : List Labels) :
    b.Slots dictionary (List.replicate dictionary.length .unread) := by
  refine ⟨length_replicate,?_⟩
  intro key
  rw [getD_eq_getElem?_getD,getElem?_replicate]
  split <;> trivial

def Reading (dictionary : List Labels) (state : Builder × List Slot) : Prop :=
  state.1.Wf ∧ state.1.Slots dictionary state.2

theorem cellsAccumulate (dictionary : List Labels) :
    Accumulates (addCell dictionary) Prod.fst (fun c => [cellRow c (dictionary.get c.key)]) (Reading dictionary) where
  wf reading := reading.1
  adds reading h := by
    obtain ⟨adds,slots⟩ := addCellCases reading.1 reading.2 h
    exact ⟨adds,adds.wf,slots⟩

theorem addBatchCases {batch : Batch} (wf : b.Wf) (h : b.addBatch batch = .ok b') : b.Adds b' batch.rows := by
  unfold addBatch at h
  obtain ⟨state,cells,h⟩ := Results.bindOk h
  cases h
  rw [← flatMapRows]
  exact ((cellsAccumulate batch.dictionary).run ⟨wf,b.freshSlots batch.dictionary⟩ cells).1

theorem addBatchOk {batch : Batch} (wf : b.Wf) (fits : b.Fits batch.rows) : ∃ b', b.addBatch batch = .ok b' := by
  rw [← flatMapRows] at fits
  have start : Reading batch.dictionary (b,List.replicate batch.dictionary.length .unread) :=
    ⟨wf,b.freshSlots batch.dictionary⟩
  obtain ⟨state,cells⟩ := (cellsAccumulate batch.dictionary).runs
    (fun reading fits => addCellOk reading.1 reading.2 fits) start fits
  refine ⟨state.1,?_⟩
  unfold addBatch
  simp only [cells,bind,Except.bind]

theorem batchesAccumulate : Accumulates addBatch id Batch.rows Wf where
  wf := id
  adds wf h := ⟨addBatchCases wf h,(addBatchCases wf h).wf⟩

theorem addCases {batches : List Batch} (wf : b.Wf) (h : b.add batches = .ok b') :
    b.Adds b' (batches.flatMap Batch.rows) := (batchesAccumulate.run wf h).1

theorem addOk {batches : List Batch} (wf : b.Wf) (fits : b.Fits (batches.flatMap Batch.rows)) :
    ∃ b', b.add batches = .ok b' := batchesAccumulate.runs addBatchOk wf fits

end Builder
end Pulso.MetricTiers
