import Pulso.RollupRows

/-! The rollups a builder reads back: each label set with rows in the hour has at most one,
folded from exactly its rows in time order. -/
namespace Pulso.MetricTiers
open Pulso.PromQL Pulso.Metric Pulso.Lists List

def Series.Interned (s : Series) (table : List Labels) : Prop := s.canonical = table.map Labels.canonical ∧ table.Nodup

variable {labels : Labels}

theorem Series.internInterned {s s' : Series} {table} (h : s.Interned table) {index}
    (placed : s.intern labels.canonical = .ok (index,s')) : ∃ more, s'.Interned more := by
  unfold intern at placed
  split at placed
  · cases placed
    exact ⟨table,h⟩
  rename_i missing
  split at placed
  · cases placed
  simp only [bind,Except.bind] at placed
  split at placed
  · cases placed
  cases placed
  refine ⟨table ++ [labels],?_,?_⟩
  · simp only [map_append,map_cons,map_nil,h.1]
  rw [nodup_append]
  refine ⟨h.2,nodup_singleton _,?_⟩
  intro a mem b last same
  cases mem_singleton.mp last
  subst same
  rw [idxOf?_eq_none_iff] at missing
  exact missing (h.1 ▸ mem_map_of_mem mem)

namespace Builder

def Interned (b : Builder) : Prop := ∃ table, b.series.Interned table

theorem newInterned (start finish : Int) (maxRows : Nat) (partition : Option (UInt32 × UInt32)) :
    (new start finish maxRows partition).Interned := ⟨[],rfl,nodup_nil⟩

variable {b b' : Builder}

theorem internInterned (h : b.Interned) {slot : Slot}
    (placed : b.intern labels.canonical = .ok (slot,b')) : b'.Interned := by
  obtain ⟨table,listed⟩ := h
  obtain ⟨out,found,placed⟩ := Results.bindOk placed
  cases placed
  exact Series.internInterned listed found

theorem placeInterned (h : b.Interned) {slot} (placed : b.place labels.canonical = .ok (slot,b')) : b'.Interned := by
  unfold place at placed
  split at placed
  · simp only [bind,Except.bind] at placed
    split at placed
    · cases placed
    split at placed
    · cases placed
      exact h
    · exact internInterned h placed
  · exact internInterned h placed

theorem pushSeries {n index} {cell : Cell n} (pushed : b.push index cell = .ok b') : b'.series = b.series := by
  unfold push at pushed
  split at pushed
  · cases pushed
  split at pushed
  · cases pushed
  split at pushed
  · cases pushed
    rfl
  split at pushed
  · cases pushed
  · cases pushed
    rfl

theorem addCellInterned {dictionary state state'} {cell : Cell dictionary.length}
    (h : state.1.Interned) (added : addCell dictionary state cell = .ok state') : state'.1.Interned := by
  obtain ⟨⟨slot,placed⟩,found,added⟩ := Results.bindOk added
  have interned : placed.Interned := by
    unfold slotOf at found
    split at found
    · exact placeInterned h found
    · cases found
      exact h
  cases slot with
  | series index =>
    obtain ⟨final,pushed,added⟩ := Results.bindOk added
    cases added
    unfold Interned
    rw [pushSeries pushed]
    exact interned
  | unread =>
    cases added
    exact interned
  | skipped =>
    cases added
    exact interned

theorem addBatchInterned {batch} (h : b.Interned) (added : b.addBatch batch = .ok b') : b'.Interned := by
  obtain ⟨out,run,added⟩ := Results.bindOk added
  cases added
  exact Results.foldOk (P := fun _ state => state.1.Interned) (fun _ _ _ _ inv step => addCellInterned inv step) run h

theorem addInterned {batches} (h : b.Interned) (added : b.add batches = .ok b') : b'.Interned :=
  Results.foldOk (P := fun _ b => Interned b) (fun _ _ _ _ inv step => addBatchInterned inv step) added h

def inside (b : Builder) : List CompactRow := b.sorted.take b.insideEnd

def rank (b : Builder) (series : Nat) : Nat := b.series.ranks.getD series 0

theorem insidePerm (b : Builder) : b.inside.Perm (b.rows.filter (fun c => b.timeClass c.ts = 0)) := by
  have kept : b.sorted.filter (fun c => b.timeClass c.ts = 0) = b.inside := by
    have all : (b.sorted.take b.insideEnd).filter (fun c => b.timeClass c.ts = 0) = b.sorted.take b.insideEnd := by
      rw [filter_eq_self]
      intro c mem
      exact decide_eq_true (b.insideClass c mem)
    have none : (b.sorted.drop b.insideEnd).filter (fun c => b.timeClass c.ts = 0) = [] := by
      rw [filter_eq_nil_iff]
      intro c mem
      have := b.outsideClass c mem
      simp only [decide_eq_true_eq]
      omega
    rw [← take_append_drop b.insideEnd b.sorted,filter_append,all,none,append_nil]
    rfl
  rw [← kept]
  exact b.sortedPerm.filter _

theorem insideOrdered (b : Builder) : b.inside.Pairwise (fun x y =>
    b.rank x.series < b.rank y.series ∨ b.rank x.series = b.rank y.series ∧ x.ts ≤ y.ts) := by
  have ordered := pairwise_insertionSort (fun x y => b.order x ≤ b.order y) b.rows
  have part : b.inside.Pairwise (fun x y => b.order x ≤ b.order y) := ordered.sublist (take_sublist _ _)
  refine part.imp_of_mem ?_
  intro x y left right le
  have second := b.insideClass y right
  rcases Prod.Lex.toLex_le_toLex.mp le with less | ⟨-,le⟩
  · simp only at less
    omega
  rcases Prod.Lex.toLex_le_toLex.mp le with less | ⟨same,le⟩
  · exact .inl less
  refine .inr ⟨same,?_⟩
  rcases Prod.Lex.toLex_le_toLex.mp le with less | ⟨same,-⟩
  · exact less.le
  · exact same.le

def labelsOf (b : Builder) (c : CompactRow) : Option Labels := b.series.canonical[c.series]?.bind Labels.fromCanonical

variable {c : CompactRow}

theorem rowLabels {row} (h : b.row c = some row) : b.labelsOf c = some row.labels := by
  simp only [Builder.row,bind,Option.bind_eq_some_iff] at h
  obtain ⟨canonical,found,labels,parsed,extra,-,last⟩ := h
  cases last
  exact Option.bind_eq_some_iff.mpr ⟨canonical,found,parsed⟩

theorem tableLabels {table} (h : b.series.Interned table) (c : CompactRow) : b.labelsOf c = table[c.series]? := by
  unfold labelsOf
  rw [h.1,getElem?_map]
  cases table[c.series]? with
  | none => rfl
  | some labels => exact labels.fromCanonicalSelf

theorem sameSeries (h : b.Interned) {d} (first : b.labelsOf c = some labels)
    (second : b.labelsOf d = some labels) : c.series = d.series := by
  obtain ⟨table,interned⟩ := h
  rw [tableLabels interned] at first second
  obtain ⟨bound,same⟩ := List.getElem?_eq_some_iff.mp first
  obtain ⟨bound',same'⟩ := List.getElem?_eq_some_iff.mp second
  exact (List.Nodup.getElem_inj_iff interned.2).mp (same.trans same'.symm)

def rowsOf (b : Builder) (labels : Labels) : List CompactRow := b.inside.filter (fun c => b.labelsOf c = some labels)

structure Kept (series : Nat) (bucket : Int) (a : Aggregate) : Prop where
  origin : a.series = series ∧ a.bucket = bucket
  listed : a.resetValues.length = a.resets

variable {a : Aggregate}

theorem pushKept {series bucket} (h : Kept series bucket a) (ts : Int) (value : Number)
    (bits : UInt64) : Kept series bucket (a.push ts value bits) := by
  by_cases empty : a.count = 0
  · rw [Aggregate.pushFirst a empty]
    exact { h with }
  rw [Aggregate.pushNext a empty,Aggregate.transitionEq]
  refine ⟨h.origin,?_⟩
  simp only [length_append,h.listed]
  cases a.last.resets value <;> rfl

theorem instantKept {series bucket} (h : Kept series bucket a)
    (rows : List CompactRow) : Kept series bucket (b.instant a rows) := by
  have flagged : ∀ flags, Kept series bucket { a with flags := flags } := fun _ => { h with }
  unfold instant
  simp only
  split
  · split
    · exact pushKept (flagged _) _ _ _
    · exact flagged _
  · exact flagged _

theorem summarizeKept {rows} (h : b.summarize rows = some a) : ∃ row ∈ rows, Kept row.series b.start a := by
  cases rows with
  | nil => cases h
  | cons row rows =>
    unfold summarize at h
    simp only at h
    split at h
    · cases h
      refine ⟨row,mem_cons_self,?_⟩
      have start : Kept row.series b.start (.new row.series row.seriesId b.start) := ⟨⟨rfl,rfl⟩,rfl⟩
      exact List.foldlRecOn _ b.instant start (fun a kept run _ => instantKept kept run)
    · cases h

theorem rollupRead {row} (h : Kept row.series b.start a) (named : b.labelsOf row = some labels) :
    ∃ r, b.rollup a = some r ∧ r.labels = labels ∧ r.bucket = b.start ∧ r.flags = a.flags ∧ Summary.ofRollup r = a.view := by
  obtain ⟨canonical,found,parsed⟩ := Option.bind_eq_some_iff.mp named
  unfold rollup
  rw [h.origin.1,found]
  simp only [h.listed,ne_eq,not_true_eq_false,if_false,bind,Option.bind,parsed]
  exact ⟨_,rfl,rfl,h.origin.2,rfl,rfl⟩

theorem filterFilterMap {α β : Type} {f} {p : β → Bool} {q : α → Bool} {xs : List α}
    (same : ∀ x ∈ xs, ∀ y, f x = some y → p y = q x) : (xs.filterMap f).filter p = (xs.filter q).filterMap f := by
  induction xs with
  | nil => rfl
  | cons x xs ih =>
    have rest := ih (forall_mem_cons.mp same).2
    cases read : f x with
    | none =>
      rw [filterMap_cons_none read,rest,filter_cons]
      split
      · rw [filterMap_cons_none read]
      · rfl
    | some y =>
      rw [filterMap_cons_some read,filter_cons,filter_cons,same x mem_cons_self y read,rest]
      split
      · rw [filterMap_cons_some read]
      · rfl

theorem insideMem (mem : c ∈ b.inside) : c ∈ b.rows ∧ b.timeClass c.ts = 0 :=
  ⟨b.sortedPerm.subset ((take_sublist _ _).subset mem),b.insideClass c mem⟩

theorem Wf.insideLabels (wf : b.Wf) (mem : c ∈ b.inside) :
    ∃ row, b.row c = some row ∧ b.labelsOf c = some row.labels := by
  obtain ⟨row,read⟩ := wf.readable c (insideMem mem).1
  exact ⟨row,read,rowLabels read⟩

theorem seriesBound (h : b.labelsOf c = some labels) : c.series < b.series.canonical.length := by
  obtain ⟨canonical,found,-⟩ := Option.bind_eq_some_iff.mp h
  exact (List.getElem?_eq_some_iff.mp found).1

theorem runsOf (wf : b.Wf) (interned : b.Interned) (labels : Labels) :
    (runs CompactRow.series b.inside).filter (fun run => run.any (fun c => b.labelsOf c = some labels)) =
      [b.rowsOf labels].filter (fun run => run ≠ []) := by
  by_cases here : ∃ c ∈ b.inside, b.labelsOf c = some labels
  · obtain ⟨c,mem,named⟩ := here
    have same : ∀ d ∈ b.inside, (b.labelsOf d = some labels ↔ d.series = c.series) := by
      intro d inside
      constructor
      · intro other
        exact sameSeries interned other named
      intro equal
      rw [← named]
      unfold labelsOf
      rw [equal]
    have ordered := b.insideOrdered.imp (S := fun x y => b.rank x.series ≤ b.rank y.series) (by intro x y h; omega)
    have bound : ∀ d ∈ b.inside, d.series < b.series.canonical.length := by
      intro d inside
      obtain ⟨row,-,known⟩ := wf.insideLabels inside
      exact seriesBound known
    have one := runOf (convexOfRank ordered (fun x hx y hy equal => b.series.rankInjective (bound x hx) (bound y hy) equal)) c.series
    unfold rowsOf
    rw [filter_congr (fun d inside => decide_eq_decide.mpr (same d inside)),← one]
    apply filter_congr
    intro run part
    rw [Bool.eq_iff_iff,any_eq_true,any_eq_true]
    simp only [decide_eq_true_eq]
    constructor
    · rintro ⟨d,inRun,known⟩
      exact ⟨d,inRun,(same d (runMem part inRun)).mp known⟩
    · rintro ⟨d,inRun,known⟩
      exact ⟨d,inRun,(same d (runMem part inRun)).mpr known⟩
  · have none : b.rowsOf labels = [] := by
      unfold rowsOf
      rw [filter_eq_nil_iff]
      intro d inside known
      exact here ⟨d,inside,of_decide_eq_true known⟩
    rw [none]
    change _ = []
    rw [filter_eq_nil_iff]
    intro run part found
    obtain ⟨d,inRun,known⟩ := any_eq_true.mp found
    exact here ⟨d,runMem part inRun,of_decide_eq_true known⟩

theorem rollupsOf (wf : b.Wf) (interned : b.Interned) : ∃ rollups, b.rollups = some rollups ∧
    ∀ labels, rollups.filter (fun r => r.labels = labels) = ((b.summarize (b.rowsOf labels)).bind b.rollup).toList := by
  have named : ∀ run ∈ runs CompactRow.series b.inside, ∀ a, b.summarize run = some a →
      ∃ c r, c ∈ run ∧ b.rollup a = some r ∧ b.labelsOf c = some r.labels := by
    intro run part a found
    obtain ⟨c,mem,kept⟩ := summarizeKept found
    obtain ⟨row,-,known⟩ := wf.insideLabels (runMem part mem)
    obtain ⟨r,read,same,-⟩ := rollupRead kept known
    exact ⟨c,r,mem,read,same ▸ known⟩
  have total : ∀ a ∈ b.aggregates, ∃ r, b.rollup a = some r := by
    intro a mem
    obtain ⟨run,part,found⟩ := mem_filterMap.mp mem
    obtain ⟨-,r,-,read,-⟩ := named run part a found
    exact ⟨r,read⟩
  obtain ⟨rollups,all⟩ := mapMTotal total
  refine ⟨rollups,all,?_⟩
  intro labels
  have flat : rollups = (runs CompactRow.series b.inside).filterMap (fun run => (b.summarize run).bind b.rollup) := by
    rw [mapMFilterMap all]
    exact filterMap_filterMap
  rw [flat,filterFilterMap (q := fun run => run.any (fun c => b.labelsOf c = some labels)),runsOf wf interned labels]
  · by_cases empty : b.rowsOf labels = []
    · rw [empty]
      rfl
    · rw [filter_cons_of_pos (by simpa using empty),filter_nil]
      cases read : (b.summarize (b.rowsOf labels)).bind b.rollup <;> simp [read]
  intro run part r read
  obtain ⟨a,found,back⟩ := Option.bind_eq_some_iff.mp read
  obtain ⟨c,r',mem,again,known⟩ := named run part a found
  cases Option.some.inj (again.symm.trans back)
  rw [Bool.eq_iff_iff,any_eq_true]
  simp only [decide_eq_true_eq]
  constructor
  · rintro rfl
    exact ⟨c,mem,known⟩
  rintro ⟨d,inRun,other⟩
  have series : c.series = d.series := runKey part mem inRun
  have equal : b.labelsOf c = b.labelsOf d := by
    unfold labelsOf
    rw [series]
  exact Option.some.inj (known.symm.trans (equal.trans other))

end Builder
end Pulso.MetricTiers
