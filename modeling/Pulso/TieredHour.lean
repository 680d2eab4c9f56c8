import Pulso.TieredData

/-! The rollups of a served hour: each series with samples in the hour has exactly one, and it
stands for those samples in time order. -/
namespace Pulso.MetricTiers
open Pulso.PromQL Pulso.Metric Pulso.Lists List

def hourSamples (rows : List Row) (labels : Labels) (hour : Int) : List Sample :=
  ((prepareGroup (pointsOf rows labels)).filter (fun p => inHour hour p.ts)).filterMap Point.sample

def hourRows (rows : List Row) (labels : Labels) (hour : Int) : List Row :=
  rows.filter (fun row => inHour hour row.ts ∧ row.labels = labels)

theorem pointTs {row : Row} {p} (h : row.point = some p) : p.ts = row.ts := by
  unfold Row.point Row.held at h
  split at h
  · cases h
  · cases h
    rfl

theorem pointsPerm (rows : List Row) (labels : Labels) :
    (pointsOf rows labels).Perm ((rows.filter (fun row => row.labels = labels)).filterMap Row.point) := reverse_perm _

theorem hourPoints (rows : List Row) (labels : Labels) (hour : Int) :
    ((pointsOf rows labels).filter (fun p => inHour hour p.ts)).Perm ((hourRows rows labels hour).filterMap Row.point) := by
  refine ((pointsPerm rows labels).filter _).trans (List.Perm.of_eq ?_)
  rw [Builder.filterFilterMap (q := fun row : Row => inHour hour row.ts) (fun row _ p read => by rw [pointTs read]),
    filter_filter]
  congr 1
  apply filter_congr
  simp

theorem hourSamplesPerm {rows} (plain : Plain rows) (labels : Labels) (hour : Int) :
    (hourSamples rows labels hour).Perm (((hourRows rows labels hour).filterMap Row.point).filterMap Point.sample) :=
  (((prepared (plain.distinct labels)).1.filter _).trans (hourPoints rows labels hour)).filterMap _

theorem hourSamplesInTime {rows} (plain : Plain rows) (labels : Labels) (hour : Int) :
    (hourSamples rows labels hour).Pairwise (fun a b => a.ts < b.ts) :=
  samplesInTime ((prepared (plain.distinct labels)).2.sublist filter_sublist)

namespace Builder

variable {b : Builder} {labels : Labels}

def storedOf (b : Builder) (labels : Labels) : List Row := (b.rowsOf labels).filterMap b.row

theorem Wf.readRow (wf : b.Wf) {c} (mem : c ∈ b.rowsOf labels) :
    ∃ row, b.row c = some row ∧ row.labels = labels ∧ row.ts = c.ts := by
  obtain ⟨inside,named⟩ := mem_filter.mp mem
  obtain ⟨row,read,known⟩ := wf.insideLabels inside
  exact ⟨row,read,Option.some.inj (known.symm.trans (of_decide_eq_true named)),rowTs read⟩

theorem storedPerm (hour : b.finish = b.start + PromQL.hourNs) :
    (b.storedOf labels).Perm (hourRows b.stored labels b.start) := by
  refine ((b.insidePerm.filter _).filterMap _).trans (List.Perm.of_eq ?_)
  rw [filter_filter]
  refine (filterFilterMap ?_).symm
  intro c mem row read
  have ts := rowTs read
  have inside : b.timeClass c.ts = 0 ↔ inHour b.start row.ts = true := by
    unfold timeClass inHour
    rw [ts,hour,decide_eq_true_eq]
    split
    · omega
    · split <;> omega
  rw [rowLabels read,Bool.eq_iff_iff]
  simp only [Option.some.injEq,decide_eq_true_eq,Bool.and_eq_true,inside]
  exact and_comm

theorem heldRow {c row} (read : b.row c = some row) : b.held c = row.held := by
  simp only [Builder.row,bind,Option.bind_eq_some_iff] at read
  obtain ⟨_,_,_,_,extra,found,last⟩ := read
  cases last
  unfold held Row.held
  rw [found]
  rfl

theorem plainRow {c row} (read : b.row c = some row) (float : row.histogram = none) : b.Plain c := by
  simp only [Builder.row,bind,Option.bind_eq_some_iff] at read
  obtain ⟨_,_,_,_,extra,found,last⟩ := read
  cases last
  unfold Plain
  rw [found]
  simp only at float
  simp [float]

theorem heldRows (wf : b.Wf) : (b.rowsOf labels).filterMap b.held = (b.storedOf labels).filterMap Row.held := by
  unfold storedOf
  rw [filterMap_filterMap]
  apply filterMap_congr
  intro c mem
  obtain ⟨row,read,-⟩ := wf.readRow mem
  rw [read,heldRow read]
  rfl

theorem rowsInTime (interned : b.Interned) : (b.rowsOf labels).Pairwise (fun c d => c.ts ≤ d.ts) := by
  have ordered : (b.rowsOf labels).Pairwise _ := b.insideOrdered.sublist filter_sublist
  refine ordered.imp_of_mem ?_
  intro c d left right le
  have first := of_decide_eq_true (mem_filter.mp left).2
  have second := of_decide_eq_true (mem_filter.mp right).2
  have same := sameSeries interned first second
  rw [same] at le
  omega

theorem rowSamples (wf : b.Wf) (interned : b.Interned) (distinct : b.Distinct (b.rowsOf labels)) {samples}
    (inTime : samples.Pairwise (fun x y => x.ts < y.ts))
    (same : (((b.storedOf labels).filterMap Row.point).filterMap Point.sample).Perm samples) :
    (((b.rowsOf labels).filterMap b.held).filter fresh).map Aggregate.decoded = samples := by
  have gathered : ((((b.rowsOf labels).filterMap b.held).filter fresh).map Aggregate.decoded).Perm samples := by
    rw [heldRows wf,← samplesHeld]
    exact same
  have rising : ((b.rowsOf labels).filterMap b.held).Pairwise (fun x y => x.1 < y.1) := by
    have apart := pairwise_map.mp distinct.distinct
    have ordered : ((b.rowsOf labels).filterMap b.held).Pairwise (fun x y => x.1 ≤ y.1) := by
      refine (rowsInTime interned).filterMap b.held ?_
      intro c d le x first y second
      rw [heldTs first,heldTs second]
      exact le
    exact (ordered.and apart).imp (fun both => lt_of_le_of_ne both.1 both.2)
  refine gathered.eq_of_pairwise ?_ (pairwise_map.mpr (rising.sublist filter_sublist)) inTime
  omega

end Builder

namespace ServedHour

variable {rows : List Row} (h : ServedHour rows)

def passFor (labels : Labels) : Nat := namePartition labels.metricName h.count

variable {index : Nat}

theorem keeps (bound : index < h.count) (row : Row) :
    keepsRow index h.count row = true ↔ h.passFor row.labels = index := keepsRowIff bound h.words row

structure Built (index : Nat) : Prop where
  wf : (h.builder index).Wf
  interned : (h.builder index).Interned
  hour : (h.builder index).start = h.hour ∧ (h.builder index).finish = h.hour + PromQL.hourNs
  rows : ∀ labels, ((h.builder index).storedOf labels).Perm
    ((hourRows rows labels h.hour).filter (fun row => keepsRow index h.count row))

theorem pass (bound : index < h.count) : h.Built index := by
  have wf := Builder.newWf h.hour (h.hour + PromQL.hourNs) h.maxRows (nativePartition (passOf index h.count))
  have adds := Builder.addCases wf (h.built index bound)
  have start : (h.builder index).start = h.hour := adds.grows.bounds.1
  have finish : (h.builder index).finish = h.hour + PromQL.hourNs := adds.grows.bounds.2.1
  refine ⟨adds.wf,Builder.addInterned (Builder.newInterned _ _ _ _) (h.built index bound),⟨start,finish⟩,?_⟩
  intro labels
  refine (Builder.storedPerm (by rw [start,finish])).trans ?_
  rw [adds.stored,start]
  have none : (Builder.new h.hour (h.hour + PromQL.hourNs) h.maxRows (nativePartition (passOf index h.count))).stored = [] := rfl
  have read := (h.complete index bound).filter (fun row => row.labels = labels)
  rw [filter_filter,filter_filter] at read
  unfold hourRows
  rw [none,nil_append,filter_filter,filter_filter]
  refine ((List.Perm.of_eq ?_).trans read).trans (List.Perm.of_eq ?_) <;>
  · apply filter_congr
    intro row _
    rw [Bool.eq_iff_iff]
    simp only [keepsRow,Builder.new,Bool.and_eq_true,decide_eq_true_eq]
    tauto

variable {h}

structure Rolled (labels : Labels) (found : Option Rollup) : Prop where
  absent : found = none → hourSamples rows labels h.hour = []
  present : ∀ r, found = some r → r.labels = labels ∧ r.bucket = h.hour ∧
    (r.flags = .none → (Item.rollup r).Covers (hourSamples rows labels h.hour))

theorem heldTimes (rows : List Row) : (rows.filterMap Row.held).map Prod.fst = (rows.filterMap Row.point).map Point.ts := by
  rw [map_filterMap,map_filterMap]
  apply filterMap_congr
  intro row _
  rw [Row.point,Option.map_map]
  rfl

theorem passDistinct (plain : Plain rows) (bound : index < h.count) (labels : Labels) :
    (h.builder index).Distinct ((h.builder index).rowsOf labels) := by
  have built := h.pass bound
  have stored := built.rows labels
  constructor
  · intro c mem
    obtain ⟨row,read,-⟩ := built.wf.readRow mem
    have kept := stored.subset (mem_filterMap.mpr ⟨c,mem,read⟩)
    exact Builder.plainRow read (plain.floats row (mem_of_mem_filter (mem_of_mem_filter kept)))
  rw [Builder.heldRows built.wf,((stored.filterMap Row.held).map Prod.fst).nodup_iff,heldTimes]
  have part : ((hourRows rows labels h.hour).filter (fun row => keepsRow index h.count row)).Sublist
      (rows.filter (fun row => row.labels = labels)) := by
    refine filter_sublist.trans ?_
    refine monotone_filter_right rows ?_
    intro row both
    exact decide_eq_true (of_decide_eq_true both).2
  have unique := ((pointsPerm rows labels).map Point.ts).nodup_iff.mp (plain.distinct labels)
  exact unique.sublist ((part.filterMap _).map _)

theorem passRollup (plain : Plain rows) (labels : Labels) (bound : h.passFor labels < h.count) :
    ∃ found : Option Rollup, ((h.builder (h.passFor labels)).rollups.getD []).filter (fun r => r.labels = labels) = found.toList ∧
      Rolled (h := h) labels found := by
  have built := h.pass bound
  obtain ⟨rollups,read,each⟩ := Builder.rollupsOf built.wf built.interned
  have distinct := passDistinct plain bound labels
  have stored := built.rows labels
  have whole : (hourRows rows labels h.hour).filter (fun row => keepsRow (h.passFor labels) h.count row) =
      hourRows rows labels h.hour := by
    rw [filter_eq_self]
    intro row mem
    have named := (of_decide_eq_true (mem_filter.mp mem).2).2
    exact (h.keeps bound row).mpr (by rw [named])
  rw [whole] at stored
  have samples := Builder.rowSamples built.wf built.interned distinct (hourSamplesInTime plain labels h.hour)
    (((stored.filterMap _).filterMap _).trans (hourSamplesPerm plain labels h.hour).symm)
  refine ⟨_,by rw [read]; exact each labels,?_⟩
  rcases distinct.summarize with ⟨none,empty⟩ | ⟨a,found,summary⟩
  · rw [none]
    refine ⟨fun _ => ?_,fun r found => by cases found⟩
    rw [← samples,empty]
    rfl
  obtain ⟨row,mem,kept⟩ := Builder.summarizeKept found
  have named := of_decide_eq_true (mem_filter.mp mem).2
  obtain ⟨r,back,same,bucket,flags,view⟩ := Builder.rollupRead kept named
  rw [found,Option.bind_some,back]
  refine ⟨fun none => (nomatch none),?_⟩
  rintro r' equal
  cases equal
  refine ⟨same,bucket.trans built.hour.1,?_⟩
  intro calm
  obtain ⟨first,rest,listed,folded⟩ := summary.samples (flags ▸ calm)
  refine ⟨Aggregate.decoded first,rest.map Aggregate.decoded,?_,?_⟩
  · rw [← samples,listed]
    rfl
  · rw [folded,← view]
    rfl

theorem otherPass (bound : index < h.count) {labels} (other : h.passFor labels ≠ index) :
    ((h.builder index).rollups.getD []).filter (fun r => r.labels = labels) = [] := by
  have built := h.pass bound
  obtain ⟨rollups,read,each⟩ := Builder.rollupsOf built.wf built.interned
  have none : (hourRows rows labels h.hour).filter (fun row => keepsRow index h.count row) = [] := by
    rw [filter_eq_nil_iff]
    intro row mem kept
    have named := (of_decide_eq_true (mem_filter.mp mem).2).2
    exact other (named ▸ (h.keeps bound row).mp kept)
  have stored := built.rows labels
  rw [none,perm_nil] at stored
  have empty : (h.builder index).rowsOf labels = [] := by
    rw [eq_nil_iff_forall_not_mem]
    intro c mem
    obtain ⟨row,read,-⟩ := built.wf.readRow mem
    have held : row ∈ (h.builder index).storedOf labels := mem_filterMap.mpr ⟨c,mem,read⟩
    rw [stored] at held
    cases held
  rw [read]
  change rollups.filter _ = _
  rw [each labels,empty]
  rfl

theorem flatMapSingle {α β : Type} {f : α → List β} {xs : List α} {x} (distinct : xs.Nodup) (mem : x ∈ xs)
    (others : ∀ y ∈ xs, x ≠ y → f y = []) : xs.flatMap f = f x := by
  induction xs with
  | nil => cases mem
  | cons y xs ih =>
    rw [nodup_cons] at distinct
    rw [flatMap_cons]
    rcases mem_cons.mp mem with rfl | mem
    · have rest : xs.flatMap f = [] := by
        rw [flatMap_eq_nil_iff]
        intro z inside
        exact others z (mem_cons_of_mem _ inside) (fun same => distinct.1 (same ▸ inside))
      rw [rest,append_nil]
    · rw [others y mem_cons_self (fun same => distinct.1 (same ▸ mem)),nil_append,
        ih distinct.2 mem (forall_mem_cons.mp others).2]

theorem rolled (plain : Plain rows) (h : ServedHour rows) (labels : Labels) :
    ∃ found : Option Rollup, h.rollups.filter (fun r => r.labels = labels) = found.toList ∧ Rolled (h := h) labels found := by
  have bound : h.passFor labels < h.count := namePartitionBound _ h.positive
  obtain ⟨found,listed,rolled⟩ := passRollup plain labels bound
  refine ⟨found,?_,rolled⟩
  unfold rollups
  rw [filter_flatMap,flatMapSingle nodup_range (mem_range.mpr bound),listed]
  intro index mem other
  exact otherPass (mem_range.mp mem) other

end ServedHour
end Pulso.MetricTiers
