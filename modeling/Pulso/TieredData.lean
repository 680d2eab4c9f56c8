import Pulso.MetricFinalize
import Pulso.RollupSeries

/-! Stored rows as a query reads them: the samples of each series, and the hours whose
samples are read as rollups instead. -/
namespace Pulso.MetricTiers
open Pulso.PromQL Pulso.Metric Pulso.Lists List

namespace Row

def held (row : Row) : Option (Int × UInt64) :=
  if row.exemplars.isSome && row.value = exemplarOnlyBits then none else some (row.ts,row.value)

def point (row : Row) : Option Point := row.held.map (fun sample => ⟨sample.1,Value.encode sample.2⟩)

end Row

def pointsOf (rows : List Row) (labels : Labels) : List Point :=
  ((rows.filter (fun row => row.labels = labels)).filterMap Row.point).reverse

/- Rows grouped by series; a row that only carries exemplars has no value to query. -/
def foldPoints (rows : List Row) : List (Labels × List Point) :=
  (uniqBy id ((rows.filter (fun row => row.point.isSome)).map Row.labels)).map (fun labels => (labels,pointsOf rows labels))

def prepareSeries (groups : List (Labels × List Point)) : List (Labels × List Point) :=
  (groups.map (fun group => (group.1,prepareGroup group.2))).reverse

structure Plain (rows : List Row) : Prop where
  floats : ∀ row ∈ rows, row.histogram = none
  distinct : ∀ labels, ((pointsOf rows labels).map Point.ts).Nodup

def inHour (hour ts : Int) : Bool := hour ≤ ts ∧ ts < hour + PromQL.hourNs

structure ServedHour (rows : List Row) where
  hour : Int
  aligned : hour % PromQL.hourNs = 0
  count : Nat
  positive : 0 < count
  words : count < 2 ^ 32
  maxRows : Nat
  batches : Nat → List Batch
  builder : Nat → Builder
  built : ∀ index < count, (Builder.new hour (hour + PromQL.hourNs) maxRows (nativePartition (passOf index count))).add
    (batches index) = .ok (builder index)
  complete : ∀ index < count,
    (((batches index).flatMap Batch.rows).filter (fun row => keepsRow index count row && inHour hour row.ts)).Perm
      (rows.filter (fun row => keepsRow index count row && inHour hour row.ts))

def ServedHour.rollups {rows : List Row} (h : ServedHour rows) : List Rollup :=
  (List.range h.count).flatMap (fun index => (h.builder index).rollups.getD [])

def remaining (rows : List Row) (hours : List Int) : List Row :=
  rows.filter (fun row => hours.all (fun hour => !inHour hour row.ts))

variable {ps : List Point}

theorem insertSame {r s} [DecidableRel r] [DecidableRel s] {p}
    (same : ∀ q ∈ ps, r p q ↔ s p q) : ps.orderedInsert r p = ps.orderedInsert s p := by
  induction ps with
  | nil => rfl
  | cons q ps ih =>
    simp only [List.orderedInsert,same q mem_cons_self,ih (forall_mem_cons.mp same).2]

theorem sortSame (distinct : (ps.map Point.ts).Nodup) :
    ps.insertionSort Point.precedes = ps.insertionSort (fun a b => a.ts ≤ b.ts) := by
  induction ps with
  | nil => rfl
  | cons p ps ih =>
    rw [map_cons,nodup_cons] at distinct
    rw [insertionSort_cons,insertionSort_cons,ih distinct.2]
    apply insertSame
    intro q mem
    have other : p.ts ≠ q.ts := by
      intro same
      have inside := (perm_insertionSort _ _).subset mem
      exact distinct.1 (same ▸ mem_map_of_mem inside)
    unfold Point.precedes
    rw [if_neg other]
    omega

theorem prepared (distinct : (ps.map Point.ts).Nodup) :
    (prepareGroup ps).Perm ps ∧ (prepareGroup ps).Pairwise (fun a b => a.ts < b.ts) := by
  have order := perm_insertionSort (fun a b : Point => a.ts ≤ b.ts) ps
  have unique : ((ps.insertionSort (fun a b => a.ts ≤ b.ts)).map Point.ts).Nodup :=
    (order.map Point.ts).nodup_iff.mpr distinct
  unfold prepareGroup
  rw [sortSame distinct,uniqBySelf unique]
  refine ⟨order,?_⟩
  have sorted := pairwise_insertionSort (fun a b : Point => a.ts ≤ b.ts) ps
  have apart := pairwise_map.mp unique
  refine (sorted.and apart).imp ?_
  intro a b both
  exact lt_of_le_of_ne both.1 both.2

theorem encodeSample (sample : Int × UInt64) : (⟨sample.1,Value.encode sample.2⟩ : Point).sample =
    if Builder.fresh sample then some (Aggregate.decoded sample) else none := by
  unfold Point.sample Value.encode Builder.fresh
  by_cases stale : sample.2 = staleBits
  · simp [stale]
  · simp [stale,Aggregate.decoded]

theorem samplesHeld (rows : List Row) : (rows.filterMap Row.point).filterMap Point.sample =
    ((rows.filterMap Row.held).filter Builder.fresh).map Aggregate.decoded := by
  induction rows with
  | nil => rfl
  | cons row rows ih =>
    cases read : row.held with
    | none =>
      have point : row.point = none := by rw [Row.point,read]; rfl
      rw [filterMap_cons_none point,filterMap_cons_none read,ih]
    | some sample =>
      have point : row.point = some ⟨sample.1,Value.encode sample.2⟩ := by rw [Row.point,read]; rfl
      rw [filterMap_cons_some point,filterMap_cons_some read,filter_cons]
      split
      · rename_i fresh
        have value := encodeSample sample
        rw [if_pos fresh] at value
        rw [filterMap_cons_some value,map_cons,ih]
      · rename_i stale
        have value := encodeSample sample
        rw [if_neg stale] at value
        rw [filterMap_cons_none value,ih]

end Pulso.MetricTiers
