import Pulso.RollupSamples

/-! The rollup of a series from its rows of an hour. Rows of one series hold distinct samples,
beside rows that only carry exemplars. -/
namespace Pulso.MetricTiers
open Pulso.PromQL Pulso.Metric Pulso.Lists List

def Choice.take (c : Choice) (bits : UInt64) : Choice :=
  if c.firstClass = some (valueClass bits) then c
  else if c.firstClass = .none then { c with firstClass := some (valueClass bits), classes := 1, chosen := some bits }
  else { c with classes := c.classes + 1 }

namespace Builder

variable (b : Builder)

def Plain (row : CompactRow) : Prop := (b.extraOf row.extra).any (fun e => e.histogram.isSome) = false

def held (row : CompactRow) : Option (Int × UInt64) :=
  if (b.extraOf row.extra).any (fun e => e.exemplars.isSome) && row.value = exemplarOnlyBits then none
  else some (row.ts,row.value)

def fresh (sample : Int × UInt64) : Bool := sample.2 ≠ staleBits

variable {b}

theorem chooseHeld {row} (plain : b.Plain row) (c : Choice) :
    b.choose c row = ((b.held row).map (fun sample => c.take sample.2)).getD c := by
  unfold choose held
  unfold Plain at plain
  simp only [plain,Bool.false_eq_true,if_false]
  split <;> rfl

variable {rows : List CompactRow}

theorem chooseFold (plain : ∀ row ∈ rows, b.Plain row) (c : Choice) :
    rows.foldl b.choose c = (rows.filterMap b.held).foldl (fun c sample => c.take sample.2) c := by
  induction rows generalizing c with
  | nil => rfl
  | cons row rows ih =>
    have rest := ih (forall_mem_cons.mp plain).2
    rw [foldl_cons,chooseHeld (plain row mem_cons_self),rest]
    cases read : b.held row with
    | none => rw [filterMap_cons_none read]; rfl
    | some sample => rw [filterMap_cons_some read]; rfl

theorem heldTs {row sample} (h : b.held row = some sample) : sample.1 = row.ts := by
  unfold held at h
  split at h
  · cases h
  · cases h
    rfl

theorem instantHeld {ts} (same : ∀ row ∈ rows, row.ts = ts)
    (plain : ∀ row ∈ rows, b.Plain row) (single : (rows.filterMap b.held).length ≤ 1) (a : Aggregate) :
    b.instant a rows = ((rows.filterMap b.held).filter fresh).foldl Aggregate.pushBits a := by
  unfold instant
  rw [chooseFold plain]
  cases samples : rows.filterMap b.held with
  | nil => simp [Choice.none]
  | cons sample rest =>
    rw [samples,length_cons] at single
    have alone : rest = [] := eq_nil_of_length_eq_zero (by omega)
    subst alone
    have found : sample ∈ rows.filterMap b.held := samples ▸ mem_cons_self
    obtain ⟨row,mem,read⟩ := mem_filterMap.mp found
    cases rows with
    | nil => cases mem
    | cons first rows =>
      have at' : first.ts = sample.1 := (same first mem_cons_self).trans ((same row mem).symm.trans (heldTs read).symm)
      by_cases stale : sample.2 = staleBits
      · simp [Choice.take,Choice.none,fresh,stale]
      · simp [Choice.take,Choice.none,fresh,stale,Aggregate.pushBits,at']

theorem singleTs (ts : Int) {samples : List (Int × UInt64)} (same : ∀ s ∈ samples, s.1 = ts)
    (distinct : (samples.map Prod.fst).Nodup) : samples.length ≤ 1 := by
  match samples with
  | [] => exact Nat.zero_le 1
  | [_] => exact Nat.le_refl 1
  | x::y::rest =>
    rw [map_cons,map_cons,nodup_cons] at distinct
    have first := same x mem_cons_self
    have second := same y (mem_cons_of_mem _ mem_cons_self)
    exact absurd (first.trans second.symm ▸ mem_cons_self) distinct.1

theorem instantsHeld {parts : List (List CompactRow)}
    (each : ∀ rows ∈ parts, ∀ a, b.instant a rows = ((rows.filterMap b.held).filter fresh).foldl Aggregate.pushBits a)
    (a : Aggregate) :
    parts.foldl b.instant a = ((parts.flatten.filterMap b.held).filter fresh).foldl Aggregate.pushBits a := by
  induction parts generalizing a with
  | nil => rfl
  | cons rows parts ih =>
    rw [foldl_cons,each rows mem_cons_self,ih (forall_mem_cons.mp each).2,
      flatten_cons,filterMap_append,filter_append,foldl_append]

structure Distinct (b : Builder) (rows : List CompactRow) : Prop where
  plain : ∀ row ∈ rows, b.Plain row
  distinct : ((rows.filterMap b.held).map Prod.fst).Nodup

theorem Distinct.fold (h : b.Distinct rows) (a : Aggregate) : (runs CompactRow.ts rows).foldl b.instant a =
      ((rows.filterMap b.held).filter fresh).foldl Aggregate.pushBits a := by
  rw [instantsHeld ?_ a,runsFlatten]
  intro run mem a
  obtain ⟨first,inside⟩ := exists_mem_of_ne_nil run (runNonempty mem)
  have same : ∀ row ∈ run, row.ts = first.ts := fun row held => runKey mem held inside
  have part : run.Sublist rows := by
    have := sublist_flatten_of_mem mem
    rwa [runsFlatten] at this
  refine instantHeld same (fun row held => h.plain row (runMem mem held)) ?_ a
  refine singleTs first.ts ?_ (h.distinct.sublist ((part.filterMap _).map _))
  intro sample held
  obtain ⟨row,inRun,read⟩ := mem_filterMap.mp held
  exact (heldTs read).trans (same row inRun)

theorem foldOrigin (samples : List (Int × UInt64)) (a : Aggregate) :
    (samples.foldl Aggregate.pushBits a).series = a.series ∧ (samples.foldl Aggregate.pushBits a).bucket = a.bucket := by
  induction samples generalizing a with
  | nil => exact ⟨rfl,rfl⟩
  | cons sample samples ih =>
    obtain ⟨series,bucket⟩ := ih (a.pushBits sample)
    have step : (a.pushBits sample).series = a.series ∧ (a.pushBits sample).bucket = a.bucket := by
      unfold Aggregate.pushBits
      by_cases empty : a.count = 0
      · rw [Aggregate.pushFirst a empty]
        exact ⟨rfl,rfl⟩
      · rw [Aggregate.pushNext a empty,Aggregate.transitionEq]
        exact ⟨rfl,rfl⟩
    exact ⟨series.trans step.1,bucket.trans step.2⟩

theorem foldSound (samples : List (Int × UInt64)) {a} (h : a.Sound) : (samples.foldl Aggregate.pushBits a).Sound := by
  induction samples generalizing a with
  | nil => exact h
  | cons sample samples ih => exact ih (Aggregate.pushSound h sample)

structure Summarizes (b : Builder) (rows : List CompactRow) (a : Aggregate) : Prop where
  sound : a.Sound
  origin : a.bucket = b.start ∧ ∃ row ∈ rows, a.series = row.series
  samples : a.flags = .none → ∃ first rest, (rows.filterMap b.held).filter fresh = first::rest ∧
    addSamples (.ofSample (Aggregate.decoded first)) (rest.map Aggregate.decoded) = .ok a.view

theorem Distinct.summarize (h : b.Distinct rows) :
    (b.summarize rows = none ∧ (rows.filterMap b.held).filter fresh = []) ∨
      ∃ a, b.summarize rows = some a ∧ b.Summarizes rows a := by
  cases rows with
  | nil => exact .inl ⟨rfl,rfl⟩
  | cons row rows =>
    unfold Builder.summarize
    simp only [h.fold]
    cases samples : ((row::rows).filterMap b.held).filter fresh with
    | nil => exact .inl ⟨rfl,rfl⟩
    | cons first rest =>
      right
      obtain ⟨sound,view,-⟩ := Aggregate.newPush row.series row.seriesId b.start first
      have whole := foldSound rest sound
      have origin := foldOrigin (first::rest) (.new row.series row.seriesId b.start)
      rw [foldl_cons] at origin ⊢
      have counted := whole.some
      refine ⟨_,if_pos (.inl (by omega)),whole,⟨origin.2,row,mem_cons_self,origin.1⟩,?_⟩
      intro plain
      refine ⟨first,rest,samples,?_⟩
      rw [← view]
      exact (Aggregate.foldView sound plain).2.2

end Builder
end Pulso.MetricTiers
