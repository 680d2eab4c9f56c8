import Pulso.MetricTiers

/-! The plan of a finalization covers the ordered rows exactly: its ranges follow one
another, and each holds rows on one side of the hour. -/
namespace Pulso.MetricTiers
open Pulso.Lists List

namespace Series
variable (s : Series) {i j : Nat}

def order : List Nat := (List.range s.canonical.length).insertionSort s.precedes

theorem memOrder (bound : i < s.canonical.length) : i ∈ s.order :=
  (perm_insertionSort _ _).mem_iff.mpr (mem_range.mpr bound)

theorem rankOf (bound : i < s.canonical.length) : s.ranks.getD i 0 = s.order.idxOf i := by
  simp [ranks,order,bound]

theorem rankInjective (hi : i < s.canonical.length) (hj : j < s.canonical.length)
    (same : s.ranks.getD i 0 = s.ranks.getD j 0) : i = j := by
  rw [s.rankOf hi,s.rankOf hj] at same
  exact (idxOf_inj (s.memOrder hi)).mp same

end Series

namespace Grouping

structure Wf (g : Grouping) : Prop where
  tiles : Tiles g.out 0 g.groupStart
  held : g.groupStart + g.groupRows = g.here

variable {g : Grouping}

theorem cutWf (h : g.Wf) (some : 0 < g.groupRows) (names : Nat) : (g.cut names).Wf := by
  have grown : g.groupStart < g.here := by
    have := h.held
    omega
  exact ⟨tilesAppend h.tiles (tilesOne grown),rfl⟩

variable {α : Type}

theorem seriesStepWf (target : Nat) (h : g.Wf) (run : List α) :
    (g.seriesStep target run).Wf ∧ (g.seriesStep target run).here = g.here + run.length := by
  have extend : ∀ {g : Grouping}, g.Wf →
      Wf { g with groupRows := g.groupRows + run.length, here := g.here + run.length } := by
    intro g h
    refine ⟨h.tiles,?_⟩
    have := h.held
    simp only
    omega
  unfold seriesStep
  split
  · rename_i full
    exact ⟨extend (cutWf h full.1 1),rfl⟩
  · exact ⟨extend h,rfl⟩

theorem foldAdvances {step}
    (each : ∀ g run, g.Wf → (step g run).Wf ∧ (step g run).here = g.here + run.length) (runs : List (List α))
    (h : g.Wf) : (runs.foldl step g).Wf ∧ (runs.foldl step g).here = g.here + runs.flatten.length := by
  induction runs generalizing g with
  | nil => exact ⟨h,rfl⟩
  | cons run runs ih =>
    obtain ⟨next,taken⟩ := each g run h
    obtain ⟨final,rest⟩ := ih next
    refine ⟨final,?_⟩
    rw [foldl_cons,rest,taken,flatten_cons,length_append]
    omega

theorem metricStepWf (seriesOf : α → Nat) (target maxNames : Nat) (h : g.Wf) (metric : List α) :
    (g.metricStep seriesOf target maxNames metric).Wf ∧
      (g.metricStep seriesOf target maxNames metric).here = g.here + metric.length := by
  have named : ∀ {g : Grouping}, g.Wf → Wf { g with groupNames := g.groupNames + 1 } := fun h => ⟨h.tiles,h.held⟩
  have series : ∀ {g : Grouping}, g.Wf → _ := fun h =>
    foldAdvances (fun g run h => seriesStepWf target h run)
      (metric.splitBy (fun a b => seriesOf a == seriesOf b)) (named h)
  rw [flatten_splitBy] at series
  unfold metricStep
  split
  · rename_i full
    exact series (cutWf h full.1 0)
  · exact series h

theorem lastTile {size} (h : g.Wf) (all : g.here = size) :
    Tiles (if g.groupStart < size then g.out ++ [(g.groupStart,size)] else g.out) 0 size := by
  have held := h.held
  split
  · rename_i rest
    exact tilesAppend h.tiles (tilesOne rest)
  · have same : g.groupStart = size := by omega
    exact same ▸ h.tiles

end Grouping

theorem groupsTile {α : Type} (items : List α) (series : Series) (seriesOf : α → Nat) (targetRows maxNames : Nat) :
    Tiles (groups items series seriesOf targetRows maxNames) 0 items.length := by
  have folded := Grouping.foldAdvances (fun g run h => Grouping.metricStepWf seriesOf (max targetRows 1) maxNames h run)
    (items.splitBy (fun a b => series.name (seriesOf a) == series.name (seriesOf b)))
    (g := ⟨[],0,0,0,0⟩) ⟨rfl,rfl⟩
  rw [flatten_splitBy] at folded
  exact Grouping.lastTile folded.1 (folded.2.trans (Nat.zero_add _))

theorem takePartitionPoint {α : Type} (p : α → Bool) (xs : List α) : xs.take (partitionPoint p xs) = xs.takeWhile p :=
  takeWhile_eq_take_findIdx_not.symm

theorem dropPartitionPoint {α : Type} (p : α → Bool) (xs : List α) : xs.drop (partitionPoint p xs) = xs.dropWhile p :=
  dropWhile_eq_drop_findIdx_not.symm

theorem partitionPointLe {α : Type} (p : α → Bool) (xs : List α) : partitionPoint p xs ≤ xs.length := findIdx_le_length

namespace Builder

def insideEnd (b : Builder) : Nat := partitionPoint (fun r => b.timeClass r.ts = 0) b.sorted
def beforeEnd (b : Builder) : Nat :=
  b.insideEnd + partitionPoint (fun r => b.timeClass r.ts = 1) (b.sorted.drop b.insideEnd)

variable (b : Builder)

theorem prepareParts (targetRows maxNames : Nat) : b.prepare targetRows maxNames =
    (groups (b.sorted.take b.insideEnd) b.series CompactRow.series targetRows maxNames).map (fun range => (.final,range)) ++
    (if b.beforeEnd > b.insideEnd then [(.before,b.insideEnd,b.beforeEnd)] else []) ++
    (if b.sorted.length > b.beforeEnd then [(.after,b.beforeEnd,b.sorted.length)] else []) := rfl

theorem insideEndLe : b.insideEnd ≤ b.sorted.length := partitionPointLe _ _

theorem beforeEndLe : b.beforeEnd ≤ b.sorted.length := by
  have := partitionPointLe (fun r => decide (b.timeClass r.ts = 1)) (b.sorted.drop b.insideEnd)
  rw [length_drop] at this
  have := b.insideEndLe
  unfold beforeEnd
  omega

theorem optionalTile {a b} {kind : Kind} (h : a ≤ b) :
    Tiles ((if b > a then [(kind,a,b)] else []).map Prod.snd) a b := by
  split
  · rename_i some
    exact tilesOne some
  · have : a = b := by omega
    exact this

theorem prepareTile (targetRows maxNames : Nat) :
    Tiles ((b.prepare targetRows maxNames).map Prod.snd) 0 b.sorted.length := by
  have inside := groupsTile (b.sorted.take b.insideEnd) b.series CompactRow.series targetRows maxNames
  rw [length_take_of_le b.insideEndLe] at inside
  rw [prepareParts,map_append,map_append,map_map]
  refine tilesAppend (tilesAppend ?_ (optionalTile (Nat.le_add_right _ _))) (optionalTile b.beforeEndLe)
  simpa [Function.comp_def] using inside

theorem timeClassLe (ts : Int) : b.timeClass ts ≤ 2 := by
  unfold timeClass
  split
  · decide
  · split <;> decide

theorem sortedPerm : b.sorted.Perm b.rows := perm_insertionSort _ _

theorem sortedClasses : b.sorted.Pairwise (fun x y => b.timeClass x.ts ≤ b.timeClass y.ts) := by
  have ordered := pairwise_insertionSort (fun x y => b.order x ≤ b.order y) b.rows
  refine ordered.imp ?_
  intro x y le
  rcases Prod.Lex.toLex_le_toLex.mp le with less | ⟨same,_⟩
  · exact less.le
  · exact same.le

def kindClass : Kind → Nat
  | .final => 0
  | .before => 1
  | .after => 2

theorem insideClass : ∀ r ∈ b.sorted.take b.insideEnd, b.timeClass r.ts = 0 := by
  intro r mem
  rw [insideEnd,takePartitionPoint] at mem
  exact of_decide_eq_true (all_eq_true.mp (all_takeWhile (l := b.sorted)) r mem)

theorem outsideClass : ∀ r ∈ b.sorted.drop b.insideEnd, 0 < b.timeClass r.ts := by
  rw [insideEnd,dropPartitionPoint]
  exact aboveLeast (fun r : CompactRow => b.timeClass r.ts) b.sortedClasses (fun _ _ => Nat.zero_le _)

theorem beforeClass : ∀ r ∈ slice b.sorted (b.insideEnd,b.beforeEnd), b.timeClass r.ts = 1 := by
  intro r mem
  simp only [slice,beforeEnd,Nat.add_sub_cancel_left] at mem
  rw [takePartitionPoint] at mem
  exact of_decide_eq_true (all_eq_true.mp (all_takeWhile (l := b.sorted.drop b.insideEnd)) r mem)

theorem afterClass : ∀ r ∈ b.sorted.drop b.beforeEnd, b.timeClass r.ts = 2 := by
  intro r mem
  rw [beforeEnd,← drop_drop,dropPartitionPoint] at mem
  have ordered := b.sortedClasses.sublist (drop_sublist b.insideEnd b.sorted)
  have above := aboveLeast (fun r => b.timeClass r.ts) ordered b.outsideClass r mem
  have := b.timeClassLe r.ts
  omega

theorem prepareClass {targetRows maxNames kind range} (mem : (kind,range) ∈ b.prepare targetRows maxNames) :
    ∀ r ∈ slice b.sorted range, b.timeClass r.ts = kindClass kind := by
  intro r inRange
  rw [prepareParts] at mem
  rcases mem_append.mp mem with mem | mem
  · rcases mem_append.mp mem with mem | mem
    · obtain ⟨range,grouped,same⟩ := mem_map.mp mem
      cases same
      have bounds := tilesBounds (groupsTile _ _ _ _ _) grouped
      rw [length_take_of_le b.insideEndLe] at bounds
      exact b.insideClass r (sliceTake bounds.2 inRange)
    · split at mem
      · cases mem_singleton.mp mem
        exact b.beforeClass r inRange
      · cases mem
  · split at mem
    · cases mem_singleton.mp mem
      exact b.afterClass r (mem_of_mem_take inRange)
    · cases mem

end Builder
end Pulso.MetricTiers
