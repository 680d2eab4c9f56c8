import Pulso.PromWindow

/-! One series split into samples and rollups: the parts of a window, in time order, hold the
samples of the window once each and in order. -/
namespace Pulso.PromQL
open Pulso.MetricTiers (Rollup)
open List

def Item.finish : Item → Int
  | .sample s => s.ts + 1
  | .rollup h => h.bucket + hourNs

def Item.Apart (a b : Item) : Prop := a.finish ≤ b.at ∨ b.finish ≤ a.at

theorem Item.Apart.symm {a b : Item} (h : a.Apart b) : b.Apart a := Or.symm h

theorem Item.spans (item : Item) : item.at < item.finish := by
  cases item <;> simp only [Item.at,Item.finish,hourNs] <;> omega

def Item.samples (samplesOf : Rollup → List Sample) : Item → List Sample
  | .sample s => [s]
  | .rollup h => samplesOf h

structure Parts (points ordered : List Point) (rollups : List Rollup) (samplesOf : Rollup → List Sample) : Prop where
  covers : ∀ h ∈ rollups, (Item.rollup h).Covers (samplesOf h)
  within : ∀ h ∈ rollups, ∀ s ∈ samplesOf h, h.bucket ≤ s.ts ∧ s.ts < h.bucket + hourNs
  hourInTime : ∀ h ∈ rollups, (samplesOf h).Pairwise (fun a b => a.ts < b.ts)
  apart : rollups.Pairwise (fun a b => (Item.rollup a).Apart (.rollup b))
  outside : ∀ p ∈ ordered, ∀ h ∈ rollups, p.ts < h.bucket ∨ h.bucket + hourNs ≤ p.ts
  restInTime : ordered.Pairwise (fun a b => a.ts < b.ts)
  inTime : points.Pairwise (fun a b => a.ts < b.ts)
  together : (ordered.filterMap Point.sample ++ rollups.flatMap samplesOf).Perm (points.filterMap Point.sample)

theorem sampleTs {p : Point} {s} (h : p.sample = some s) : s.ts = p.ts := by
  unfold Point.sample at h
  split at h
  · cases h
  · cases h
    rfl

theorem samplesInTime {points : List Point} (h : points.Pairwise (fun a b => a.ts < b.ts)) :
    (points.filterMap Point.sample).Pairwise (fun a b => a.ts < b.ts) := by
  refine h.filterMap Point.sample ?_
  intro a b before s first t second
  rw [sampleTs first,sampleTs second]
  exact before

theorem windowedSamples (r : Request) (points : List Point) (step : Int) :
    (windowed r points step).filterMap Point.sample = (points.filterMap Point.sample).filter (fun s => inWindow r step s.ts) := by
  induction points with
  | nil => rfl
  | cons p points ih =>
    unfold windowed at ih ⊢
    cases read : p.sample with
    | none =>
      rw [filterMap_cons_none read,filter_cons]
      split
      · rw [filterMap_cons_none read,ih]
      · exact ih
    | some s =>
      rw [filterMap_cons_some read,filter_cons,filter_cons,sampleTs read]
      split
      · rw [filterMap_cons_some read,ih]
      · exact ih

variable {r : Request} {points ordered : List Point} {rollups : List Rollup} {samplesOf : Rollup → List Sample} {step : Int}

def Inside (r : Request) (rollups : List Rollup) (step : Int) : Prop :=
  ∀ h ∈ rollups, r.start step < h.bucket ∧ h.bucket + hourNs - 1 ≤ r.finish step

def unsorted (r : Request) (ordered : List Point) (rollups : List Rollup) (step : Int) : List Item :=
  ((windowed r ordered step).filterMap Point.sample).map .sample ++ rollups.map .rollup

theorem itemsOf (inside : Inside r rollups step) : items r ordered rollups step =
    (unsorted r ordered rollups step).insertionSort (fun a b => a.at ≤ b.at) := by
  have hours : rollups.filter (fun h => r.start step < h.bucket ∧ h.bucket + hourNs - 1 ≤ r.finish step) = rollups := by
    rw [filter_eq_self]
    intro h mem
    exact decide_eq_true (inside h mem)
  unfold items
  simp only [hours]
  rfl

variable (h : Parts points ordered rollups samplesOf)
include h

theorem Parts.unsortedApart : (unsorted r ordered rollups step).Pairwise Item.Apart := by
  unfold unsorted
  rw [pairwise_append,pairwise_map,pairwise_map]
  refine ⟨?_,h.apart,?_⟩
  · have inTime := samplesInTime (h.restInTime.sublist filter_sublist : (windowed r ordered step).Pairwise _)
    refine inTime.imp ?_
    intro a b before
    exact .inl (by simp only [Item.finish,Item.at]; omega)
  intro a left b right
  obtain ⟨s,inside,rfl⟩ := mem_map.mp left
  obtain ⟨hour,listed,rfl⟩ := mem_map.mp right
  obtain ⟨p,mem,read⟩ := mem_filterMap.mp inside
  have ts := sampleTs read
  have := h.outside p (mem_of_mem_filter mem) hour listed
  simp only [Item.Apart,Item.finish,Item.at]
  omega

theorem Parts.itemsInOrder (inside : Inside r rollups step) :
    (items r ordered rollups step).Pairwise (fun a b => a.finish ≤ b.at) := by
  rw [itemsOf inside]
  have sorted := pairwise_insertionSort (fun a b : Item => a.at ≤ b.at) (unsorted r ordered rollups step)
  have apart := ((perm_insertionSort (fun a b : Item => a.at ≤ b.at) (unsorted r ordered rollups step)).pairwise_iff
    Item.Apart.symm).mpr h.unsortedApart
  refine (sorted.and apart).imp ?_
  intro a b both
  have := b.spans
  rcases both.2 with before | after <;> omega

theorem Parts.mem {item} (mem : item ∈ unsorted r ordered rollups step) :
    item.Covers (item.samples samplesOf) ∧ (∀ s ∈ item.samples samplesOf, item.at ≤ s.ts ∧ s.ts < item.finish) ∧
      (item.samples samplesOf).Pairwise (fun a b => a.ts < b.ts) := by
  rcases mem_append.mp mem with mem | mem
  · obtain ⟨s,-,rfl⟩ := mem_map.mp mem
    refine ⟨⟨s,[],rfl,rfl⟩,?_,pairwise_singleton _ _⟩
    intro t same
    cases mem_singleton.mp same
    exact ⟨Int.le_refl _,by simp only [Item.finish]; omega⟩
  · obtain ⟨hour,listed,rfl⟩ := mem_map.mp mem
    exact ⟨h.covers hour listed,h.within hour listed,h.hourInTime hour listed⟩

theorem Parts.itemSamples (inside : Inside r rollups step) :
    (items r ordered rollups step).flatMap (Item.samples samplesOf) = (windowed r points step).filterMap Point.sample := by
  have shuffled : (items r ordered rollups step).Perm (unsorted r ordered rollups step) := by
    rw [itemsOf inside]
    exact perm_insertionSort _ _
  have rising : ((items r ordered rollups step).flatMap (Item.samples samplesOf)).Pairwise (fun a b => a.ts < b.ts) := by
    rw [pairwise_flatMap]
    refine ⟨fun item mem => (h.mem (shuffled.subset mem)).2.2,(h.itemsInOrder inside).imp_of_mem ?_⟩
    intro a b left right before s first t second
    have := (h.mem (shuffled.subset left)).2.1 s first
    have := (h.mem (shuffled.subset right)).2.1 t second
    omega
  have gathered : ((items r ordered rollups step).flatMap (Item.samples samplesOf)).Perm
      ((windowed r points step).filterMap Point.sample) := by
    refine (shuffled.flatMap_right _).trans ?_
    have hours : (rollups.flatMap samplesOf).filter (fun s => inWindow r step s.ts) = rollups.flatMap samplesOf := by
      rw [filter_eq_self]
      intro s mem
      obtain ⟨hour,listed,held⟩ := mem_flatMap.mp mem
      have := inside hour listed
      have := h.within hour listed s held
      exact decide_eq_true ⟨by omega,by omega⟩
    have whole := h.together.filter (fun s => inWindow r step s.ts)
    rw [filter_append,hours,← windowedSamples,← windowedSamples] at whole
    have flat : (unsorted r ordered rollups step).flatMap (Item.samples samplesOf) =
        (windowed r ordered step).filterMap Point.sample ++ rollups.flatMap samplesOf := by
      unfold unsorted
      rw [flatMap_append,flatMap_map,flatMap_map]
      congr 1
      exact flatMap_singleton' _
    rw [flat]
    exact whole
  refine gathered.eq_of_pairwise ?_ rising (samplesInTime (h.inTime.sublist filter_sublist))
  omega

omit h

theorem addTierSampleFallback (acc : Option Summary) (s : Sample) (e : Stop) (h : addTierSample acc s = .error e) :
    e = .fallback := by
  unfold addTierSample at h
  cases acc with
  | none => cases h
  | some acc =>
    rw [addTierItemJoin,Summary.join] at h
    split at h
    · cases h
      rfl
    · cases h

theorem Parts.stepAgrees (h : Parts points ordered rollups samplesOf) (inside : Inside r rollups step) :
    StepAgrees r points ordered rollups step := by
  intro few
  have fold := itemsSamples (items r ordered rollups step) (Item.samples samplesOf)
    (fun item mem => by
      rw [itemsOf inside] at mem
      exact (h.mem ((perm_insertionSort _ _).subset mem)).1) none
  rw [h.itemSamples inside] at fold
  unfold tieredStep rawStep
  rw [fold]
  cases folded : ((windowed r points step).filterMap Point.sample).foldlM addTierSample none with
  | error e =>
    cases Lists.foldlMError (P := (· = .fallback)) addTierSampleFallback folded
    exact .inl rfl
  | ok summary =>
    exact .inr (tierValueRaw r.op ((length_filterMap_le _ _).trans few) folded _ _)

end Pulso.PromQL
