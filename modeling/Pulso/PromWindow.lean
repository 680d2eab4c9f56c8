import Pulso.PromCompose

/-! The sliding window holds the samples of each step's interval, so the raw evaluation and
the tiered one can be compared step by step. -/
namespace Pulso.PromQL
open List

theorem orderedSplit {xs : List Point} (ordered : xs.Pairwise (fun a b => a.ts < b.ts)) (t : Int) :
    xs.takeWhile (fun p => p.ts ≤ t) = xs.filter (fun p => p.ts ≤ t) ∧
      xs.dropWhile (fun p => p.ts ≤ t) = xs.filter (fun p => t < p.ts) := by
  induction xs with
  | nil => exact ⟨rfl,rfl⟩
  | cons x xs ih =>
    rw [pairwise_cons] at ordered
    by_cases early : x.ts ≤ t
    · have late : ¬t < x.ts := by omega
      obtain ⟨taken,dropped⟩ := ih ordered.2
      constructor
      · rw [takeWhile_cons_of_pos (by simpa using early),filter_cons_of_pos (by simpa using early),taken]
      · rw [dropWhile_cons_of_pos (by simpa using early),filter_cons_of_neg (by simpa using late),dropped]
    have none : xs.filter (fun p => p.ts ≤ t) = [] := by
      rw [filter_eq_nil_iff]
      intro y mem
      have := ordered.1 y mem
      simp only [decide_eq_true_eq]
      omega
    have all : xs.filter (fun p => t < p.ts) = xs := by
      rw [filter_eq_self]
      intro y mem
      have := ordered.1 y mem
      simp only [decide_eq_true_eq]
      omega
    constructor
    · rw [takeWhile_cons_of_neg (by simpa using early),filter_cons_of_neg (by simpa using early),none]
    · rw [dropWhile_cons_of_neg (by simpa using early),filter_cons_of_pos (by simp; omega),all]

def windowed (r : Request) (points : List Point) (step : Int) : List Point := points.filter (fun p => inWindow r step p.ts)

theorem finishMono (r : Request) {a b} (h : a ≤ b) : r.finish a ≤ r.finish b := by
  unfold Request.finish sourceTime
  split <;> omega

structure Slid (r : Request) (points : List Point) (steps : List Int) (state : Slide) : Prop where
  parts : ∃ old, points = old ++ (state.bucket ++ state.remaining) ∧ ∀ p ∈ old, ∀ s ∈ steps, p.ts ≤ r.start s
  arrived : ∀ p ∈ state.bucket, ∀ s ∈ steps, p.ts ≤ r.finish s

theorem slidStart (r : Request) (points : List Point) (steps : List Int) (work : Nat) :
    Slid r points steps ⟨points,[],[],work⟩ where
  parts := ⟨[],rfl,fun _ mem => nomatch mem⟩
  arrived := fun _ mem => nomatch mem

variable {r : Request} {points : List Point} {step : Int} {steps : List Int}

def bucketOf (r : Request) (state : Slide) (step : Int) : List Point :=
  expire (state.bucket ++ state.remaining.takeWhile (fun p => p.ts ≤ r.finish step)) (r.start step)

theorem slidStep {state : Slide} (ordered : points.Pairwise (fun a b => a.ts < b.ts)) (h : Slid r points (step::steps) state)
    (later : ∀ s ∈ steps, step ≤ s) (values : Values) (work : Nat) : bucketOf r state step = windowed r points step ∧
      Slid r points steps ⟨state.remaining.dropWhile (fun p => p.ts ≤ r.finish step),bucketOf r state step,values,work⟩ := by
  obtain ⟨old,whole,dropped⟩ := h.parts
  have apart := ordered
  rw [whole,pairwise_append,pairwise_append] at apart
  obtain ⟨arrivals,rest⟩ := orderedSplit apart.2.1.2.1 (r.finish step)
  let arrived := state.bucket ++ state.remaining.takeWhile (fun p => p.ts ≤ r.finish step)
  let ahead := state.remaining.dropWhile (fun p => p.ts ≤ r.finish step)
  have cut : state.bucket ++ state.remaining = arrived ++ ahead := by
    rw [append_assoc,takeWhile_append_dropWhile]
  have held : arrived.Pairwise (fun a b => a.ts < b.ts) := by
    refine List.Pairwise.sublist ?_ (pairwise_append.mpr apart.2.1)
    exact (List.Sublist.refl _).append (takeWhile_sublist _)
  have expired := orderedSplit held (r.start step)
  have reached : ∀ p ∈ arrived, p.ts ≤ r.finish step := by
    intro p mem
    rcases mem_append.mp mem with mem | mem
    · exact h.arrived p mem step mem_cons_self
    · rw [arrivals] at mem
      exact of_decide_eq_true (mem_filter.mp mem).2
  have bucket : bucketOf r state step = windowed r points step := by
    unfold windowed
    rw [whole,cut,filter_append,filter_append]
    have first : old.filter (fun p => inWindow r step p.ts) = [] := by
      rw [filter_eq_nil_iff]
      intro p mem
      have := dropped p mem step mem_cons_self
      simp only [inWindow,decide_eq_true_eq]
      omega
    have last : ahead.filter (fun p => inWindow r step p.ts) = [] := by
      rw [filter_eq_nil_iff]
      intro p mem
      rw [show ahead = _ from rest] at mem
      have := of_decide_eq_true (mem_filter.mp mem).2
      simp only [inWindow,decide_eq_true_eq]
      omega
    rw [first,last,nil_append,append_nil,bucketOf,expire,expired.2]
    apply filter_congr
    intro p mem
    have := reached p mem
    simp only [inWindow,this,and_true]
  refine ⟨bucket,?_,?_⟩
  · refine ⟨old ++ arrived.takeWhile (fun p => p.ts ≤ r.start step),?_,?_⟩
    · have split : arrived = arrived.takeWhile (fun p => p.ts ≤ r.start step) ++ bucketOf r state step :=
        (takeWhile_append_dropWhile).symm
      rw [append_assoc,← append_assoc _ (bucketOf r state step),← split,← cut]
      exact whole
    intro p mem s inside
    rcases mem_append.mp mem with mem | mem
    · exact dropped p mem s (mem_cons_of_mem _ inside)
    rw [expired.1] at mem
    have early := of_decide_eq_true (mem_filter.mp mem).2
    have := finishMono r (later s inside)
    unfold Request.start at early ⊢
    omega
  · intro p mem s inside
    have := reached p ((dropWhile_sublist _).subset mem)
    have := finishMono r (later s inside)
    omega

open Pulso.MetricTiers (Rollup)

def rawStep (r : Request) (points : List Point) (step : Int) : Except Stop (Option Number) :=
  value r.op ((windowed r points step).filterMap Point.sample) (r.start step) (r.finish step)

def StepAgrees (r : Request) (points ordered : List Point) (rollups : List Rollup) (step : Int) : Prop :=
  (windowed r points step).length ≤ 2^53 →
    tieredStep r ordered rollups step = .error .fallback ∨ tieredStep r ordered rollups step = rawStep r points step

def tieredNext (r : Request) (ordered : List Point) (rollups : List Rollup) (state : Values × Nat) (step : Int) :
    Except Stop (Values × Nat) := do
  let value ← tieredStep r ordered rollups step
  .ok (state.1 ++ (value.map (fun v => (step,v))).toList,state.2 + ordered.length + rollups.length + 1)

theorem stepBucketEq (maxWork : Nat) {state} (h : bucketOf r state step = windowed r points step) :
    stepBucket r maxWork state step = .error .workLimit ∨ (windowed r points step).length ≤ maxWork ∧
      ∃ work, stepBucket r maxWork state step = (do
        let value ← rawStep r points step
        .ok ⟨state.remaining.dropWhile (fun p => p.ts ≤ r.finish step),bucketOf r state step,
          state.values ++ (value.map (fun v => (step,v))).toList,work⟩) := by
  unfold stepBucket
  simp only
  split
  · exact .inl rfl
  rename_i fits
  have size : (bucketOf r state step).length ≤ maxWork := by
    unfold bucketOf
    omega
  refine .inr ⟨h ▸ size,state.work + (state.remaining.takeWhile (fun p => p.ts ≤ r.finish step)).length +
    max 1 (bucketOf r state step).length,?_⟩
  unfold rawStep
  rw [← h]
  rfl

variable (inTime : points.Pairwise (fun a b => a.ts < b.ts))
include inTime

theorem runAgrees {ordered rollups maxWork} (ascending : steps.Pairwise (· ≤ ·)) (bound : maxWork ≤ 2^53)
    (each : ∀ step ∈ steps, StepAgrees r points ordered rollups step) {state} (spent : Nat)
    (slid : Slid r points steps state) :
    steps.foldlM (tieredNext r ordered rollups) (state.values,spent) = .error .fallback ∨
      steps.foldlM (stepBucket r maxWork) state = .error .workLimit ∨
      (steps.foldlM (tieredNext r ordered rollups) (state.values,spent)).map Prod.fst =
        (steps.foldlM (stepBucket r maxWork) state).map Slide.values := by
  induction steps generalizing state spent with
  | nil => exact .inr (.inr rfl)
  | cons step steps ih =>
    rw [pairwise_cons] at ascending
    have bucket := (slidStep inTime slid ascending.1 [] 0).1
    simp only [foldlM_cons]
    rcases stepBucketEq maxWork bucket with limit | ⟨size,work,stepped⟩
    · rw [limit]
      exact .inr (.inl rfl)
    rw [stepped,tieredNext]
    rcases each step mem_cons_self (size.trans bound) with fell | same
    · rw [fell]
      exact .inl rfl
    rw [same]
    cases rawStep r points step with
    | error e => exact .inr (.inr rfl)
    | ok value =>
      have next := (slidStep inTime slid ascending.1 (state.values ++ (value.map (fun v => (step,v))).toList) work).2
      exact ih ascending.2 (forall_mem_cons.mp each).2 _ next

theorem seriesAgrees {ordered rollups maxWork} (ascending : steps.Pairwise (· ≤ ·)) (bound : maxWork ≤ 2^53)
    (each : ∀ step ∈ steps, StepAgrees r points ordered rollups step) (work : Nat) :
    tieredSeries r steps ordered rollups = .error .fallback ∨
      evaluateSeries r steps points work maxWork = .error .workLimit ∨
      (tieredSeries r steps ordered rollups).map Prod.fst = (evaluateSeries r steps points work maxWork).map Prod.fst := by
  have run := runAgrees inTime ascending bound each 0 (slidStart r points steps work)
  have tiered : tieredSeries r steps ordered rollups = steps.foldlM (tieredNext r ordered rollups) ([],0) := rfl
  unfold evaluateSeries
  rcases run with fell | limit | same
  · exact .inl fell
  · rw [limit]
    exact .inr (.inl rfl)
  · refine .inr (.inr (same.trans ?_))
    cases steps.foldlM (stepBucket r maxWork) ⟨points,[],[],work⟩ <;> rfl

end Pulso.PromQL
