import Pulso.TieredHour

/-! Queries over served hours. The tiered evaluation of a selection falls back, or gives the
series and values of the raw evaluation of all its samples. -/
namespace Pulso.MetricTiers
open Pulso.PromQL Pulso.Metric Pulso.Lists List

structure Serving (rows : List Row) (served : List (ServedHour rows)) (rollups : List Rollup) : Prop where
  distinct : (served.map ServedHour.hour).Nodup
  read : rollups.Perm (served.flatMap ServedHour.rollups)
  calm : ∀ r ∈ rollups, r.flags = .none

def hoursOf {rows : List Row} (served : List (ServedHour rows)) : List Int := served.map ServedHour.hour

variable {rows : List Row} {served : List (ServedHour rows)} {rollups : List Rollup}

def ownRollups (rollups : List Rollup) (labels : Labels) : List Rollup :=
  (rollups.filter (fun r => r.labels = labels)).insertionSort (fun a b => a.bucket ≤ b.bucket)

theorem Serving.own (h : Serving rows served rollups) (plain : Plain rows) (labels : Labels) :
    ∃ found : ServedHour rows → Option Rollup, (ownRollups rollups labels).Perm (served.filterMap found) ∧
      ∀ hour ∈ served, ServedHour.Rolled (h := hour) labels (found hour) := by
  choose found listed rolled using fun hour : ServedHour rows => hour.rolled plain labels
  refine ⟨found,?_,fun hour _ => rolled hour⟩
  refine (perm_insertionSort _ _).trans ((h.read.filter _).trans (List.Perm.of_eq ?_))
  rw [filter_flatMap,filterMap_eq_flatMap_toList]
  exact flatMap_congr (fun hour _ => listed hour)

theorem hourOnce {a b ts} (first : a % PromQL.hourNs = 0) (second : b % PromQL.hourNs = 0)
    (inA : inHour a ts = true) (inB : inHour b ts = true) : a = b := by
  unfold inHour at inA inB
  rw [decide_eq_true_eq] at inA inB
  unfold PromQL.hourNs at *
  omega

theorem splitHours {hours : List Int} (distinct : hours.Nodup) (aligned : ∀ hour ∈ hours, hour % PromQL.hourNs = 0)
    (points : List Point) :
    (points.filter (fun p => hours.all (fun hour => !inHour hour p.ts)) ++
      hours.flatMap (fun hour => points.filter (fun p => inHour hour p.ts))).Perm points := by
  induction hours with
  | nil => simp
  | cons hour hours ih =>
    rw [nodup_cons] at distinct
    have rest := ih distinct.2 (forall_mem_cons.mp aligned).2
    have outside : points.filter (fun p => (hour::hours).all (fun hour => !inHour hour p.ts)) =
        (points.filter (fun p => hours.all (fun hour => !inHour hour p.ts))).filter (fun p => !inHour hour p.ts) := by
      rw [filter_filter]
      apply filter_congr
      intro p _
      rw [all_cons]
    have inside : points.filter (fun p => inHour hour p.ts) =
        (points.filter (fun p => hours.all (fun hour => !inHour hour p.ts))).filter (fun p => inHour hour p.ts) := by
      rw [filter_filter]
      apply filter_congr
      intro p _
      cases here : inHour hour p.ts with
      | false => rfl
      | true =>
        refine (all_eq_true.mpr ?_).symm
        intro other mem
        rw [Bool.not_eq_true']
        by_contra also
        have same := hourOnce (aligned hour mem_cons_self) (aligned other (mem_cons_of_mem _ mem)) here
          (Bool.not_eq_false _ ▸ also)
        exact distinct.1 (same ▸ mem)
    rw [outside,flatMap_cons,inside,← append_assoc]
    refine List.Perm.trans ?_ rest
    refine List.Perm.append_right _ ?_
    exact perm_append_comm.trans (filter_append_perm _ _)

theorem remainingPoints (rows : List Row) (hours : List Int) (labels : Labels) :
    pointsOf (remaining rows hours) labels =
      (pointsOf rows labels).filter (fun p => hours.all (fun hour => !inHour hour p.ts)) := by
  unfold pointsOf remaining
  rw [filter_reverse,Builder.filterFilterMap (q := fun row => hours.all (fun hour => !inHour hour row.ts)),
    filter_filter,filter_filter]
  · congr 2
    apply filter_congr
    intro row _
    exact Bool.and_comm _ _
  · intro row _ p read
    rw [pointTs read]

theorem Plain.remaining {rows} (plain : Plain rows) (hours : List Int) (labels : Labels) :
    ((pointsOf (remaining rows hours) labels).map Point.ts).Nodup := by
  rw [remainingPoints]
  exact (plain.distinct labels).sublist (filter_sublist.map _)

theorem Serving.parts (h : Serving rows served rollups) (plain : Plain rows) (labels : Labels) :
    Parts (prepareGroup (pointsOf rows labels)) (prepareGroup (pointsOf (remaining rows (hoursOf served)) labels))
      (ownRollups rollups labels) (fun r => hourSamples rows labels r.bucket) := by
  obtain ⟨found,own,rolled⟩ := h.own plain labels
  have hour : ∀ r ∈ ownRollups rollups labels, ∃ hour ∈ served, found hour = some r ∧ r.bucket = hour.hour := by
    intro r mem
    obtain ⟨hour,inside,same⟩ := mem_filterMap.mp (own.subset mem)
    exact ⟨hour,inside,same,((rolled hour inside).present r same).2.1⟩
  have aligned : ∀ hour ∈ hoursOf served, hour % PromQL.hourNs = 0 := by
    intro hour mem
    obtain ⟨one,-,rfl⟩ := mem_map.mp mem
    exact one.aligned
  have all := prepared (plain.distinct labels)
  have rest := prepared (plain.remaining (hoursOf served) labels)
  refine ⟨?_,?_,?_,?_,?_,rest.2,all.2,?_⟩
  · intro r mem
    obtain ⟨hour,inside,same,bucket⟩ := hour r mem
    have listed := (mem_filter.mp ((perm_insertionSort _ _).subset mem)).1
    rw [bucket]
    exact ((rolled hour inside).present r same).2.2 (h.calm r listed)
  · intro r _ s mem
    obtain ⟨p,inside,read⟩ := mem_filterMap.mp mem
    have within := (mem_filter.mp inside).2
    unfold inHour at within
    rw [decide_eq_true_eq,← sampleTs read] at within
    exact within
  · intro r _
    exact hourSamplesInTime plain labels r.bucket
  · refine (own.pairwise_iff Item.Apart.symm).mpr ?_
    rw [pairwise_filterMap]
    refine (pairwise_map.mp h.distinct).imp_of_mem ?_
    intro a b left right other r first r' second
    have here := ((rolled a left).present r first).2.1
    have there := ((rolled b right).present r' second).2.1
    have := a.aligned
    have := b.aligned
    simp only [Item.Apart,Item.finish,Item.at,here,there]
    unfold PromQL.hourNs at *
    omega
  · intro p mem r own
    obtain ⟨hour,inside,-,bucket⟩ := hour r own
    have point := rest.1.subset mem
    rw [remainingPoints] at point
    have outside := all_eq_true.mp (mem_filter.mp point).2 hour.hour (mem_map_of_mem inside)
    unfold inHour at outside
    rw [Bool.not_eq_true',decide_eq_false_iff_not] at outside
    omega
  · have each : ∀ hour ∈ served, (found hour).toList.flatMap (fun r => hourSamples rows labels r.bucket) =
        hourSamples rows labels hour.hour := by
      intro hour inside
      cases same : found hour with
      | none => exact ((rolled hour inside).absent same).symm
      | some r =>
        have bucket := ((rolled hour inside).present r same).2.1
        simp [bucket]
    have hours : (ownRollups rollups labels).flatMap (fun r => hourSamples rows labels r.bucket) |>.Perm
        (((hoursOf served).flatMap (fun hour => (prepareGroup (pointsOf rows labels)).filter
          (fun p => inHour hour p.ts))).filterMap Point.sample) := by
      refine (own.flatMap_right _).trans (List.Perm.of_eq ?_)
      rw [filterMap_eq_flatMap_toList,flatMap_assoc,flatMap_congr each,hoursOf,flatMap_map,filterMap_flatMap]
      rfl
    have left : (prepareGroup (pointsOf (remaining rows (hoursOf served)) labels)).Perm
        ((prepareGroup (pointsOf rows labels)).filter (fun p => (hoursOf served).all (fun hour => !inHour hour p.ts))) := by
      refine rest.1.trans ?_
      rw [remainingPoints]
      exact (all.1.filter _).symm
    refine ((left.filterMap Point.sample).append hours).trans ?_
    rw [← filterMap_append]
    exact (splitHours h.distinct aligned _).filterMap _

end Pulso.MetricTiers
