import Mathlib.Data.List.Perm.Subperm
import Pulso.PromAggregate

/-! Fused and unfused aggregation compared. Series fold into their groups in the same order either
way; the groups come out in the order in which the runtime iterates over their keys. -/
namespace Pulso.PromQL.Aggregation
open Pulso.Metric Pulso.PromQL.Delivery Pulso.Results List

variable {work left spent : Nat} {series : LabelMap × Points} {groups : List Group} {vector result : Vector} {labels : LabelMap}

section Series
variable (s : Selection)

def stepValues (name : Bytes) (state : List Observation × List Observation × Points) (step : Int) :
    Except Stop (List Observation × List Observation × Points) :=
  let finish := s.finish step
  let arrivals := state.1.takeWhile (fun p => p.ts ≤ finish)
  let bucket := expire (state.2.1 ++ arrivals) (finish - s.window)
  do
    let value ← s.value bucket (finish - s.window) finish name
    .ok (state.1.dropWhile (fun p => p.ts ≤ finish),bucket,state.2.2 ++ (value.map (fun v => (step,v))).toList)

def seriesOf (group : Group) : Except Stop (LabelMap × Points) := do
  let state ← s.steps.foldlM (stepValues s group.1.metricName) (group.2,[],[])
  .ok (resultLabels s group.1,state.2.2)

def valueOf (group : Group) : LabelMap × Points := (seriesOf s group).toOption.getD (resultLabels s group.1,[])

def Slide.parts (state : Slide) : List Observation × List Observation × Points :=
  (state.remaining,state.bucket,state.values)

variable {s} {limits : Limits}

theorem stepParts {name state next step} (ok : stepBucket s limits name state step = .ok next) :
    stepValues s name state.parts step = .ok next.parts := by
  unfold stepBucket at ok
  dsimp only at ok
  split at ok
  · cases ok
  obtain ⟨value,found,same⟩ := bindOk ok
  cases same
  unfold stepValues Slide.parts
  dsimp only
  rw [found]
  rfl

theorem evaluatedSeries {group}
    (ok : evaluateSeries s limits group work = .ok (series,left)) : valueOf s group = series := by
  obtain ⟨state,run,same⟩ := bindOk ok
  cases same
  have follows : ∀ step (a : Slide) b next, b = a.parts → stepBucket s limits group.1.metricName a step = .ok next →
      ∃ after, stepValues s group.1.metricName b step = .ok after ∧ after = next.parts := by
    rintro step a _ next rfl first
    exact ⟨_,stepParts first,rfl⟩
  obtain ⟨_,pure,rfl⟩ := foldFollows (R := fun a b => b = a.parts) follows run rfl
  rw [valueOf,seriesOf,show (group.2,[],[]) = Slide.parts ⟨group.2,[],[],work⟩ from rfl,pure]
  rfl

theorem seriesOk {group} (ok : seriesOf s group = .ok series) :
    ∃ state, s.steps.foldlM (stepValues s group.1.metricName) (group.2,[],[]) = .ok state ∧
      series = (resultLabels s group.1,state.2.2) := by
  obtain ⟨state,run,same⟩ := bindOk ok
  cases same
  exact ⟨state,run,rfl⟩

theorem valueLabels (group : Group) : (valueOf s group).1 = resultLabels s group.1 := by
  unfold valueOf
  cases h : seriesOf s group with
  | error e => rfl
  | ok series =>
    obtain ⟨state,_,rfl⟩ := seriesOk h
    rfl

theorem stepTimes {name state next step} (ok : stepValues s name state step = .ok next) :
    ∃ times, next.2.2.map Prod.fst = state.2.2.map Prod.fst ++ times ∧ times.Sublist [step] := by
  obtain ⟨value,_,same⟩ := bindOk ok
  cases same
  cases value with
  | none => exact ⟨[],by simp,nil_sublist _⟩
  | some v => exact ⟨[step],by simp,.refl _⟩

theorem valueAscending (group : Group) : (valueOf s group).2.Pairwise (fun a b => a.1 < b.1) := by
  unfold valueOf
  cases h : seriesOf s group with
  | error e => exact .nil
  | ok series =>
    obtain ⟨state,run,rfl⟩ := seriesOk h
    have times : (state.2.2.map Prod.fst).Sublist s.steps := by
      refine foldOk (P := fun before state => (state.2.2.map Prod.fst).Sublist before) ?_ run (.refl _)
      intro before step state next inside ok
      obtain ⟨times,grown,one⟩ := stepTimes ok
      rw [grown]
      exact inside.append one
    exact pairwise_map.mp (s.ascending.sublist times)

def evaluated (s : Selection) (groups : List Group) : Vector := groups.reverse.map (valueOf s)

def selected (s : Selection) (groups : List Group) : Vector := (evaluated s groups).filter (fun series => series.2 ≠ [])

theorem evaluatedGroups {held}
    (ok : evaluateGroups s limits groups held spent = .ok (vector,left)) : vector = selected s groups := by
  obtain ⟨state,run,rest⟩ := bindOk ok
  obtain ⟨_,_,same⟩ := bindOk rest
  cases same
  refine foldOk (P := fun before state => state.result = selected s before) ?_ run rfl
  intro before group state next holds ok
  obtain ⟨⟨⟨labels,values⟩,work⟩,ran,kept⟩ := bindOk ok
  dsimp only at kept
  split at kept
  · cases kept
    have value := evaluatedSeries ran
    by_cases empty : values = []
    · simp [selected,evaluated,holds,value,empty]
    · simp [selected,evaluated,holds,value,empty]
  · cases kept

theorem rowsOfNone (absent : labels ∉ vector.map Prod.fst) : rowsOf vector labels = [] := by
  unfold rowsOf rows
  rw [map_eq_nil_iff,filter_eq_nil_iff]
  intro row mem same
  obtain ⟨series,inside,listed⟩ := mem_flatMap.mp mem
  obtain ⟨sample,_,rfl⟩ := mem_map.mp listed
  exact absent (of_decide_eq_true same ▸ mem_map_of_mem inside)

theorem rowsOfSeries (distinct : (vector.map Prod.fst).Nodup)
    (mem : series ∈ vector) : rowsOf vector series.1 = series.2 := by
  induction vector with
  | nil => cases mem
  | cons first rest ih =>
    obtain ⟨head,tail⟩ := nodup_cons.mp distinct
    have split : ∀ labels, rowsOf (first::rest) labels =
        (if first.1 = labels then first.2 else []) ++ rowsOf rest labels := by
      intro labels
      unfold rowsOf rows
      rw [flatMap_cons,filter_append,map_append]
      congr 1
      rw [filter_map,map_map]
      split
      · subst labels
        simp [Function.comp_def]
      · rename_i other
        simp [Function.comp_def,other]
    rw [split]
    rcases mem_cons.mp mem with rfl | mem
    · rw [if_pos rfl,rowsOfNone head,append_nil]
    · have other : first.1 ≠ series.1 := fun same => head (same ▸ mem_map_of_mem mem)
      rw [if_neg other,ih tail mem,nil_append]

theorem coalesced (ok : coalesce limits vector spent = .ok (result,left)) (distinct : (vector.map Prod.fst).Nodup)
    (ascending : ∀ series ∈ vector, series.2.Pairwise (fun a b => a.1 < b.1)) : result = vector := by
  obtain ⟨_,_,rest⟩ := bindOk ok
  split at rest
  · cases rest
  cases rest
  rw [Lists.uniqBySelf distinct,map_map]
  refine (map_congr_left fun series mem => ?_).trans (map_id _)
  have sorted : series.2.Pairwise (fun a b => a.1 ≤ b.1) := (ascending series mem).imp (fun less => less.le)
  simp only [Function.comp_apply,rowsOfSeries distinct mem,id_eq]
  rw [List.Pairwise.insertionSort_eq sorted]

end Series

section Fold
variable {F : Type} (op : Operation F)

def foldSeries (states : States F) (series : LabelMap × Points) : States F :=
  series.2.foldl (foldStep op (metricName series.1)) states

def emit (members : Vector) (labels : LabelMap) : Option (LabelMap × Points) :=
  let samples := groupSamples op (members.foldl (foldSeries op) Dict.empty)
  if samples = [] then none else some (labels,samples)

variable {op} {I : Type} {evaluate : I → Nat → Except Stop ((LabelMap × Points) × Nat)} {bound : Option (Nat × Nat)}
  {value : I → LabelMap × Points}

variable (faithful : ∀ item work series left, evaluate item work = .ok (series,left) → value item = series)
include faithful

theorem foldGroupOk {items emitted n m states last}
    (ok : foldGroup op evaluate bound emitted items work states n = .ok (last,m,left)) :
    last = (items.map value).foldl (foldSeries op) states := by
  induction items generalizing work states n with
  | nil =>
    cases ok
    rfl
  | cons item items ih =>
    obtain ⟨⟨⟨labels,samples⟩,next⟩,first,rest⟩ := bindOk ok
    obtain ⟨_,_,more⟩ := bindOk rest
    rw [map_cons,foldl_cons,faithful item work _ _ first]
    exact ih more

variable (value) in
theorem foldAggregationOk {runtime items key points}
    (ok : foldAggregation op evaluate bound runtime items key = .ok (result,points,work)) :
    result = (mapOrder runtime (Lists.uniqBy id (items.map key))).filterMap
      (fun labels => emit op ((items.filter (fun item => key item = labels)).map value) labels) := by
  obtain ⟨state,run,same⟩ := bindOk ok
  cases same
  refine foldOk (P := fun before state => state.result.reverse = before.filterMap
    (fun labels => emit op ((items.filter (fun item => key item = labels)).map value) labels)) ?_ run rfl
  intro before labels state next holds ok
  obtain ⟨⟨states,n,work⟩,folded,same⟩ := bindOk ok
  cases same
  have states := foldGroupOk faithful folded
  subst states
  rw [filterMap_append,← holds]
  by_cases empty : groupSamples op (((items.filter (fun item => key item = labels)).map value).foldl (foldSeries op)
      Dict.empty) = []
  · simp [emit,empty]
  · simp [emit,empty]

end Fold

section Sorting
variable {K V : Type} {r : K → K → Prop} [DecidableRel r] [IsLinearOrder K r]

theorem sortPerm {xs ys : List K} (perm : xs.Perm ys) : xs.insertionSort r = ys.insertionSort r :=
  List.Perm.eq_of_pairwise' (pairwise_insertionSort r xs) (pairwise_insertionSort r ys)
    (((perm_insertionSort r xs).trans perm).trans (perm_insertionSort r ys).symm)

theorem sortFilter (p : K → Bool) (xs : List K) : (xs.insertionSort r).filter p = (xs.filter p).insertionSort r :=
  List.Perm.eq_of_pairwise' ((pairwise_insertionSort r xs).filter p) (pairwise_insertionSort r _)
    (((perm_insertionSort r xs).filter p).trans (perm_insertionSort r _).symm)

theorem filterMapSome (f : K → Option V) (xs : List K) : xs.filterMap f = (xs.filter (fun k => (f k).isSome)).filterMap f := by
  induction xs with
  | nil => rfl
  | cons x xs ih =>
    cases h : f x with
    | none => rw [filterMap_cons_none h,filter_cons_of_neg (by simp [h]),ih]
    | some v => rw [filter_cons_of_pos (by simp [h]),filterMap_cons_some h,filterMap_cons_some h,ih]

theorem sortMap (f : K → Option V) (xs : List K) :
    (xs.insertionSort r).filterMap f = ((xs.filter (fun k => (f k).isSome)).insertionSort r).filterMap f := by
  rw [filterMapSome,sortFilter]

end Sorting

section Output
variable {F : Type} (op : Operation F) (runtime : Runtime) (grouping : Grouping)

def members (vector : Vector) (labels : LabelMap) : Vector :=
  vector.filter (fun series => groupKey series.1 grouping = labels)

def keys (vector : Vector) : List LabelMap := Lists.uniqBy id (vector.map (fun series => groupKey series.1 grouping))

def output (vector : Vector) : Vector :=
  (mapOrder runtime (keys grouping vector)).filterMap (fun labels => emit op (members grouping vector labels) labels)

variable {op runtime grouping} {s : Selection} {limits : Limits}

theorem aggregated (ok : aggregateSeries op limits runtime grouping vector spent = .ok (result,left)) :
    result = output op runtime grouping vector := by
  obtain ⟨⟨series,points,work⟩,folded,rest⟩ := bindOk ok
  obtain ⟨_,_,same⟩ := bindOk rest
  cases same
  have result := foldAggregationOk id (fun _ _ _ _ ok => by cases ok; rfl) folded
  simp only [map_id] at result
  exact result

theorem foldedGroups {held}
    (ok : foldGroups op s limits runtime grouping groups.reverse held spent = .ok (result,left)) :
    result = output op runtime grouping (evaluated s groups) := by
  obtain ⟨⟨series,points,work⟩,folded,rest⟩ := bindOk ok
  obtain ⟨_,_,rest⟩ := bindOk rest
  obtain ⟨_,_,rest⟩ := bindOk rest
  obtain ⟨_,_,same⟩ := bindOk rest
  cases same
  have result := foldAggregationOk (valueOf s) (fun _ _ _ _ ok => evaluatedSeries ok) folded
  rw [result]
  unfold output keys members evaluated
  simp only [map_map,filter_map,Function.comp_def,valueLabels]

theorem emitDense (vector : Vector) (labels : LabelMap) :
    emit op (vector.filter (fun series => series.2 ≠ [])) labels = emit op vector labels := by
  have folded : ∀ states : States F, (vector.filter (fun series => series.2 ≠ [])).foldl (foldSeries op) states =
      vector.foldl (foldSeries op) states := by
    induction vector with
    | nil => exact fun _ => rfl
    | cons series vector ih =>
      intro states
      by_cases empty : series.2 = []
      · have same : foldSeries op states series = states := by simp [foldSeries,empty]
        rw [filter_cons_of_neg (by simpa using empty),foldl_cons,same,ih]
      · rw [filter_cons_of_pos (by simpa using empty),foldl_cons,foldl_cons,ih]
  simp only [emit,folded]

theorem membersDense (vector : Vector) (labels : LabelMap) :
    emit op (members grouping (vector.filter (fun series => series.2 ≠ [])) labels) labels =
      emit op (members grouping vector labels) labels := by
  unfold members
  rw [filter_comm,emitDense]

theorem emitKey (some : (emit op (members grouping vector labels) labels).isSome) :
    labels ∈ keys grouping (vector.filter (fun series => series.2 ≠ [])) := by
  rw [← membersDense] at some
  by_contra absent
  have none : members grouping (vector.filter (fun series => series.2 ≠ [])) labels = [] := by
    rw [members,filter_eq_nil_iff]
    intro series mem same
    exact absent (Lists.uniqMem.mpr (mem_map.mpr ⟨series,mem,of_decide_eq_true same⟩))
  rw [none] at some
  cases some

theorem emitLabels (some : emit op vector labels = some series) : series.1 = labels := by
  unfold emit at some
  dsimp only at some
  split at some
  · cases some
  · cases some
    rfl

variable (op grouping) in
def emitted (vector : Vector) : List LabelMap :=
  (keys grouping vector).filter (fun labels => (emit op (members grouping vector labels) labels).isSome)

variable (grouping) in
theorem keysDense (vector : Vector) :
    (keys grouping (vector.filter (fun series => series.2 ≠ []))).Subperm (keys grouping vector) := by
  refine subperm_of_subset (Lists.uniqNodup _) fun labels mem => ?_
  obtain ⟨series,inside,same⟩ := mem_map.mp (Lists.uniqMem.mp mem)
  exact Lists.uniqMem.mpr (mem_map.mpr ⟨series,mem_of_mem_filter inside,same⟩)

variable (op grouping) in
theorem emittedDense (vector : Vector) :
    (emitted op grouping vector).Perm (emitted op grouping (vector.filter (fun series => series.2 ≠ []))) := by
  refine (perm_ext_iff_of_nodup ((Lists.uniqNodup _).filter _) ((Lists.uniqNodup _).filter _)).mpr fun labels => ?_
  simp only [mem_filter,membersDense]
  constructor
  · rintro ⟨_,some⟩
    exact ⟨emitKey some,some⟩
  · rintro ⟨mem,some⟩
    exact ⟨(keysDense grouping vector).subset mem,some⟩

theorem outputsEqual (vector : Vector) :
    output op runtime grouping vector = output op runtime grouping (vector.filter (fun series => series.2 ≠ [])) ↔
      (keys grouping vector).length ≤ 32 ∨ 32 < (keys grouping (vector.filter (fun series => series.2 ≠ []))).length ∨
        (emitted op grouping vector).insertionSort runtime.small = (emitted op grouping vector).insertionSort runtime.large := by
  let f := fun labels => emit op (members grouping vector labels) labels
  have fewer := (keysDense grouping vector).length_le
  have dense : output op runtime grouping (vector.filter (fun series => series.2 ≠ [])) =
      (mapOrder runtime (keys grouping (vector.filter (fun series => series.2 ≠ [])))).filterMap f := by
    unfold output
    simp only [membersDense]
    rfl
  have full : output op runtime grouping vector = (mapOrder runtime (keys grouping vector)).filterMap f := rfl
  have groups : ∀ {r : LabelMap → LabelMap → Prop} [DecidableRel r] [IsLinearOrder LabelMap r],
      ((keys grouping (vector.filter (fun series => series.2 ≠ []))).insertionSort r).filterMap f =
        ((emitted op grouping vector).insertionSort r).filterMap f := by
    intro r _ _
    have same := emittedDense op grouping vector
    unfold emitted at same ⊢
    simp only [membersDense] at same
    rw [sortMap,sortPerm same]
  rw [dense,full]
  unfold mapOrder
  by_cases small : (keys grouping vector).length ≤ 32
  · rw [if_pos small,if_pos (fewer.trans small),sortMap,groups]
    exact iff_of_true rfl (.inl small)
  rw [if_neg small]
  by_cases large : 32 < (keys grouping (vector.filter (fun series => series.2 ≠ []))).length
  · rw [if_neg large.not_ge,sortMap,groups]
    exact iff_of_true rfl (.inr (.inl large))
  rw [if_pos (not_lt.mp large),sortMap,groups]
  constructor
  · intro same
    refine .inr (.inr ?_)
    have back : ∀ xs : List LabelMap, (∀ labels ∈ xs, (f labels).isSome = true) →
        (xs.filterMap f).map Prod.fst = xs := by
      intro xs some
      induction xs with
      | nil => rfl
      | cons x xs ih =>
        obtain ⟨series,found⟩ := Option.isSome_iff_exists.mp (some x mem_cons_self)
        rw [filterMap_cons_some found,map_cons,emitLabels found,ih fun y mem => some y (mem_cons_of_mem x mem)]
    have each : ∀ {r : LabelMap → LabelMap → Prop} [DecidableRel r],
        ∀ labels ∈ (emitted op grouping vector).insertionSort r, (f labels).isSome = true := by
      intro r _ labels mem
      exact (mem_filter.mp ((perm_insertionSort r _).mem_iff.mp mem)).2
    rw [← back _ each,← same]
    exact back _ each
  · rintro (few | many | sorted)
    · exact absurd few small
    · exact absurd many large
    · rw [sorted]
      rfl

variable (op s runtime grouping) in
/- Both maps of groups are iterated in the same order as far as groups come out of them: with the
series without points they have at most 32 keys, or without them more, or the orders agree. -/
def Steady (groups : List Group) : Prop :=
  uniqueResults s groups = true →
    (keys grouping (evaluated s groups)).length ≤ 32 ∨ 32 < (keys grouping (selected s groups)).length ∨
      (emitted op grouping (evaluated s groups)).insertionSort runtime.small =
        (emitted op grouping (evaluated s groups)).insertionSort runtime.large

theorem evaluatedDistinct (unique : uniqueResults s groups = true) : ((evaluated s groups).map Prod.fst).Nodup := by
  have names : (evaluated s groups).map Prod.fst = (groups.map (fun group => resultLabels s group.1)).reverse := by
    simp only [evaluated,map_map,Function.comp_def,valueLabels,map_reverse]
  have sized := of_decide_eq_true unique
  have same := (Lists.uniqBySublist (groups.map (fun group => resultLabels s group.1))).eq_of_length
    (by rw [length_map]; exact sized)
  rw [names,nodup_reverse,← same]
  exact Lists.uniqNodup _

theorem fusedAggregates (op : Operation F) (s : Selection) (limits : Limits) (runtime : Runtime) (grouping : Grouping)
    (groups : List Group) (held spent : Nat) {one two : Vector} {x y : Nat}
    (direct : fused op s limits runtime grouping groups held spent = .ok (one,x))
    (full : unfused op s limits runtime grouping groups held spent = .ok (two,y)) :
    one = two ↔ Steady op runtime grouping s groups := by
  obtain ⟨⟨vector,middle⟩,selecting,aggregating⟩ := bindOk full
  obtain ⟨⟨raw,_⟩,evaluating,rest⟩ := bindOk selecting
  obtain ⟨⟨merged,_⟩,coalescing,rest⟩ := bindOk rest
  obtain ⟨_,_,same⟩ := bindOk rest
  cases same
  have series := evaluatedGroups evaluating
  subst series
  unfold fused at direct
  split at direct
  case isTrue unique =>
    have distinct := evaluatedDistinct unique
    have merged := coalesced coalescing (distinct.sublist (filter_sublist.map Prod.fst)) (by
      intro series mem
      obtain ⟨group,_,rfl⟩ := mem_map.mp (mem_of_mem_filter mem)
      exact valueAscending group)
    subst merged
    rw [foldedGroups direct,aggregated aggregating,selected,outputsEqual]
    exact ⟨fun h _ => h,fun h => h unique⟩
  case isFalse shared =>
    obtain ⟨⟨again,_⟩,reevaluating,rest⟩ := bindOk direct
    obtain ⟨⟨vector,_⟩,recoalescing,rest⟩ := bindOk rest
    rw [evaluating] at reevaluating
    cases reevaluating
    rw [coalescing] at recoalescing
    cases recoalescing
    refine iff_of_true ?_ (fun unique => absurd unique shared)
    rw [aggregated rest,aggregated aggregating]

end Output

section Runs

def codes (labels : LabelMap) : List (List Nat ×ₗ List Nat) :=
  labels.map (fun p => toLex (p.1.map UInt8.toNat,p.2.map UInt8.toNat))

theorem codesInjective : Function.Injective codes := by
  refine map_injective_iff.mpr fun p q same => ?_
  have bytes : Function.Injective (List.map UInt8.toNat) := map_injective_iff.mpr fun a b => UInt8.toNat_inj.mp
  have parts := Prod.mk.inj (toLex.injective same)
  exact Prod.ext (bytes parts.1) (bytes parts.2)

abbrev pairOrder : LinearOrder LabelMap := LinearOrder.lift' codes codesInjective

instance turned {K : Type} {r : K → K → Prop} [IsLinearOrder K r] : IsLinearOrder K (fun a b => r b a) where
  refl a := Std.Refl.refl (r := r) a
  trans a b c ab bc := IsTrans.trans (r := r) c b a bc ab
  antisymm a b ab ba := Std.Antisymm.antisymm (r := r) a b ba ab
  total a b := Std.Total.total (r := r) b a

def turning : Runtime :=
  { small := pairOrder.le
    large := fun a b => pairOrder.le b a
    smallDecidable := pairOrder.toDecidableLE
    largeDecidable := fun a b => pairOrder.toDecidableLE b a
    smallOrder := inferInstance
    largeOrder := inferInstance }

def numbered (i : Fin 33) : Labels :=
  ⟨[(ascii "g",[UInt8.ofNat i])],by simp [Ascending],by revert i; decide +kernel⟩

def sparse : List Group :=
  (List.finRange 33).map (fun i => (numbered i,if i.val < 2 then [⟨0,.number (.float .zero)⟩] else []))

def latest : Selection where
  steps := [0]
  ascending := List.pairwise_singleton _ _
  finish := id
  window := 300000000000
  value bucket _ _ _ := .ok (match bucket.getLast? with
    | some ⟨_,.number n⟩ => some (.number n)
    | some ⟨_,.histogram h⟩ => some (.histogram h)
    | _ => none)
  single := true
  keepsName := true

def group : Operation Unit where
  foldFloat _ _ := none
  foldResult _ := some (.number .zero)

def plenty : Limits := ⟨1000,1000⟩

def pair : Vector := [((numbered 0).pairs,[(0,.number .zero)]),((numbered 1).pairs,[(0,.number .zero)])]

theorem fusedPair : fused group latest plenty turning (.only [ascii "g"]) (sparse.take 2) 0 0 = .ok (pair,8) ∧
    unfused group latest plenty turning (.only [ascii "g"]) (sparse.take 2) 0 0 = .ok (pair,8) ∧
    Steady group turning (.only [ascii "g"]) latest (sparse.take 2) := by
  have direct : fused group latest plenty turning (.only [ascii "g"]) (sparse.take 2) 0 0 = .ok (pair,8) :=
    okOf (by decide +kernel)
  have full : unfused group latest plenty turning (.only [ascii "g"]) (sparse.take 2) 0 0 = .ok (pair,8) :=
    okOf (by decide +kernel)
  exact ⟨direct,full,(fusedAggregates _ _ _ _ _ _ 0 0 direct full).mp rfl⟩

theorem fusedTurned : ∃ one two x y,fused group latest plenty turning (.only [ascii "g"]) sparse 0 0 = .ok (one,x) ∧
      unfused group latest plenty turning (.only [ascii "g"]) sparse 0 0 = .ok (two,y) ∧ one ≠ two := by
  refine ⟨pair.reverse,pair,39,39,okOf ?_,okOf ?_,?_⟩
  · decide +kernel
  · decide +kernel
  · decide +kernel

end Runs

end Pulso.PromQL.Aggregation
