import Pulso.TieredQuery

/-! The tiered evaluation of a whole selection against the raw one. -/
namespace Pulso.PromQL
open List

def Arithmetic {α : Type} (x : Except Stop α) : Prop := ∀ e, x = .error e → e = .arithmetic

namespace Arithmetic

variable {α β : Type}

theorem ok (a : α) : Arithmetic (.ok a) := by
  intro e h
  cases h

theorem ofRaised (o : Option α) : Arithmetic (raised o) := by
  intro e h
  cases o <;> cases h
  rfl

theorem andThen {x} {f : α → Except Stop β} (first : Arithmetic x) (next : ∀ a, Arithmetic (f a)) :
    Arithmetic (x >>= f) := by
  intro e h
  cases x with
  | error other =>
    cases h
    exact first _ rfl
  | ok a => exact next a e h

theorem mapped {x} (f : α → β) (h : Arithmetic x) : Arithmetic (x.map f) := by
  intro e failed
  cases x with
  | error other =>
    cases failed
    exact h _ rfl
  | ok a => cases failed

end Arithmetic

open Arithmetic

theorem toFloatArithmetic (n : Nat) : Arithmetic (toFloat n) := (ofRaised _).mapped _

theorem secondsArithmetic (ns : Int) : Arithmetic (seconds ns) := by
  unfold seconds
  split <;> exact andThen (ofRaised _) (fun _ => andThen (ofRaised _) (fun _ => ofRaised _))

theorem boundaryArithmetic (distance average : Binary64.Finite) : Arithmetic (boundaryDuration distance average) := by
  refine andThen (ofRaised _) (fun far => ?_)
  split
  · exact ok _
  · exact andThen (ofRaised _) (fun _ => ofRaised _)

variable (op : Op)

theorem limitedArithmetic (change first : Number) (interval left : Binary64.Finite) :
    Arithmetic (limited op change first interval left) := by
  unfold limited
  split
  · split
    · exact andThen (ofRaised _) (fun _ => andThen (ofRaised _) (fun _ => ok _))
    · exact ok _
  · exact ok _

theorem extrapolateArithmetic (change : Number) (first last : Sample) (count : Nat) (start finish : Int) :
    Arithmetic (extrapolate op change first last count start finish) := by
  refine andThen (secondsArithmetic _) fun interval => andThen (ofRaised _) fun parts => andThen (ofRaised _) fun average =>
    andThen (secondsArithmetic _) fun before => andThen (boundaryArithmetic _ _) fun left => andThen (secondsArithmetic _) fun after =>
    andThen (boundaryArithmetic _ _) fun right => andThen (limitedArithmetic _ _ _ _ _) fun bounded =>
    andThen (ofRaised _) fun sum => andThen (ofRaised _) fun total => andThen (ofRaised _) fun factor => ?_
  split
  · exact andThen (secondsArithmetic _) fun _ => andThen (ofRaised _) fun _ => ok _
  · exact andThen (ok _) fun _ => ok _

theorem countArithmetic (state : Binary64.Finite × Number) (samples : List Sample) :
    Arithmetic (samples.foldlM (countTransition op) state) := by
  intro e failed
  refine Lists.foldlMError (P := (· = .arithmetic)) ?_ failed
  intro state s
  exact andThen (ofRaised _) (fun _ => ok _)

theorem valueArithmetic (samples : List Sample) (start finish : Int) : Arithmetic (value op samples start finish) := by
  unfold value
  split
  · exact ok _
  split
  · exact (toFloatArithmetic _).mapped _
  · exact ok _
  · exact ok _
  · exact ok _
  · exact ok _
  · exact ok _
  · exact andThen (countArithmetic _ _ _) (fun _ => ok _)
  · exact andThen (countArithmetic _ _ _) (fun _ => ok _)
  all_goals
    split
    · exact ok _
    · exact (extrapolateArithmetic _ _ _ _ _ _ _).mapped _

def Stop.Limit (e : Stop) : Prop := e = .workLimit ∨ e = .resultLimit ∨ e = .intermediateLimit

variable {r : Request} {e : Stop}

theorem evaluateSeriesFails {steps points work maxWork}
    (h : evaluateSeries r steps points work maxWork = .error e) : e.Limit ∨ e = .arithmetic := by
  rcases Results.bindError h with run | ⟨state,_,h⟩
  · refine Lists.foldlMError (P := fun e => e.Limit ∨ e = .arithmetic) ?_ run
    intro state step e failed
    unfold stepBucket at failed
    simp only at failed
    split at failed
    · cases failed
      exact .inl (.inl rfl)
    · right
      exact andThen (valueArithmetic _ _ _ _) (fun _ => ok _) e failed
  · cases h

theorem tierValueArithmetic (summary : Option Summary) (start finish : Int) :
    Arithmetic (tierValue op summary start finish) := by
  unfold tierValue
  split
  · exact ok _
  split
  · exact (toFloatArithmetic _).mapped _
  · exact ok _
  · exact ok _
  · exact ok _
  · exact ok _
  · exact ok _
  · exact (toFloatArithmetic _).mapped _
  · exact (toFloatArithmetic _).mapped _
  all_goals
    split
    · exact ok _
    · exact (extrapolateArithmetic _ _ _ _ _ _ _).mapped _

theorem addTierItemFallback (acc : Option Summary) (item : Item) (e : Stop) (h : addTierItem acc item = .error e) :
    e = .fallback := by
  cases acc with
  | none => cases item <;> cases h
  | some acc =>
    rw [addTierItemJoin,Summary.join] at h
    split at h
    · cases h
      rfl
    · cases h

theorem tieredSeriesFails {steps ordered rollups}
    (h : tieredSeries r steps ordered rollups = .error e) : e = .fallback ∨ e = .arithmetic := by
  refine Lists.foldlMError (P := fun e => e = .fallback ∨ e = .arithmetic) ?_
    (h : steps.foldlM (tieredNext r ordered rollups) ([],0) = .error e)
  intro state step e failed
  unfold tieredNext tieredStep at failed
  cases summary : (items r ordered rollups step).foldlM addTierItem none with
  | error other =>
    simp only [summary,Bind.bind,Except.bind,Except.error.injEq] at failed
    subst failed
    exact .inl (Lists.foldlMError (P := (· = .fallback)) addTierItemFallback summary)
  | ok summary' =>
    right
    rw [summary] at failed
    exact andThen (tierValueArithmetic _ _ _ _) (fun _ => ok _) e failed

open Pulso.Metric Pulso.Lists
open Pulso.MetricTiers

def entry (op : Op) (values : Labels → Values) (labels : Labels) : Option (List (Bytes × Bytes) × Values) :=
  if values labels = [] then none else some (resultLabels labels op,values labels)

theorem entryResult (values : Labels → Values) (labels : Labels) (result : Result) :
    (if values labels = [] then result else (resultLabels labels op,values labels)::result) =
      (entry op values labels).toList ++ result := by
  unfold entry
  split <;> rfl

variable {state : Tiered}

section Folds

variable {r : Request} {steps : List Int} {limits : Limits}

theorem chargeCases (limits : Limits) (spent work : Nat) : charge limits spent work = .error .workLimit ∨ ∃ total, charge limits spent work = .ok total := by
  unfold charge
  split
  · exact .inl rfl
  · exact .inr ⟨_,rfl⟩

variable {groups : List (Labels × List Point)}

theorem tieredFold (values : Labels → Values) {rollups} {labels : List Labels} (each : ∀ l ∈ labels, ∀ v work,
      tieredSeries r steps ((groups.lookup l).getD []) (ownRollups rollups l) = .ok (v,work) → v = values l)
    {state'} (h : labels.foldlM (addTieredSeries r steps limits groups rollups) state = .ok state') :
    (∀ l ∈ labels, ∃ v work, tieredSeries r steps ((groups.lookup l).getD []) (ownRollups rollups l) = .ok (v,work)) ∧
      state'.result = (labels.filterMap (entry r.op values)).reverse ++ state.result := by
  induction labels generalizing state with
  | nil =>
    cases h
    exact ⟨fun _ mem => (nomatch mem),rfl⟩
  | cons l labels ih =>
    obtain ⟨next,step,h⟩ := Results.bindOk h
    obtain ⟨rest,result⟩ := ih (forall_mem_cons.mp each).2 h
    obtain ⟨⟨v,work⟩,series,step⟩ := Results.bindOk step
    have same := each l mem_cons_self v work series
    subst same
    refine ⟨forall_mem_cons.mpr ⟨⟨_,work,series⟩,rest⟩,?_⟩
    · obtain ⟨total,charged,step⟩ := Results.bindOk step
      dsimp only at step
      split at step
      · cases step
      cases step
      rw [result,entryResult,filterMap_cons]
      cases entry r.op values l <;> simp

theorem tieredFails {rollups} {labels : List Labels}
    (h : labels.foldlM (addTieredSeries r steps limits groups rollups) state = .error e) :
    e.Limit ∨ ∃ l ∈ labels, tieredSeries r steps ((groups.lookup l).getD []) (ownRollups rollups l) = .error e := by
  obtain ⟨l,mem,before,step⟩ := Results.foldError h
  rcases Results.bindError step with failed | ⟨out,_,step⟩
  · exact .inr ⟨l,mem,failed⟩
  left
  rcases chargeCases limits before.spent out.2 with limit | ⟨total,charged⟩
  · simp only [limit,Bind.bind,Except.bind,Except.error.injEq] at step
    exact .inl step.symm
  simp only [charged,Bind.bind,Except.bind] at step
  split at step
  · cases step
    exact .inr (.inl rfl)
  · cases step

theorem groupFold (values : Labels → Values)
    (each : ∀ g ∈ groups, ∀ work v total, evaluateSeries r steps g.2 work limits.work = .ok (v,total) → v = values g.1)
    {state state'} (h : groups.foldlM (evaluateGroup r steps limits) state = .ok state') :
    state'.result = ((groups.map Prod.fst).filterMap (entry r.op values)).reverse ++ state.result := by
  induction groups generalizing state with
  | nil =>
    cases h
    rfl
  | cons g groups ih =>
    obtain ⟨next,step,h⟩ := Results.bindOk h
    have result := ih (forall_mem_cons.mp each).2 h
    obtain ⟨⟨v,total⟩,series,step⟩ := Results.bindOk step
    have same := each g mem_cons_self state.work v total series
    subst same
    dsimp only at step
    split at step
    · cases step
    cases step
    rw [result,entryResult,map_cons,filterMap_cons]
    cases entry r.op values g.1 <;> simp

theorem groupEvery {state state'}
    (h : groups.foldlM (evaluateGroup r steps limits) state = .ok state') {g} (mem : g ∈ groups) :
    ∃ work out, evaluateSeries r steps g.2 work limits.work = .ok out := by
  obtain ⟨before,next,step⟩ := Results.foldEvery h mem
  obtain ⟨out,series,_⟩ := Results.bindOk step
  exact ⟨_,out,series⟩

theorem groupFails {state} (h : groups.foldlM (evaluateGroup r steps limits) state = .error e) :
    e.Limit ∨ ∃ g ∈ groups, ∃ work, evaluateSeries r steps g.2 work limits.work = .error e := by
  obtain ⟨g,mem,before,step⟩ := Results.foldError h
  rcases Results.bindError step with failed | ⟨out,_,step⟩
  · exact .inr ⟨g,mem,before.work,failed⟩
  left
  dsimp only at step
  split at step
  · cases step
    exact .inr (.inr rfl)
  · cases step

theorem groupsCases (held spent : Nat) (groups : List (Labels × List Point)) :
    (∃ e, e.Limit ∧ evaluateGroups r steps limits held spent groups = .error e) ∨
      (∃ e, groups.foldlM (evaluateGroup r steps limits) ⟨[],0,held⟩ = .error e ∧
        evaluateGroups r steps limits held spent groups = .error e) ∨
      ∃ state, groups.foldlM (evaluateGroup r steps limits) ⟨[],0,held⟩ = .ok state ∧
        evaluateGroups r steps limits held spent groups = .ok state.result := by
  unfold evaluateGroups
  cases run : groups.foldlM (evaluateGroup r steps limits) ⟨[],0,held⟩ with
  | error e => exact .inr (.inl ⟨e,rfl,rfl⟩)
  | ok state =>
    rcases chargeCases limits spent state.work with limit | ⟨total,charged⟩
    · refine .inl ⟨.workLimit,.inl rfl,?_⟩
      simp [limit,Bind.bind,Except.bind]
    · refine .inr (.inr ⟨state,rfl,?_⟩)
      simp [charged,Bind.bind,Except.bind]

end Folds

/- How a tiered evaluation relates to the raw one: it falls back, one of them meets a limit, both
fail in the same arithmetic, or both give the same series with the same values. -/
def Agree (tiered raw : Except Stop Result) : Prop :=
  tiered = .error .fallback ∨ (∃ e, e.Limit ∧ (tiered = .error e ∨ raw = .error e)) ∨
    (tiered = .error .arithmetic ∧ raw = .error .arithmetic) ∨ ∃ a b, tiered = .ok a ∧ raw = .ok b ∧ a.Perm b

section Groups

variable {rows : List Row} (rows : List Row)

theorem pointsListed (labels : Labels) : labels ∈ (foldPoints rows).map Prod.fst ↔ pointsOf rows labels ≠ [] := by
  unfold foldPoints
  rw [map_map]
  change labels ∈ (uniqBy id ((rows.filter (fun row => row.point.isSome)).map Row.labels)).map id ↔ _
  rw [map_id,uniqMem]
  unfold pointsOf
  rw [Ne,reverse_eq_nil_iff,filterMap_eq_nil_iff]
  constructor
  · intro mem empty
    obtain ⟨row,inside,rfl⟩ := mem_map.mp mem
    obtain ⟨stored,some⟩ := mem_filter.mp inside
    rw [empty row (mem_filter.mpr ⟨stored,decide_eq_true rfl⟩)] at some
    cases some
  · intro some
    simp only [not_forall] at some
    obtain ⟨row,inside,read⟩ := some
    obtain ⟨stored,named⟩ := mem_filter.mp inside
    rw [← of_decide_eq_true named]
    exact mem_map_of_mem (mem_filter.mpr ⟨stored,Option.isSome_iff_ne_none.mpr read⟩)

theorem preparedLabels : (prepareSeries (foldPoints rows)).map Prod.fst = ((foldPoints rows).map Prod.fst).reverse := by
  unfold prepareSeries
  rw [map_reverse,map_map]
  rfl

theorem preparedNodup : ((prepareSeries (foldPoints rows)).map Prod.fst).Nodup := by
  rw [preparedLabels,nodup_reverse]
  unfold foldPoints
  rw [map_map]
  change ((uniqBy id ((rows.filter (fun row => row.point.isSome)).map Row.labels)).map id).Nodup
  rw [map_id]
  exact uniqNodup _

theorem preparedMem {rows g} (mem : g ∈ prepareSeries (foldPoints rows)) : g.2 = prepareGroup (pointsOf rows g.1) := by
  unfold prepareSeries foldPoints at mem
  rw [mem_reverse,map_map] at mem
  obtain ⟨labels,-,rfl⟩ := mem_map.mp mem
  rfl

theorem preparedLookup (labels : Labels) :
    ((prepareSeries (foldPoints rows)).lookup labels).getD [] = prepareGroup (pointsOf rows labels) := by
  cases found : (prepareSeries (foldPoints rows)).lookup labels with
  | none =>
    have missing : pointsOf rows labels = [] := by
      by_contra some
      have listed := (pointsListed rows labels).mpr some
      rw [← mem_reverse,← preparedLabels] at listed
      obtain ⟨g,mem,same⟩ := mem_map.mp listed
      rw [lookup_eq_none_iff] at found
      have := found g mem
      simp [same] at this
    rw [missing]
    rfl
  | some points =>
    obtain ⟨before,after,split,-⟩ := lookup_eq_some_iff.mp found
    have mem : (labels,points) ∈ prepareSeries (foldPoints rows) := by
      rw [split]
      simp
    exact preparedMem mem

end Groups

theorem emptySeries (r : Request) (steps : List Int) : ∃ work, tieredSeries r steps [] [] = .ok ([],work) := by
  have run : ∀ work, ∃ total, steps.foldlM (tieredNext r [] []) (([] : Values),work) = .ok ([],total) := by
    induction steps with
    | nil => exact fun work => ⟨work,rfl⟩
    | cons step steps ih => exact fun work => ih _
  exact run 0

variable {rows : List Row} {served : List (ServedHour rows)} {rollups : List Rollup}

def tieredLabels (rows : List Row) (served : List (ServedHour rows)) (rollups : List Rollup) : List Labels :=
  uniqBy id ((prepareSeries (foldPoints (remaining rows (hoursOf served)))).map Prod.fst ++ rollups.map Rollup.labels)

variable {labels : Labels}

theorem tieredVisits (h : Serving rows served rollups) (plain : Plain rows)
    (mem : labels ∈ tieredLabels rows served rollups) : labels ∈ (prepareSeries (foldPoints rows)).map Prod.fst := by
  rw [preparedLabels,mem_reverse,pointsListed]
  unfold tieredLabels at mem
  rw [uniqMem,mem_append] at mem
  rcases mem with left | read
  · rw [preparedLabels,mem_reverse,pointsListed,remainingPoints] at left
    intro empty
    rw [empty] at left
    exact left rfl
  obtain ⟨r,listed,rfl⟩ := mem_map.mp read
  have own : r ∈ ownRollups rollups r.labels :=
    (perm_insertionSort _ _).mem_iff.mpr (mem_filter.mpr ⟨listed,decide_eq_true rfl⟩)
  obtain ⟨s,rest,samples,-⟩ := (h.parts plain r.labels).covers r own
  intro empty
  unfold hourSamples at samples
  rw [empty] at samples
  cases samples

theorem tieredSkips (missing : labels ∉ tieredLabels rows served rollups) :
    prepareGroup (pointsOf (remaining rows (hoursOf served)) labels) = [] ∧ ownRollups rollups labels = [] := by
  unfold tieredLabels at missing
  rw [uniqMem,mem_append,not_or] at missing
  obtain ⟨left,read⟩ := missing
  rw [preparedLabels,mem_reverse,pointsListed,not_not] at left
  constructor
  · rw [left]
    rfl
  have none : rollups.filter (fun r => r.labels = labels) = [] := by
    rw [filter_eq_nil_iff]
    intro r mem same
    exact read (of_decide_eq_true same ▸ mem_map_of_mem mem)
  unfold ownRollups
  rw [none]
  rfl

theorem filterMapVisited {α β : Type} [DecidableEq α] {f : α → Option β} {xs ys : List α} (first : xs.Nodup) (second : ys.Nodup)
    (visited : ∀ x ∈ xs, x ∈ ys) (skipped : ∀ y ∈ ys, y ∉ xs → f y = none) : (xs.filterMap f).Perm (ys.filterMap f) := by
  have same : (ys.filter (fun y => y ∈ xs)).Perm xs := by
    refine (perm_ext_iff_of_nodup (second.filter _) first).mpr ?_
    intro x
    rw [mem_filter,decide_eq_true_eq]
    exact ⟨fun both => both.2,fun mem => ⟨visited x mem,mem⟩⟩
  refine (same.symm.filterMap f).trans (List.Perm.of_eq ?_)
  rw [filterMap_filter]
  apply filterMap_congr
  intro y mem
  by_cases here : y ∈ xs
  · simp [here]
  · simp [here,skipped y mem here]

def tieredOf (r : Request) (steps : List Int) (served : List (ServedHour rows)) (rollups : List Rollup) (labels : Labels) :
    Except Stop (Values × Nat) :=
  tieredSeries r steps (prepareGroup (pointsOf (remaining rows (hoursOf served)) labels)) (ownRollups rollups labels)

def rawOf (r : Request) (steps : List Int) (rows : List Row) (maxWork : Nat) (labels : Labels) (used : Nat) :
    Except Stop (Values × Nat) :=
  evaluateSeries r steps (prepareGroup (pointsOf rows labels)) used maxWork

def tieredValues (r : Request) (steps : List Int) (served : List (ServedHour rows)) (rollups : List Rollup) (labels : Labels) :
    Values :=
  match tieredOf r steps served rollups labels with
  | .ok (values,_) => values
  | .error _ => []

section Selection

variable {r : Request} {steps : Steps} {limits : Limits}

theorem limitsExact (limits : Limits) : limits.work ≤ 2^53 := limits.checked.trans (by decide)

def HoursInside (r : Request) (steps : Steps) (served : List (ServedHour rows)) : Prop :=
  ∀ hour ∈ hoursOf served, ∀ step ∈ steps.times, r.start step < hour ∧ hour + hourNs - 1 ≤ r.finish step

variable (h : Serving rows served rollups)
include h

theorem servingAgrees (plain : Plain rows) (inside : HoursInside r steps served)
    (limits : Limits) (labels : Labels) (used : Nat) :
    tieredOf r steps.times served rollups labels = .error .fallback ∨
      rawOf r steps.times rows limits.work labels used = .error .workLimit ∨
      (tieredOf r steps.times served rollups labels).map Prod.fst =
        (rawOf r steps.times rows limits.work labels used).map Prod.fst := by
  have parts := h.parts plain labels
  refine seriesAgrees parts.inTime steps.ascending (limitsExact limits) ?_ used
  intro step mem
  apply parts.stepAgrees
  intro rollup own
  obtain ⟨found,listed,rolled⟩ := h.own plain labels
  obtain ⟨hour,served,same⟩ := mem_filterMap.mp (listed.subset own)
  rw [((rolled hour served).present rollup same).2.1]
  exact inside hour.hour (mem_map_of_mem served) step mem

theorem rawEnds (plain : Plain rows) (inside : HoursInside r steps served)
    {out} (ok : tieredOf r steps.times served rollups labels = .ok out) (limits : Limits) (used : Nat) :
    rawOf r steps.times rows limits.work labels used = .error .workLimit ∨
      ∃ total, rawOf r steps.times rows limits.work labels used = .ok (out.1,total) := by
  rcases servingAgrees h plain inside limits labels used with fell | limit | same
  · rw [ok] at fell
    cases fell
  · exact .inl limit
  rw [ok] at same
  cases raw : rawOf r steps.times rows limits.work labels used with
  | error e =>
    rw [raw] at same
    cases same
  | ok read =>
    rw [raw] at same
    exact .inr ⟨read.2,by rw [Except.ok.inj same]⟩

theorem rawStops (plain : Plain rows) (inside : HoursInside r steps served)
    (failed : tieredOf r steps.times served rollups labels = .error e) (other : e ≠ .fallback) (limits : Limits)
    (used : Nat) : rawOf r steps.times rows limits.work labels used = .error .workLimit ∨
      rawOf r steps.times rows limits.work labels used = .error e := by
  rcases servingAgrees h plain inside limits labels used with fell | limit | same
  · exact absurd (Except.error.inj (failed.symm.trans fell)) other
  · exact .inl limit
  rw [failed] at same
  cases raw : rawOf r steps.times rows limits.work labels used with
  | error e' =>
    rw [raw] at same
    cases same
    exact .inr rfl
  | ok read =>
    rw [raw] at same
    cases same

omit h

theorem skippedSeries (r : Request) (steps : Steps) (missing : labels ∉ tieredLabels rows served rollups) :
    ∃ work, tieredOf r steps.times served rollups labels = .ok ([],work) := by
  obtain ⟨points,own⟩ := tieredSkips missing
  unfold tieredOf
  rw [points,own]
  exact emptySeries r steps.times

theorem tieredFoldStops (h : (tieredLabels rows served rollups).foldlM (addTieredSeries r steps.times limits
      (prepareSeries (foldPoints (remaining rows (hoursOf served)))) rollups) state = .error e) :
    e.Limit ∨ ∃ labels ∈ tieredLabels rows served rollups, tieredOf r steps.times served rollups labels = .error e := by
  rcases tieredFails h with limit | ⟨labels,mem,failed⟩
  · exact .inl limit
  · rw [preparedLookup] at failed
    exact .inr ⟨labels,mem,failed⟩

theorem tieredFoldEnds {state' : Tiered}
    (h : (tieredLabels rows served rollups).foldlM (addTieredSeries r steps.times limits
      (prepareSeries (foldPoints (remaining rows (hoursOf served)))) rollups) state = .ok state') :
    (∀ labels, ∃ work, tieredOf r steps.times served rollups labels =
      .ok (tieredValues r steps.times served rollups labels,work)) ∧
      state'.result = ((tieredLabels rows served rollups).filterMap
        (entry r.op (tieredValues r steps.times served rollups))).reverse ++ state.result := by
  have valued : ∀ labels v work, tieredOf r steps.times served rollups labels = .ok (v,work) →
      v = tieredValues r steps.times served rollups labels := by
    intro labels v work ok
    unfold tieredValues
    rw [ok]
  obtain ⟨each,result⟩ := tieredFold (tieredValues r steps.times served rollups)
    (fun labels _ v work ok => valued labels v work (by rw [preparedLookup] at ok; exact ok)) h
  refine ⟨?_,result⟩
  intro labels
  by_cases mem : labels ∈ tieredLabels rows served rollups
  · obtain ⟨v,work,ok⟩ := each labels mem
    rw [preparedLookup] at ok
    exact ⟨work,valued labels v work ok ▸ ok⟩
  · obtain ⟨work,ok⟩ := skippedSeries r steps mem
    exact ⟨work,valued labels [] work ok ▸ ok⟩

theorem tieredEvaluationIsRaw (rows : List Row) (plain : Plain rows) (served : List (ServedHour rows)) (rollups : List Rollup)
    (serving : Serving rows served rollups) (r : Request) (steps : Steps) (inside : HoursInside r steps served)
    (limits : Limits) (spent held before : Nat) :
    Agree
      (evaluateTiered r steps.times limits spent (prepareSeries (foldPoints (remaining rows (hoursOf served)))) rollups)
      (evaluateGroups r steps.times limits held before (prepareSeries (foldPoints rows))) := by
  unfold evaluateTiered
  change Agree ((tieredLabels rows served rollups).foldlM (addTieredSeries r steps.times limits _ rollups) ⟨[],0,spent⟩ >>= _) _
  cases tiered : (tieredLabels rows served rollups).foldlM (addTieredSeries r steps.times limits
      (prepareSeries (foldPoints (remaining rows (hoursOf served)))) rollups) ⟨[],0,spent⟩ with
  | error e =>
    change Agree (.error e) _
    by_cases fell : e = .fallback
    · exact .inl (by rw [fell])
    rcases tieredFoldStops tiered with limit | ⟨labels,mem,failed⟩
    · exact .inr (.inl ⟨e,limit,.inl rfl⟩)
    have arithmetic : e = .arithmetic := (tieredSeriesFails failed).resolve_left fell
    subst arithmetic
    obtain ⟨g,listed,same⟩ := mem_map.mp (tieredVisits serving plain mem)
    have points := preparedMem listed
    rw [same] at points
    rcases groupsCases held before (prepareSeries (foldPoints rows)) with ⟨e,limit,raw⟩ | ⟨e,fold,raw⟩ | ⟨state,fold,-⟩
    · exact .inr (.inl ⟨e,limit,.inr raw⟩)
    · have known : e.Limit ∨ e = .arithmetic := by
        rcases groupFails fold with limit | ⟨_,_,_,series⟩
        · exact .inl limit
        · exact evaluateSeriesFails series
      rcases known with limit | rfl
      · exact .inr (.inl ⟨e,limit,.inr raw⟩)
      · exact .inr (.inr (.inl ⟨rfl,raw⟩))
    · obtain ⟨work,out,series⟩ := groupEvery fold listed
      rw [points] at series
      rcases rawStops serving plain inside failed fell limits work with limit | stopped
      · exact absurd (series.symm.trans limit) (by simp)
      · exact absurd (series.symm.trans stopped) (by simp)
  | ok state =>
    change Agree (.ok state.result) _
    obtain ⟨ended,result⟩ := tieredFoldEnds tiered
    have raw : ∀ g ∈ prepareSeries (foldPoints rows), ∀ used,
        evaluateSeries r steps.times g.2 used limits.work = .error .workLimit ∨
        ∃ total, evaluateSeries r steps.times g.2 used limits.work = .ok (tieredValues r steps.times served rollups g.1,total) := by
      intro g mem used
      obtain ⟨work,ok⟩ := ended g.1
      rw [preparedMem mem]
      exact rawEnds serving plain inside ok limits used
    rcases groupsCases held before (prepareSeries (foldPoints rows)) with ⟨e,limit,raw⟩ | ⟨e,fold,failed⟩ | ⟨final,fold,done⟩
    · exact .inr (.inl ⟨e,limit,.inr raw⟩)
    · rcases groupFails fold with limit | ⟨g,mem,used,series⟩
      · exact .inr (.inl ⟨e,limit,.inr failed⟩)
      rcases raw g mem used with limit | ⟨total,ok⟩
      · cases Except.error.inj (series.symm.trans limit)
        exact .inr (.inl ⟨_,.inl rfl,.inr failed⟩)
      · exact absurd (series.symm.trans ok) (by simp)
    have values := groupFold (tieredValues r steps.times served rollups) (fun g mem used v total ok => by
      rcases raw g mem used with limit | ⟨total',same⟩
      · exact absurd (ok.symm.trans limit) (by simp)
      · exact congrArg Prod.fst (Except.ok.inj (ok.symm.trans same))) fold
    refine .inr (.inr (.inr ⟨_,_,rfl,done,?_⟩))
    rw [result,values,append_nil,append_nil]
    refine ((reverse_perm _).trans ?_).trans (reverse_perm _).symm
    refine filterMapVisited (uniqNodup _) (preparedNodup rows) (fun labels mem => tieredVisits serving plain mem) ?_
    intro labels _ missing
    obtain ⟨work,ok⟩ := skippedSeries r steps missing
    unfold entry tieredValues
    rw [ok]
    rfl

end Selection

section Sample

def requestsLabels : Labels := ⟨[(nameLabel,ascii "requests_total")],by decide +kernel,by decide +kernel⟩

def requestRow (ts : Int) (value : UInt64) : Row := ⟨⟨none,none,none,none⟩,0,ts,value,requestsLabels⟩
def requestRows : List Row :=
  [requestRow 1 0x3ff0000000000000,requestRow 2 0x4008000000000000,requestRow (hourNs + 5) 0x4010000000000000]

def requestBatch : Batch :=
  ⟨[requestsLabels],requestRows.map (fun row => ⟨row.toExtra,0,row.seriesId,row.ts,row.value⟩)⟩

def requestBuilder : Builder where
  start := 0
  finish := 0 + hourNs
  maxRows := 10
  partition := none
  series := ⟨[requestsLabels.canonical],[requestsLabels.metricName]⟩
  rows := requestRows.map (fun row => ⟨row.seriesId,row.ts,row.value,0,none⟩)
  extras := []

theorem requestBuilt : (Builder.new 0 (0 + hourNs) 10 none).add [requestBatch] = .ok requestBuilder := by
  have named : validatedName requestsLabels.canonical = .ok requestsLabels.metricName := by
    rw [validatedName,requestsLabels.fromCanonicalSelf]
  simp [Builder.add,Builder.addBatch,requestBatch,requestRows,requestRow,Builder.addCell,Builder.slotOf,Builder.place,
    Builder.intern,Series.intern,Builder.push,Builder.new,named,maxSeries,Bind.bind,Except.bind,
    Pure.pure,Except.pure,requestBuilder]

def requestHour : ServedHour requestRows where
  hour := 0
  aligned := Int.zero_emod hourNs
  count := 1
  positive := Nat.one_pos
  words := by decide
  maxRows := 10
  batches := fun _ => [requestBatch]
  builder := fun _ => requestBuilder
  built := by
    intro p under
    obtain rfl := Nat.lt_one_iff.mp under
    exact requestBuilt
  complete := fun _ _ => List.Perm.refl _

theorem requestPlain : Plain requestRows where
  floats := by
    intro row member
    rcases mem_cons.mp member with rfl|member
    · rfl
    rcases mem_cons.mp member with rfl|member
    · rfl
    obtain rfl := mem_singleton.mp member
    rfl
  distinct := by
    intro labels
    by_cases own : requestsLabels = labels
    · subst own
      decide +kernel
    · simp [pointsOf,requestRows,requestRow,own]

theorem rollupFlags {b : Builder} {a r} (read : b.rollup a = some r) : r.flags = a.flags := by
  unfold Builder.rollup at read
  split at read
  · cases read
  obtain ⟨canonical,_,read⟩ := Option.bind_eq_some_iff.mp read
  obtain ⟨labels,_,read⟩ := Option.bind_eq_some_iff.mp read
  cases read
  rfl

theorem requestServing : Serving requestRows [requestHour] requestHour.rollups where
  distinct := nodup_singleton _
  read := by
    rw [flatMap_singleton]
  calm := by
    intro r member
    obtain ⟨_,_,member⟩ := mem_flatMap.mp member
    have quiet : ∀ a ∈ requestBuilder.aggregates, a.flags = .none := by decide +kernel
    change r ∈ requestBuilder.rollups.getD [] at member
    cases read : requestBuilder.rollups with
    | none =>
      rw [read] at member
      cases member
    | some rollups =>
      rw [read,Option.getD_some,mapMFilterMap read] at member
      obtain ⟨a,own,back⟩ := mem_filterMap.mp member
      rw [rollupFlags back]
      exact quiet a own

def requestIncrease : Request := ⟨⟨hourNs + 10,hourNs + 10⟩,.shift 0,hourNs + 20,.increase⟩

theorem requestInside : HoursInside requestIncrease (.instant (hourNs + 10)) [requestHour] := by
  intro hour own step now
  obtain rfl := mem_singleton.mp own
  obtain rfl := mem_singleton.mp now
  decide

theorem tieredIncreaseIsRaw : Agree (evaluateTiered requestIncrease [hourNs + 10] ⟨1000,1000,1000,by decide⟩ 0
        (prepareSeries (foldPoints (remaining requestRows [0]))) requestHour.rollups)
      (evaluateGroups requestIncrease [hourNs + 10] ⟨1000,1000,1000,by decide⟩ 0 0 (prepareSeries (foldPoints requestRows))) :=
  tieredEvaluationIsRaw requestRows requestPlain [requestHour] requestHour.rollups requestServing requestIncrease
    (.instant (hourNs + 10)) requestInside ⟨1000,1000,1000,by decide⟩ 0 0 0

end Sample

end Pulso.PromQL
