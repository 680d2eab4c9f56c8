import Pulso.MetricRollup
import Pulso.PromRange

/-! Range functions over hourly rollups and the samples left beside them: the parts of a
window are composed in time order, and what does not compose exactly falls back to samples. -/
namespace Pulso.PromQL
open Pulso.Binary64 Pulso.Metric
open Pulso.MetricTiers (Rollup)

structure Summary where
  count : Nat
  firstTs : Int
  first : Number
  lastTs : Int
  last : Number
  min : Number
  max : Number
  changes : Nat
  resets : Nat
  -- the newest first
  resetValues : List Number
  zero : Bool
  deriving DecidableEq

namespace Summary

def ofSample (s : Sample) : Summary where
  count := 1
  firstTs := s.ts
  first := s.value
  lastTs := s.ts
  last := s.value
  min := s.value.min .nan
  max := s.value.max .nan
  changes := 0
  resets := 0
  resetValues := []
  zero := false

def ofRollup (r : Rollup) : Summary where
  count := r.count
  firstTs := r.firstTs
  first := r.first
  lastTs := r.lastTs
  last := r.last
  min := r.min
  max := r.max
  changes := r.changes
  resets := r.resets
  resetValues := r.resetValues.reverse
  zero := (r.count : Int) - 1 - r.resets > 0

def transition (acc : Summary) (value : Number) : Except Stop Summary :=
  let changes := if acc.last.changed value then acc.changes + 1 else acc.changes
  if acc.last.resets value then
    -- where the reset of a negative zero lands among additions of zero decides a sign
    if acc.last.negativeZero then .error .fallback
    else .ok { acc with changes := changes, resets := acc.resets + 1, resetValues := acc.last::acc.resetValues }
  else .ok { acc with changes := changes, zero := true }

def addSample (acc : Summary) (s : Sample) : Except Stop Summary := do
  let acc ← acc.transition s.value
  .ok { acc with
    count := acc.count + 1
    lastTs := s.ts
    last := s.value
    min := s.value.min acc.min
    max := s.value.max acc.max }

def addRollup (acc : Summary) (r : Rollup) : Except Stop Summary := do
  let acc ← acc.transition r.first
  .ok { acc with
    count := acc.count + r.count
    lastTs := r.lastTs
    last := r.last
    min := r.min.min acc.min
    max := r.max.max acc.max
    changes := acc.changes + r.changes
    resets := acc.resets + r.resets
    resetValues := r.resetValues.reverse ++ acc.resetValues
    zero := acc.zero || (r.count : Int) - 1 - r.resets > 0 }

end Summary

inductive Item
  | sample (s : Sample)
  | rollup (r : Rollup)

def Item.at : Item → Int
  | .sample s => s.ts
  | .rollup r => r.bucket

def addTierItem : Option Summary → Item → Except Stop (Option Summary)
  | none,.sample s => .ok (some (.ofSample s))
  | none,.rollup r => .ok (some (.ofRollup r))
  | some acc,.sample s => (acc.addSample s).map some
  | some acc,.rollup r => (acc.addRollup r).map some

/- The corrected change: one trailing zero stands for every step that was no reset. -/
def Summary.change (s : Summary) (op : Op) : Number :=
  let change := s.last.subtract s.first
  if op = .delta then change.add .zero
  else
    let corrected := s.resetValues.reverse.foldl Number.add change
    if s.zero then corrected.add .zero else corrected

def tierValue (op : Op) (summary : Option Summary) (start finish : Int) : Except Stop (Option Number) :=
  match summary with
  | none => .ok none
  | some s =>
    match op with
    | .countOverTime => (toFloat s.count).map some
    | .presentOverTime => .ok (some (.float one))
    | .firstOverTime => .ok (some s.first)
    | .lastOverTime => .ok (some s.last)
    | .minOverTime => .ok (some s.min)
    | .maxOverTime => .ok (some s.max)
    | .changes => (toFloat s.changes).map some
    | .resets => (toFloat s.resets).map some
    | .rate | .increase | .delta =>
      if s.count < 2 then .ok none
      else (extrapolate op (s.change op) ⟨s.firstTs,s.first⟩ ⟨s.lastTs,s.last⟩ s.count start finish).map some

def inWindow (r : Request) (step ts : Int) : Bool := r.start step < ts ∧ ts ≤ r.finish step

def items (r : Request) (ordered : List Point) (rollups : List Rollup) (step : Int) : List Item :=
  let samples := (ordered.filter (fun p => inWindow r step p.ts)).filterMap Point.sample
  let hours := rollups.filter (fun h => r.start step < h.bucket ∧ h.bucket + hourNs - 1 ≤ r.finish step)
  (samples.map Item.sample ++ hours.map Item.rollup).insertionSort (fun a b => a.at ≤ b.at)

def tieredStep (r : Request) (ordered : List Point) (rollups : List Rollup) (step : Int) :
    Except Stop (Option Number) := do
  let summary ← (items r ordered rollups step).foldlM addTierItem none
  tierValue r.op summary (r.start step) (r.finish step)

def tieredSeries (r : Request) (steps : List Int) (ordered : List Point) (rollups : List Rollup) :
    Except Stop (Values × Nat) :=
  steps.foldlM (fun (state : Values × Nat) step => do
    let value ← tieredStep r ordered rollups step
    .ok (state.1 ++ (value.map (fun v => (step,v))).toList,state.2 + ordered.length + rollups.length + 1)) ([],0)

structure Tiered where
  result : Result
  points : Nat
  spent : Nat

def addTieredSeries (r : Request) (steps : List Int) (limits : Limits) (groups : List (Labels × List Point))
    (rollups : List Rollup) (state : Tiered) (labels : Labels) : Except Stop Tiered := do
  let ordered := (groups.lookup labels).getD []
  let own := (rollups.filter (fun h => h.labels = labels)).insertionSort (fun a b => a.bucket ≤ b.bucket)
  let (values,work) ← tieredSeries r steps ordered own
  let spent ← charge limits state.spent work
  let points := state.points + values.length
  if points > limits.points then .error .resultLimit
  else
    let result := if values = [] then state.result else (resultLabels labels r.op,values)::state.result
    .ok ⟨result,points,spent⟩

def evaluateTiered (r : Request) (steps : List Int) (limits : Limits) (spent : Nat) (groups : List (Labels × List Point))
    (rollups : List Rollup) : Except Stop Result := do
  let labels := Lists.uniqBy id (groups.map Prod.fst ++ rollups.map Rollup.labels)
  let state ← labels.foldlM (addTieredSeries r steps limits groups rollups) ⟨[],0,spent⟩
  .ok state.result

end Pulso.PromQL
