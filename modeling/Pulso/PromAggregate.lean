import Pulso.PromDelivery

/-! Aggregation of selected series. The evaluated series are either held and aggregated
afterwards, or evaluated one group at a time while their samples are folded. -/
namespace Pulso.PromQL.Aggregation
open Pulso.Binary64 Pulso.Metric Pulso.PromQL.Delivery

inductive Stop
  | workLimit | intermediateLimit | duplicateLabels | raised
  deriving DecidableEq

inductive Sampled
  | number (n : Number)
  | histogram (h : NativeHistogram Finite)
  deriving DecidableEq

abbrev LabelMap := List (Bytes × Bytes)
abbrev Points := List (Int × Sampled)
abbrev Vector := List (LabelMap × Points)
instance : DecidableEq (LabelMap × Points) := instDecidableEqProd
instance : DecidableEq Vector := instDecidableEqList
abbrev Group := Labels × List Observation

def metricName (labels : LabelMap) : Bytes := ((labels.find? (fun p => p.1 = nameLabel)).map Prod.snd).getD []

inductive Grouping
  | all
  | only (names : List Bytes)
  | without (names : List Bytes)

def groupKey (labels : LabelMap) : Grouping → LabelMap
  | .all => []
  | .only names => labels.filter (fun p => p.1 ∈ names)
  | .without names => labels.filter (fun p => p.1 ∉ nameLabel::names)

/- A selector or a range function of one: where its windows end, what it makes of the samples in a
window, whether it takes one sample only, and whether it keeps the metric name. -/
structure Selection where
  steps : List Int
  ascending : steps.Pairwise (· < ·)
  finish : Int → Int
  window : Int
  value : List Observation → (start finish : Int) → (name : Bytes) → Except Stop (Option Sampled)
  single : Bool
  keepsName : Bool

structure Limits where
  work : Nat
  materialized : Nat

def charge (limits : Limits) (spent work : Nat) : Except Stop Nat :=
  if spent + work > limits.work then .error .workLimit else .ok (spent + work)

section Series
variable (s : Selection) (limits : Limits)

def resultLabels (labels : Labels) : LabelMap :=
  if s.keepsName then labels.pairs else labels.pairs.filter (fun p => p.1 ≠ nameLabel)

structure Slide where
  remaining : List Observation
  bucket : List Observation
  values : Points
  work : Nat

def expire (bucket : List Observation) (start : Int) : List Observation := bucket.dropWhile (fun p => p.ts ≤ start)

def stepCost (bucket : List Observation) : Nat := if s.single then 1 else max 1 bucket.length

def stepBucket (name : Bytes) (state : Slide) (step : Int) : Except Stop Slide :=
  let finish := s.finish step
  let arrivals := state.remaining.takeWhile (fun p => p.ts ≤ finish)
  let remaining := state.remaining.dropWhile (fun p => p.ts ≤ finish)
  let bucket := expire (state.bucket ++ arrivals) (finish - s.window)
  let work := state.work + arrivals.length + stepCost s bucket
  if work > limits.work then .error .workLimit
  else do
    let value ← s.value bucket (finish - s.window) finish name
    .ok ⟨remaining,bucket,state.values ++ (value.map (fun v => (step,v))).toList,work⟩

def evaluateSeries (group : Group) (work : Nat) : Except Stop ((LabelMap × Points) × Nat) := do
  let state ← s.steps.foldlM (stepBucket s limits group.1.metricName) ⟨group.2,[],[],work⟩
  .ok ((resultLabels s group.1,state.values),state.work)

structure Evaluation where
  result : Vector
  work : Nat
  held : Nat

def evaluateGroup (state : Evaluation) (group : Group) : Except Stop Evaluation := do
  let ((labels,values),work) ← evaluateSeries s limits group state.work
  if state.held + values.length ≤ limits.materialized then
    .ok ⟨if values = [] then state.result else (labels,values)::state.result,work,state.held + values.length⟩
  else .error .intermediateLimit

def evaluateGroups (groups : List Group) (held spent : Nat) : Except Stop (Vector × Nat) := do
  let state ← groups.foldlM (evaluateGroup s limits) ⟨[],0,held⟩
  let spent ← charge limits spent state.work
  .ok (state.result,spent)

def points (vector : Vector) : Nat := (vector.map (fun series => series.2.length)).sum

def rows (vector : Vector) : List ((LabelMap × Int) × Sampled) :=
  vector.flatMap (fun series => series.2.map (fun sample => ((series.1,sample.1),sample.2)))

def rowsOf (vector : Vector) (labels : LabelMap) : Points :=
  ((rows vector).filter (fun row => row.1.1 = labels)).map (fun row => (row.1.2,row.2))

/- One series for each label set, its samples by time; two samples of one time are an error. -/
def coalesce (vector : Vector) (spent : Nat) : Except Stop (Vector × Nat) := do
  let spent ← charge limits spent (rows vector).length
  if (Lists.uniqBy Prod.fst (rows vector)).length ≠ (rows vector).length then .error .duplicateLabels
  else
    let order := (Lists.uniqBy Prod.fst vector).map Prod.fst
    .ok (order.map (fun labels => (labels,(rowsOf vector labels).insertionSort (fun a b => a.1 ≤ b.1))),spent)

def hold (held : Nat) (vector : Vector) : Except Stop Unit :=
  if held + points vector > limits.materialized then .error .intermediateLimit else .ok ()

def select (groups : List Group) (held spent : Nat) : Except Stop (Vector × Nat) := do
  let (result,spent) ← evaluateGroups s limits groups held spent
  let (vector,spent) ← coalesce limits result spent
  hold limits held vector
  .ok (vector,spent)

end Series

/- Iteration over a map: sorted by key up to 32 keys, by the hash of the keys above. -/
structure Runtime where
  small : LabelMap → LabelMap → Prop
  large : LabelMap → LabelMap → Prop
  [smallDecidable : DecidableRel small]
  [largeDecidable : DecidableRel large]
  [smallOrder : IsLinearOrder LabelMap small]
  [largeOrder : IsLinearOrder LabelMap large]

attribute [instance] Runtime.smallDecidable Runtime.largeDecidable Runtime.smallOrder Runtime.largeOrder

def mapOrder (runtime : Runtime) (keys : List LabelMap) : List LabelMap :=
  if keys.length ≤ 32 then keys.insertionSort runtime.small else keys.insertionSort runtime.large

/- The state of one group at one step: floats folded so far, histograms with their names, newest first. -/
structure FoldState (F : Type) where
  floats : Option F
  histograms : List (NativeHistogram Finite × Bytes)
  count : Nat

structure Operation (F : Type) where
  foldFloat : Option F → Number → Option F
  foldResult : FoldState F → Option Sampled

section Fold
variable {F : Type} (op : Operation F)

def foldValue (state : FoldState F) (name : Bytes) : Sampled → FoldState F
  | .histogram h => { state with histograms := (h,name)::state.histograms,count := state.count + 1 }
  | .number n => { state with floats := op.foldFloat state.floats n,count := state.count + 1 }

abbrev States (F : Type) := Dict Int (FoldState F)

def foldStep (name : Bytes) (states : States F) (sample : Int × Sampled) : States F :=
  states.put sample.1 (foldValue op ((states.get? sample.1).getD ⟨none,[],0⟩) name sample.2)

def checkHeld (bound : Option (Nat × Nat)) (count : Nat) : Except Stop Unit :=
  match bound with
  | some (held,maximum) => if held + count > maximum then .error .intermediateLimit else .ok ()
  | none => .ok ()

section Items
variable {I : Type} (evaluate : I → Nat → Except Stop ((LabelMap × Points) × Nat)) (bound : Option (Nat × Nat))

def foldGroup (emitted : Nat) : List I → Nat → States F → Nat → Except Stop (States F × Nat × Nat)
  | [],work,states,n => .ok (states,n,work)
  | item::rest,work,states,n => do
    let ((labels,samples),work) ← evaluate item work
    let states := samples.foldl (foldStep op (metricName labels)) states
    checkHeld bound (emitted + states.size)
    foldGroup emitted rest work states (n + samples.length)

def groupSamples (states : States F) : Points :=
  (states.entries.insertionSort (fun a b => a.1 ≤ b.1)).filterMap (fun (ts,state) =>
    (op.foldResult state).map (fun value => (ts,value)))

structure Folded where
  result : Vector
  points : Nat
  work : Nat
  emitted : Nat

def addGroup (items : List I) (key : I → LabelMap) (state : Folded) (labels : LabelMap) : Except Stop Folded := do
  let (states,n,work) ←
    foldGroup op evaluate bound state.emitted (items.filter (fun item => key item = labels)) state.work Dict.empty 0
  let samples := groupSamples op states
  .ok ⟨if samples = [] then state.result else (labels,samples)::state.result,state.points + n,work,
    state.emitted + samples.length⟩

def foldAggregation (runtime : Runtime) (items : List I) (key : I → LabelMap) : Except Stop (Vector × Nat × Nat) := do
  let state ← (mapOrder runtime (Lists.uniqBy id (items.map key))).foldlM (addGroup op evaluate bound items key)
    ⟨[],0,0,0⟩
  .ok (state.result.reverse,state.points,state.work)

end Items

def aggregateSeries (limits : Limits) (runtime : Runtime) (grouping : Grouping) (vector : Vector) (spent : Nat) :
    Except Stop (Vector × Nat) := do
  let (result,points,_) ← foldAggregation op (fun series work => .ok (series,work)) none runtime vector
    (fun series => groupKey series.1 grouping)
  .ok (result,← charge limits spent points)

def unfused (s : Selection) (limits : Limits) (runtime : Runtime) (grouping : Grouping) (groups : List Group)
    (held spent : Nat) : Except Stop (Vector × Nat) := do
  let (vector,spent) ← select s limits groups held spent
  aggregateSeries op limits runtime grouping vector spent

def uniqueResults (s : Selection) (groups : List Group) : Bool :=
  (Lists.uniqBy id (groups.map (fun group => resultLabels s group.1))).length = groups.length

def foldGroups (s : Selection) (limits : Limits) (runtime : Runtime) (grouping : Grouping) (groups : List Group)
    (held spent : Nat) : Except Stop (Vector × Nat) := do
  let (result,points,work) ← foldAggregation op (evaluateSeries s limits) (some (held,limits.materialized)) runtime groups
    (fun group => groupKey (resultLabels s group.1) grouping)
  let spent ← charge limits spent work
  let spent ← charge limits spent points
  let spent ← charge limits spent points
  .ok (result,spent)

/- Aggregation while the series are evaluated. Series that share labels are coalesced first. -/
def fused (s : Selection) (limits : Limits) (runtime : Runtime) (grouping : Grouping) (groups : List Group)
    (held spent : Nat) : Except Stop (Vector × Nat) :=
  if uniqueResults s groups then foldGroups op s limits runtime grouping groups.reverse held spent
  else do
    let (result,spent) ← evaluateGroups s limits groups held spent
    let (vector,spent) ← coalesce limits result spent
    aggregateSeries op limits runtime grouping vector spent

end Fold

end Pulso.PromQL.Aggregation
