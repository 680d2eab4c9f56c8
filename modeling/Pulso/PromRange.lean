import Pulso.MetricLabels
import Pulso.PromNumber

/-! Range functions over the samples of one series: a window slides over the ordered samples
from step to step, and each function folds the samples inside it. -/
namespace Pulso.PromQL
open Pulso.Binary64 Pulso.Metric List

inductive Op
  | rate | increase | delta
  | countOverTime | presentOverTime | minOverTime | maxOverTime | firstOverTime | lastOverTime
  | changes | resets
  deriving DecidableEq

inductive Stop
  | fallback | arithmetic | workLimit | resultLimit | intermediateLimit
  deriving DecidableEq, Repr

structure Sample where
  ts : Int
  value : Number
  deriving DecidableEq

structure Point where
  ts : Int
  value : Value
  deriving DecidableEq

def Point.sample (p : Point) : Option Sample :=
  match p.value with
  | .stale => none
  | .number n => some ⟨p.ts,n⟩

def raised {α : Type} : Option α → Except Stop α
  | none => .error .arithmetic
  | some a => .ok a

def one : Finite := ⟨false,0x3ff0000000000000,by decide⟩

-- an integer times 1.0
def toFloat (n : Nat) : Except Stop Number := (raised (Finite.ofInt n)).map .float

/- Milliseconds are divided out first. -/
def seconds (ns : Int) : Except Stop Finite :=
  if ns % 1000000 = 0 then do raised ((← raised (Finite.ofInt (ns / 1000000))).div (← raised (Finite.ofInt 1000)))
  else do raised ((← raised (Finite.ofInt ns)).div (← raised (Finite.ofInt 1000000000)))

-- the double nearest to 1.1
def elevenTenths : Finite := ⟨false,0x3ff199999999999a,by decide⟩

def boundaryDuration (distance average : Finite) : Except Stop Finite := do
  let far ← raised (average.mul elevenTenths)
  if distance.less far then .ok distance else raised (average.div (← raised (Finite.ofInt 2)))

def limited (op : Op) (change first : Number) (interval left : Finite) : Except Stop Finite :=
  match change,first with
  | .float c,.float f =>
    if op ≠ .delta ∧ Finite.zero.less c ∧ ¬f.less .zero then do
      let bound ← raised ((← raised (interval.mul f)).div c)
      .ok (if bound.less left then bound else left)
    else .ok left
  | _,_ => .ok left

def extrapolate (op : Op) (change : Number) (first last : Sample) (count : Nat) (start finish : Int) :
    Except Stop Number := do
  let interval ← seconds (last.ts - first.ts)
  let average ← raised (interval.div (← raised (Finite.ofInt ((count : Int) - 1))))
  let left ← boundaryDuration (← seconds (first.ts - start)) average
  let right ← boundaryDuration (← seconds (finish - last.ts)) average
  let left ← limited op change first.value interval left
  let factor ← raised ((← raised ((← raised (interval.add left)).add right)).div interval)
  let factor ← if op = .rate then raised (factor.div (← seconds (finish - start))) else .ok factor
  .ok (change.multiply (.float factor))

def counted : Op → Number → Number → Bool
  | .changes => Number.changed
  | _ => Number.resets

def countTransition (op : Op) (state : Finite × Number) (s : Sample) : Except Stop (Finite × Number) := do
  let count ← raised (state.1.add (if counted op state.2 s.value then one else .zero))
  .ok (count,s.value)

def correct (op : Op) (state : Number × Number) (s : Sample) : Number × Number :=
  (state.1.add (if op ≠ .delta ∧ s.value.less state.2 then state.2 else .zero),s.value)

def extrapolatedChange (op : Op) (first : Sample) (rest : List Sample) (start finish : Int) : Except Stop Number :=
  let last := (first::rest).getLast (List.cons_ne_nil _ _)
  let change := (rest.foldl (correct op) (last.value.subtract first.value,first.value)).1
  extrapolate op change first last (rest.length + 1) start finish

def value (op : Op) (samples : List Sample) (start finish : Int) : Except Stop (Option Number) :=
  match samples with
  | [] => .ok none
  | first::rest =>
    match op with
    | .countOverTime => (toFloat (first::rest).length).map some
    | .presentOverTime => .ok (some (.float one))
    | .firstOverTime => .ok (some first.value)
    | .lastOverTime => .ok (some ((first::rest).getLast (List.cons_ne_nil _ _)).value)
    | .minOverTime => .ok (some ((first::rest).foldl (fun acc s => s.value.min acc) .nan))
    | .maxOverTime => .ok (some ((first::rest).foldl (fun acc s => s.value.max acc) .nan))
    | .changes | .resets => do
      let (count,_) ← rest.foldlM (countTransition op) (.zero,first.value)
      .ok (some (.float count))
    | .rate | .increase | .delta =>
      if rest = [] then .ok none else (extrapolatedChange op first rest start finish).map some

inductive Anchor
  | start | finish
  | time (ns : Int)

inductive Offset
  | shift (ns : Int)
  | at (anchor : Anchor) (ns : Int)

structure Context where
  startTs : Int
  endTs : Int

def Anchor.resolve (context : Context) : Anchor → Int
  | .start => context.startTs
  | .finish => context.endTs
  | .time ns => ns

def sourceTime (context : Context) (step : Int) : Offset → Int
  | .shift ns => step - ns
  | .at anchor ns => anchor.resolve context - ns

structure Limits where
  work : Nat
  points : Nat
  materialized : Nat
  checked : work ≤ 10000000000

structure Request where
  context : Context
  offset : Offset
  window : Int
  op : Op

def Request.finish (r : Request) (step : Int) : Int := sourceTime r.context step r.offset
def Request.start (r : Request) (step : Int) : Int := r.finish step - r.window

def hourNs : Int := 3600000000000

/- The steps of an evaluation ascend: one instant, or a grid from its first time on. -/
structure Steps where
  times : List Int
  ascending : times.Pairwise (· ≤ ·)

def Steps.instant (time : Int) : Steps := ⟨[time],List.pairwise_singleton _ _⟩

def Steps.range (start finish : Int) (step : Nat) : Steps where
  times := (List.range (((finish - start) / step).toNat + 1)).map (fun k : Nat => start + (k : Int) * step)
  ascending := by
    rw [List.pairwise_map]
    refine List.pairwise_lt_range.imp ?_
    intro a b less
    exact Int.add_le_add_left (Int.mul_le_mul_of_nonneg_right (by omega) (by omega)) _

/- The whole hours inside every step's window, which storage may answer from rollups. -/
def selectorHours (r : Request) (steps : Steps) : Option (Int × Int) := do
  let first := r.finish (← steps.times.head?)
  let last := r.finish (← steps.times.getLast?)
  let lower := ((last - r.window) / hourNs + 1) * hourNs
  let upper := (first + 1) / hourNs * hourNs
  if upper > lower then some (lower,upper) else none

abbrev Values := List (Int × Number)

structure Slide where
  remaining : List Point
  bucket : List Point
  values : Values
  work : Nat

def expire (bucket : List Point) (start : Int) : List Point := bucket.dropWhile (fun p => p.ts ≤ start)

def stepBucket (r : Request) (maxWork : Nat) (state : Slide) (step : Int) : Except Stop Slide :=
  let arrivals := state.remaining.takeWhile (fun p => p.ts ≤ r.finish step)
  let remaining := state.remaining.dropWhile (fun p => p.ts ≤ r.finish step)
  let bucket := expire (state.bucket ++ arrivals) (r.start step)
  let work := state.work + arrivals.length + max 1 bucket.length
  if work > maxWork then .error .workLimit
  else do
    let value ← value r.op (bucket.filterMap Point.sample) (r.start step) (r.finish step)
    .ok ⟨remaining,bucket,state.values ++ (value.map (fun v => (step,v))).toList,work⟩

def evaluateSeries (r : Request) (steps : List Int) (ordered : List Point) (work maxWork : Nat) :
    Except Stop (Values × Nat) := do
  let state ← steps.foldlM (stepBucket r maxWork) ⟨ordered,[],[],work⟩
  .ok (state.values,state.work)

def resultLabels (labels : Labels) (op : Op) : List (Bytes × Bytes) :=
  if op = .firstOverTime ∨ op = .lastOverTime then labels.pairs else labels.pairs.filter (fun p => p.1 ≠ nameLabel)

abbrev Result := List (List (Bytes × Bytes) × Values)

structure Evaluation where
  result : Result
  work : Nat
  held : Nat

def evaluateGroup (r : Request) (steps : List Int) (limits : Limits) (state : Evaluation)
    (group : Labels × List Point) : Except Stop Evaluation := do
  let (values,work) ← evaluateSeries r steps group.2 state.work limits.work
  if state.held + values.length > limits.materialized then .error .intermediateLimit
  else
    let result := if values = [] then state.result else (resultLabels group.1 r.op,values)::state.result
    .ok ⟨result,work,state.held + values.length⟩

def charge (limits : Limits) (spent work : Nat) : Except Stop Nat :=
  if spent + work > limits.work then .error .workLimit else .ok (spent + work)

def evaluateGroups (r : Request) (steps : List Int) (limits : Limits) (held spent : Nat)
    (groups : List (Labels × List Point)) : Except Stop Result := do
  let state ← groups.foldlM (evaluateGroup r steps limits) ⟨[],0,held⟩
  let _ ← charge limits spent state.work
  .ok state.result

/- Staleness wins, then the larger value; NaN comes last. -/
def samplePriority : Value → Value → Bool
  | .stale,_ => true
  | _,.stale => false
  | .number .nan,_ => false
  | _,.number .nan => true
  | .number a,.number b => !a.less b

def Point.precedes (a b : Point) : Prop := if a.ts = b.ts then samplePriority a.value b.value = true else a.ts < b.ts
instance : DecidableRel Point.precedes := fun a b => by unfold Point.precedes; infer_instance

def prepareGroup (points : List Point) : List Point :=
  Lists.uniqBy Point.ts (points.insertionSort Point.precedes)

end Pulso.PromQL
