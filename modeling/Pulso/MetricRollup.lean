import Pulso.MetricAccumulate
import Pulso.MetricPlan
import Pulso.PromNumber
import Pulso.Runs

/-! Hourly rollups: one aggregate per series with samples in the hour, as the finalizer
folds the ordered rows and as a query reads them back. -/
namespace Pulso.MetricTiers
open Pulso.Metric Pulso.PromQL

structure Flags where
  histogram : Bool
  conflict : Bool
  negativeZeroReset : Bool
  deriving DecidableEq

def Flags.none : Flags := ⟨false,false,false⟩

structure Aggregate where
  series : Nat
  seriesId : Int
  bucket : Int
  count : Nat
  firstTs : Int
  first : Number
  lastTs : Int
  last : Number
  min : Number
  max : Number
  changes : Nat
  resets : Nat
  resetValues : List Number
  flags : Flags
  lastBits : UInt64
  deriving DecidableEq

namespace Aggregate

def new (series : Nat) (seriesId bucket : Int) : Aggregate where
  series := series
  seriesId := seriesId
  bucket := bucket
  count := 0
  firstTs := 0
  first := .zero
  lastTs := 0
  last := .zero
  min := .nan
  max := .nan
  changes := 0
  resets := 0
  resetValues := []
  flags := .none
  lastBits := 0

def transition (a : Aggregate) (value : Number) : Aggregate :=
  let a := if !(a.last.equal value || (a.last = .nan && value = .nan)) then { a with changes := a.changes + 1 } else a
  if value.less a.last then
    { a with
      resets := a.resets + 1
      resetValues := a.resetValues ++ [a.last]
      flags := if a.lastBits = negativeZeroBits then { a.flags with negativeZeroReset := true } else a.flags }
  else a

def push (a : Aggregate) (ts : Int) (value : Number) (bits : UInt64) : Aggregate :=
  let a := if a.count = 0 then { a with firstTs := ts, first := value } else a.transition value
  { a with
    min := if value ≠ .nan ∧ (a.min = .nan ∨ value.less a.min) then value else a.min
    max := if value ≠ .nan ∧ (a.max = .nan ∨ a.max.less value ∨ a.max.equal value) then value else a.max
    count := a.count + 1
    lastTs := ts
    last := value
    lastBits := bits }

end Aggregate

-- rows with one class are the same sample value
def valueClass (bits : UInt64) : UInt64 := if bits ≠ staleBits ∧ ofBits bits = .nan then 0x7ff8000000000000 else bits

structure Choice where
  histogram : Bool
  chosen : Option UInt64
  classes : Nat
  firstClass : Option UInt64

def Choice.none : Choice := ⟨false,.none,0,.none⟩

namespace Builder

def choose (b : Builder) (c : Choice) (row : CompactRow) : Choice :=
  let extra := b.extraOf row.extra
  if extra.any (fun e => e.histogram.isSome) then { c with histogram := true }
  else if extra.any (fun e => e.exemplars.isSome) && row.value = exemplarOnlyBits then c
  else
    let valued := valueClass row.value
    if c.firstClass = some valued then c
    else if c.firstClass = none then { c with firstClass := some valued, classes := 1, chosen := some row.value }
    else { c with classes := c.classes + 1 }

def instant (b : Builder) (a : Aggregate) (rows : List CompactRow) : Aggregate :=
  let c := rows.foldl b.choose .none
  let flags := { a.flags with histogram := a.flags.histogram || c.histogram, conflict := a.flags.conflict || 1 < c.classes }
  let a := { a with flags := flags }
  match c.chosen,rows with
  | some bits,row::_ => if bits ≠ staleBits then a.push row.ts (ofBits bits) bits else a
  | _,_ => a

def summarize (b : Builder) : List CompactRow → Option Aggregate
  | [] => none
  | row::rows =>
    let a := (Lists.runs CompactRow.ts (row::rows)).foldl b.instant (.new row.series row.seriesId b.start)
    if 0 < a.count ∨ a.flags ≠ .none then some a else none

def rollupRows (b : Builder) (rows : List CompactRow) : List Aggregate :=
  (Lists.runs CompactRow.series rows).filterMap b.summarize

def aggregates (b : Builder) : List Aggregate := b.rollupRows (b.sorted.take b.insideEnd)

end Builder

structure Rollup where
  labels : Labels
  bucket : Int
  count : Nat
  firstTs : Int
  first : Number
  lastTs : Int
  last : Number
  min : Number
  max : Number
  changes : Nat
  resets : Nat
  resetValues : List Number
  flags : Flags
  deriving DecidableEq

def Builder.rollup (b : Builder) (a : Aggregate) : Option Rollup := do
  if a.resetValues.length ≠ a.resets then none
  let canonical ← b.series.canonical[a.series]?
  let labels ← Labels.fromCanonical canonical
  some {
    labels := labels
    bucket := a.bucket
    count := a.count
    firstTs := a.firstTs
    first := a.first
    lastTs := a.lastTs
    last := a.last
    min := a.min
    max := a.max
    changes := a.changes
    resets := a.resets
    resetValues := a.resetValues
    flags := a.flags }

def Builder.rollups (b : Builder) : Option (List Rollup) := b.aggregates.mapM b.rollup

end Pulso.MetricTiers
