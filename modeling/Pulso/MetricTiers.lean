import Mathlib.Data.List.SplitBy
import Mathlib.Data.Prod.Lex
import Pulso.MetricLabels
import Pulso.NamePartition
import Pulso.Slices

/-! The native finalizer: rows of the sources are interned and accumulated for one name
partition, ordered, and cut into outputs inside, before and after the hour. -/
namespace Pulso.MetricTiers
open Pulso.Metric

structure Extra where
  start : Option Int
  otlp : Option Bytes
  histogram : Option Bytes
  exemplars : Option Bytes
  deriving DecidableEq

-- the bits of a float value
structure Row extends Extra where
  seriesId : Int
  ts : Int
  value : UInt64
  labels : Labels
  deriving DecidableEq

structure Cell (labels : Nat) extends Extra where
  key : Fin labels
  seriesId : Int
  ts : Int
  value : UInt64

structure Batch where
  dictionary : List Labels
  cells : List (Cell dictionary.length)

def Batch.row (b : Batch) (c : Cell b.dictionary.length) : Row :=
  ⟨c.toExtra,c.seriesId,c.ts,c.value,b.dictionary.get c.key⟩

def Batch.rows (b : Batch) : List Row := b.cells.map b.row

inductive TierError
  | invalid | tooLarge | encode
  deriving DecidableEq, Repr

def validatedName (canonical : Bytes) : Except TierError Bytes :=
  match Labels.fromCanonical canonical with
  | some labels => .ok labels.metricName
  | none => .error .invalid

/- Interned label sets. The name is kept as bytes, not as its range in the canonical bytes. -/
structure Series where
  canonical : List Bytes
  names : List Bytes

def maxSeries : Nat := 4000000

namespace Series

def intern (s : Series) (canonical : Bytes) : Except TierError (Nat × Series) :=
  match s.canonical.idxOf? canonical with
  | some index => .ok (index,s)
  | none =>
    if s.canonical.length ≥ maxSeries then .error .tooLarge
    else do
      let name ← validatedName canonical
      .ok (s.canonical.length,⟨s.canonical ++ [canonical],s.names ++ [name]⟩)

def name (s : Series) (index : Nat) : Bytes := s.names.getD index []

def precedes (s : Series) (a b : Nat) : Prop :=
  let hash (index : Nat) := Native.nameHash (s.name index)
  hash a < hash b ∨ hash a = hash b ∧ (s.name a < s.name b ∨ s.name a = s.name b ∧
    s.canonical.getD a [] ≤ s.canonical.getD b [])
instance (s : Series) : DecidableRel s.precedes := by unfold precedes; infer_instance

def ranks (s : Series) : List Nat :=
  let order := (List.range s.canonical.length).insertionSort s.precedes
  (List.range s.canonical.length).map (fun index => order.idxOf index)

end Series

structure CompactRow where
  seriesId : Int
  ts : Int
  value : UInt64
  series : Nat
  extra : Option Nat

structure Builder where
  start : Int
  finish : Int
  maxRows : Nat
  partition : Option (UInt32 × UInt32)
  series : Series
  rows : List CompactRow
  extras : List Extra

inductive Slot
  | unread | skipped
  | series (index : Nat)

-- the sentinel an absent extra is stored as
def noExtra : Nat := 2 ^ 32 - 1

namespace Builder

def new (start finish : Int) (maxRows : Nat) (partition : Option (UInt32 × UInt32)) : Builder :=
  ⟨start,finish,maxRows,partition,⟨[],[]⟩,[],[]⟩

def intern (b : Builder) (canonical : Bytes) : Except TierError (Slot × Builder) := do
  let (index,series) ← b.series.intern canonical
  .ok (.series index,{ b with series := series })

def place (b : Builder) (canonical : Bytes) : Except TierError (Slot × Builder) :=
  match b.partition with
  | some (index,count) => do
    let name ← validatedName canonical
    if Native.namePartition name count ≠ index then .ok (.skipped,b) else b.intern canonical
  | none => b.intern canonical

def push {n : Nat} (b : Builder) (series : Nat) (cell : Cell n) : Except TierError Builder :=
  if b.rows.length ≥ b.maxRows then .error .tooLarge
  else if cell.start = some 0 then .error .invalid
  else if cell.start = none ∧ cell.otlp = none ∧ cell.histogram = none ∧ cell.exemplars = none then
    .ok { b with rows := b.rows ++ [⟨cell.seriesId,cell.ts,cell.value,series,none⟩] }
  else if b.extras.length ≥ noExtra - 1 then .error .tooLarge
  else .ok { b with
    rows := b.rows ++ [⟨cell.seriesId,cell.ts,cell.value,series,some b.extras.length⟩]
    extras := b.extras ++ [cell.toExtra] }

/- The slot of a dictionary key, filled on its first use in the batch. -/
def slotOf (dictionary : List Labels) (state : Builder × List Slot) (key : Fin dictionary.length) :
    Except TierError (Slot × Builder) :=
  match state.2.getD key .unread with
  | .unread => state.1.place (dictionary.get key).canonical
  | slot => .ok (slot,state.1)

def addCell (dictionary : List Labels) (state : Builder × List Slot) (cell : Cell dictionary.length) :
    Except TierError (Builder × List Slot) := do
  let (slot,b) ← slotOf dictionary state cell.key
  let interned := state.2.set cell.key slot
  match slot with
  | .series index => do
    let b ← b.push index cell
    .ok (b,interned)
  | _ => .ok (b,interned)

def addBatch (b : Builder) (batch : Batch) : Except TierError Builder := do
  let (b,_) ← batch.cells.foldlM (addCell batch.dictionary) (b,List.replicate batch.dictionary.length .unread)
  .ok b

def add (b : Builder) (batches : List Batch) : Except TierError Builder := batches.foldlM addBatch b

end Builder

inductive Kind
  | final | before | after
  deriving DecidableEq, Repr

structure Grouping where
  out : List (Nat × Nat)
  groupStart : Nat
  groupRows : Nat
  groupNames : Nat
  here : Nat

namespace Grouping

def cut (g : Grouping) (names : Nat) : Grouping := ⟨g.out ++ [(g.groupStart,g.here)],g.here,0,names,g.here⟩

def seriesStep {α : Type} (target : Nat) (g : Grouping) (run : List α) : Grouping :=
  let g := if g.groupRows > 0 ∧ g.groupRows + run.length > target ∧ g.here > g.groupStart then g.cut 1 else g
  { g with groupRows := g.groupRows + run.length, here := g.here + run.length }

def metricStep {α : Type} (seriesOf : α → Nat) (target maxNames : Nat) (g : Grouping) (metric : List α) : Grouping :=
  let g := if g.groupRows > 0 ∧ (g.groupRows + metric.length > target ∨ g.groupNames + 1 > maxNames) then g.cut 0 else g
  let g := { g with groupNames := g.groupNames + 1 }
  (metric.splitBy (fun a b => seriesOf a == seriesOf b)).foldl (seriesStep target) g

end Grouping

def groups {α : Type} (items : List α) (series : Series) (seriesOf : α → Nat) (targetRows maxNames : Nat) :
    List (Nat × Nat) :=
  let metrics := items.splitBy (fun a b => series.name (seriesOf a) == series.name (seriesOf b))
  let g := metrics.foldl (Grouping.metricStep seriesOf (max targetRows 1) maxNames) ⟨[],0,0,0,0⟩
  if g.groupStart < items.length then g.out ++ [(g.groupStart,items.length)] else g.out

structure Output where
  kind : Kind
  minTs : Int
  maxTs : Int
  rows : List Row
  labels : List Labels

def partitionPoint {α : Type} (p : α → Bool) (xs : List α) : Nat := xs.findIdx (fun x => !p x)

namespace Builder

def timeClass (b : Builder) (ts : Int) : Nat := if ts < b.start then 1 else if b.finish ≤ ts then 2 else 0

def order (b : Builder) (r : CompactRow) : Nat ×ₗ Nat ×ₗ Int ×ₗ Int ×ₗ Nat ×ₗ Nat :=
  toLex (b.timeClass r.ts,toLex (b.series.ranks.getD r.series 0,toLex (r.ts,toLex (r.seriesId,
    toLex (r.value.toNat,r.extra.getD noExtra)))))

def sorted (b : Builder) : List CompactRow := b.rows.insertionSort (fun x y => b.order x ≤ b.order y)

def prepare (b : Builder) (targetRows maxNames : Nat) : List (Kind × Nat × Nat) :=
  let rows := b.sorted
  let inside := partitionPoint (fun r => b.timeClass r.ts = 0) rows
  let before := inside + partitionPoint (fun r => b.timeClass r.ts = 1) (rows.drop inside)
  (groups (rows.take inside) b.series CompactRow.series targetRows maxNames).map (fun range => (.final,range)) ++
    (if before > inside then [(.before,inside,before)] else []) ++
    (if rows.length > before then [(.after,before,rows.length)] else [])

def extraOf (b : Builder) : Option Nat → Option Extra
  | none => some ⟨none,none,none,none⟩
  | some index => b.extras[index]?

def row (b : Builder) (r : CompactRow) : Option Row := do
  let canonical ← b.series.canonical[r.series]?
  let labels ← Labels.fromCanonical canonical
  let extra ← b.extraOf r.extra
  some ⟨extra,r.seriesId,r.ts,r.value,labels⟩

def encodeRange (b : Builder) (kind : Kind) (range : Nat × Nat) : Except TierError Output :=
  let compact := Lists.slice b.sorted range
  match compact.mapM b.row with
  | none => .error .invalid
  | some rows =>
    let series := (compact.map CompactRow.series).dedup.insertionSort (· ≤ ·)
    .ok {
      kind := kind
      minTs := (rows.map Row.ts).min?.getD 0
      maxTs := (rows.map Row.ts).max?.getD 0
      rows := rows
      labels := series.filterMap (fun index => b.series.canonical[index]?.bind Labels.fromCanonical) }

end Builder
end Pulso.MetricTiers
