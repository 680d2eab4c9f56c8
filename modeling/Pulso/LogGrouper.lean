import Pulso.Dict
import Pulso.Key

/-! Regrouping the rows of log segments by service. Rows are held by group until an output takes
them: a full group by chunks, a large group under memory pressure, or a pack of whole groups.
Arrow and Parquet are parameters. -/
namespace Pulso.LogTiers

def i64Min : Int := -2 ^ 63
def i64Max : Int := 2 ^ 63 - 1

/- One log row; `rest` stands for the columns no summary reads. -/
structure Row where
  service : Option Bytes
  resource : Bytes
  timestamp : Option Int
  rest : Nat
  ranged : ∀ t ∈ timestamp, i64Min ≤ t ∧ t ≤ i64Max
  deriving DecidableEq

-- `bytes` is the length of the string buffers, which the rows need not determine
structure Batch where
  rows : List Row
  bytes : Nat
  deriving DecidableEq

/- The columnar library: string bytes of rows taken out of a batch, the order the encoder sorts a
segment into, and whether the segment can be written. -/
structure Arrow where
  takenBytes : List Row → Nat
  sort : List Row → List Row
  sorts : ∀ rows, (sort rows).Perm rows
  writes : List Batch → Bool

abbrev GroupKey := Option Bytes × Option Bytes
abbrev StreamKey := Option Bytes × Bytes

def optionLe : Option Bytes → Option Bytes → Bool
  | none,_ => true
  | some _,none => false
  | some a,some b => a ≤ b

def keyLe (a b : GroupKey) : Bool := if a.1 = b.1 then optionLe a.2 b.2 else optionLe a.1 b.1
def streamLe (a b : StreamKey) : Bool := if a.1 = b.1 then a.2 ≤ b.2 else optionLe a.1 b.1

def Row.groupKey (r : Row) : GroupKey :=
  match r.service with
  | some name => if name = [] then (none,some r.resource) else (some name,none)
  | none => (none,some r.resource)

def Row.stream (r : Row) : StreamKey := (r.service,r.resource)

structure Group where
  batches : List Batch
  rows : Nat
  bytes : Nat
  deriving DecidableEq

def Group.empty : Group := ⟨[],0,0⟩

structure Grouper where
  groups : Dict GroupKey Group
  held : Nat
  targetRows : Nat
  targetBytes : Nat
  packBytes : Nat
  maxHeld : Nat
  deriving DecidableEq

inductive Fail where
  -- a subtraction of unsigned counters below zero
  | underflow
  | invalid
  deriving DecidableEq, Repr

def Grouper.new (targetRows targetBytes packBytes maxHeld : Nat) : Grouper :=
  ⟨Dict.empty,0,targetRows,targetBytes,min packBytes targetBytes,maxHeld⟩

def Grouper.ordered (g : Grouper) : List (GroupKey × Group) := g.groups.entries.insertionSort (fun a b => keyLe a.1 b.1)

def minus (a b : Nat) : Except Fail Nat := if b ≤ a then .ok (a - b) else .error .underflow

section Adding
variable (arrow : Arrow)

def part (b : Batch) (key : GroupKey) : Batch :=
  let rows := b.rows.filter (fun r => r.groupKey = key)
  if rows.length = b.rows.length then b else ⟨rows,arrow.takenBytes rows⟩

-- the iteration order of the index map does not matter: every key is visited once
def split (b : Batch) : List (GroupKey × Batch) := (b.rows.map Row.groupKey).dedup.map (fun key => (key,part arrow b key))

def Group.push (group : Group) (b : Batch) : Group := ⟨group.batches ++ [b],group.rows + b.rows.length,group.bytes + b.bytes⟩

def Grouper.addPart (g : Grouper) (p : GroupKey × Batch) : Grouper :=
  { g with groups := g.groups.put p.1 (((g.groups.get? p.1).getD Group.empty).push p.2), held := g.held + p.2.bytes }

/- Rows are indexed by 32-bit integers. -/
def Grouper.addBatch (g : Grouper) (b : Batch) : Except Fail Grouper :=
  if b.rows.length ≤ 2 ^ 32 then .ok ((split arrow b).foldl Grouper.addPart g) else .error .invalid

/- A source is the batches its reader yields, up to one it cannot read. -/
def Grouper.add : Grouper → List (Option Batch) → Except Fail (Nat × Grouper)
  | g,[] => .ok (0,g)
  | _,none::_ => .error .invalid
  | g,some b::rest => do
    let g ← g.addBatch arrow b
    let (rows,g) ← g.add rest
    pure (b.rows.length + rows,g)

end Adding

structure Output where
  payload : List Row
  minTs : Int
  maxTs : Int
  rows : Nat
  services : Option (List Bytes)
  streams : Option (List StreamKey)
  minutes : Option (List (Int × Nat))
  deriving DecidableEq

def maxServices : Nat := 128
def maxStreams : Nat := 4096
def maxMinutes : Nat := 2 * 1440
def minuteNs : Int := 60000000000

def minute (ts : Int) : Int :=
  let bucket := (ts - 1) / minuteNs + 1
  if i64Min ≤ bucket ∧ bucket ≤ i64Max then bucket else i64Max

/- The accumulators of the pass over an output's rows. Sets are kept sorted. -/
structure Tally where
  minTs : Int
  maxTs : Int
  rows : Nat
  services : Option (List Bytes)
  streams : Option (List StreamKey)
  minutes : Option (Dict Int Nat)

def Tally.start : Tally := ⟨i64Max,i64Min,0,some [],some [],some Dict.empty⟩

def insertNew {α : Type} [DecidableEq α] (le : α → α → Bool) (x : α) (xs : List α) : List α :=
  if x ∈ xs then xs else xs.orderedInsert (fun a b => le a b) x

-- one more element of a set that is unknown above a size
def collect {α : Type} [DecidableEq α] (le : α → α → Bool) (limit : Nat) (x : α) (set : Option (List α)) : Option (List α) :=
  set.bind (fun xs => let xs := insertNew le x xs; if xs.length ≤ limit then some xs else none)

def collectService (service : Option Bytes) (set : Option (List Bytes)) : Option (List Bytes) :=
  match service with
  | some name => if name ≠ [] ∧ name.length ≤ 256 then collect (fun a b => a ≤ b) maxServices name set else none
  | none => none

def countMinute (timestamp : Option Int) (counts : Option (Dict Int Nat)) : Option (Dict Int Nat) :=
  match timestamp,counts with
  | some t,some counts =>
    let counts := counts.put (minute t) ((counts.get? (minute t)).getD 0 + 1)
    if counts.size ≤ maxMinutes then some counts else none
  | _,_ => none

-- null timestamps bound as 0
def Row.bound (r : Row) : Int := r.timestamp.getD 0

def Tally.add (t : Tally) (r : Row) : Tally where
  minTs := min t.minTs r.bound
  maxTs := max t.maxTs r.bound
  rows := t.rows + 1
  services := collectService r.service t.services
  streams := collect streamLe maxStreams r.stream t.streams
  minutes := countMinute r.timestamp t.minutes

def rowsOf (batches : List Batch) : List Row := batches.flatMap Batch.rows

def encode (arrow : Arrow) (batches : List Batch) : Except Fail Output :=
  let t := (rowsOf batches).foldl Tally.add Tally.start
  if arrow.writes batches then
    .ok {
      payload := arrow.sort (rowsOf batches)
      minTs := if t.rows = 0 then 0 else t.minTs
      maxTs := if t.rows = 0 then 0 else t.maxTs
      rows := t.rows
      services := t.services
      streams := t.streams
      minutes := t.minutes.map (fun counts => counts.entries.insertionSort (fun a b => a.1 ≤ b.1)) }
  else .error .invalid

def Grouper.remove (g : Grouper) (key : GroupKey) : Except Fail (Group × Grouper) := do
  let group := (g.groups.get? key).getD Group.empty
  let held ← minus g.held group.bytes
  pure (group,{ g with groups := g.groups.delete key, held := held })

structure Taken where
  rows : Nat
  bytes : Nat
  count : Nat
  deriving DecidableEq

/- The first batch, and more while they fit a target. -/
def chunk (targetRows targetBytes : Nat) : Taken → List Batch → Taken
  | t,[] => t
  | t,b::rest =>
    if 0 < t.count ∧ (targetRows < t.rows + b.rows.length ∨ targetBytes < t.bytes + b.bytes) then t
    else chunk targetRows targetBytes ⟨t.rows + b.rows.length,t.bytes + b.bytes,t.count + 1⟩ rest

def Grouper.takeChunk (g : Grouper) (key : GroupKey) : Except Fail (List Batch × Grouper) :=
  match g.groups.get? key with
  | none => .ok ([],g)
  | some group => do
    let t := chunk g.targetRows g.targetBytes ⟨0,0,0⟩ group.batches
    let rows ← minus group.rows t.rows
    let bytes ← minus group.bytes t.bytes
    let held ← minus g.held t.bytes
    let rest := group.batches.drop t.count
    let groups := if rest = [] then g.groups.delete key else g.groups.put key ⟨rest,rows,bytes⟩
    pure (group.batches.take t.count,{ g with groups := groups, held := held })

/- Whole groups in order while they fit one pack; a group larger than a pack leaves alone. -/
def pack (targetRows packBytes : Nat) (rows bytes : Nat) (keys : List GroupKey) : List (GroupKey × Group) → List GroupKey
  | [] => keys
  | (key,group)::rest =>
    if keys ≠ [] ∧ (targetRows < rows + group.rows ∨ packBytes < bytes + group.bytes) then keys
    else pack targetRows packBytes (rows + group.rows) (bytes + group.bytes) (keys ++ [key]) rest

def Grouper.removeAll : Grouper → List GroupKey → Except Fail (List Batch × Grouper)
  | g,[] => .ok ([],g)
  | g,key::rest => do
    let (group,g) ← g.remove key
    let (batches,g) ← g.removeAll rest
    pure (group.batches ++ batches,g)

def Grouper.full (g : Grouper) (group : Group) : Bool := g.targetRows ≤ group.rows || g.targetBytes ≤ group.bytes

def largest : List (GroupKey × Group) → Option (GroupKey × Group)
  | [] => none
  | e::rest => match largest rest with
    | some best => if best.2.bytes < e.2.bytes then some e else some best
    | none => some e

def Grouper.pressed (g : Grouper) (finish : Bool) : Option GroupKey :=
  if finish then none
  else ((largest g.ordered).filter (fun e => g.targetBytes / 4 ≤ e.2.bytes)).map Prod.fst

def Grouper.take (g : Grouper) (finish : Bool) : Except Fail (Option (List Batch) × Grouper) :=
  match g.ordered.find? (fun e => g.full e.2) with
  | some (key,_) => do
    let (batches,g) ← g.takeChunk key
    pure (some batches,g)
  | none =>
    if g.groups.entries = [] ∨ ¬(finish ∨ g.maxHeld < g.held) then .ok (none,g)
    else match g.pressed finish with
    | some key => do
      let (group,g) ← g.remove key
      pure (some group.batches,g)
    | none => do
      let (batches,g) ← g.removeAll (pack g.targetRows g.packBytes 0 0 [] g.ordered)
      pure (some batches,g)

def Grouper.next (arrow : Arrow) (g : Grouper) (finish : Bool) : Except Fail (Option Output × Grouper) := do
  let (batches,g) ← g.take finish
  match batches with
  | none => pure (none,g)
  | some batches => do
    let output ← encode arrow batches
    pure (some output,g)

inductive Call where
  | add (source : List (Option Batch))
  | next (finish : Bool)

inductive Reply where
  | added (rows : Nat)
  | output (o : Output)
  | none | done | invalidSegment | fallback | underflow
  deriving DecidableEq

abbrev Handle := Option Grouper

def logGroupNew (targetRows targetBytes packBytes maxHeld maxBytes : Nat) : Option Grouper :=
  if targetRows = 0 ∨ 100000 < targetRows ∨ targetBytes = 0 ∨ packBytes = 0 then none
  else some (Grouper.new targetRows (min targetBytes maxBytes) packBytes maxHeld)

def failed : Fail → Reply → Reply
  | .underflow,_ => .underflow
  | .invalid,reply => reply

def call (arrow : Arrow) : Handle → Call → Handle × Reply
  | none,_ => (none,.fallback)
  | some g,.add source =>
    match g.add arrow source with
    | .ok (rows,g) => (some g,.added rows)
    | .error e => (none,failed e .invalidSegment)
  | some g,.next finish =>
    match g.next arrow finish with
    | .ok (some o,g) => (some g,.output o)
    | .ok (none,g) => if finish then (none,.done) else (some g,.none)
    | .error e => (none,failed e .fallback)

def run (arrow : Arrow) : Handle → List Call → Handle × List Reply
  | h,[] => (h,[])
  | h,c::rest =>
    let (h,reply) := call arrow h c
    let (h,replies) := run arrow h rest
    (h,reply::replies)

/- `drain/6`: outputs until a reply is none. -/
def drain (arrow : Arrow) (finish : Bool) : Nat → Handle → Option (Handle × List Output × Reply)
  | 0,_ => none
  | fuel+1,h =>
    match call arrow h (.next finish) with
    | (h,.output o) => (drain arrow finish fuel h).map (fun (h,outputs,last) => (h,o::outputs,last))
    | (h,reply) => some (h,[],reply)

def Handle.batches (h : Handle) : Nat :=
  (h.map (fun g => (g.groups.entries.map (fun e => e.2.batches.length)).sum)).getD 0

/- One segment to regroup: the row count its manifest entry claims and the batches of its object,
when the object can be fetched. -/
structure Source where
  rowCount : Option Nat
  fetched : Option (List (Option Batch))

section Build
variable (arrow : Arrow) (put : Output → Bool)

-- every call takes a batch, so one more call than batches drains
def drainAll (finish : Bool) (h : Handle) (expected : Reply) : Option (Handle × List Output) := do
  let (rest,outputs,last) ← drain arrow finish (h.batches + 1) h
  if outputs.all put ∧ last = expected then some (rest,outputs) else none

/- `add_sources/6`, the sources in the order they are added; a failure discards what was uploaded. -/
def addSources : Handle → List Source → Option (Handle × List Output)
  | h,[] => some (h,[])
  | h,s::rest => do
    let blob ← s.fetched
    match call arrow h (.add blob) with
    | (h,.added rows) =>
      if s.rowCount.all (· = rows) then do
        let (h,outputs) ← drainAll arrow put false h .none
        let (h,more) ← addSources h rest
        some (h,outputs ++ more)
      else none
    | _ => none

def build (g : Grouper) (sources : List Source) : Option (List Output) := do
  let (h,outputs) ← addSources arrow put (some g) sources
  let (_,last) ← drainAll arrow put true h .done
  some (outputs ++ last)

end Build

end Pulso.LogTiers
