import Pulso.TraceExpression

/-! TraceQL metrics over stored spans: rows of a batch are selected by time, measured in chunks that run
beside each other, and recorded into the series in row order. Doubles are the platform's. -/
namespace Pulso.TraceMetrics
open TraceQL.Native

inductive Lookup
  | span (key : String) | resource (key : String) | unscoped (key : String)
  | name | status | kind | duration | spanId
  deriving DecidableEq, Repr

inductive Op
  | count | rate | min | max | sum | avg | histogram | quantile
  deriving DecidableEq, Repr

def Op.bucketed : Op → Bool
  | .histogram | .quantile => true
  | _ => false

def Op.zeroFilled : Op → Bool
  | .count | .rate | .histogram | .quantile => true
  | _ => false

structure Mapper where
  start : Nat
  finish : Nat
  step : Nat
  instant : Bool
  count : Nat

def Mapper.interval (mapper : Mapper) (ts : Nat) : Option Nat :=
  if mapper.instant then
    if mapper.start ≤ ts ∧ ts ≤ mapper.finish ∧ mapper.finish ≠ mapper.start then some 0 else none
  else if ts ≤ mapper.start ∨ mapper.finish < ts ∨ mapper.step = 0 then none
  else
    let offset := ts - mapper.start
    let i := offset / mapper.step
    let i := if i * mapper.step = offset then i - 1 else i
    if i < mapper.count then some i else none

/- The doubles of the platform: constants, conversions and the operations the accumulators use. -/
structure Doubles (F : Type) where
  zero : F
  one : F
  nan : F
  infinity : F
  negativeInfinity : F
  isNaN : F → Bool
  add : F → F → F
  min : F → F → F
  max : F → F → F
  ofInt : Int → F
  parse : String → Option F
  belowTwo : F → Bool
  bucketOf : F → F
  perBillion : F → F
  bits : F → UInt64

abbrev Labels := List (Option String)
abbrev Key := Labels × Option UInt64

structure Observation (F : Type) where
  interval : Nat
  key : Key
  value : F

structure Series (F : Type) where
  values : List F
  counts : List Nat

structure State (F : Type) where
  program : Option Expression
  rootOnly : Bool
  needsAttributes : Bool
  requiresOriginals : Bool
  op : Op
  value : Option Lookup
  by' : List Lookup
  mapper : Mapper
  series : Dict Key (Series F)

structure Budget where
  series : Nat
  points : Nat
  work : Nat
  labelBytes : Nat
  deriving DecidableEq, Repr

def maxSeries : Nat := 10000
def maxPoints : Nat := 2000000
def maxOutput : Nat := 64 * 1024 * 1024
def maxWork : Nat := 20000000

abbrev Parts := RawFields × Option Envelope

/- One row as its columns are read: absent values are nulls, and the parts are what validating the
identifier, the times and the payload gives. -/
structure Row where
  start : Option Int
  finish : Option Int
  parts : Option (Res Parts)

structure Selected where
  start : Int
  finish : Int
  parts : Res Parts
  interval : Nat

section
variable {F : Type} (doubles : Doubles F) (reader : Reader)

def scalar (raw : String) : Res (Option String) := do
  let value ← reader.object raw
  if ["stringValue","intValue","boolValue","doubleValue"].any (fun name => (field value name).isOk)
  then .ok (some raw) else .ok none

def number (raw : String) : Option F := do
  let value ← (reader.object raw).toOption
  match field value "intValue" with
  | .ok n =>
    let text := (reader.string n).toOption.getD n
    (reader.integer text).toOption.map doubles.ofInt
  | .error _ => do
    let n ← (field value "doubleValue").toOption
    match reader.string n with
    | .ok "NaN" => some doubles.nan
    | .ok "Infinity" => some doubles.infinity
    | .ok "-Infinity" => some doubles.negativeInfinity
    | .ok other => doubles.parse other
    | .error _ => doubles.parse n

def bucket (value : Option Lookup) (v : F) : Option F :=
  if doubles.isNaN v || doubles.belowTwo v then none
  else
    let b := doubles.bucketOf v
    some (if value = some .duration then doubles.perBillion b else b)

structure AttributeOwners where
  resource : Owner
  span : Owner

def readOwners (fields : RawFields) (envelope : Option Envelope) : Res AttributeOwners := do
  let meta? ← match envelope,field fields "otlp" with
    | some envelope,_ => .ok (some envelope.members)
    | none,.ok raw => if raw ≠ "null" then (reader.object raw).map some else .ok none
    | none,.error _ => .ok none
  match meta? with
  | some parsed => do
    let resource ← attributes reader (← field parsed "resource")
    let span ← attributes reader (← field parsed "attributes")
    .ok ⟨resource,span⟩
  | none => .ok ⟨Dict.empty,Dict.empty⟩

def ownScalar (owner : Owner) (key : String) : Res (Option String) :=
  match owner.get? key with
  | none => .ok none
  | some raw => scalar reader raw

def lookupValue (owners : AttributeOwners) (fields : RawFields) (duration : Nat) : Lookup → Res (Option String)
  | .span key => ownScalar reader owners.span key
  | .resource key => ownScalar reader owners.resource key
  | .unscoped key => do
    match ← ownScalar reader owners.span key with
    | some v => .ok (some v)
    | none => ownScalar reader owners.resource key
  | .name => do .ok (some (stringValue reader (← reader.string (← field fields "name"))))
  | .spanId => do .ok (some (stringValue reader (← reader.string (← field fields "span_id"))))
  | .status => do .ok (some (stringValue reader (← named statuses (← statusCode reader fields))))
  | .kind => do .ok (some (stringValue reader (← named kinds (← reader.integer (← field fields "kind")))))
  | .duration => .ok (some ("\x7b\"intValue\":\"" ++ toString duration ++ "\"\x7d"))

def observe (state : State F) (fields : RawFields) (envelope : Option Envelope) (interval : Nat) (start finish : Int) :
    Res (Option (Observation F)) := do
  let owners ← if state.needsAttributes then readOwners reader fields envelope else .ok ⟨Dict.empty,Dict.empty⟩
  let duration := (finish - start).toNat
  let labels ← state.by'.mapM (lookupValue reader owners fields duration)
  let value ← match state.value with
    | none => .ok doubles.one
    | some .duration => .ok (doubles.ofInt duration)
    | some lookup => do
      match ← lookupValue reader owners fields duration lookup with
      | some raw => .ok ((number doubles reader raw).getD doubles.nan)
      | none => .ok doubles.nan
  let seconds := if state.value = some .duration then doubles.perBillion value else value
  if state.op.bucketed then
    match bucket doubles state.value value with
    | some b => .ok (some ⟨interval,(labels,some (doubles.bits b)),seconds⟩)
    | none => .ok none
  else .ok (some ⟨interval,(labels,none),seconds⟩)

def isNull (fields : RawFields) (name : String) : Bool :=
  match field fields name with
  | .ok raw => raw = "null"
  | .error _ => true

def measure (state : State F) (fields : RawFields) (envelope : Option Envelope) (interval : Nat) (start finish : Int)
    (work : Nat) : Res (Option (Observation F)) × Nat :=
  if state.requiresOriginals && isNull fields "otlp" then (.error .unknown,work)
  else
    let child := if state.rootOnly then (field fields "parent_span_id").map (fun raw => decide (raw ≠ "null")) else .ok false
    match child,state.program with
    | .error e,_ => (.error e,work)
    | .ok true,_ => (.ok none,work)
    | .ok false,none => (observe doubles reader state fields envelope interval start finish,work)
    | .ok false,some program =>
      match evaluateWith reader program fields envelope work false with
      | (.error e,work) => (.error e,work)
      | (.ok evaluation,work) =>
        if evaluation.matched then (observe doubles reader state fields envelope interval start finish,work)
        else (.ok none,work)

def measureRow (state : State F) (row : Selected) (work : Nat) : Res (Option (Observation F)) × Nat :=
  match row.parts with
  | .error e => (.error e,work)
  | .ok (fields,envelope) => measure doubles reader state fields envelope row.interval row.start row.finish work

/- One chunk: the observations before its first failing row, the work counter after it, and the failure. -/
def measureChunk (state : State F) : List Selected → Nat → List (Option (Observation F)) × Nat × Option Error
  | [],work => ([],work,none)
  | row::rest,work =>
    match measureRow doubles reader state row work with
    | (.error e,work) => ([],work,some e)
    | (.ok observation,work) =>
      let (out,work,error) := measureChunk state rest work
      (observation::out,work,error)

def accumulate (op : Op) (series : Series F) (interval : Nat) (value : F) : Series F :=
  let slot := series.values.getD interval doubles.nan
  match op with
  | .count | .rate | .histogram | .quantile => { series with values := series.values.set interval (doubles.add slot doubles.one) }
  | .min =>
    if doubles.isNaN value then series
    else { series with values := series.values.set interval (if doubles.isNaN slot then value else doubles.min slot value) }
  | .max =>
    if doubles.isNaN value then series
    else { series with values := series.values.set interval (if doubles.isNaN slot then value else doubles.max slot value) }
  | .sum | .avg =>
    if doubles.isNaN value then series
    else ⟨series.values.set interval (if doubles.isNaN slot then value else doubles.add slot value),
      series.counts.set interval (series.counts.getD interval 0 + 1)⟩

def labelSize (key : Key) : Nat := (key.1.map (fun label => (label.map String.utf8ByteSize).getD 0)).sum

def isFull (state : State F) (budget : Budget) : Bool :=
  maxSeries ≤ budget.series || maxPoints < budget.points + state.mapper.count

def record (state : State F) (observation : Observation F) (budget : Budget) : Res (State F × Budget) :=
  match state.series.get? observation.key with
  | some series =>
    let series := accumulate doubles state.op series observation.interval observation.value
    .ok ({ state with series := state.series.put observation.key series },budget)
  | none =>
    if isFull state budget then .error .groups
    else
      let labelBytes := budget.labelBytes + labelSize observation.key
      if maxOutput < labelBytes then .error .budget
      else
        let fill := if state.op.zeroFilled then doubles.zero else doubles.nan
        let series : Series F := ⟨List.replicate state.mapper.count fill,List.replicate state.mapper.count 0⟩
        let series := accumulate doubles state.op series observation.interval observation.value
        .ok ({ state with series := state.series.put observation.key series },
          { budget with
            labelBytes := labelBytes
            series := budget.series + 1
            points := budget.points + state.mapper.count })

def recordAll (run : State F × Budget) (observations : List (Observation F)) : Res (State F × Budget) :=
  observations.foldlM (fun run observation => record doubles run.1 observation run.2) run

/- One measured chunk entered into the totals; its own failure is reported last. -/
def enter (base : Nat) (run : State F × Budget) (chunk : List (Option (Observation F)) × Nat × Option Error) :
    Res (State F × Budget) := do
  let budget := { run.2 with work := run.2.work + (chunk.2.1 - base) }
  if maxWork < budget.work then .error .budget
  else do
    let run ← recordAll doubles (run.1,budget) (chunk.1.filterMap id)
    match chunk.2.2 with
    | some e => .error e
    | none => .ok run

def scanChunks (run : State F × Budget) (chunks : List (List Selected)) : Res (State F × Budget) :=
  (chunks.map (fun chunk => measureChunk doubles reader run.1 chunk run.2.work)).foldlM (enter doubles run.2.work) run

end

def selectRow (mapper : Mapper) (floor : Int) (row : Row) : Res (Option Selected) :=
  match row.start,row.finish,row.parts with
  | some start,some finish,some parts =>
    if start < floor ∨ start < 0 then .ok none
    else .ok ((mapper.interval start.toNat).map (fun interval => ⟨start,finish,parts,interval⟩))
  | _,_,_ => .error .invalid

def selectRows (mapper : Mapper) (floor : Int) (rows : List Row) : Res (List Selected) :=
  (rows.mapM (selectRow mapper floor)).map (fun found => found.filterMap id)

def chunksOf {α : Type} (size : Nat) : Nat → List α → List (List α)
  | 0,_ => []
  | fuel+1,l => if l.isEmpty then [] else l.take size::chunksOf size fuel (l.drop size)

/- At most one chunk for each thread, and none for fewer than 256 rows. -/
def cutRows (threads : Nat) (selected : List Selected) : List (List Selected) :=
  let size := max ((selected.length + threads - 1) / threads) 256
  if size < selected.length then chunksOf size selected.length selected else [selected]

section
variable {F : Type} (doubles : Doubles F) (reader : Reader) (cut : List Selected → List (List Selected)) (floor : Int)

def scanBatch (run : State F × Budget) (rows : List Row) : Res (State F × Budget) := do
  let selected ← selectRows run.1.mapper floor rows
  scanChunks doubles reader run (cut selected)

def scan (run : State F × Budget) (batches : List (Res (List Row))) : Res ((State F × Budget) × Nat) :=
  batches.foldlM (fun found batch => do
    let rows ← batch
    let run ← scanBatch doubles reader cut floor found.1 rows
    .ok (run,found.2 + rows.length)) (run,0)

end

end Pulso.TraceMetrics
