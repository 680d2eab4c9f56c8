import Pulso.LogSummary
import Pulso.PromNumber

/-! Storage reads of a query. Evaluation asks for the series of each selector when it comes to
it; before that, everything the expression will ask for is planned and read in one call. What
the operators compute from their operands is left open. -/
namespace Pulso.PromQL.Planning
open Pulso.Logs (Matcher MatchOp)

inductive RangeOp
  | rate | increase | irate | idelta | delta | changes | resets | deriv
  | sumOverTime | avgOverTime | minOverTime | maxOverTime | countOverTime
  | stddevOverTime | stdvarOverTime | madOverTime | absentOverTime | presentOverTime
  | firstOverTime | lastOverTime | tsOfFirstOverTime | tsOfLastOverTime | tsOfMinOverTime | tsOfMaxOverTime
  deriving DecidableEq

inductive Anchor
  | time (ns : Int) | start | finish
  deriving DecidableEq

inductive Offset
  | shift (ns : Int)
  | anchored (anchor : Anchor) (shift : Int)
  deriving DecidableEq

structure Duration where
  ns : Int
  positive : 0 < ns
  bounded : ns ≤ 31536000000000000
  deriving DecidableEq

inductive CallName (N : Type)
  | timestamp | absent | predictLinear | quantileOverTime | doubleExponentialSmoothing | holtWinters
  | range (op : RangeOp)
  | other (name : N)
  deriving DecidableEq

/- A resolved query. Operators, modifiers and groupings are data of type `N`. -/
inductive Expr (N : Type)
  | scalar (value : Number)
  | string (text : Bytes)
  | unary (op : N) (inner : Expr N)
  | binary (op : N) (left right : Expr N)
  | call (name : CallName N) (args : List (Expr N))
  | parameterAggregate (op : N) (parameter inner : Expr N)
  | aggregate (op : N) (inner : Expr N)
  | selector (matchers : List Matcher) (offset : Offset)
  | range (matchers : List Matcher) (window : Duration) (offset : Offset)
  | subquery (inner : Expr N) (window resolution : Duration) (offset : Offset)
  | function (op : RangeOp) (inner : Expr N)

@[induction_eliminator]
theorem Expr.induct {N : Type} {P : Expr N → Prop} (scalar : ∀ value, P (.scalar value)) (string : ∀ text, P (.string text))
    (unary : ∀ op inner, P inner → P (.unary op inner))
    (binary : ∀ op left right, P left → P right → P (.binary op left right))
    (call : ∀ name args, (∀ arg ∈ args, P arg) → P (.call name args))
    (parameterAggregate : ∀ op parameter inner, P parameter → P inner → P (.parameterAggregate op parameter inner))
    (aggregate : ∀ op inner, P inner → P (.aggregate op inner))
    (selector : ∀ matchers offset, P (.selector matchers offset))
    (range : ∀ matchers window offset, P (.range matchers window offset))
    (subquery : ∀ inner window resolution offset, P inner → P (.subquery inner window resolution offset))
    (function : ∀ op inner, P inner → P (.function op inner)) (expr : Expr N) : P expr :=
  @Expr.rec N P (fun args => ∀ arg ∈ args, P arg) scalar string unary binary call parameterAggregate aggregate
    selector range subquery function (fun _ mem => absurd mem List.not_mem_nil)
    (fun _ _ head tail arg mem => (List.mem_cons.mp mem).elim (fun same => same ▸ head) (tail arg)) expr

/- The hours a rollup may answer stand in the request only when there are any. -/
structure Request where
  matchers : List Matcher
  start : Int
  finish : Int
  hours : Option (Int × Int)
  deriving DecidableEq

def Request.nonempty (r : Request) : Bool := r.start ≤ r.finish

structure Context where
  lookback : Int
  start : Int
  finish : Int
  anchor : Bytes → Bytes

structure Steps where
  list : List Int
  nonempty : list ≠ []

def Steps.first (steps : Steps) : Int := steps.list.head steps.nonempty
def Steps.last (steps : Steps) : Int := steps.list.getLast steps.nonempty

def Steps.pair (first last : Int) : Steps := ⟨[first,last],by simp⟩

section Requests
variable (c : Context)

def sourceTime (step : Int) : Offset → Int
  | .anchored (.time ns) shift => ns - shift
  | .anchored .start shift => c.start - shift
  | .anchored .finish shift => c.finish - shift
  | .shift ns => step - ns

def anchoredMatcher (m : Matcher) : Matcher :=
  if m.op = .re ∨ m.op = .nre then { m with value := c.anchor m.value } else m

def minTime : Int := -9223372036854775808
def maxTime : Int := 9223372036854775807
def timestamp (ns : Int) : Prop := minTime ≤ ns ∧ ns ≤ maxTime
instance (ns : Int) : Decidable (timestamp ns) := by unfold timestamp; infer_instance
def hourNs : Int := 3600000000000
def maxSteps : Nat := 11000

def tierOps : List RangeOp :=
  [.rate,.increase,.delta,.countOverTime,.presentOverTime,.minOverTime,.maxOverTime,
    .firstOverTime,.lastOverTime,.changes,.resets]

def selectorRequest (matchers : List Matcher) (offset : Offset) (window : Int) (steps : Steps)
    (op : Option RangeOp) : Request :=
  let first := sourceTime c steps.first offset
  let last := sourceTime c steps.last offset
  let lower := ((last - window).fdiv hourNs + 1) * hourNs
  let upper := (first + 1).fdiv hourNs * hourNs
  ⟨matchers.map (anchoredMatcher c),max minTime (first - window + 1),min maxTime last,
    if op.any (· ∈ tierOps) ∧ lower < upper then some (lower,upper) else none⟩

def rawRequest (r : Request) : Request := { r with hours := none }

def tierOp : RangeOp → RangeOp
  | .absentOverTime => .lastOverTime
  | op => op

def gridFirst (step : Int) (window resolution : Duration) (offset : Offset) : Int :=
  ((sourceTime c step offset - window.ns).fdiv resolution.ns + 1) * resolution.ns

def gridLast (step : Int) (resolution : Duration) (offset : Offset) : Int :=
  (sourceTime c step offset).fdiv resolution.ns * resolution.ns

mutual
def plan {N : Type} (first last : Int) (acc : List Request) : Expr N → List Request
  | .selector matchers offset => selectorRequest c matchers offset c.lookback (.pair first last) none::acc
  | .range matchers window offset => selectorRequest c matchers offset window.ns (.pair first last) none::acc
  | .function op (.range matchers window offset) =>
    selectorRequest c matchers offset window.ns (.pair first last) (some (tierOp op))::acc
  | .call (.range op) [.range matchers window offset] =>
    selectorRequest c matchers offset window.ns (.pair first last) (some (tierOp op))::acc
  | .subquery inner window resolution offset =>
    let innerFirst := gridFirst c first window resolution offset
    let innerLast := gridLast c last resolution offset
    if innerFirst ≤ innerLast ∧ (innerLast - innerFirst).tdiv resolution.ns + 1 ≤ maxSteps then
      plan innerFirst innerLast acc inner
    else acc
  | .scalar _ => acc
  | .string _ => acc
  | .unary _ inner => plan first last acc inner
  | .binary _ left right => plan first last (plan first last acc left) right
  | .call _ args => planArgs first last acc args
  | .parameterAggregate _ parameter inner => plan first last (plan first last acc parameter) inner
  | .aggregate _ inner => plan first last acc inner
  | .function _ inner => plan first last acc inner

def planArgs {N : Type} (first last : Int) (acc : List Request) : List (Expr N) → List Request
  | [] => acc
  | arg::args => planArgs first last (plan first last acc arg) args
end

end Requests

inductive SelectOp (V : Type)
  | latest | timestamp | rawRange
  | function (op : RangeOp)
  | predictLinear (values : V)
  | quantileOverTime (values : V)
  | smoothing (factors trends : V)

def SelectOp.range {V : Type} : SelectOp V → Option RangeOp
  | .function op => some op
  | _ => none

structure Selection (V : Type) where
  steps : Steps
  offset : Offset
  window : Int
  op : SelectOp V

/- Storage and everything computed from what it returns, as steps on the rest of the process:
budgets, warnings, the clock. `G` are prepared series, `V` the results of expressions. -/
structure Operators (N E S G V : Type) where
  scanBudget : S → Except E Unit × S
  query : (requests : List Request) → S → Except E {results : List (Except E G) // results.length = requests.length} × S
  empty : V
  literal : Expr N → Steps → V
  node : Expr N → List V → Steps → S → Except E V × S
  held : S → Nat
  hold : Nat → V → S → Except E Unit × S
  charge : Nat → S → Except E Unit × S
  resample : V → Selection V → S → Except E V × S
  selected : G → Selection V → S → Except E (Option V) × S
  sampled : G → Selection V → S → Except E V × S
  folded : Expr N → G → Selection V → S → Except E (Option V) × S
  stepLimit : E
  invalidTime : E
  untyped : E

/- The rest of the process, the selectors read ahead with the uses left, and a record of the
reads: what evaluation asked for, how many calls storage got, which requests fell back to samples. -/
structure Memory (E S G : Type) where
  rest : S
  prefetched : Dict Request (Except E G × Nat)
  asked : List Request
  calls : Nat
  fallbacks : List Request

abbrev Eval (E S G α : Type) := ExceptT E (StateM (Memory E S G)) α

section Evaluation
variable {N E S G V : Type} (c : Context) (ops : Operators N E S G V)

def act {α : Type} (f : S → Except E α × S) : Eval E S G α := fun m =>
  ((f m.rest).1,{ m with rest := (f m.rest).2 })

def readSelectors (requests : List Request) :
    Eval E S G {results : List (Except E G) // results.length = requests.length} := do
  act ops.scanBudget
  modify (fun m => { m with calls := m.calls + 1 })
  act (ops.query requests)

def take (d : Dict Request (Except E G × Nat)) (r : Request) : Dict Request (Except E G × Nat) :=
  match d.get? r with
  | some (_,1) => d.delete r
  | some (series,uses) => d.put r (series,uses - 1)
  | none => d

def readOne (r : Request) : Eval E S G G := do
  match (← readSelectors ops [r]).1 with
  | [series] => liftExcept series
  | _ => throw ops.untyped

def selectorSeries (r : Request) : Eval E S G G := do
  let prefetched := (← get).prefetched
  modify (fun m => { m with asked := m.asked ++ [r],prefetched := take prefetched r })
  match prefetched.get? r with
  | some (series,_) => liftExcept series
  | none => readOne ops r

/- Rollups that do not compose are answered from samples. -/
def evaluateSelected (groups : G) (r : Request) (selection : Selection V) : Eval E S G V := do
  match ← act (ops.selected groups selection) with
  | some v => pure v
  | none => do
    act ops.scanBudget
    modify (fun m => { m with fallbacks := m.fallbacks ++ [rawRequest r] })
    match (← act (ops.query [rawRequest r])).1 with
    | [series] => do act (ops.sampled (← liftExcept series) selection)
    | _ => throw ops.untyped

def select (matchers : List Matcher) (selection : Selection V) : Eval E S G V := do
  let r := selectorRequest c matchers selection.offset selection.window selection.steps selection.op.range
  if r.nonempty then do
    let groups ← selectorSeries ops r
    evaluateSelected ops groups r selection
  else pure ops.empty

/- An aggregation over one selector, or over a range function of one, folds its series as they come. -/
def fusedSource (inner : Expr N) : Option (List Matcher × Offset × Int × SelectOp V) :=
  match inner with
  | .selector matchers offset => some (matchers,offset,c.lookback,.latest)
  | .function op (.range matchers window offset) =>
    if op = .absentOverTime then none else some (matchers,offset,window.ns,.function op)
  | .call (.range op) [.range matchers window offset] =>
    if op = .absentOverTime then none else some (matchers,offset,window.ns,.function op)
  | _ => none

def fusedAggregate (expr : Expr N) (matchers : List Matcher) (selection : Selection V) : Eval E S G V := do
  let r := selectorRequest c matchers selection.offset selection.window selection.steps selection.op.range
  if r.nonempty then do
    let groups ← selectorSeries ops r
    match ← act (ops.folded expr groups selection) with
    | some v => pure v
    | none => do
      let v ← evaluateSelected ops groups r selection
      act (ops.node expr [v] selection.steps)
  else pure ops.empty

def grid (first : Int) (resolution : Duration) (count : Nat) : List Int :=
  (List.range count).map (fun (i : Nat) => first + i * resolution.ns)

/- A subquery: its inner expression on its own grid, resampled at the outer steps. -/
def overGrid (steps : Steps) (op : SelectOp V) (window resolution : Duration) (offset : Offset)
    (inner : Steps → Eval E S G V) : Eval E S G V :=
  let first := gridFirst c steps.first window resolution offset
  let last := gridLast c steps.last resolution offset
  let count := ((last - first).tdiv resolution.ns + 1).toNat
  if maxSteps < count then throw ops.stepLimit
  else if 0 < count ∧ ¬(timestamp first ∧ timestamp last) then throw ops.invalidTime
  else do
    act (ops.charge count)
    if filled : grid first resolution count ≠ [] then do
      let v ← inner ⟨grid first resolution count,filled⟩
      act (ops.resample v ⟨steps,offset,window.ns,op⟩)
    else pure ops.empty

-- absence is decided from the last samples
def ranged (op : RangeOp) (expr : Expr N) (steps : Steps) (v : V) : Eval E S G V :=
  if op = .absentOverTime then act (ops.node expr [v] steps) else pure v

def finished (held : Nat) (v : V) : Eval E S G V := do
  act (ops.hold held v)
  pure v

mutual
def evaluate (steps : Steps) (expr : Expr N) : Eval E S G V :=
  match expr with
  | .scalar value => pure (ops.literal (.scalar value) steps)
  | .string text => pure (ops.literal (.string text) steps)
  | .unary op inner => do
    let held := ops.held (← get).rest
    let v ← evaluate steps inner
    finished ops held (← act (ops.node (.unary op inner) [v] steps))
  | .binary op left right => do
    let held := ops.held (← get).rest
    let lhs ← evaluate steps left
    let rhs ← evaluate steps right
    finished ops held (← act (ops.node (.binary op left right) [lhs,rhs] steps))
  | .call .timestamp [.selector matchers offset] => do
    let held := ops.held (← get).rest
    finished ops held (← select c ops matchers ⟨steps,offset,c.lookback,.timestamp⟩)
  | .call .predictLinear [range,parameter] => do
    let held := ops.held (← get).rest
    let values ← evaluate steps parameter
    finished ops held (← evaluateRange steps (.predictLinear values) range)
  | .call .quantileOverTime [parameter,range] => do
    let held := ops.held (← get).rest
    let values ← evaluate steps parameter
    finished ops held (← evaluateRange steps (.quantileOverTime values) range)
  | .call .doubleExponentialSmoothing [range,smoothing,trend] => do
    let held := ops.held (← get).rest
    let factors ← evaluate steps smoothing
    let trends ← evaluate steps trend
    finished ops held (← evaluateRange steps (.smoothing factors trends) range)
  | .call .holtWinters [range,smoothing,trend] => do
    let held := ops.held (← get).rest
    let factors ← evaluate steps smoothing
    let trends ← evaluate steps trend
    finished ops held (← evaluateRange steps (.smoothing factors trends) range)
  | .call (.range op) [range] => do
    let held := ops.held (← get).rest
    let v ← evaluateRange steps (.function (tierOp op)) range
    finished ops held (← ranged ops op (.function op range) steps v)
  | .call name args => do
    let held := ops.held (← get).rest
    let values ← evaluateArgs steps args
    finished ops held (← act (ops.node (.call name args) values steps))
  | .parameterAggregate op parameter inner => do
    let held := ops.held (← get).rest
    let k ← evaluate steps parameter
    let vector ← evaluate steps inner
    finished ops held (← act (ops.node (.parameterAggregate op parameter inner) [k,vector] steps))
  | .aggregate op inner => do
    let held := ops.held (← get).rest
    match fusedSource c inner with
    | none => do
      let v ← evaluate steps inner
      finished ops held (← act (ops.node (.aggregate op inner) [v] steps))
    | some (matchers,offset,window,fop) =>
      finished ops held (← fusedAggregate c ops (.aggregate op inner) matchers ⟨steps,offset,window,fop⟩)
  | .selector matchers offset => do
    let held := ops.held (← get).rest
    finished ops held (← select c ops matchers ⟨steps,offset,c.lookback,.latest⟩)
  | .range matchers window offset => do
    let held := ops.held (← get).rest
    finished ops held (← select c ops matchers ⟨steps,offset,window.ns,.rawRange⟩)
  | .subquery inner window resolution offset => do
    let held := ops.held (← get).rest
    finished ops held (← overGrid c ops steps .rawRange window resolution offset (fun grid => evaluate grid inner))
  | .function op range => do
    let held := ops.held (← get).rest
    let v ← evaluateRange steps (.function (tierOp op)) range
    finished ops held (← ranged ops op (.function op range) steps v)

def evaluateRange (steps : Steps) (op : SelectOp V) (range : Expr N) : Eval E S G V :=
  match range with
  | .range matchers window offset => select c ops matchers ⟨steps,offset,window.ns,op⟩
  | .subquery inner window resolution offset =>
    overGrid c ops steps op window resolution offset (fun grid => evaluate grid inner)
  | _ => throw ops.untyped

def evaluateArgs (steps : Steps) (args : List (Expr N)) : Eval E S G (List V) :=
  match args with
  | [] => pure []
  | arg::args => do
    let v ← evaluate steps arg
    let rest ← evaluateArgs steps args
    pure (v::rest)
end

def loaded (steps : Steps) (expr : Expr N) : List Request :=
  (plan c steps.first steps.last [] expr).filter (fun r => r.hours = none && r.nonempty)

def prefetch (steps : Steps) (expr : Expr N) : Eval E S G Unit := do
  let planned := loaded c steps expr
  let requests := Lists.uniqBy id planned
  if requests = [] then pure ()
  else do
    let results ← readSelectors ops requests
    modify (fun m => { m with
      prefetched := Dict.ofList ((requests.zip results.1).map (fun (r,series) => (r,(series,planned.count r)))) })

def runQuery (steps : Steps) (expr : Expr N) (rest : S) : Except E V × Memory E S G :=
  (do prefetch c ops steps expr; evaluate c ops steps expr : Eval E S G V) ⟨rest,Dict.empty,[],0,[]⟩

end Evaluation

end Pulso.PromQL.Planning
