import Pulso.Dict

/-! A compiled TraceQL expression evaluated over one stored span, as the native codec does it. The span is
the raw JSON text of its members; how text is read is the reader's, for every reader. -/
namespace Pulso.TraceQL.Native

inductive Error
  | invalid | budget | groups | unknown
  deriving DecidableEq, Repr

abbrev Res (α : Type) := Except Error α
abbrev RawFields := List (String × String)
abbrev Owner := Dict String String

structure Reader where
  object : String → Res RawFields
  array : String → Res (List String)
  string : String → Res String
  integer : String → Res Int
  /- A text as a JSON string literal. -/
  quoted : String → String

def field (fields : RawFields) (name : String) : Res String :=
  match fields.filter (fun f => f.1 = name) with
  | [found] => .ok found.2
  | _ => .error .invalid

inductive Source
  | resource | span | none | event
  deriving DecidableEq, Repr

inductive Scope
  | intrinsic | text (source : Source) | int (source : Source)
  deriving DecidableEq, Repr

inductive Operator
  | eq | ne | lt | le | gt | ge | matches | unmatched
  deriving DecidableEq, Repr

structure Leaf where
  scope : Scope
  key : String
  op : Operator
  wanted : String
  regex : Option (String → Bool)

inductive Instruction
  | and
  | or
  | leaf (leaf : Leaf)

inductive Selection
  | resource | span | none | event | intrinsic
  deriving DecidableEq, Repr

structure Expression where
  spansets : List (List Instruction)
  select : List (Selection × String)
  events : Bool
  attributes : Bool
  size : Nat

structure Envelope where
  members : RawFields
  resource : Nat
  span : Nat

inductive Sampled
  | resource | span | event | intrinsic
  deriving DecidableEq, Repr

abbrev Attributes := Dict (String × Sampled) String

structure Evaluation where
  matched : Bool
  mask : UInt8
  attributes : Attributes

structure Owners where
  resource : Owner
  span : Owner
  events : List Owner

def workMax : Nat := 20000000

section
variable (reader : Reader)

def attributes (raw : String) : Res Owner := do
  let pairs ← reader.array raw
  pairs.foldlM (fun out raw => do
    let pair ← reader.object raw
    let key ← reader.string (← field pair "key")
    let value ← field pair "value"
    if out.has key then .error .invalid else .ok (out.put key value)) Dict.empty

def compare (left right : Int) : Operator → Bool
  | .eq => left = right
  | .ne => left ≠ right
  | .lt => left < right
  | .le => left ≤ right
  | .gt => right < left
  | .ge => right ≤ left
  | _ => false

def attributeMatches (raw : String) (text : Bool) (leaf : Leaf) : Res Bool := do
  let value ← reader.object raw
  if text then
    match field value "stringValue" with
    | .ok found => do
      let found ← reader.string found
      let positive := match leaf.regex with
        | some regex => regex found
        | none => found = leaf.wanted
      .ok (if leaf.op = .ne ∨ leaf.op = .unmatched then !positive else positive)
    | .error _ => .ok false
  else
    match field value "intValue" with
    | .ok found => do
      let found ← reader.integer (← reader.string found)
      let wanted ← reader.integer leaf.wanted
      .ok (compare found wanted leaf.op)
    | .error _ => .ok false

def statuses : List String := ["unset","ok","error"]
def kinds : List String := ["unspecified","internal","server","client","producer","consumer"]

def named (names : List String) (code : Int) : Res String :=
  match names[code.toNat]? with
  | some name => if code < 0 then .error .invalid else .ok name
  | none => .error .invalid

def stringValue (text : String) : String := "\x7b\"stringValue\":" ++ reader.quoted text ++ "\x7d"

def statusCode (fields : RawFields) : Res Int := do
  let status ← reader.object (← field fields "status")
  reader.integer (← field status "code")

def firstMatching (text : Bool) (leaf : Leaf) : List Owner → Res (Option String)
  | [] => .ok none
  | event::rest =>
    match event.get? leaf.key with
    | some raw => do
      if ← attributeMatches reader raw text leaf then .ok (some raw) else firstMatching text leaf rest
    | none => firstMatching text leaf rest

def sampleBoth (owners : Owners) (text : Bool) (leaf : Leaf) (attrs : Attributes) : Res Attributes :=
  [(Sampled.resource,owners.resource),(Sampled.span,owners.span)].foldlM (fun attrs owner =>
    match owner.2.get? leaf.key with
    | some raw => do
      if ← attributeMatches reader raw text leaf then .ok (attrs.put (leaf.key,owner.1) raw) else .ok attrs
    | none => .ok attrs) attrs

def ownValue (owner : Owner) (text : Bool) (leaf : Leaf) (collect : Bool) : Res (Bool × Option String) :=
  match owner.get? leaf.key with
  | none => .ok (false,none)
  | some raw => do
    let matched ← attributeMatches reader raw text leaf
    .ok (matched,if collect && matched then some raw else none)

/- What a leaf finds: whether it matches, the value to sample and its owner, and the samples taken on the way. -/
def evaluateLeaf (fields : RawFields) (owners : Owners) (leaf : Leaf) (attrs : Option Attributes) :
    Res (Bool × Option String × Sampled × Option Attributes) :=
  let collect := attrs.isSome
  let owned (text : Bool) : Source → Res (Bool × Option String × Sampled × Option Attributes)
    | .event => do
      let found ← firstMatching reader text leaf owners.events
      .ok (found.isSome,if collect then found else none,.event,attrs)
    | .none => do
      let attrs ← match attrs with
        | some attrs => (sampleBoth reader owners text leaf attrs).map some
        | none => .ok none
      let matched ← match (owners.span.get? leaf.key).or (owners.resource.get? leaf.key) with
        | some raw => attributeMatches reader raw text leaf
        | none => .ok false
      .ok (matched,none,.span,attrs)
    | .resource => do
      let (matched,value) ← ownValue reader owners.resource text leaf collect
      .ok (matched,value,.resource,attrs)
    | .span => do
      let (matched,value) ← ownValue reader owners.span text leaf collect
      .ok (matched,value,.span,attrs)
  match leaf.scope with
  | .intrinsic => do
    let n ← if leaf.key = "status" then statusCode reader fields
      else do
        let finish ← reader.integer (← field fields "end_timestamp_ns")
        let start ← reader.integer (← field fields "timestamp_ns")
        .ok (finish - start)
    let value ← if collect && leaf.key = "status" then do
        let status ← named statuses n
        .ok (some ("\x7b\"stringValue\":\"" ++ status ++ "\"\x7d"))
      else .ok none
    .ok (compare n (← reader.integer leaf.wanted) leaf.op,value,.intrinsic,attrs)
  | .text source => owned true source
  | .int source => owned false source

def runStep (fields : RawFields) (owners : Owners) (state : List Bool × Option Attributes) :
    Instruction → Res (List Bool × Option Attributes)
  | .and => match state with
    | (rhs::lhs::stack,attrs) => .ok ((lhs && rhs)::stack,attrs)
    | _ => .error .invalid
  | .or => match state with
    | (rhs::lhs::stack,attrs) => .ok ((lhs || rhs)::stack,attrs)
    | _ => .error .invalid
  | .leaf leaf => do
    let (matched,value,owner,attrs) ← evaluateLeaf reader fields owners leaf state.2
    let attrs := match matched,value,attrs with
      | true,some value,some attrs => some (attrs.put (leaf.key,owner) value)
      | _,_,attrs => attrs
    .ok (matched::state.1,attrs)

def run (program : List Instruction) (fields : RawFields) (owners : Owners) (attrs : Option Attributes) :
    Res (Bool × Option Attributes) := do
  let (stack,attrs) ← program.foldlM (runStep reader fields owners) ([],attrs)
  match stack with
  | top::_ => .ok (top,attrs)
  | [] => .error .invalid

def select (fields : RawFields) (owners : Owners) (key : String) : Selection → Res (Option (Sampled × String))
  | .resource => .ok ((owners.resource.get? key).map (fun raw => (.resource,raw)))
  | .span => .ok ((owners.span.get? key).map (fun raw => (.span,raw)))
  | .none => .ok (match owners.span.get? key with
    | some raw => some (.span,raw)
    | none => (owners.resource.get? key).map (fun raw => (.resource,raw)))
  | .event => .ok ((owners.events.findSome? (fun event => event.get? key)).map (fun raw => (.event,raw)))
  | .intrinsic => do
    let value ← match key with
      | "name" => do reader.string (← field fields "name")
      | "status" => do named statuses (← statusCode reader fields)
      | _ => do named kinds (← reader.integer (← field fields "kind"))
    .ok (some (.intrinsic,stringValue reader value))

end

variable (reader : Reader)

/- The owners a program reads and what it is charged for them, before any limit is looked at. -/
def prepare (expression : Expression) (fields : RawFields) (envelope : Option Envelope) : Res (Owners × Nat) := do
  let parsed ← match envelope with
    | some envelope => .ok envelope.members
    | none => do reader.object (← field fields "otlp")
  let (resource,span,owned) ← match envelope,expression.attributes with
    | some envelope,false => .ok (Dict.empty,Dict.empty,envelope.resource + envelope.span)
    | _,_ => do
      let resource ← attributes reader (← field parsed "resource")
      let span ← attributes reader (← field parsed "attributes")
      .ok (resource,span,resource.size + span.size)
  let units := 2 + owned + expression.size
  if expression.events then do
    let raws ← reader.array (← field parsed "events")
    let events ← raws.mapM (attributes reader)
    .ok (⟨resource,span,events⟩,units + (events.map (fun owner => 1 + owner.size)).sum)
  else .ok (⟨resource,span,[]⟩,units)

def evaluateSpansets (expression : Expression) (fields : RawFields) (owners : Owners) (collect : Bool) :
    Res (UInt8 × Attributes) := do
  let last := expression.spansets.length - 1
  expression.spansets.zipIdx.foldlM (fun (mask,attrs) (program,i) => do
    let sink := if collect && i = last then some attrs else none
    let (matched,sink) ← run reader program fields owners sink
    .ok (if matched then mask ||| (1 <<< UInt8.ofNat i) else mask,sink.getD attrs)) (0,Dict.empty)

def collectSelected (expression : Expression) (fields : RawFields) (owners : Owners) (attrs : Attributes) : Res Attributes :=
  expression.select.foldlM (fun attrs entry => do
    match ← select reader fields owners entry.2 entry.1 with
    | some (owner,value) => .ok (if attrs.has (entry.2,owner) then attrs else attrs.put (entry.2,owner) value)
    | none => .ok attrs) attrs

def finishEvaluation (expression : Expression) (fields : RawFields) (owners : Owners) (collect : Bool) : Res Evaluation := do
  let last := expression.spansets.length - 1
  let (mask,attrs) ← evaluateSpansets reader expression fields owners collect
  let attrs ← if collect then collectSelected reader expression fields owners attrs else .ok attrs
  .ok ⟨mask &&& (1 <<< UInt8.ofNat last) ≠ 0,mask,attrs⟩

/- The work counter is the caller's and keeps what was charged, also when the charge passes the ceiling. -/
def evaluateWith (expression : Expression) (fields : RawFields) (envelope : Option Envelope) (work : Nat)
    (collect : Bool) : Res Evaluation × Nat :=
  match prepare reader expression fields envelope with
  | .error e => (.error e,work)
  | .ok (owners,units) =>
    if workMax < work + units then (.error .budget,work + units)
    else (finishEvaluation reader expression fields owners collect,work + units)

end Pulso.TraceQL.Native
