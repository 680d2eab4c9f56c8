import Pulso.AlertEvaluator

/-! The lifecycle of threshold instances: pending, firing, recovering, resolved. Timers are
absolute and advance only on successful evaluations. Number texts and their comparison are
parameters. -/
namespace Pulso.Alerting

structure Numbers (ν : Type) where
  parse : String → Option ν
  gt : ν → ν → Bool
  lt : ν → ν → Bool
  eq : ν → ν → Bool

inductive Comparison where
  | gt | lt | eq
  deriving DecidableEq, Repr

inductive NoDataPolicy where
  | keepLast | ok
  deriving DecidableEq, Repr

/-- The part of a threshold rule only its lifecycle reads. -/
structure Condition (ν : Type) where
  op : Comparison
  value : ν
  forMs : Nat
  keepFiringMs : Nat
  noData : NoDataPolicy

def Condition.compare {ν : Type} (numbers : Numbers ν) (condition : Condition ν) (number : ν) : Bool :=
  match condition.op with
  | .gt => numbers.gt number condition.value
  | .lt => numbers.lt number condition.value
  | .eq => numbers.eq number condition.value

structure Point (ν : Type) where
  labels : LabelSet
  value : String
  number : ν

namespace Lifecycle
variable {A ν : Type}

def maxInstances : Nat := 128

inductive Rejection where
  | invalidEvaluation | instanceLimit
  deriving DecidableEq, Repr

def alertLabels (rule : Rule) (labels : LabelSet) : LabelSet :=
  (rule.labels ∪ labels.erase "__name__").insert "alertname" rule.name

def point (encode : LabelSet → String) (numbers : Numbers ν) (rule : Rule) (acc : Dict String (Point ν))
    (row : Recording.Row) : Option (Dict String (Point ν)) := do
  let (labels,value) ← row
  if labels.valid then
    let number ← numbers.parse value
    let labels := alertLabels rule labels
    if labels.valid then
      if acc.has (encode labels) then none else some (acc.put (encode labels) ⟨labels,value,number⟩)
    else none
  else none

/-- What becomes of one instance, and the event it emits. -/
def advance (condition : Condition ν) (time : Int) (hit : Bool) (prior : Option Instance) (seen : Option (Point ν)) :
    Option Instance × Option (EventType × Instance) :=
  match prior,seen,hit with
  | none,some point,true =>
    let status : Status := if condition.forMs = 0 then .firing else .pending
    let next : Instance := {
      labels := point.labels
      value := point.value
      status := status
      pendingSince := time
      firingSince := if condition.forMs = 0 then some time else none
      holdUntil := none }
    (some next,some (if condition.forMs = 0 then .firing else .pending,next))
  | none,_,_ => (none,none)
  | some prior,seen,true =>
    let next := { prior with value := (seen.map Point.value).getD prior.value }
    if prior.status = .pending ∧ time-prior.pendingSince ≥ condition.forMs*1000000 then
      let next := { next with status := .firing, firingSince := some time }
      (some next,some (.firing,next))
    else if prior.status = .recovering then
      let next := { next with status := .firing, holdUntil := none }
      (some next,some (.retriggered,next))
    else (some next,none)
  | some prior,seen,false =>
    let prior := { prior with value := (seen.map Point.value).getD prior.value }
    if prior.status = .pending then (none,some (.resolved,prior))
    else if prior.status = .firing ∧ condition.keepFiringMs > 0 then
      let next := { prior with status := .recovering, holdUntil := some (time+condition.keepFiringMs*1000000) }
      (some next,some (.recovering,next))
    else if prior.status = .recovering ∧ time < prior.holdUntil.getD time then (some prior,none)
    else (none,some (.resolved,prior))

structure Setting (A : Type) where
  revision : Option A
  classification : List Capability
  actor : Actor
  time : Int

def event (setting : Setting A) (type : EventType) (held : Instance) : Draft A where
  type := type
  reason := none
  alert := some held
  health := none
  recording := none
  revision := setting.revision
  classification := setting.classification
  timestamp := setting.time
  actor := setting.actor

def stepInstance (numbers : Numbers ν) (condition : Condition ν) (setting : Setting A) (previous : Dict String Instance)
    (points : Dict String (Point ν)) (acc : Dict String Instance × List (Draft A)) (key : String) :
    Dict String Instance × List (Draft A) :=
  let seen := points.get? key
  let hit := (seen.map fun point => condition.compare numbers point.number).getD false
  let (next,emitted) := advance condition setting.time hit (previous.get? key) seen
  let instances := match next with
    | some next => acc.1.put key next
    | none => acc.1
  (instances,acc.2 ++ (emitted.map fun e => event setting e.1 e.2).toList)

def transition (numbers : Numbers ν) (condition : Condition ν) (setting : Setting A) (previous : Dict String Instance)
    (points : Dict String (Point ν)) : Except Rejection (Lifecycle A) :=
  let health : Health := if points.size = 0 then .noData else .ok
  if health = .noData ∧ condition.noData = .keepLast then .ok ⟨previous,[],health⟩
  else
    let keys := (Lists.uniqBy id (previous.keys ++ points.keys)).insertionSort (· ≤ ·)
    let (instances,events) := keys.foldl (stepInstance numbers condition setting previous points) (Dict.empty,[])
    if instances.size ≤ maxInstances then .ok ⟨instances,events,health⟩ else .error .instanceLimit

/-- `Lifecycle.step`: at most 128 samples with valid, distinct labels and number texts. -/
def step (encode : LabelSet → String) (numbers : Numbers ν) (rule : Rule) (condition : Condition ν) (setting : Setting A)
    (previous : Dict String Instance) (samples : List Recording.Row) : Except Rejection (Lifecycle A) :=
  if samples.length ≤ maxInstances then
    match samples.foldlM (point encode numbers rule) Dict.empty with
    | some points => transition numbers condition setting previous points
    | none => .error .invalidEvaluation
  else .error .invalidEvaluation

end Lifecycle
end Pulso.Alerting
