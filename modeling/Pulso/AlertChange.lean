import Pulso.AlertHead

/-! Rule changes: the precondition on the expected revision, the revision snapshot, and the
head that commits it together with the resolved alerts and the retired series of the old rule. -/
namespace Pulso.Alerting
variable {A : Type}

structure Call (A : Type) where
  principal : Principal
  action : Action
  rule : Rule
  operationId : String
  reason : String
  expected : Option A
  restoredFrom : Option A
  deriving DecidableEq

def Call.request (call : Call A) : Request A where
  action := call.action
  principal := call.principal.id
  rule := if call.action = .delete then none else some call.rule
  expected := call.expected
  operationId := call.operationId
  reason := call.reason
  restoredFrom := call.restoredFrom

def Call.actor (call : Call A) : Actor := ⟨call.principal.id,call.principal.type⟩

def mutationState (old : Option (Head A)) (action : Action) : Except Reason Unit :=
  match old.map Head.state, action with
  | none, .create => .ok ()
  | none, _ => .error .notFound
  | some .deleted, .create | some .deleted, .restore => .ok ()
  | some .deleted, _ => .error .notFound
  | some _, .create => .error .conflict
  | some _, _ => .ok ()

def mutationPrecondition [DecidableEq A] (old : Option (Head A)) (action : Action)
    (expected : Option A) : Except Reason Unit :=
  if expected = old.bind Head.revision then mutationState old action else .error .conflict

/-- `Targets.bind` against the node's configuration, the secret of each provisioned target. -/
def bind (targets : String → Option String) (ids : List String) : Except Reason (List Target) :=
  if ids.length ≤ 8 then
    ids.mapM fun id => match targets id with
      | some secret => .ok ⟨id,secret⟩
      | none => .error .invalidTarget
  else .error .invalidTarget

def bindTargets (targets : String → Option String) (call : Call A) (old : Option (Head A)) :
    Except Reason (List Target) :=
  match call.action, old with
  | .delete, some head => .ok head.notificationTargets
  | _, _ => bind targets call.rule.notificationTargets

theorem bindTargetsError {targets call} {old : Option (Head A)}
    {reason : Reason} (error : bindTargets targets call old = .error reason) : reason = .invalidTarget := by
  unfold bindTargets at error
  split at error
  · contradiction
  unfold bind at error
  split at error
  · refine Lists.mapMError (P := (· = .invalidTarget)) ?_ error
    intro id reason failed
    split at failed
    · contradiction
    · exact (Except.error.inj failed).symm
  · exact (Except.error.inj error).symm

def nextGeneration (old : Option (Head A)) (action : Action) (fresh : Nat) : Nat :=
  match old, action with
  | _, .create => fresh
  | none, _ => fresh
  | some head, .restore => if head.state = .deleted then fresh else head.generation
  | some head, _ => head.generation

def changeSnapshot (call : Call A) (head : Head A) (generation : Nat) (targets : List Target)
    (publicationTime : Int) : Snapshot A where
  generation := generation
  parent := head.revision
  changeSeq := head.changeSeq+1
  rule := call.rule
  notificationTargets := targets
  state := ruleState call.action call.rule
  classification := call.rule.classification
  changeClassification := (head.classification ++ call.rule.classification).eraseDups
  actor := call.actor
  reason := call.reason
  operationId := call.operationId
  requestDigest := requestDigest call.request targets
  restoredFrom := call.restoredFrom
  publicationTime := publicationTime

def resetEvents (head : Head A) (action : Action) (actor : Actor) (timestamp : Int) : List (Draft A) :=
  (head.instances.entries.insertionSort (fun a b => a.1 ≤ b.1)).map fun entry =>
    { type := .resolved
      reason := some action
      alert := some entry.2
      health := none
      recording := none
      revision := head.revision
      classification := head.classification
      timestamp := timestamp
      actor := actor }

def changedHead (head : Head A) (snapshot : Snapshot A) (ref : A) : Head A :=
  { head with
    generation := snapshot.generation
    revision := some ref
    state := snapshot.state
    classification := snapshot.classification
    changeSeq := snapshot.changeSeq
    instances := Dict.empty
    health := .unknown
    evaluationRevision := none
    operations := (⟨snapshot.operationId,snapshot.requestDigest,ref⟩ :: head.operations).take receiptLimit
    notificationTargets := snapshot.notificationTargets
    recordingRules := if snapshot.rule.kind = .promqlRecordingGroup then some [] else none }

/-- The inputs of a publication besides the call and the head: the node's target bindings, the
random generation and the readings of its clocks. -/
structure Surroundings where
  targets : String → Option String
  generation : Nat
  publicationTime : Int
  eventTime : Int
  clock : Int

/-- The revision and the head `publish_change` writes over the head it loaded. -/
def publishChange [DecidableEq A] (codec : Codec A) (address : Snapshot A → A) (call : Call A)
    (old : Option (Head A)) (node : Surroundings) : Except Reason (Snapshot A × Head A) := do
  mutationPrecondition old call.action call.expected
  let targets ← bindTargets node.targets call old
  let generation := nextGeneration old call.action node.generation
  let head := old.getD (Head.empty generation)
  let snapshot := changeSnapshot call head generation targets node.publicationTime
  let head ← appendEvents head (resetEvents head call.action snapshot.actor node.eventTime)
  let head ← retireRecording codec head node.clock
  return (snapshot,changedHead head snapshot (address snapshot))

def changeBase (call : Call A) (old : Option (Head A)) (node : Surroundings) : Head A :=
  old.getD (Head.empty (nextGeneration old call.action node.generation))

structure Published [DecidableEq A] (codec : Codec A) (address : Snapshot A → A) (call : Call A)
    (old : Option (Head A)) (node : Surroundings) (snapshot : Snapshot A) (next : Head A)
    (targets : List Target) (logged retired : Head A) : Prop where
  precondition : mutationPrecondition old call.action call.expected = .ok ()
  bound : bindTargets node.targets call old = .ok targets
  revised : snapshot = changeSnapshot call (changeBase call old node)
    (nextGeneration old call.action node.generation) targets node.publicationTime
  appended : appendEvents (changeBase call old node)
    (resetEvents (changeBase call old node) call.action call.actor node.eventTime) = .ok logged
  retiring : retireRecording codec logged node.clock = .ok retired
  replaced : next = changedHead retired snapshot (address snapshot)

theorem publishChangeCases [DecidableEq A] {codec address call old node snapshot} {next : Head A}
    (ok : publishChange codec address call old node = .ok (snapshot,next)) :
    ∃ targets logged retired, Published codec address call old node snapshot next targets logged retired := by
  obtain ⟨_,precondition,ok⟩ := Results.bindOk ok
  obtain ⟨targets,bound,ok⟩ := Results.bindOk ok
  obtain ⟨logged,appended,ok⟩ := Results.bindOk ok
  obtain ⟨retired,retiring,ok⟩ := Results.bindOk ok
  cases ok
  exact ⟨targets,logged,retired,precondition,bound,rfl,appended,retiring,rfl⟩

inductive Write (A : Type) where
  | change (call : Call A) (node : Surroundings)
  | checkpoint (evaluation : Evaluation A)
  | ackRecording (ref : Queued A) (progress : Progress A) (event : Option (Draft A))
  | recordingFailed (ref : Queued A) (reason : String)

def written [DecidableEq A] (codec : Codec A) (address : Snapshot A → A) (old : Option (Head A)) :
    Write A → Option (Head A)
  | .change call node => (publishChange codec address call old node).toOption.map Prod.snd
  | .checkpoint evaluation => old.bind fun head => (checkpoint codec head evaluation).toOption
  | .ackRecording ref progress event =>
    old.bind fun head => (ackRecording head ref progress event).toOption.join
  | .recordingFailed ref reason => old.bind fun head => recordingFailed head ref reason

theorem writtenCases [DecidableEq A] {codec address old write}
    {next : Head A} (ok : written codec address old write = some next) : match write with
      | .change call node => ∃ snapshot, publishChange codec address call old node = .ok (snapshot,next)
      | .checkpoint evaluation => ∃ head, old = some head ∧ checkpoint codec head evaluation = .ok next
      | .ackRecording ref progress event => ∃ head, old = some head ∧ ackRecording head ref progress event = .ok (some next)
      | .recordingFailed ref reason => ∃ head, old = some head ∧ recordingFailed head ref reason = some next := by
  cases write with
  | change call node =>
    obtain ⟨⟨snapshot,_⟩,published,rfl⟩ := Option.map_eq_some_iff.mp ok
    exact ⟨snapshot,Results.okOf published⟩
  | checkpoint evaluation =>
    obtain ⟨head,held,done⟩ := Option.bind_eq_some_iff.mp ok
    exact ⟨head,held,Results.okOf done⟩
  | ackRecording ref progress event =>
    obtain ⟨head,held,done⟩ := Option.bind_eq_some_iff.mp ok
    exact ⟨head,held,Results.okOf (Option.join_eq_some_iff.mp done)⟩
  | recordingFailed ref reason => exact Option.bind_eq_some_iff.mp ok

def committedBy [DecidableEq A] (old : Option (Head A)) : Write A → List (Event A)
  | .change call node =>
    let head := changeBase call old node
    stamped head (resetEvents head call.action call.actor node.eventTime)
  | .checkpoint evaluation => match old with
    | some head => stamped head evaluation.events
    | none => []
  | .ackRecording _ _ event => match old with
    | some head => stamped head event.toList
    | none => []
  | .recordingFailed _ _ => []

end Pulso.Alerting
