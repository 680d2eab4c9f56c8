import Pulso.AlertOutbox

/-! Calls of `Repository.change` for one rule, from any number of clients and nodes, interleaved
with each other and with every other write of the head. Any object write may land although it
reported an error. An ETag stands for the content it was read with; revision objects never
change, so a walk over them is one step after the head read it starts from. -/
namespace Pulso.Alerting
variable {A : Type}

abbrev Answer (A : Type) := Except Reason (Snapshot A × A)

def findReceipt (head : Head A) (operation : String) : Option (Receipt A) :=
  head.operations.find? (·.operationId = operation)

section Ancestry
variable [DecidableEq A]

/-- `digest` gives the request digest under the bindings of a snapshot; after a failed
publication it is the digest the call computed itself, whatever the snapshot binds. -/
def uniqueChild (snapshot : Snapshot A) (ref : A) (operation : String)
    (digest : List Target → RequestDigest A) : Answer A :=
  if snapshot.operationId = operation then
    if snapshot.requestDigest = digest snapshot.notificationTargets then .ok (snapshot,ref)
    else .error .operationReused
  else .error .conflict

def resolveAncestry (objects : A → Option (Snapshot A)) (expected : Option A) (operation : String)
    (digest : List Target → RequestDigest A) : Nat → A → Answer A
  | 0, _ => .error .ambiguousOperation
  | budget+1, ref => match objects ref with
    | none => .error .ambiguousOperation
    | some snapshot =>
      if snapshot.parent = expected then uniqueChild snapshot ref operation digest
      else match snapshot.parent with
        | none => .error .conflict
        | some parent => resolveAncestry objects expected operation digest budget parent

def authorizeOld (principal : Principal) (old : Option (Head A)) : Bool :=
  match old with
  | none => true
  | some head =>
    let classification := if head.recordingSeries ≠ [] ∨ head.recordingQueue ≠ []
      then .record :: head.classification else head.classification
    authorize principal .rulesWrite classification

/-- What `change` makes of the head it loaded: an answer, or `none` when it goes on to publish. -/
def decideChange (objects : A → Option (Snapshot A)) (call : Call A) (old : Option (Head A)) : Option (Answer A) :=
  if ¬(authorize call.principal .rulesWrite call.rule.classification && authorizeOld call.principal old) then
    some (.error .forbidden)
  else match old.bind (findReceipt · call.operationId) with
    | some receipt => match objects receipt.revision with
      | none => some (.error .notFound)
      | some snapshot =>
        if requestDigest call.request snapshot.notificationTargets = receipt.requestDigest then
          some (.ok (snapshot,receipt.revision))
        else some (.error .operationReused)
    | none =>
      if old.isSome ∧ call.expected ≠ old.bind Head.revision then
        some ((old.bind Head.revision).elim (.error .ambiguousOperation)
          (resolveAncestry objects call.expected call.operationId (requestDigest call.request) receiptLimit))
      else match mutationPrecondition old call.action call.expected with
        | .error reason => some (.error reason)
        | .ok () => none

/-- `recover`: the answer after a head write that was not confirmed. -/
def recoverChange (objects : A → Option (Snapshot A)) (call : Call A) (digest : RequestDigest A)
    (current : Option (Head A)) : Answer A :=
  match current with
  | none => .error .ambiguousOperation
  | some head => match findReceipt head call.operationId with
    | some receipt =>
      if receipt.requestDigest = digest then
        match objects receipt.revision with
        | some snapshot => .ok (snapshot,receipt.revision)
        | none => .error .notFound
      else .error .operationReused
    | none => head.revision.elim (.error .ambiguousOperation)
        (resolveAncestry objects call.expected call.operationId (fun _ => digest) receiptLimit)

end Ancestry

/-- A call between two of its requests. `publishing` has its revision object stored. -/
inductive Progressing (A : Type) where
  | idle
  | loaded (call : Call A) (old : Option (Head A))
  | publishing (call : Call A) (old : Option (Head A)) (snapshot : Snapshot A) (next : Head A)
  | unconfirmed (call : Call A) (snapshot : Snapshot A) (next : Head A)
  | recovering (call : Call A) (digest : RequestDigest A)

namespace Repository

/-- `history` records the committed revisions, newest first; `objects` the stored ones. -/
structure State (A : Type) where
  head : Option (Head A)
  objects : List (Snapshot A)
  history : List (Snapshot A)
  calls : Nat → Progressing A

def start : State A := ⟨none,[],[],fun _ => .idle⟩

inductive Act (A : Type) where
  | call (id : Nat) (call : Call A)
  | prepare (id : Nat) (node : Surroundings) (lands othersStored : Bool)
  | write (id : Nat) (lands reported : Bool)
  | confirm (id : Nat)
  | recover (id : Nat)
  | crash (id : Nat)
  | checkpoint (evaluation : Evaluation A)
  | ackRecording (ref : Queued A) (progress : Progress A) (event : Option (Draft A))
  | recordingFailed (ref : Queued A) (reason : String)
  | claim (version : Target) (nonce : Nat) (now : Int)
  | ack (version : Target) (nonce : Nat)

section Steps
variable [DecidableEq A] (codec : Codec A) (address : Snapshot A → A)

def State.setCall (s : State A) (id : Nat) (progress : Progressing A) : State A :=
  { s with calls := Function.update s.calls id progress }

def State.object (s : State A) (ref : A) : Option (Snapshot A) :=
  s.objects.find? (fun snapshot => address snapshot = ref)

/-- Other writers of the head; none of them touches the revision or the receipts. -/
def otherWrite (head : Head A) : Act A → Option (Head A)
  | .checkpoint evaluation => (Alerting.checkpoint codec head evaluation).toOption
  | .ackRecording ref progress event => (Alerting.ackRecording head ref progress event).toOption.join
  | .recordingFailed ref reason => Alerting.recordingFailed head ref reason
  | .claim version nonce now => (updateOutbox head version (Notifier.claim nonce now)).toOption.map Prod.snd
  | .ack version nonce => (updateOutbox head version (Notifier.ack nonce)).toOption.map Prod.snd
  | _ => none

def step (s : State A) (act : Act A) : State A × Option (Call A × Answer A) :=
  match act with
  | .call id call => match s.calls id with
    | .idle => match decideChange (s.object address) call s.head with
      | some answer => (s,some (call,answer))
      | none => (s.setCall id (.loaded call s.head),none)
    | _ => (s,none)
  -- a put that failed is read back, so only the stored object counts
  | .prepare id node lands othersStored => match s.calls id with
    | .loaded call old => match publishChange codec address call old node with
      | .error reason => (s.setCall id .idle,some (call,.error reason))
      | .ok (snapshot,next) =>
        let s := if lands then { s with objects := s.objects ++ [snapshot] } else s
        if snapshot ∈ s.objects ∧ othersStored then
          (s.setCall id (.publishing call old snapshot next),none)
        else (s.setCall id .idle,some (call,.error .ambiguousObjectWrite))
    | _ => (s,none)
  | .write id lands reported => match s.calls id with
    | .publishing call old snapshot next =>
      if maxObjectBytes < codec.headBytes next then
        (s.setCall id (.recovering call snapshot.requestDigest),none)
      else if lands ∧ s.head = old then
        let s := { s with head := some next, history := snapshot :: s.history }
        if reported then (s.setCall id .idle,some (call,.ok (snapshot,address snapshot)))
        else (s.setCall id (.unconfirmed call snapshot next),none)
      else (s.setCall id (.unconfirmed call snapshot next),none)
    | _ => (s,none)
  | .confirm id => match s.calls id with
    | .unconfirmed call snapshot next =>
      if s.head = some next then (s.setCall id .idle,some (call,.ok (snapshot,address snapshot)))
      else (s.setCall id (.recovering call snapshot.requestDigest),none)
    | _ => (s,none)
  | .recover id => match s.calls id with
    | .recovering call digest =>
      (s.setCall id .idle,some (call,recoverChange (s.object address) call digest s.head))
    | _ => (s,none)
  | .crash id => (s.setCall id .idle,none)
  | other => ({ s with head := s.head.map fun head => (otherWrite codec head other).getD head },none)

def run (s : State A) (acts : List (Act A)) : State A := acts.foldl (fun s act => (step codec address s act).1) s

end Steps
end Repository
end Pulso.Alerting
