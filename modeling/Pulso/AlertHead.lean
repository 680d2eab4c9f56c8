import Pulso.AlertRecording
import Pulso.Dict
import Pulso.Lists

/-! The head of one alert rule and every write that replaces it: checkpoints of evaluations,
rule changes, acknowledgements of recordings, claims and acknowledgements of notifications.
Immutable objects are named by the digest of their content. An event, an intent or a history
page therefore stands for its own reference; only revisions, which name their parent, keep an
abstract address. -/
namespace Pulso.Alerting

inductive Status where
  | pending | firing | recovering
  deriving DecidableEq, Repr

structure Instance where
  labels : LabelSet
  value : String
  status : Status
  pendingSince : Int
  firingSince : Option Int
  holdUntil : Option Int
  deriving DecidableEq

inductive Health where
  | unknown | ok | noData | error
  deriving DecidableEq, Repr

inductive EventType where
  | pending | firing | recovering | retriggered | resolved | healthChanged | recordingExpired
  deriving DecidableEq, Repr

structure Actor where
  id : String
  type : PrincipalType
  deriving DecidableEq, Repr

structure Intent (A : Type) where
  timestamp : Int
  samples : List Sample
  generation : Nat
  revision : Option A
  deriving DecidableEq

/-- An intent as the queue refers to it: carried by the head, or an object of its own. -/
structure Queued (A : Type) where
  intent : Intent A
  inline : Bool
  deriving DecidableEq

structure Draft (A : Type) where
  type : EventType
  reason : Option Action
  alert : Option Instance
  health : Option Health
  recording : Option (Queued A)
  revision : Option A
  classification : List Capability
  timestamp : Int
  actor : Actor
  deriving DecidableEq

structure Event (A : Type) extends Draft A where
  generation : Nat
  sequence : Nat
  notificationTargets : List Target
  deriving DecidableEq

structure Page (A : Type) where
  first : Nat
  last : Nat
  events : List (Event A)
  deriving DecidableEq

structure Claim (A : Type) where
  nonce : Nat
  expires : Int
  event : Event A
  deriving DecidableEq

structure Box (A : Type) where
  target : Target
  queue : List (Event A)
  claim : Option (Claim A)
  deriving DecidableEq

structure Request (A : Type) where
  action : Action
  principal : String
  rule : Option Rule
  expected : Option A
  operationId : String
  reason : String
  restoredFrom : Option A
  deriving DecidableEq

structure RequestDigest (A : Type) where
  request : Request A
  targets : List Target
  deriving DecidableEq

/-- Deletes drop the bindings from the digest, so that a replay does not depend on them. -/
def requestDigest {A : Type} (request : Request A) (targets : List Target) : RequestDigest A :=
  ⟨request,if request.action = .delete then [] else targets⟩

structure Receipt (A : Type) where
  operationId : String
  requestDigest : RequestDigest A
  revision : A
  deriving DecidableEq

structure Snapshot (A : Type) where
  generation : Nat
  parent : Option A
  changeSeq : Nat
  rule : Rule
  notificationTargets : List Target
  state : RuleState
  classification : List Capability
  changeClassification : List Capability
  actor : Actor
  reason : String
  operationId : String
  requestDigest : RequestDigest A
  restoredFrom : Option A
  publicationTime : Int
  deriving DecidableEq

structure Progress (A : Type) where
  expired : Bool
  intent : Intent A
  deriving DecidableEq

structure Head (A : Type) where
  generation : Nat
  revision : Option A
  state : RuleState
  classification : List Capability
  changeSeq : Nat
  completedAt : Int
  instances : Dict String Instance
  health : Health
  evaluationRevision : Option A
  eventSeq : Nat
  historyFloor : Nat
  tail : List (Nat × Event A)
  pages : List (Page A)
  operations : List (Receipt A)
  notificationTargets : List Target
  outboxes : Dict Target (Box A)
  recordingQueue : List (Queued A)
  recordingSeries : List LabelSet
  recordingFence : Int
  recordingRules : Option (List (String × Recording.MemberHealth))
  recordingLast : Option (Progress A)
  recordingError : Option (Intent A × String)
  deriving DecidableEq

def tailLimit : Nat := 64
def pageLimit : Nat := 32
def receiptLimit : Nat := 128
def queueLimit : Nat := 64
def boxLimit : Nat := 16
def maxObjectBytes : Nat := 1048576
def inlineLimit : Nat := 131072

structure Codec (A : Type) extends RecordingCodec where
  intentBytes : Intent A → Nat
  headBytes : Head A → Nat

namespace Head
variable {A : Type}

def empty (generation : Nat) : Head A where
  generation := generation
  revision := none
  state := .disabled
  classification := []
  changeSeq := 0
  completedAt := -1
  instances := Dict.empty
  health := .unknown
  evaluationRevision := none
  eventSeq := 0
  historyFloor := 1
  tail := []
  pages := []
  operations := []
  notificationTargets := []
  outboxes := Dict.empty
  recordingQueue := []
  recordingSeries := []
  recordingFence := -1
  recordingRules := none
  recordingLast := none
  recordingError := none

def stamp (head : Head A) (draft : Draft A) : Event A :=
  { draft with
    generation := head.generation
    sequence := head.eventSeq+1
    notificationTargets := head.notificationTargets }

end Head

def Draft.deliverable {A : Type} (draft : Draft A) : Bool :=
  match draft.type, draft.alert with
  | .firing, _ | .retriggered, _ => true
  | .resolved, some held => held.status = .firing || held.status = .recovering
  | _, _ => false

section Writes
variable {A : Type}

def enqueueTarget (event : Event A) (boxes : Dict Target (Box A)) (target : Target) :
    Except Reason (Dict Target (Box A)) :=
  let box := (boxes.get? target).getD ⟨target,[],none⟩
  if box.queue.length < queueLimit ∧ (boxes.has target ∨ boxes.size < boxLimit) then
    .ok (boxes.put target { box with queue := box.queue ++ [event] })
  else .error .notificationBacklog

def enqueueNotification (head : Head A) (event : Event A) : Except Reason (Head A) :=
  if event.deliverable then
    (event.notificationTargets.foldlM (enqueueTarget event) head.outboxes).map fun boxes =>
      { head with outboxes := boxes }
  else .ok head

/-- A full tail becomes a history page; only the newest pages are kept. -/
def sealTail (head : Head A) : Head A :=
  if head.tail.length < tailLimit then head
  else
    let page : Page A := {
      first := (head.tail.head?.map Prod.fst).getD 0
      last := (head.tail.getLast?.map Prod.fst).getD 0
      events := head.tail.map Prod.snd }
    let pages := (head.pages ++ [page]).drop (head.pages.length+1-pageLimit)
    { head with
      tail := []
      pages := pages
      historyFloor := (pages.head?.map Page.first).getD 0 }

def appendEvent (head : Head A) (draft : Draft A) : Except Reason (Head A) :=
  let event := head.stamp draft
  let logged := { head with
    eventSeq := head.eventSeq+1
    tail := head.tail ++ [(head.eventSeq+1,event)] }
  (enqueueNotification logged event).map sealTail

def appendEvents (head : Head A) (drafts : List (Draft A)) : Except Reason (Head A) :=
  drafts.foldlM appendEvent head

def stamped (head : Head A) : List (Draft A) → List (Event A)
  | [] => []
  | draft :: drafts => head.stamp draft :: stamped { head with eventSeq := head.eventSeq+1 } drafts

variable (codec : Codec A)

def inlineBytes (queue : List (Queued A)) : Nat :=
  ((queue.filter Queued.inline).map (fun entry => codec.intentBytes entry.intent)).sum

def enqueueRecording (head : Head A) (result : Option Recording.Result) : Except Reason (Head A) :=
  match result with
  | none => .ok head
  | some result =>
    let head := { head with
      recordingSeries := result.nextSeries
      recordingRules := result.ruleHealth.orElse fun _ => head.recordingRules }
    let intent : Intent A := ⟨result.timestamp,result.samples,head.generation,head.revision⟩
    if result.samples = [] then .ok head
    else if queueLimit ≤ head.recordingQueue.length then .error .recordingBacklog
    else if maxObjectBytes < codec.intentBytes intent then .error .invalidRecordingResult
    else
      -- a small group intent rides in the head write that commits it
      let inline := head.recordingRules.isSome &&
        decide (inlineBytes codec head.recordingQueue + codec.intentBytes intent ≤ inlineLimit)
      .ok { head with recordingQueue := head.recordingQueue ++ [⟨intent,inline⟩] }

structure Evaluation (A : Type) where
  revision : A
  timestamp : Int
  instances : Dict String Instance
  health : Health
  events : List (Draft A)
  recording : Option Recording.Result

def checkpoint [DecidableEq A] (head : Head A) (evaluation : Evaluation A) : Except Reason (Head A) :=
  if head.revision ≠ some evaluation.revision then .error .conflict
  else if head.state ≠ .active then .error .ruleDisabled
  else if evaluation.timestamp ≤ head.completedAt then .error .staleEvaluation
  else (appendEvents head evaluation.events).bind fun next =>
    (enqueueRecording codec next evaluation.recording).map fun next =>
      { next with
        completedAt := evaluation.timestamp
        instances := evaluation.instances
        health := evaluation.health
        evaluationRevision := some evaluation.revision }

def retireRecording (head : Head A) (clock : Int) : Except Reason (Head A) :=
  match head.recordingSeries with
  | [] => .ok head
  | series =>
    let timestamp := max clock (head.completedAt+1)
    enqueueRecording codec { head with recordingFence := timestamp } (some (Recording.retirement series timestamp))

/-- `none` when there is nothing to write: the result was acknowledged by somebody else. -/
def ackRecording [DecidableEq A] (head : Head A) (ref : Queued A) (progress : Progress A)
    (event : Option (Draft A)) : Except Reason (Option (Head A)) :=
  match head.recordingQueue with
  | first :: rest =>
    if first = ref then
      (appendEvents head event.toList).map fun next =>
        some { next with recordingQueue := rest, recordingLast := some progress, recordingError := none }
    else if ref ∈ rest then .error .recordingConflict
    else .ok none
  | [] => .ok none

def recordingFailed [DecidableEq A] (head : Head A) (ref : Queued A) (reason : String) : Option (Head A) :=
  if head.recordingQueue.head? = some ref ∧ head.recordingError ≠ some (ref.intent,reason) then
    some { head with recordingError := some (ref.intent,reason) }
  else none

def updateOutbox (head : Head A) (version : Target) (update : Box A → Except Reason (Box A)) :
    Except Reason (Box A × Head A) :=
  match head.outboxes.get? version with
  | none => .error .notFound
  | some box => (update box).map fun next =>
    let boxes := if next.queue = [] ∧ next.claim = none then head.outboxes.delete version
      else head.outboxes.put version next
    (next,{ head with outboxes := boxes })

/-! Frames: what each write leaves alone. -/

variable {codec} {head next : Head A}

theorem enqueueNotificationFrame {event}
    (ok : enqueueNotification head event = .ok next) : next = { head with outboxes := next.outboxes } := by
  unfold enqueueNotification at ok
  split at ok
  · obtain ⟨boxes,folded,rfl⟩ := Results.mapOk ok
    rfl
  · cases ok
    rfl

theorem sealTailFrame (head : Head A) : sealTail head = { head with
    tail := (sealTail head).tail
    pages := (sealTail head).pages
    historyFloor := (sealTail head).historyFloor } := by
  unfold sealTail
  split <;> rfl

theorem appendEventCases {draft} (ok : appendEvent head draft = .ok next) : ∃ boxes,
      enqueueNotification { head with
        eventSeq := head.eventSeq+1
        tail := head.tail ++ [(head.eventSeq+1,head.stamp draft)] } (head.stamp draft) = .ok boxes ∧
      next = sealTail boxes := by
  obtain ⟨boxes,enqueued,same⟩ := Results.mapOk ok
  exact ⟨boxes,enqueued,same.symm⟩

theorem appendEventFrame {draft} (ok : appendEvent head draft = .ok next) : next = { head with
      eventSeq := head.eventSeq+1
      tail := next.tail
      pages := next.pages
      historyFloor := next.historyFloor
      outboxes := next.outboxes } := by
  obtain ⟨boxes,enqueued,rfl⟩ := appendEventCases ok
  rw [enqueueNotificationFrame enqueued,sealTailFrame]

theorem appendEventsFrame {drafts} (ok : appendEvents head drafts = .ok next) : next = { head with
      eventSeq := head.eventSeq+drafts.length
      tail := next.tail
      pages := next.pages
      historyFloor := next.historyFloor
      outboxes := next.outboxes } := by
  induction drafts generalizing head with
  | nil =>
    cases ok
    rfl
  | cons draft drafts ih =>
    obtain ⟨middle,first,ok⟩ := Results.bindOk ok
    have rest := ih ok
    rw [appendEventFrame first] at rest
    rw [rest]
    simp only [List.length_cons,Nat.add_assoc,Nat.add_comm 1]

theorem enqueueRecordingCases {result}
    (ok : enqueueRecording codec head (some result) = .ok next) : ∃ inline, next = { head with
      recordingSeries := result.nextSeries
      recordingRules := next.recordingRules
      recordingQueue := head.recordingQueue ++ (if result.samples = [] then []
        else [⟨⟨result.timestamp,result.samples,head.generation,head.revision⟩,inline⟩]) } := by
  simp only [enqueueRecording] at ok
  split at ok
  · rename_i nothing
    cases ok
    exact ⟨false,by simp [nothing]⟩
  rename_i samples
  split at ok
  · contradiction
  split at ok
  · contradiction
  · cases ok
    exact ⟨_,by rw [if_neg samples]⟩

theorem enqueueRecordingFrame {result} (ok : enqueueRecording codec head result = .ok next) : next = { head with
      recordingSeries := next.recordingSeries
      recordingRules := next.recordingRules
      recordingQueue := next.recordingQueue } := by
  cases result with
  | none =>
    cases ok
    rfl
  | some result =>
    obtain ⟨inline,eq⟩ := enqueueRecordingCases ok
    rw [eq]

theorem retireRecordingCases {clock} (ok : retireRecording codec head clock = .ok next) :
    (head.recordingSeries = [] ∧ next = head) ∨ (head.recordingSeries ≠ [] ∧
      enqueueRecording codec { head with recordingFence := max clock (head.completedAt+1) }
        (some (Recording.retirement head.recordingSeries (max clock (head.completedAt+1)))) = .ok next) := by
  unfold retireRecording at ok
  split at ok
  · rename_i empty
    cases ok
    exact .inl ⟨empty,rfl⟩
  · rename_i series nonempty
    exact .inr ⟨nonempty,ok⟩

theorem retireRecordingFrame {clock} (ok : retireRecording codec head clock = .ok next) : next = { head with
      recordingSeries := next.recordingSeries
      recordingRules := next.recordingRules
      recordingQueue := next.recordingQueue
      recordingFence := next.recordingFence } := by
  rcases retireRecordingCases ok with ⟨_,rfl⟩ | ⟨_,enqueued⟩
  · rfl
  · rw [enqueueRecordingFrame enqueued]

theorem ackRecordingCases [DecidableEq A] {ref progress event} (ok : ackRecording head ref progress event = .ok (some next)) :
    ∃ rest logged, head.recordingQueue = ref :: rest ∧ appendEvents head event.toList = .ok logged ∧
      next = { logged with
        recordingQueue := rest, recordingLast := some progress, recordingError := none } := by
  unfold ackRecording at ok
  cases queue : head.recordingQueue with
  | nil => simp [queue] at ok
  | cons first rest =>
    simp only [queue] at ok
    split at ok
    · rename_i same
      obtain ⟨logged,logging,next⟩ := Results.mapOk ok
      exact ⟨rest,logged,by rw [same],logging,(Option.some.inj next).symm⟩
    · split at ok <;> simp at ok

theorem checkpointCases [DecidableEq A] {evaluation}
    (ok : checkpoint codec head evaluation = .ok next) : ∃ logged queued,
      head.revision = some evaluation.revision ∧ head.state = .active ∧
      head.completedAt < evaluation.timestamp ∧ appendEvents head evaluation.events = .ok logged ∧
      enqueueRecording codec logged evaluation.recording = .ok queued ∧
      next = { queued with
        completedAt := evaluation.timestamp
        instances := evaluation.instances
        health := evaluation.health
        evaluationRevision := some evaluation.revision } := by
  unfold checkpoint at ok
  split at ok
  · contradiction
  split at ok
  · contradiction
  split at ok
  · contradiction
  rename_i revision state later
  obtain ⟨logged,logging,ok⟩ := Results.bindOk ok
  obtain ⟨queued,recording,same⟩ := Results.mapOk ok
  exact ⟨logged,queued,not_not.mp revision,not_not.mp state,not_le.mp later,logging,recording,same.symm⟩

variable {version : Target} {update : Box A → Except Reason (Box A)} {box : Box A}

theorem updateOutboxCases (ok : updateOutbox head version update = .ok (box,next)) : ∃ old,
      head.outboxes.get? version = some old ∧ update old = .ok box ∧ next = { head with
        outboxes := if box.queue = [] ∧ box.claim = none then head.outboxes.delete version
          else head.outboxes.put version box } := by
  unfold updateOutbox at ok
  split at ok
  · contradiction
  rename_i old found
  obtain ⟨box,updated,same⟩ := Results.mapOk ok
  cases same
  exact ⟨old,found,updated,rfl⟩

theorem updateOutboxFrame (ok : updateOutbox head version update = .ok (box,next)) :
    next = { head with outboxes := next.outboxes } := by
  obtain ⟨old,_,_,rfl⟩ := updateOutboxCases ok
  rfl

/-! Why a write can be refused. -/

theorem appendEventsError {head} {drafts : List (Draft A)} {reason : Reason}
    (error : appendEvents head drafts = .error reason) : reason = .notificationBacklog := by
  refine Lists.foldlMError (P := (· = .notificationBacklog)) ?_ error
  intro head draft reason failed
  simp only [appendEvent,enqueueNotification] at failed
  split at failed
  · cases folded : (head.stamp draft).notificationTargets.foldlM (enqueueTarget (head.stamp draft))
        head.outboxes with
    | ok boxes => simp [folded,Except.map] at failed
    | error inner =>
      simp only [folded,Except.map,Except.error.injEq] at failed
      subst failed
      refine Lists.foldlMError (P := (· = .notificationBacklog)) ?_ folded
      intro boxes target reason refused
      simp only [enqueueTarget] at refused
      split at refused
      · contradiction
      · exact (Except.error.inj refused).symm
  · simp [Except.map] at failed

theorem retireRecordingError {head clock reason} (error : retireRecording codec head clock = .error reason) :
    reason = .recordingBacklog ∨ reason = .invalidRecordingResult := by
  unfold retireRecording at error
  split at error
  · contradiction
  simp only [enqueueRecording] at error
  split at error
  · contradiction
  split at error
  · exact .inl (Except.error.inj error).symm
  split at error
  · exact .inr (Except.error.inj error).symm
  · contradiction

end Writes

namespace Notifier
variable {A : Type}

def lease : Int := 30000000000

def claim (nonce : Nat) (now : Int) (box : Box A) : Except Reason (Box A) :=
  match box.queue with
  | [] => .error .emptyOutbox
  | first :: _ =>
    if box.claim.any (fun previous => now < previous.expires) then .error .notificationClaimed
    else .ok { box with claim := some ⟨nonce,now+lease,first⟩ }

def ack [DecidableEq A] (nonce : Nat) (box : Box A) : Except Reason (Box A) :=
  match box.claim, box.queue with
  | some held, first :: rest =>
    if held.nonce = nonce then
      if first = held.event then .ok { box with claim := none, queue := rest }
      else .error .outboxConflict
    else .error .outboxConflict
  | _, _ => .error .outboxConflict

end Notifier
end Pulso.Alerting
