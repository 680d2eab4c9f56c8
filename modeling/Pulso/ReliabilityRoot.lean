import Mathlib.Data.Int.ConditionallyCompleteOrder
import Mathlib.Order.ConditionallyCompleteLattice.Basic
import Mathlib.Data.List.Sort
import Pulso.Dict

/-! The root of a tenant's reliability state: scan claims, assessments, signals, investigation
runs and the spending ledger, with every change that a transaction makes to it. Amounts are in
nano dollars and times in nanoseconds. -/
namespace Pulso.Reliability

abbrev Nonce := Nat

/- The calendar month and day of a time; months and days are numbered in their order. -/
structure Calendar where
  month : Int → Int
  date : Int → Int
  monotone : Monotone month

inductive Kind where
  | objects | model | investigation
  deriving DecidableEq, Repr

structure Config where
  enabled : Bool
  priceValidUntil : Option Int
  maxInputTokens : Nat
  inputPrice : Nat
  assessmentBudget : Nat
  objectBudget : Nat
  investigationBudget : Nat
  investigationUrl : Option String

def Config.limit (c : Config) : Kind → Nat
  | .objects => c.objectBudget
  | .model => c.assessmentBudget
  | .investigation => c.investigationBudget

inductive Reason where
  | disabled | clockRegressed | priceExpired | conflict | stateLimit | publicationUnknown | budgetExhausted
  | scanPending | snapshotLimit | snapshotUnavailable | staleWindow | alreadyAssessed | claimLost
  | assessmentTimeout | followupBudgetExhausted | followupUnavailable | alreadyReported
  | staleSignal | concurrencyLimit | dailyLimit | cooldown | investigationActive
  | receiptUnavailable | unauthorized | completionConflict
  | other (text : String)
  deriving DecidableEq, Repr

inductive Decision where
  | expected | watch | investigate | insufficientEvidence
  deriving DecidableEq, Repr

inductive Query where
  | none | logPatterns | slowTraces | metricInventory
  deriving DecidableEq, Repr

structure Answer where
  decision : Decision
  query : Query
  inputTokens : Nat
  deriving DecidableEq, Repr

inductive Judgement where
  | assessed (answer : Answer)
  | unknown (reason : Reason)
  deriving DecidableEq, Repr

def Judgement.decision : Judgement → Option Decision
  | .assessed answer => some answer.decision
  | .unknown _ => none

inductive Status where
  | outcomeUnknown | assessed | unknown
  deriving DecidableEq, Repr

def Judgement.status : Judgement → Status
  | .assessed _ => .assessed
  | .unknown _ => .unknown

inductive Assessment where
  | attempt (id : Nonce) (calls : Nat) (status : Status)
  | budgetDeferred
  deriving DecidableEq, Repr

structure SnapshotRef (D : Type) where
  key : D
  digest : D
  finish : Int
  groups : Nat
  deriving DecidableEq

structure Group (E : Type) where
  service : String
  environment : String
  input : E
  queries : Dict Query E
  deriving DecidableEq

structure Signal (E : Type) where
  id : String
  service : String
  environment : String
  revision : Nat
  windowEnd : Int
  indexedAt : Int
  evidence : E
  followupQuery : Option Query
  followupEvidence : Option E
  assessment : Judgement
  episodeId : Nonce
  lastInvestigation : Option Int
  deriving DecidableEq

inductive RunStatus where
  | dispatching | accepted | deliveryUnknown | completed | failed
  deriving DecidableEq, Repr

def RunStatus.finished (s : RunStatus) : Bool := s = .completed || s = .failed

structure Investigation (D : Type) where
  id : Nonce
  signalId : String
  signalRevision : Nat
  episodeId : Nonce
  status : RunStatus
  startedAt : Int
  deadline : Int
  maxCost : Nat
  tokenHash : D
  completedAt : Option Int
  deriving DecidableEq

inductive Event (D : Type) where
  | coverageReady (finish : Int) (previousWindow : Option (SnapshotRef D)) (previousAssessments : Dict String Assessment)
  | coverageFailed (finish indexedAt : Int) (reason : Reason)
  | assessment (signal : String) (revision : Nat) (decision : Option Decision) (status : Status) (indexedAt : Int)
  | assessmentDeferred (signal : String) (indexedAt : Int)
  | investigation (run : Nonce) (status : RunStatus)
  | investigationDeferred (signal : String) (revision : Nat) (reason : Reason)
  deriving DecidableEq

structure Change (D : Type) where
  event : Event D
  sequence : Nat
  changeId : Nonce × Nat
  deriving DecidableEq

structure Root (E D : Type) where
  generation : Nonce
  sequence : Nat
  replayFloor : Nat
  changes : List (Change D)
  signals : Dict String (Signal E)
  assessments : Dict String Assessment
  spend : Dict Int (Dict Kind Nat)
  investigations : Dict Nonce (Investigation D)
  clock : Int
  snapshot : Option (SnapshotRef D)
  scanFinish : Option Int
  scanClaim : Option Nonce
  failureFinish : Option Int
  investigationDay : Option Int
  investigationStarts : Nat
  publication : Option Nonce
  deriving DecidableEq

namespace Root
variable {E D : Type}

def empty (generation : Nonce) : Root E D where
  generation := generation
  sequence := 0
  replayFloor := 0
  changes := []
  signals := .empty
  assessments := .empty
  spend := .empty
  investigations := .empty
  clock := 0
  snapshot := none
  scanFinish := none
  scanClaim := none
  failureFinish := none
  investigationDay := none
  investigationStarts := 0
  publication := none

def spent (root : Root E D) (month : Int) (kind : Kind) : Nat :=
  (((root.spend.get? month).getD .empty).get? kind).getD 0

def event (root : Root E D) (data : Event D) : Root E D :=
  let sequence := root.sequence + 1
  let changes := root.changes ++ [⟨data,sequence,root.generation,sequence⟩]
  let kept := changes.drop (changes.length - 128)
  { root with
    sequence := sequence
    changes := kept
    replayFloor := (kept.head?.map (fun change => change.sequence - 1)).getD 0 }

def newest (spend : Dict Int (Dict Kind Nat)) : Dict Int (Dict Kind Nat) :=
  .ofList ((spend.entries.mergeSort (fun a b => b.1 ≤ a.1)).take 2)

def charge (calendar : Calendar) (root : Root E D) (now : Int) (kind : Kind) (amount limit : Nat) :
    Except Reason (Root E D) :=
  let month := calendar.month now
  let spent := (root.spend.get? month).getD .empty
  let used := (spent.get? kind).getD 0
  if used + amount ≤ limit then .ok { root with spend := newest (root.spend.put month (spent.put kind (used + amount))) }
  else .error .budgetExhausted

end Root

end Pulso.Reliability
