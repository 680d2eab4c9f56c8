import Pulso.Interleaving
import Pulso.ReliabilityRoot

/-! `Reliability.step`, the dispatch of an investigation and its completion, as programs over the
object store, the clocks, the provider and the investigation runtime. Every operation may fail;
what a read of a window or an assessment answers is up to the environment. -/
namespace Pulso.Reliability
open Pulso.Interleaving

structure Snapshot (E : Type) where
  finish : Int
  groups : Dict String (Group E)

structure Fetched (E D : Type) where
  digest : D
  decoded : Option (Snapshot E)

inductive Purpose where
  | generation | publication | scan (finish : Int) | attempt | episode | token | run
  deriving DecidableEq, Repr

structure Input (E : Type) where
  windowEnd : Int
  evidence : E
  followup : Option (Query × E)

structure Context where
  id : String
  finish : Int
  deadline : Int
  attempt : Nonce

inductive Op (E D : Type) where
  | clock
  | monotonic
  | nonce (purpose : Purpose)
  | get
  | put (etag : Option Nat) (root : Root E D)
  | fetch (key : D)
  | store (key : D) (snapshot : Snapshot E)
  | delete (key : D)
  | scan (previous : Option (Snapshot E)) (finish deadline : Int)
  | assess (context : Context) (input : Input E)
  | post (run : Investigation D) (signal : Signal E) (token : Nonce × Nonce)

inductive Found (E D : Type) where
  | found (root : Root E D) (etag : Nat)
  | missing
  | failed (reason : Reason)

inductive Put where
  | ok | conflict | failed
  deriving DecidableEq, Repr

variable {E D : Type}

@[reducible] def Reply : Op E D → Type
  | .clock => Int
  | .monotonic => Int
  | .nonce _ => Nonce
  | .get => Found E D
  | .put _ _ => Put
  | .fetch _ => Option (Fetched E D)
  | .store _ _ => Except Reason Unit
  | .delete _ => Unit
  | .scan _ _ _ => Except Reason (Dict String (Group E))
  | .assess _ _ => Except Reason Answer
  | .post _ _ _ => Bool

abbrev Task (E D α : Type) := ExceptT Reason (Prog (Op E D) Reply) α

def op (o : Op E D) : Task E D (Reply o) := ExceptT.lift (Prog.perform o)

def liftExcept {α : Type} : Except Reason α → Task E D α
  | .ok a => pure a
  | .error reason => throw reason

def outcome {α : Type} (task : Task E D α) : Task E D (Except Reason α) := ExceptT.lift task.run

structure Setup (E D : Type) where
  calendar : Calendar
  config : Config
  tokenHash : Nonce × Nonce → D
  rootSize : Root E D → Nat
  digest : Snapshot E → D
  snapshotSize : Snapshot E → Nat
  rank : Int → String → Nat

def rootBytes : Nat := 2097152
def snapshotBytes : Nat := 4194304
def minute : Int := 60000000000
def window : Int := 5 * minute
def hour : Int := 3600000000000
def day : Int := 86400000000000
def receiptHorizon : Int := 7 * 24 * hour
def investigationCost : Nat := 5000000000

section Repository
variable (setup : Setup E D) {β : Type}

def authorize (earliest : Int) : Task E D Int := do
  let now ← op .clock
  if now < earliest then throw .clockRegressed
  else match setup.config.priceValidUntil with
    | none => throw .priceExpired
    | some until_ => if until_ < setup.calendar.date now then throw .priceExpired else pure now

def load : Task E D (Root E D × Option Nat) := do
  match ← op .get with
  | .found root etag => pure (root,some etag)
  | .missing =>
    let generation ← op (.nonce .generation)
    pure (.empty generation,none)
  | .failed reason => throw reason

variable [DecidableEq E] [DecidableEq D]

/- A failed response can follow a successful write, so the exact candidate is looked for. -/
def readback (candidate : Root E D) (result : β) : Task E D β := do
  match ← op .get with
  | .found root _ => if root = candidate then pure result else throw .publicationUnknown
  | _ => throw .publicationUnknown

def transact (change : Root E D → Task E D (Root E D × β)) : Nat → Task E D β
  | 0 => throw .conflict
  | attempts+1 => do
    let (root,etag) ← load
    let (next,result) ← change root
    let publication ← op (.nonce .publication)
    let candidate := { next with publication := some publication }
    if setup.rootSize candidate ≤ rootBytes then
      match ← op (.put etag candidate) with
      | .ok => pure result
      | .conflict => transact change attempts
      | .failed => readback candidate result
    else throw .stateLimit

end Repository

section Changes
variable (setup : Setup E D)

def claimScan (finish : Int) (claim : Nonce) (root : Root E D) : Task E D (Root E D × Unit) := do
  let now ← authorize setup root.clock
  if root.scanFinish.getD (-1) < finish then
    let next ← liftExcept (root.charge setup.calendar now .objects 3000000 setup.config.objectBudget)
    pure ({ next with scanFinish := some finish, scanClaim := some claim, clock := now },())
  else throw .scanPending

def snapshotRef (snapshot : Snapshot E) : SnapshotRef D :=
  ⟨setup.digest snapshot,setup.digest snapshot,snapshot.finish,snapshot.groups.size⟩

def publishSnapshot [DecidableEq D] (claim : Nonce) (snapshot : Snapshot E) (current : Root E D) :
    Task E D (Root E D × Unit) :=
  if current.snapshot = some (snapshotRef setup snapshot) then pure (current,())
  else if current.scanClaim = some claim then
    let next := { current with
      snapshot := some (snapshotRef setup snapshot)
      assessments := .empty
      scanClaim := none }
    pure (next.event (.coverageReady snapshot.finish current.snapshot current.assessments),())
  else throw .conflict

def followupClaim : Option Assessment → Nonce → Bool
  | some (.attempt id 1 .outcomeUnknown),attempt => id = attempt
  | _,_ => false

def chargeAssessment (context : Context) (first : Bool) (root : Root E D) : Task E D (Root E D × Unit) := do
  let now ← authorize setup root.clock
  let next ← liftExcept (root.charge setup.calendar now .model
    (setup.config.maxInputTokens * setup.config.inputPrice) setup.config.assessmentBudget)
  let next ← liftExcept (next.charge setup.calendar now .objects 50000 setup.config.objectBudget)
  let claim := Assessment.attempt context.attempt (if first then 1 else 2) .outcomeUnknown
  pure ({ next with assessments := next.assessments.put context.id claim, clock := now },())

def reserveAssessment (context : Context) (first : Bool) (root : Root E D) : Task E D (Root E D × Unit) :=
  if root.snapshot.map SnapshotRef.finish ≠ some context.finish then throw .staleWindow
  else if first ∧ root.assessments.get? context.id ≠ none then throw .alreadyAssessed
  else if ¬first ∧ ¬followupClaim (root.assessments.get? context.id) context.attempt then throw .claimLost
  else chargeAssessment setup context first root

def publishAssessment (group : Group E) (result : Except Reason Answer) (query : Option Query) (context : Context)
    (root : Root E D) : Task E D (Root E D × Option (Signal E)) :=
  if root.snapshot.map SnapshotRef.finish ≠ some context.finish then throw .staleWindow
  else match root.assessments.get? context.id with
    | some (.attempt id calls status) =>
      if id ≠ context.attempt then throw .staleWindow
      else if status ≠ .outcomeUnknown then pure (root,root.signals.get? context.id)
      else do
        let old := root.signals.get? context.id
        let now ← op .clock
        let judgement := match result with
          | .ok answer => Judgement.assessed answer
          | .error reason => .unknown reason
        let continued := old.bind (fun signal =>
          if signal.assessment.decision ≠ some .expected then some signal.episodeId else none)
        let episode ← match continued with
          | some episode => pure episode
          | none => op (.nonce .episode)
        let signal : Signal E := {
          id := context.id
          service := group.service
          environment := group.environment
          revision := (old.map (fun signal => signal.revision + 1)).getD 1
          windowEnd := context.finish
          indexedAt := now
          evidence := group.input
          followupQuery := query
          followupEvidence := query.bind group.queries.get?
          assessment := judgement
          episodeId := episode
          lastInvestigation := old.bind Signal.lastInvestigation }
        let next := { root with
          signals := root.signals.put context.id signal
          assessments := root.assessments.put context.id (.attempt id calls judgement.status) }
        pure (next.event (.assessment context.id signal.revision judgement.decision judgement.status now),some signal)
    | _ => throw .staleWindow

def deferAssessment (id : String) (finish : Int) (root : Root E D) : Task E D (Root E D × Unit) :=
  if root.snapshot.map SnapshotRef.finish ≠ some finish then throw .staleWindow
  else if root.assessments.has id then throw .alreadyAssessed
  else do
    let now ← op .clock
    let next := { root with assessments := root.assessments.put id .budgetDeferred }
    pure (next.event (.assessmentDeferred id now),())

def recordFailure (finish now : Int) (reason : Reason) (root : Root E D) : Task E D (Root E D × Unit) :=
  if root.failureFinish = some finish then throw .alreadyReported
  else pure ({ root with failureFinish := some finish }.event (.coverageFailed finish now reason),())

end Changes

section Investigations
variable (setup : Setup E D)

def currentSignal (root : Root E D) (signal : Signal E) : Except Reason (Signal E) :=
  match root.signals.get? signal.id with
  | none => .error .staleSignal
  | some current =>
    if current.revision ≠ signal.revision then .error .staleSignal
    else if current.assessment.decision ≠ some .investigate then .error .staleSignal
    else .ok current

def starts (root : Root E D) (now : Int) : Nat :=
  if root.investigationDay = some (now / day) then root.investigationStarts else 0

def admitRun (root : Root E D) (current : Signal E) (now : Int) : Except Reason Unit :=
  let active := (root.investigations.entries.map Prod.snd).filter (fun run => !run.status.finished)
  if 2 ≤ active.length then .error .concurrencyLimit
  else if 20 ≤ starts root now then .error .dailyLimit
  else if current.lastInvestigation.any (fun last => now - last < hour) then .error .cooldown
  else if active.any (fun run => run.signalId = current.id) then .error .investigationActive
  else .ok ()

/- Finished runs leave once their receipt is too old. -/
def retainedRuns (runs : Dict Nonce (Investigation D)) (now : Int) : Dict Nonce (Investigation D) :=
  (runs.mapValues (fun _ run =>
    if run.status.finished then { run with completedAt := some (run.completedAt.getD now) } else run)).filter
    (fun entry => !(entry.2.status.finished && decide (receiptHorizon ≤ now - entry.2.completedAt.getD now)))

def reserveRun (signal : Signal E) (token : Nonce × Nonce) (id : Nonce) (root : Root E D) :
    Task E D (Root E D × Investigation D) := do
  let now ← authorize setup root.clock
  let current ← liftExcept (currentSignal root signal)
  liftExcept (admitRun root current now)
  let next ← liftExcept (root.charge setup.calendar now .investigation investigationCost setup.config.investigationBudget)
  let run : Investigation D := {
    id := id
    signalId := signal.id
    signalRevision := signal.revision
    episodeId := signal.episodeId
    status := .dispatching
    startedAt := now
    deadline := now + 15 * minute
    maxCost := investigationCost
    tokenHash := setup.tokenHash token
    completedAt := none }
  let next := { next with
    investigations := (retainedRuns root.investigations now).put id run
    investigationDay := some (now / day)
    investigationStarts := starts root now + 1
    clock := now
    signals := root.signals.put signal.id { current with lastInvestigation := some now } }
  pure (next.event (.investigation id .dispatching),run)

def deliveryResult (id : Nonce) (accepted : Bool) (root : Root E D) : Task E D (Root E D × Option RunStatus) :=
  match root.investigations.get? id with
  | some run =>
    if run.status = .dispatching then
      let status := if accepted then RunStatus.accepted else .deliveryUnknown
      let next := { root with investigations := root.investigations.put id { run with status := status } }
      pure (next.event (.investigation id status),some status)
    else pure (root,some run.status)
  | none => pure (root,none)

def deferInvestigation (id : String) (revision : Nat) (reason : Reason) (root : Root E D) : Task E D (Root E D × Unit) :=
  pure (root.event (.investigationDeferred id revision reason),())

def finishRun (id : Nonce) (status : RunStatus) (now : Int) (root : Root E D) (run : Investigation D) :
    Except Reason (Root E D × Unit) :=
  if run.status.finished ∧ receiptHorizon ≤ now - run.completedAt.getD now then .error .receiptUnavailable
  else if run.status = status then
    let kept := { run with completedAt := some (run.completedAt.getD now) }
    .ok ({ root with investigations := root.investigations.put id kept },())
  else if run.status.finished then .error .completionConflict
  else
    let finished := { run with status := status, completedAt := some now }
    .ok ({ root with investigations := root.investigations.put id finished }.event (.investigation id status),())

def completeRun [DecidableEq D] (id : Nonce) (token : D) (status : RunStatus) (root : Root E D) :
    Task E D (Root E D × Unit) :=
  match root.investigations.get? id with
  | none => throw .receiptUnavailable
  | some run =>
    if run.tokenHash = token then do
      let now ← op .clock
      liftExcept (finishRun id status (max now root.clock) root run)
    else throw .unauthorized

variable [DecidableEq E] [DecidableEq D]

def sendRun (run : Investigation D) (signal : Signal E) (token : Nonce × Nonce) (remaining : Int) : Task E D Bool := do
  if remaining ≤ 0 then pure false
  else match ← outcome (authorize setup 0) with
    | .error _ => pure false
    | .ok _ => op (.post run signal token)

def dispatch (signal : Signal E) (deadline : Int) : Task E D Unit := do
  if setup.config.investigationUrl.isSome ∧ signal.assessment.decision = some .investigate then
    let left ← op (.nonce .token)
    let right ← op (.nonce .token)
    let id ← op (.nonce .run)
    let run ← transact setup (reserveRun setup signal (left,right) id) 4
    let now ← op .monotonic
    let accepted ← sendRun setup run signal (left,right) (deadline - now)
    let _ ← transact setup (deliveryResult run.id accepted) 4
    pure ()
  else pure ()

/- The callback of the investigation runtime, with whatever run and token it names. -/
def complete (id : Nonce) (token : D) (completed : Bool) : Task E D Unit :=
  transact setup (completeRun id token (if completed then .completed else .failed)) 4

end Investigations

section Step
variable (setup : Setup E D) [DecidableEq E] [DecidableEq D]

def windowEnd (now : Int) : Int := max 0 (now - 2 * minute) / window * window

def fetchSnapshot (ref : SnapshotRef D) : Task E D (Snapshot E) := do
  match ← op (.fetch ref.key) with
  | some fetched => match fetched.decoded with
    | some snapshot => if fetched.digest = ref.digest then pure snapshot else throw .snapshotUnavailable
    | none => throw .snapshotUnavailable
  | none => throw .snapshotUnavailable

def previousSnapshot (root : Root E D) : Task E D (Option (Snapshot E)) :=
  match root.snapshot with
  | some ref => some <$> fetchSnapshot ref
  | none => pure none

def captureSnapshot (root : Root E D) (finish deadline : Int) : Task E D (Snapshot E) := do
  let claim ← op (.nonce (.scan finish))
  transact setup (claimScan setup finish claim) 4
  let previous ← previousSnapshot root
  let groups ← liftExcept (← op (.scan previous finish deadline))
  let snapshot : Snapshot E := ⟨finish,groups⟩
  if setup.snapshotSize snapshot ≤ snapshotBytes then
    liftExcept (← op (.store (setup.digest snapshot) snapshot))
    transact setup (publishSnapshot setup claim snapshot) 4
    match root.snapshot with
    | some ref => op (.delete ref.key)
    | none => pure ()
    pure snapshot
  else throw .snapshotLimit

def snapshotFor (root : Root E D) (finish now deadline : Int) : Task E D (Snapshot E) := do
  match root.snapshot with
  | some ref => if ref.finish = finish then fetchSnapshot ref else capture
  | none => capture
where
  capture : Task E D (Snapshot E) := do
    match ← outcome (captureSnapshot setup root finish deadline) with
    | .ok snapshot => pure snapshot
    | .error .scanPending => throw .scanPending
    | .error reason =>
      let _ ← outcome (transact setup (recordFailure finish now reason) 4)
      throw reason

def decision (context : Context) (input : Input E) : Task E D Answer := do
  let now ← op .monotonic
  let _ ← authorize setup 0
  if 0 < context.deadline - now then liftExcept (← op (.assess context input))
  else throw .assessmentTimeout

def queryGroup (group : Group E) (query : Query) : Except Reason E :=
  match group.queries.get? query with
  | some evidence => .ok evidence
  | none => .error (.other "unknown_query")

def reserve (context : Context) (first : Bool) : Task E D Unit := transact setup (reserveAssessment setup context first) 4

def followup (result : Except Reason Answer) (group : Group E) (context : Context) :
    Task E D (Except Reason Answer × Option Query) := do
  match result with
  | .ok answer =>
    if answer.decision ≠ .expected ∧ answer.query ≠ .none then
      match queryGroup group answer.query with
      | .error _ => pure (.error .followupUnavailable,some answer.query)
      | .ok evidence => match ← outcome (reserve setup context false) with
        | .ok _ =>
          let next ← outcome (decision setup context ⟨context.finish,group.input,some (answer.query,evidence)⟩)
          pure (next,some answer.query)
        | .error .budgetExhausted => pure (.error .followupBudgetExhausted,some answer.query)
        | .error _ => pure (.error .followupUnavailable,some answer.query)
    else pure (.ok answer,none)
  | .error reason => pure (.error reason,none)

def handoff (signal : Signal E) (deadline : Int) : Task E D Unit := do
  match ← outcome (dispatch setup signal deadline) with
  | .ok _ => pure ()
  | .error reason =>
    let _ ← outcome (transact setup (deferInvestigation signal.id signal.revision reason) 4)
    pure ()

def assess (id : String) (group : Group E) (finish deadline : Int) : Task E D Unit := do
  let attempt ← op (.nonce .attempt)
  let context : Context := ⟨id,finish,deadline,attempt⟩
  match ← outcome (reserve setup context true) with
  | .ok _ =>
    let first ← outcome (decision setup context ⟨finish,group.input,none⟩)
    let (result,query) ← followup setup first group context
    match ← transact setup (publishAssessment group result query context) 4 with
    | some signal => handoff setup signal deadline
    | none => pure ()
  | .error .budgetExhausted => transact setup (deferAssessment id finish) 4
  | .error reason => throw reason

def assessNext (snapshot : Snapshot E) (deadline : Int) : Task E D Unit := do
  let (root,_) ← load
  let ordered := snapshot.groups.entries.mergeSort (fun a b =>
    setup.rank snapshot.finish a.1 ≤ setup.rank snapshot.finish b.1)
  match ordered.find? (fun entry => !root.assessments.has entry.1) with
  | none => pure ()
  | some (id,group) => assess setup id group snapshot.finish deadline

def windowComplete (root : Root E D) (finish : Int) : Bool :=
  match root.snapshot with
  | some ref => ref.finish = finish ∧ root.assessments.size = ref.groups
  | none => false

def advance (now deadline : Int) : Task E D Unit := do
  let finish := windowEnd now
  let (root,_) ← load
  if windowComplete root finish then pure ()
  else
    let snapshot ← snapshotFor setup root finish now deadline
    assessNext setup snapshot deadline

def step (deadline : Int) : Task E D Unit := do
  if setup.config.enabled then
    let now ← authorize setup 0
    advance setup now deadline
  else throw .disabled

end Step

end Pulso.Reliability
