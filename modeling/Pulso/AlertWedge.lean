import Pulso.AlertBounds

/-! When an active rule with drained outboxes can be evaluated, changed and deleted. The bounds
of its queues and objects are independent of the number of instances an evaluation may hold, so
they can refuse all three. -/
namespace Pulso.Alerting
variable {A : Type} [DecidableEq A] {sizes : Sizes A} {codec : Codec A} {address : Snapshot A → A}
variable {head next : Head A}

theorem checkpointStoredCommits {evaluation}
    (ok : checkpointStored sizes codec head evaluation = .ok next) : checkpoint codec head evaluation = .ok next := by
  unfold checkpointStored at ok
  unfold checkpoint
  split at ok
  · cases ok
  rename_i current
  rw [if_neg current]
  split at ok
  · cases ok
  rename_i active
  rw [if_neg active]
  split at ok
  · cases ok
  rename_i later
  rw [if_neg later]
  obtain ⟨logged,appended,ok⟩ := Results.bindOk ok
  rw [appendAllStoredAppends appended]
  obtain ⟨queued,recorded,ok⟩ := Results.bindOk ok
  simp only [recorded,writeHead,Except.bind,Except.map] at ok ⊢
  split at ok
  · cases ok
  · exact ok

variable {node : Surroundings} {call : Call A} {old : Option (Head A)}

theorem changeStoredPublishes {next} (ok : changeStored sizes codec address call old node = .ok next) :
    ∃ snapshot, publishChange codec address call old node = .ok (snapshot,next) := by
  obtain ⟨_,precondition,ok⟩ := Results.bindOk ok
  obtain ⟨targets,bound,ok⟩ := Results.bindOk ok
  dsimp only at ok
  split at ok
  · cases ok
  obtain ⟨logged,appended,ok⟩ := Results.bindOk ok
  obtain ⟨retired,retiring,ok⟩ := Results.bindOk ok
  have same := appendAllStoredAppends appended
  unfold writeHead at ok
  split at ok
  · cases ok
  · cases ok
    exact ⟨_,by simp only [publishChange,precondition,bound,same,retiring,Bind.bind,Except.bind]; rfl⟩

def FewTargets (head : Head A) : Prop := head.notificationTargets.length ≤ 8 ∧ head.notificationTargets.Nodup

omit [DecidableEq A] in
theorem bindTargetsFew {targets bound}
    (before : ∀ head, old = some head → FewTargets head) (ok : bindTargets targets call old = .ok bound) :
    bound.length ≤ 8 ∧ bound.Nodup := by
  refine ⟨?_,bindTargetsDistinct (fun head same => (before head same).2) ok⟩
  unfold bindTargets at ok
  split at ok
  · cases ok
    exact (before _ rfl).1
  unfold bind at ok
  split at ok
  · rename_i short
    rw [← (Lists.mapMOk ok).length_eq]
    exact short
  · cases ok

omit [DecidableEq A] in
theorem FewTargets.same (h : FewTargets head)
    (same : next.notificationTargets = head.notificationTargets) : FewTargets next := by
  unfold FewTargets
  rw [same]
  exact h

theorem changeFew {next} (before : ∀ head, old = some head → FewTargets head)
    (ok : changeStored sizes codec address call old node = .ok next) : FewTargets next := by
  obtain ⟨snapshot,published⟩ := changeStoredPublishes ok
  obtain ⟨targets,logged,retired,h⟩ := publishChangeCases published
  have few := bindTargetsFew before h.bound
  rw [h.replaced,h.revised]
  exact few

theorem checkpointFew {evaluation} (before : FewTargets head)
    (ok : checkpointStored sizes codec head evaluation = .ok next) : FewTargets next := by
  obtain ⟨logged,queued,_,_,_,logging,recording,rfl⟩ := checkpointCases (checkpointStoredCommits ok)
  refine before.same ?_
  rw [enqueueRecordingFrame recording,appendEventsFrame logging]

theorem reachableFew (h : Reachable sizes codec address old) : ∀ head, old = some head → FewTargets head := by
  induction h with
  | start =>
    intro head same
    cases same
  | change _ ok before =>
    intro head same
    cases same
    exact changeFew before ok
  | checkpoint _ ok before =>
    intro head same
    cases same
    exact checkpointFew (before _ rfl) ok
  | ackRecording _ ok before =>
    intro head same
    cases same
    obtain ⟨_,logged,_,logging,rfl⟩ := ackRecordingCases ok
    refine (before _ rfl).same ?_
    rw [appendEventsFrame logging]
  | recordingFailed _ ok before =>
    intro head same
    cases same
    unfold recordingFailed at ok
    split at ok
    · cases ok
      exact (before _ rfl).same rfl
    · cases ok
  | outbox _ ok before =>
    intro head same
    cases same
    refine (before _ rfl).same ?_
    rw [updateOutboxFrame ok]

omit [DecidableEq A] in
theorem drainedLevel {head : Head A} (few : FewTargets head) (drained : head.outboxes = Dict.empty) : Level head 0 where
  few := few.1
  distinct := few.2
  boxed := by
    rw [drained]
    exact fun _ mem => absurd mem List.not_mem_nil
  level := by
    rw [drained]
    exact fun _ _ => rfl
  within := .inr (Nat.zero_le _)

/-- The bounds a change runs into: its revision's size, the events that resolve the instances, and
the size of the head it commits. -/
structure ChangeRoom (sizes : Sizes A) (codec : Codec A) (address : Snapshot A → A) (call : Call A) (head : Head A)
    (node : Surroundings) : Prop where
  revision : ∀ targets, bindTargets node.targets call (some head) = .ok targets →
    sizes.revision (changeSnapshot call head (nextGeneration (some head) call.action node.generation) targets
      node.publicationTime) ≤ maxObjectBytes
  events : Room sizes head 0 (resetEvents head call.action call.actor node.eventTime)
  head : ∀ snapshot next, publishChange codec address call (some head) node = .ok (snapshot,next) →
    codec.headBytes next ≤ maxObjectBytes

def revisionOf (call : Call A) (head : Head A) (node : Surroundings) (targets : List Target) : Snapshot A :=
  changeSnapshot call head (nextGeneration (some head) call.action node.generation) targets node.publicationTime

variable {targets : List Target}

theorem changeStoredSteps {head} (precondition : mutationPrecondition (some head) call.action call.expected = .ok ())
    (bound : bindTargets node.targets call (some head) = .ok targets) :
    changeStored sizes codec address call (some head) node =
      if maxObjectBytes < sizes.revision (revisionOf call head node targets) then .error .objectLimit
      else (appendAllStored sizes head (resetEvents head call.action call.actor node.eventTime)).bind fun logged =>
        (retireRecording codec logged node.clock).bind fun retired =>
          writeHead codec (changedHead retired (revisionOf call head node targets)
            (address (revisionOf call head node targets))) := by
  simp only [changeStored,precondition,bound,Bind.bind,Except.bind]
  rfl

theorem publishChangeSteps {head logged}
    (precondition : mutationPrecondition (some head) call.action call.expected = .ok ())
    (bound : bindTargets node.targets call (some head) = .ok targets)
    (appended : appendEvents head (resetEvents head call.action call.actor node.eventTime) = .ok logged) :
    publishChange codec address call (some head) node = (retireRecording codec logged node.clock).map fun retired =>
      (revisionOf call head node targets,changedHead retired (revisionOf call head node targets)
        (address (revisionOf call head node targets))) := by
  have steps : publishChange codec address call (some head) node =
      (appendEvents head (resetEvents head call.action call.actor node.eventTime)).bind fun logged =>
        (retireRecording codec logged node.clock).bind fun retired =>
          .ok (revisionOf call head node targets,changedHead retired (revisionOf call head node targets)
            (address (revisionOf call head node targets))) := by
    simp only [publishChange,precondition,bound,Bind.bind,Except.bind]
    rfl
  rw [steps,appended]
  simp only [Except.bind]
  cases retireRecording codec logged node.clock <;> rfl

theorem changeRefused {head} (level : Level head 0)
    (precondition : mutationPrecondition (some head) call.action call.expected = .ok ())
    (bound : bindTargets node.targets call (some head) = .ok targets) :
    Refused (changeStored sizes codec address call (some head) node) ↔ ¬ChangeRoom sizes codec address call head node := by
  rw [changeStoredSteps precondition bound]
  split
  · rename_i large
    refine ⟨fun _ fits => ?_,fun _ => .inr rfl⟩
    have small : sizes.revision (revisionOf call head node targets) ≤ maxObjectBytes := fits.revision targets bound
    omega
  by_cases room : Room sizes head 0 (resetEvents head call.action call.actor node.eventTime)
  · obtain ⟨logged,appended⟩ := appendAllStoredOk level room
    have published : publishChange codec address call (some head) node = _ :=
      publishChangeSteps precondition bound (appendAllStoredAppends appended)
    have revised : ∀ other, bindTargets node.targets call (some head) = .ok other →
        sizes.revision (revisionOf call head node other) ≤ maxObjectBytes := by
      intro other same
      rw [bound] at same
      cases same
      omega
    rw [appended]
    simp only [Except.bind]
    cases retiring : retireRecording codec logged node.clock with
    | error reason =>
      rw [retiring] at published
      refine ⟨?_,fun tight => absurd ⟨revised,room,?_⟩ tight⟩
      · intro refused
        rcases retireRecordingError retiring with rfl | rfl <;> rcases refused with refused | refused <;> cases refused
      intro snapshot next same
      rw [published] at same
      cases same
    | ok retired =>
      rw [retiring] at published
      simp only [writeHead]
      split
      · rename_i large
        refine ⟨fun _ fits => ?_,fun _ => .inr rfl⟩
        have := fits.head _ _ published
        omega
      · rename_i fitting
        refine ⟨?_,fun tight => absurd ⟨revised,room,?_⟩ tight⟩
        · rintro (refused | refused) <;> cases refused
        intro snapshot next same
        rw [published] at same
        cases same
        omega
  · refine ⟨fun _ fits => room fits.events,fun _ => ?_⟩
    rcases appendAllStoredRefused level room with refused | refused <;> rw [refused]
    · exact .inl rfl
    · exact .inr rfl

def thresholdEvaluation (head : Head A) (revision : A) (now : Int) (actor : Actor) (lifecycle : Lifecycle A) : Evaluation A where
  revision := revision
  timestamp := now
  instances := lifecycle.instances
  health := lifecycle.health
  events := if lifecycle.health = head.health then lifecycle.events
    else lifecycle.events ++ [healthChanged head lifecycle.health now actor]
  recording := none

section Wedged

def sizeless : Sizes Nat := ⟨fun _ => 0,fun _ => 0,fun _ => 0⟩

def shortCodec : Codec Nat where
  encode labels := (labels.lookup "i").getD ""
  parses _ := true
  bytes _ _ := 0
  intentBytes _ := 0
  headBytes _ := 0

def pagedRule : Rule where
  kind := .promqlThreshold
  name := "r"
  query := "q"
  enabled := true
  cadenceMs := 1000
  labels := ∅
  notificationTargets := ["t"]
  rules := []
  rest := ""
  distinctRecords := List.nodup_nil
  distinctTargets := by decide

def createCall : Call Nat := ⟨⟨"p",.human,[]⟩,.create,pagedRule,"o","r",none,none⟩
def createNode : Surroundings := ⟨fun id => some id,0,0,0,0⟩

def pagedHead : Head Nat :=
  changedHead (Head.empty 0) (changeSnapshot createCall (Head.empty 0) 0 [⟨"t","t"⟩] 0) 0

def risen : Condition Unit := ⟨.gt,(),0,0,.keepLast⟩
def anyNumber : Numbers Unit := ⟨fun _ => some (),fun _ _ => true,fun _ _ => true,fun _ _ => true⟩

def manyRows : List Recording.Row :=
  (List.range 65).map fun i => some (Finmap.singleton "i" (String.ofList [Char.ofNat (48+i)]),"1")

def refusesMany : Bool :=
  match Lifecycle.step shortCodec.encode anyNumber pagedRule risen ⟨some 0,[],⟨"p",.human⟩,7⟩ Dict.empty manyRows with
  | .ok lifecycle =>
    match checkpointStored sizeless shortCodec pagedHead (thresholdEvaluation pagedHead 0 7 ⟨"p",.human⟩ lifecycle) with
    | .error .notificationBacklog => true
    | _ => false
  | .error _ => false

theorem pagedReachable : Reachable sizeless shortCodec (fun _ => 0) (some pagedHead) := by
  have ok : changeStored sizeless shortCodec (fun _ => 0) createCall none createNode = .ok pagedHead := rfl
  exact .change .start ok

def deleteCall : Call Nat := { createCall with action := .delete, expected := some 0 }

end Wedged

end Pulso.Alerting
