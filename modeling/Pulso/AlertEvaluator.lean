import Pulso.AlertChange

/-! One evaluation of a rule against its head: when it is due, what the query answers make of
the recorded series, and the checkpoint it commits. The query engine and the lifecycle of
threshold instances are inputs. -/
namespace Pulso.Alerting

/-- Failed queries: those every rule retries later, those only a single rule retries, and those
that mark the rule unhealthy. -/
inductive QueryFailure where
  | transient (code : String)
  | budget (code : String)
  | other (code : String)
  deriving DecidableEq, Repr

def QueryFailure.code : QueryFailure → String
  | transient code | budget code | other code => code

abbrev Engine := String → List Sample → Except QueryFailure (List Recording.Row)

structure Lifecycle (A : Type) where
  instances : Dict String Instance
  events : List (Draft A)
  health : Health

structure Tick (A : Type) where
  now : Int
  engine : Engine
  requireDrained : Bool
  budgetSkipped : Bool
  overrun : Bool
  lifecycle : List Recording.Row → Except Reason (Lifecycle A)
  actor : Actor

section Evaluate
variable {A : Type} (codec : Codec A)

/-- The members of a group in order; each sees what the earlier ones appended at this tick. -/
def queryGroup (engine : Engine) (previous : List LabelSet) :
    List Member → List Sample → Except QueryFailure (List Recording.Outcome)
  | [], _ => .ok []
  | member :: members, recorded =>
    match engine member.expr recorded with
    | .error (.transient code) => .error (.transient code)
    | .error failure =>
      (queryGroup engine previous members recorded).map ((member.record,.error failure.code) :: ·)
    | .ok rows => match Recording.groupPoints codec.toRecordingCodec member rows with
      | .ok points =>
        let recorded := recorded ++ Recording.overlay member.record points previous
        (queryGroup engine previous members recorded).map ((member.record,.ok points) :: ·)
      | .error .duplicateRecordingLabelSets =>
        (queryGroup engine previous members recorded).map ((member.record,.error "duplicate_recording_label_sets") :: ·)
      | .error _ =>
        (queryGroup engine previous members recorded).map ((member.record,.error "invalid_recording_result") :: ·)

def groupHealth (result : Recording.Result) : Health :=
  let health := (result.ruleHealth.getD []).map Prod.snd
  if health.any (fun entry => match entry with | .error _ => true | _ => false) then .error
  else if health.all (· = .noData) then .noData
  else .ok

/-- Instances, events, health and recording of one evaluation, `none` when the tick is skipped. -/
def evaluation (head : Head A) (rule : Rule) (tick : Tick A) : Option (Lifecycle A × Option Recording.Result) :=
  let failed : Lifecycle A := ⟨head.instances,[],.error⟩
  match rule.kind with
  | .promqlRecordingGroup =>
    match queryGroup codec tick.engine head.recordingSeries rule.rules [] with
    | .error _ => none
    | .ok outcomes =>
      match Recording.groupTransition codec.toRecordingCodec outcomes tick.now head.recordingSeries with
      | .ok result => some (⟨Dict.empty,[],groupHealth result⟩,some result)
      | .error _ => some (failed,none)
  | kind => match tick.engine rule.query [] with
    | .error (.other _) => some (failed,none)
    | .error _ => none
    | .ok rows =>
      if kind = .promqlRecording then
        match Recording.transition codec.toRecordingCodec rule rows tick.now head.recordingSeries with
        | .ok result => some (⟨Dict.empty,[],if rows = [] then .noData else .ok⟩,some result)
        | .error _ => some (failed,none)
      else match tick.lifecycle rows with
        | .ok lifecycle => some (lifecycle,none)
        | .error _ => some (failed,none)

def recordingBlocked (head : Head A) (requireDrained : Bool) : Bool :=
  63 ≤ head.recordingQueue.length || (requireDrained && !head.recordingQueue.isEmpty)

def due (head : Head A) (rule : Rule) (now : Int) : Bool :=
  let fence := if rule.kind.recording then head.recordingFence else -1
  !(now ≤ max head.completedAt fence || (0 ≤ head.completedAt && now-head.completedAt < rule.cadenceMs*1000000))

def healthChanged (head : Head A) (health : Health) (now : Int) (actor : Actor) : Draft A where
  type := .healthChanged
  reason := none
  alert := none
  health := some health
  recording := none
  revision := head.revision
  classification := head.classification
  timestamp := now
  actor := actor

/-- `evaluate` with the rule of the head's revision, up to the head write. -/
def evaluate [DecidableEq A] (head : Head A) (rule : Rule) (tick : Tick A) : Except Reason (Head A) :=
  if head.state ≠ .active then .error .ruleDisabled
  else if rule.kind = .grafana then .error .unsupportedRule
  else if ¬due head rule tick.now then .error .notDue
  else if rule.kind.recording ∧ recordingBlocked head tick.requireDrained then .error .recordingBacklog
  else if tick.budgetSkipped ∨ tick.overrun then .error .evaluationSkipped
  else match evaluation codec head rule tick, head.revision with
    | some (lifecycle,recording), some revision =>
      let events := if lifecycle.health = head.health then lifecycle.events
        else lifecycle.events ++ [healthChanged head lifecycle.health tick.now tick.actor]
      checkpoint codec head {
        revision := revision
        timestamp := tick.now
        instances := lifecycle.instances
        health := lifecycle.health
        events := events
        recording := recording }
    | _, _ => .error .evaluationSkipped

variable {codec}

theorem queryGroupSpec {engine previous members recorded outcomes}
    (ok : queryGroup codec engine previous members recorded = .ok outcomes) :
    outcomes.map Prod.fst = members.map Member.record ∧
      ∀ record samples, (record,Except.ok samples) ∈ outcomes → Recording.Points record samples := by
  induction members generalizing recorded outcomes with
  | nil =>
    cases ok
    simp
  | cons member members ih =>
    -- one outcome in front of those of the remaining members
    have prepend : ∀ {recorded : List Sample} {answer : Except String (List Sample)},
        (queryGroup codec engine previous members recorded).map ((member.record,answer) :: ·) = .ok outcomes →
        (∀ samples, answer = .ok samples → Recording.Points member.record samples) →
        outcomes.map Prod.fst = (member :: members).map Member.record ∧
          ∀ record samples, (record,Except.ok samples) ∈ outcomes → Recording.Points record samples := by
      intro recorded answer mapped spec
      obtain ⟨tail,rest,rfl⟩ := Results.mapOk mapped
      obtain ⟨records,points⟩ := ih rest
      refine ⟨by simp [records],?_⟩
      intro record samples mem
      rcases List.mem_cons.mp mem with first | later
      · cases first
        exact spec samples rfl
      · exact points record samples later
    unfold queryGroup at ok
    cases answered : engine member.expr recorded with
    | error failure =>
      cases failure with
      | transient code => simp [answered] at ok
      | budget code => exact prepend (by simpa only [answered] using ok) (by simp)
      | other code => exact prepend (by simpa only [answered] using ok) (by simp)
    | ok rows =>
      simp only [answered] at ok
      cases grouped : Recording.groupPoints codec.toRecordingCodec member rows with
      | ok points =>
        simp only [grouped] at ok
        apply prepend ok
        intro samples same
        cases same
        unfold Recording.groupPoints at grouped
        split at grouped
        · exact Recording.pointsSpec grouped
        · contradiction
      | error reason =>
        cases reason with
        | duplicateRecordingLabelSets => exact prepend (by simpa only [grouped] using ok) (by simp)
        | _ => exact prepend (by simpa only [grouped] using ok) (by simp)

theorem evaluationRecording {head rule tick lifecycle result} (distinct : head.recordingSeries.Nodup)
    (ok : evaluation codec head rule tick = some (lifecycle,some result)) :
    rule.kind.recording = true ∧ result.timestamp = tick.now ∧
      ∃ points, Recording.Replaces head.recordingSeries points result := by
  unfold evaluation at ok
  cases kind : rule.kind with
  | promqlRecordingGroup =>
    simp only [kind] at ok
    cases grouped : queryGroup codec tick.engine head.recordingSeries rule.rules [] with
    | error failure => simp [grouped] at ok
    | ok outcomes =>
      simp only [grouped] at ok
      cases moved : Recording.groupTransition codec.toRecordingCodec outcomes tick.now
          head.recordingSeries with
      | error reason => simp [moved] at ok
      | ok final =>
        simp only [moved,Option.some.injEq,Prod.mk.injEq] at ok
        obtain ⟨_,rfl⟩ := ok
        obtain ⟨records,points⟩ := queryGroupSpec grouped
        exact ⟨rfl,Recording.groupTransitionReplaces ⟨records ▸ rule.distinctRecords,points⟩ distinct moved⟩
  | promqlRecording =>
    simp only [kind] at ok
    cases answered : tick.engine rule.query [] with
    | error failure => cases failure <;> simp [answered] at ok
    | ok rows =>
      simp only [answered,if_true] at ok
      cases moved : Recording.transition codec.toRecordingCodec rule rows tick.now head.recordingSeries with
      | error reason => simp [moved] at ok
      | ok final =>
        simp only [moved,Option.some.injEq,Prod.mk.injEq] at ok
        obtain ⟨_,rfl⟩ := ok
        exact ⟨rfl,Recording.transitionReplaces moved⟩
  | _ =>
    simp only [kind] at ok
    cases answered : tick.engine rule.query [] with
    | error failure => cases failure <;> simp [answered] at ok
    | ok rows => cases stepped : tick.lifecycle rows <;> simp [answered,stepped] at ok

theorem evaluateCases [DecidableEq A] {head next rule tick}
    (ok : evaluate codec head rule tick = .ok next) : ∃ lifecycle recording evaluated,
      due head rule tick.now = true ∧ evaluation codec head rule tick = some (lifecycle,recording) ∧
      evaluated.timestamp = tick.now ∧ evaluated.recording = recording ∧
      checkpoint codec head evaluated = .ok next := by
  unfold evaluate at ok
  split at ok
  · contradiction
  split at ok
  · contradiction
  split at ok
  · contradiction
  split at ok
  · contradiction
  split at ok
  · contradiction
  rename_i due _ _
  cases result : evaluation codec head rule tick with
  | none => simp [result] at ok
  | some pair =>
    obtain ⟨lifecycle,recording⟩ := pair
    cases revised : head.revision with
    | none => simp [result,revised] at ok
    | some revision =>
      simp only [result,revised] at ok
      exact ⟨lifecycle,recording,_,not_not.mp due,rfl,rfl,rfl,ok⟩

end Evaluate
end Pulso.Alerting
