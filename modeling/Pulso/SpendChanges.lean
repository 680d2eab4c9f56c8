import Pulso.SpendRules

/-! Each change of the root that a transaction may make, with what it does to the protected part. -/
namespace Pulso.Reliability
variable {E D : Type} {setup : Setup E D} {p : Nat} {w : World E D} {nonces : Nonces} {root next : Root E D}

theorem authorizeDoes {earliest} : Does setup p (authorize (D := D) setup earliest) (fun now _ => earliest ≤ now) w := by
  unfold authorize
  apply doesBind
  apply doesOp rfl
  intro v _ _
  refine ⟨trivial,fun now u _ => ?_⟩
  split
  · exact doesThrow _
  split
  · exact doesThrow _
  split
  · exact doesThrow _
  · exact doesPure (not_lt.mp ‹_›)

theorem alikeEvent (root : Root E D) (data : Event D) : Alike root (root.event data) := ⟨rfl,rfl,rfl,rfl,rfl,rfl,rfl⟩

theorem Move.event (move : Move setup nonces root next) (data : Event D) : Move setup nonces root (next.event data) :=
  move.alike (.refl root) (alikeEvent next data)

theorem Move.same (root : Root E D) : Move setup nonces root root :=
  .keep ⟨rfl,rfl⟩ ⟨rfl,rfl,rfl⟩ (fun _ => rfl) (fun _ known => known)

theorem Wf.monthsAt (wf : Wf setup nonces root) {now} (forward : root.clock ≤ now) :
    ∀ month ∈ root.spend.keys, month ≤ setup.calendar.month now :=
  fun month known => (wf.months month known).trans (setup.calendar.monotone forward)

theorem claimScanChanges {finish claim} (drawn : DrawnFor w.nonces claim (.scan finish)) :
    Changes setup p (claimScan setup finish claim) (fun _ _ => True) w := by
  intro v root relied wf
  unfold claimScan
  apply doesBind
  apply doesMono authorizeDoes
  intro now u since forward
  split
  case isFalse => exact doesThrow _
  rename_i after
  apply doesBind
  apply doesLift
  intro next charge
  have charged := chargeCharged .objects (wf.monthsAt forward) charge
  obtain ⟨-,rfl⟩ := chargeDoes charge
  apply doesPure
  exact ⟨.scan finish claim (drawn.grow (relied.trans since).nonces) after forward (charged.same rfl rfl) rfl rfl rfl
    (fun _ => rfl) (fun _ known => known),trivial⟩

theorem publishSnapshotChanges [DecidableEq D] {claim snapshot}
    (drawn : DrawnFor w.nonces claim (.scan snapshot.finish)) :
    Changes setup p (publishSnapshot setup claim snapshot) (fun _ _ => True) w := by
  intro v root relied wf
  unfold publishSnapshot
  split
  · exact doesPure ⟨.same root,trivial⟩
  split
  case isFalse => exact doesThrow _
  rename_i claimed
  apply doesPure
  refine ⟨Move.event ?_ _,trivial⟩
  exact .publish snapshot.finish claim (drawn.grow relied.nonces) claimed ⟨rfl,rfl⟩ rfl (fun _ => rfl) rfl rfl
    (fun _ known => known)

theorem followupClaimed {existing attempt} (h : followupClaim existing attempt) :
    existing = some (.attempt attempt 1 .outcomeUnknown) := by
  unfold followupClaim at h
  split at h
  · rw [of_decide_eq_true h]
  · cases h

theorem attemptPut (root next : Root E D) (id : String) (attempt : Nonce) (calls : Nat) (status : Status)
    (put : next.assessments = root.assessments.put id (.attempt attempt calls status)) :
    next.attempt id = some (attempt,calls) ∧ ∀ other ≠ id, next.attempt other = root.attempt other := by
  constructor
  · rw [Root.attempt,put,Dict.getPutSame]
  intro other different
  rw [Root.attempt,put,Dict.getPutOther _ _ different]
  rfl

variable {context : Context}

theorem chargeAssessmentDoes {first} (wf : Wf setup w.nonces root) (current : root.finish = some context.finish)
    (slot : (first = true ∧ root.attempt context.id = none) ∨
      (first = false ∧ root.attempt context.id = some (context.attempt,1))) :
    Does setup p (chargeAssessment setup context first root) (fun r u => Move setup u.nonces root r.1 ∧
      r.1.finish = some context.finish ∧ r.1.attempt context.id = some (context.attempt,callNumber !first)) w := by
  apply doesBind
  apply doesMono authorizeDoes
  intro now u since forward
  apply doesBind
  apply doesLift
  intro mid charge
  apply doesBind
  apply doesLift
  intro next charge'
  have one := chargeCharged .model (wf.monthsAt forward) charge
  have two := chargeCharged .objects one.months charge'
  have charged := one.trans two
  obtain ⟨-,rfl⟩ := chargeDoes charge
  obtain ⟨-,rfl⟩ := chargeDoes charge'
  have number : (if first = true then 1 else 2) = callNumber !first := by cases first <;> rfl
  apply doesPure
  rw [number]
  obtain ⟨reserved,others⟩ := attemptPut root
    { root with assessments := root.assessments.put context.id (.attempt context.attempt (callNumber !first) .outcomeUnknown) }
    context.id context.attempt (callNumber !first) .outcomeUnknown rfl
  refine ⟨.reserve context.finish context.id context.attempt (callNumber !first) current ?_ forward (charged.same rfl rfl)
    ⟨rfl,rfl,rfl⟩ reserved others (fun _ known => known),current,reserved⟩
  rcases slot with ⟨rfl,free⟩|⟨rfl,mine⟩
  · exact .inl ⟨rfl,free⟩
  · exact .inr ⟨rfl,mine⟩

theorem reserveChanges {first} : Changes setup p (reserveAssessment setup context first) (fun _ next =>
      next.finish = some context.finish ∧ next.attempt context.id = some (context.attempt,callNumber !first)) w := by
  intro v root relied wf
  unfold reserveAssessment
  split
  case isTrue => exact doesThrow _
  rename_i current
  split
  case isTrue => exact doesThrow _
  rename_i untaken
  split
  case isTrue => exact doesThrow _
  rename_i claimed
  apply chargeAssessmentDoes wf (not_not.mp current)
  cases first with
  | true =>
    have free : root.assessments.get? context.id = none := by
      by_contra taken
      exact untaken ⟨rfl,taken⟩
    exact .inl ⟨rfl,by rw [Root.attempt,free]⟩
  | false =>
    have mine : followupClaim (root.assessments.get? context.id) context.attempt := by
      by_contra other
      exact claimed ⟨by simp,other⟩
    exact .inr ⟨rfl,by rw [Root.attempt,followupClaimed mine]⟩

theorem moveStatus {id attempt calls status status' signals}
    (held : root.assessments.get? id = some (.attempt attempt calls status)) :
    Move setup nonces root { root with
      signals := signals
      assessments := root.assessments.put id (.attempt attempt calls status') } := by
  obtain ⟨same,others⟩ := attemptPut root
    { root with signals := signals, assessments := root.assessments.put id (.attempt attempt calls status') }
    id attempt calls status' rfl
  refine .keep ⟨rfl,rfl⟩ ⟨rfl,rfl,rfl⟩ (fun other => ?_) (fun _ known => known)
  by_cases own : other = id
  · subst own
    rw [same,Root.attempt,held]
  · exact others other own

theorem publishAssessmentChanges {group result query} :
    Changes setup p (publishAssessment group result query context) (fun _ _ => True) w := by
  intro v root relied wf
  unfold publishAssessment
  split
  · exact doesThrow _
  split
  case h_2 => exact doesThrow _
  rename_i id calls status held
  split
  · exact doesThrow _
  split
  · exact doesPure ⟨.same root,trivial⟩
  apply doesBind
  apply doesOp rfl
  intro u _ _
  refine ⟨trivial,fun now u₁ _ => ?_⟩
  dsimp only
  split
  · apply doesBind
    apply doesPure
    exact doesPure ⟨(moveStatus held).event _,trivial⟩
  apply doesBind
  apply doesOp rfl
  intro _ _ _
  exact ⟨trivial,fun _ _ _ => doesPure ⟨(moveStatus held).event _,trivial⟩⟩

theorem deferAssessmentChanges {id finish} : Changes setup p (deferAssessment id finish) (fun _ _ => True) w := by
  intro v root relied wf
  unfold deferAssessment
  split
  · exact doesThrow _
  split
  · exact doesThrow _
  rename_i free
  apply doesBind
  apply doesOp rfl
  intro u _ _
  refine ⟨trivial,fun now u₁ _ => ?_⟩
  apply doesPure
  refine ⟨Move.event ?_ _,trivial⟩
  refine .keep ⟨rfl,rfl⟩ ⟨rfl,rfl,rfl⟩ (fun other => ?_) (fun _ known => known)
  by_cases own : other = id
  · subst own
    have absent : root.assessments.get? other = none := by
      rw [Dict.getNone]
      exact fun known => free (Dict.hasIff.mpr known)
    simp only [Root.attempt,Dict.getPutSame,absent]
  · simp only [Root.attempt,Dict.getPutOther _ _ own]

theorem recordFailureChanges {finish now reason} :
    Changes setup p (recordFailure finish now reason) (fun _ _ => True) w := by
  intro v root relied wf
  unfold recordFailure
  split
  · exact doesThrow _
  apply doesPure
  refine ⟨Move.event ?_ _,trivial⟩
  exact .keep ⟨rfl,rfl⟩ ⟨rfl,rfl,rfl⟩ (fun _ => rfl) (fun _ known => known)

theorem deferInvestigationChanges {id revision reason} :
    Changes setup p (deferInvestigation id revision reason) (fun _ _ => True) w := by
  intro v root relied wf
  exact doesPure ⟨(Move.same root).event _,trivial⟩

variable {runs : Dict Nonce (Investigation D)}

theorem moveRuns (same : ∀ id ∈ runs.keys, id ∈ root.investigations.keys) :
    Move setup nonces root { root with investigations := runs } :=
  .keep ⟨rfl,rfl⟩ ⟨rfl,rfl,rfl⟩ (fun _ => rfl) same

variable {id : Nonce}

theorem movePutRun {run run'} (held : root.investigations.get? id = some run) :
    Move setup nonces root { root with investigations := root.investigations.put id run' } := by
  apply moveRuns
  intro other known
  rcases Dict.memKeysPut.mp known with rfl|old
  · exact Dict.memKeys.mpr ⟨run,held⟩
  · exact old

theorem deliveryResultChanges {accepted} : Changes setup p (deliveryResult id accepted) (fun _ _ => True) w := by
  intro v root relied wf
  unfold deliveryResult
  split
  case h_1 run held =>
    split
    · exact doesPure ⟨(movePutRun held).event _,trivial⟩
    · exact doesPure ⟨.same root,trivial⟩
  case h_2 => exact doesPure ⟨.same root,trivial⟩

theorem completeRunChanges [DecidableEq D] {token status} :
    Changes setup p (completeRun id token status) (fun _ _ => True) w := by
  intro v root relied wf
  unfold completeRun
  split
  · exact doesThrow _
  rename_i run held
  split
  case isFalse => exact doesThrow _
  apply doesBind
  apply doesOp rfl
  intro u _ _
  refine ⟨trivial,fun now u₁ _ => ?_⟩
  apply doesLift
  intro next finished
  unfold finishRun at finished
  split at finished
  · cases finished
  split at finished
  · cases finished
    exact ⟨movePutRun held,trivial⟩
  split at finished
  · cases finished
  · cases finished
    exact ⟨(movePutRun held).event _,trivial⟩

theorem retainedKeys {now} (known : id ∈ (retainedRuns runs now).keys) : id ∈ runs.keys := by
  obtain ⟨run,held⟩ := Dict.memKeys.mp known
  have kept := (Dict.getFilter.mp held).1
  rw [Dict.getMapValues] at kept
  obtain ⟨before,found,-⟩ := Option.map_eq_some_iff.mp kept
  exact Dict.memKeys.mpr ⟨before,found⟩

theorem reserveRunChanges {signal token} :
    Changes setup p (reserveRun setup signal token id) (fun run next => run.id = id ∧ id ∈ next.investigations.keys) w := by
  intro v root relied wf
  apply doesBind
  apply doesMono authorizeDoes
  intro now u since forward
  apply doesBind
  apply doesLift
  intro current _
  apply doesBind
  apply doesLift
  intro _ _
  apply doesBind
  apply doesLift
  intro next charge
  have charged := chargeCharged .investigation (wf.monthsAt forward) charge
  obtain ⟨-,rfl⟩ := chargeDoes charge
  apply doesPure
  refine ⟨Move.event ?_ _,rfl,Dict.memKeysPut.mpr (.inl rfl)⟩
  refine .run id forward (charged.same rfl rfl) ⟨rfl,rfl,rfl⟩ (fun _ => rfl) ?_
  intro other known
  rcases Dict.memKeysPut.mp known with rfl|old
  · exact .inl rfl
  · exact .inr (retainedKeys old)

end Pulso.Reliability
