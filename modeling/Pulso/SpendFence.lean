import Pulso.SpendChanges

/-! The programs of the reliability loop keep to the discipline, so in every run spending stays
fenced: charges within the limits, a charge of its own before each call, and one first call, one
follow-up and one snapshot per window. -/
namespace Pulso.Reliability
open Pulso.Interleaving List
variable {E D : Type} {setup : Setup E D} {p : Nat} {w v : World E D} {α β : Type}

structure Owns (w : World E D) (p : Nat) (nonce : Nonce) (used : Call → Prop) : Prop where
  owned : Owned w p nonce
  only : ∀ call ∈ w.calls.map Prod.fst, call.nonce = nonce → used call

variable {used : Call → Prop}

theorem Owns.grow {nonce} (owns : Owns w p nonce used) (relied : Rely p w v) : Owns v p nonce used where
  owned := owns.owned.grow relied.nonces
  only call made same := owns.only call (relied.calls call (same ▸ owns.owned) made) same

theorem nonceDoes {purpose} :
    Does setup p (op (.nonce purpose)) (fun nonce v => Owns v p nonce (fun _ => False) ∧ DrawnFor v.nonces nonce purpose) w := by
  apply doesOp rfl
  intro v _ sound
  refine ⟨trivial,fun nonce u acts => ?_⟩
  cases acts
  refine ⟨⟨by simp [Owned],?_⟩,by simp [DrawnFor]⟩
  intro call made same
  obtain ⟨c,member,rfl⟩ := mem_map.mp made
  exact absurd same (sound.drawn c member).ne

theorem askDoes {o} (silent : quiet o) (free : ∀ v : World E D, Allowed setup v p o) :
    Does setup p (op o) (fun _ _ => True) w :=
  doesOp silent (fun v _ _ => ⟨free v,fun _ _ _ => trivial⟩)

theorem runsAfter {task k} {mid : β → World E D → Prop}
    {post : Except Reason α → World E D → Prop} (does : Does setup p task mid w)
    (next : ∀ b v, Rely p w v → mid b v → Runs setup p (k b) post v) (failed : ∀ reason v, Rely p w v → post (.error reason) v) :
    Runs setup p (task >>= k) post w := by
  apply runsBind
  apply runsMono does
  rintro r v ⟨relied,after⟩
  cases r with
  | ok b => exact next b v relied (after b rfl)
  | error reason => exact failed reason v relied

variable {context : Context}

theorem decisionRuns {input : Input E} (owns : Owns w p context.attempt used)
    (backed : Backed w.commits (modelCall context input)) (unused : ¬used (modelCall context input)) :
    Runs setup p (decision setup context input)
      (fun _ v => Owns v p context.attempt (fun call => used call ∨ call = modelCall context input)) w := by
  have kept {v} (relied : Rely p w v) : Owns v p context.attempt (fun call => used call ∨ call = modelCall context input) :=
    ⟨(owns.grow relied).owned,fun call made same => .inl ((owns.grow relied).only call made same)⟩
  unfold decision
  apply runsAfter (askDoes (o := .monotonic) rfl (fun _ => trivial))
  case failed => exact fun _ _ relied => kept relied
  intro now v relied _
  apply runsAfter authorizeDoes
  case failed => exact fun _ _ since => kept (relied.trans since)
  intro _ u since _
  have relied := relied.trans since
  split
  case isFalse => exact kept relied
  apply runsBind
  apply runsOp
  intro v' since' _
  have relied := relied.trans since'
  have mine := owns.grow relied
  refine ⟨⟨mine.owned,backed.grow relied.commits.subset,fun made => unused (mine.only _ made rfl)⟩,fun answer u' acts => ?_⟩
  cases acts
  have after : Owns (v'.called (modelCall context input)) p context.attempt
      (fun call => used call ∨ call = modelCall context input) := by
    refine ⟨mine.owned,fun call made same => ?_⟩
    rw [World.called,map_append] at made
    rcases mem_append.mp made with old|new
    · exact .inl (mine.only call old same)
    · exact .inr (mem_singleton.mp new)
  cases answer with
  | ok => exact after
  | error => exact after

theorem landedBacked {next} (input : Input E) (landed : Landed v next) (finish : next.finish = some context.finish)
    (attempt : next.attempt context.id = some (context.attempt,callNumber input.followup.isSome)) :
    Backed v.commits (modelCall context input) := by
  obtain ⟨publication,member⟩ := landed
  exact ⟨_,member,finish,attempt⟩

theorem sendRunRuns {run signal} {token : Nonce × Nonce} {remaining : Int}
    (owns : Owns w p run.id (fun _ => False)) (backed : Backed w.commits (.investigation run.id)) :
    Runs setup p (sendRun setup run signal token remaining) (fun _ _ => True) w := by
  unfold sendRun
  split
  · trivial
  apply runsAfter (doesOutcome authorizeDoes)
  case failed => exact fun _ _ _ => trivial
  intro authorized v relied _
  split
  · trivial
  apply runsOp
  intro u since _
  have relied := relied.trans since
  have mine := owns.grow relied
  exact ⟨⟨mine.owned,backed.grow relied.commits.subset,fun made => mine.only _ made rfl⟩,fun _ _ _ => trivial⟩

section Programs
variable [DecidableEq E] [DecidableEq D]

theorem reserveDoes {first} : Does setup p (reserve setup context first) (fun _ v =>
    ∃ next, (next.finish = some context.finish ∧ next.attempt context.id = some (context.attempt,callNumber !first)) ∧
      Landed v next) w :=
  transactDoes reserveChanges 4 (.refl p w)

theorem followupRuns {result : Except Reason Answer} {group : Group E}
    (owns : Owns w p context.attempt used) (unused : ∀ finish id attempt, ¬used (.model finish id attempt true)) :
    Runs setup p (followup setup result group context) (fun _ _ => True) w := by
  unfold followup
  split
  case h_2 => trivial
  rename_i answer
  split
  case isFalse => trivial
  split
  · trivial
  rename_i evidence _
  apply runsAfter (doesOutcome reserveDoes)
  case failed => exact fun _ _ _ => trivial
  intro reserved v relied after
  split
  · obtain ⟨next,⟨finish,attempt⟩,landed⟩ := after _ rfl
    apply runsBind
    apply runsOutcome
    apply runsMono (decisionRuns (owns.grow relied)
      (landedBacked ⟨context.finish,group.input,some (answer.query,evidence)⟩ landed finish attempt) (unused _ _ _))
    exact fun _ _ _ => trivial
  · trivial
  · trivial

variable {deadline finish : Int}

theorem dispatchRuns {signal : Signal E} : Runs setup p (dispatch setup signal deadline) (fun _ _ => True) w := by
  unfold dispatch
  split
  case isFalse => trivial
  apply runsAfter nonceDoes
  case failed => exact fun _ _ _ => trivial
  intro left _ _ _
  apply runsAfter nonceDoes
  case failed => exact fun _ _ _ => trivial
  intro right _ _ _
  apply runsAfter nonceDoes
  case failed => exact fun _ _ _ => trivial
  rintro id v _ ⟨owns,-⟩
  apply runsAfter (transactDoes reserveRunChanges 4 (.refl p v))
  case failed => exact fun _ _ _ => trivial
  rintro run v₁ relied₁ ⟨next,⟨rfl,known⟩,publication,landed⟩
  apply runsAfter (askDoes (o := .monotonic) rfl (fun _ => trivial))
  case failed => exact fun _ _ _ => trivial
  intro now v₂ relied₂ _
  apply runsBind
  have backed : Backed v₂.commits (.investigation run.id) := ⟨_,relied₂.commits.subset landed,known⟩
  apply runsMono (sendRunRuns (owns.grow (relied₁.trans relied₂)) backed)
  intro sent v₃ _
  cases sent with
  | error => trivial
  | ok accepted =>
    apply runsAfter (transactDoes deliveryResultChanges 4 (.refl p v₃))
    case failed => exact fun _ _ _ => trivial
    exact fun _ _ _ _ => trivial

theorem handoffRuns {signal : Signal E} : Runs setup p (handoff setup signal deadline) (fun _ _ => True) w := by
  unfold handoff
  apply runsBind
  apply runsOutcome
  apply runsMono dispatchRuns
  intro sent v _
  cases sent with
  | ok => trivial
  | error reason =>
    apply runsAfter (doesOutcome (transactDoes deferInvestigationChanges 4 (.refl p v)))
    case failed => exact fun _ _ _ => trivial
    exact fun _ _ _ _ => trivial

theorem assessRuns {id : String} {group : Group E} :
    Runs setup p (assess setup id group finish deadline) (fun _ _ => True) w := by
  unfold assess
  apply runsAfter nonceDoes
  case failed => exact fun _ _ _ => trivial
  rintro attempt v _ ⟨owns,-⟩
  apply runsAfter (doesOutcome reserveDoes)
  case failed => exact fun _ _ _ => trivial
  intro reserved v₁ relied₁ after
  split
  · obtain ⟨next,⟨window,claimed⟩,landed⟩ := after _ rfl
    apply runsBind
    apply runsOutcome
    have backed := landedBacked ⟨finish,group.input,none⟩ landed window claimed
    apply runsMono (decisionRuns (owns.grow relied₁) backed (fun used => used))
    intro first v₂ mine
    apply runsBind
    have unused (f i a) : ¬(False ∨ Call.model f i a true = modelCall ⟨id,finish,deadline,attempt⟩
        (⟨finish,group.input,none⟩ : Input E)) := by simp [modelCall]
    apply runsMono (followupRuns mine unused)
    intro followed v₃ _
    cases followed with
    | error => trivial
    | ok pair =>
      apply runsAfter (transactDoes publishAssessmentChanges 4 (.refl p v₃))
      case failed => exact fun _ _ _ => trivial
      intro signal v₄ _ _
      split
      · exact handoffRuns
      · trivial
  · exact runsMono (transactDoes deferAssessmentChanges 4 (.refl p v₁)) (fun _ _ _ => trivial)
  · trivial

omit [DecidableEq E] in
theorem fetchSnapshotDoes {ref} : Does setup p (fetchSnapshot (E := E) ref) (fun _ _ => True) w := by
  unfold fetchSnapshot
  apply doesBind
  apply doesMono (askDoes (o := .fetch ref.key) rfl (fun _ => trivial))
  intro answer v _ _
  split
  · split
    · split
      · exact doesPure trivial
      · exact doesThrow _
    · exact doesThrow _
  · exact doesThrow _

variable {root : Root E D}

omit [DecidableEq E] in
theorem previousSnapshotDoes : Does setup p (previousSnapshot root) (fun _ _ => True) w := by
  unfold previousSnapshot
  split
  · apply doesBind
    apply doesMono fetchSnapshotDoes
    exact fun _ _ _ _ => doesPure trivial
  · exact doesPure trivial

theorem captureSnapshotDoes : Does setup p (captureSnapshot setup root finish deadline) (fun _ _ => True) w := by
  unfold captureSnapshot
  apply doesBind
  apply doesMono nonceDoes
  rintro claim v _ ⟨-,drawn⟩
  apply doesBind
  apply doesMono (transactDoes (claimScanChanges drawn) 4 (.refl p v))
  intro _ v₁ relied₁ _
  apply doesBind
  apply doesMono previousSnapshotDoes
  intro previous v₂ relied₂ _
  apply doesBind
  apply doesMono (askDoes (o := .scan previous finish deadline) rfl (fun _ => trivial))
  intro scanned v₃ relied₃ _
  apply doesBind
  apply doesLift
  intro groups _
  dsimp only
  split
  case isFalse => exact doesThrow _
  apply doesBind
  apply doesMono (askDoes (o := .store (setup.digest ⟨finish,groups⟩) ⟨finish,groups⟩) rfl (fun _ => trivial))
  intro stored v₄ relied₄ _
  apply doesBind
  apply doesLift
  intro _ _
  apply doesBind
  have relied := relied₁.trans (relied₂.trans (relied₃.trans relied₄))
  have mine := drawn.grow relied.nonces
  apply doesMono (transactDoes (publishSnapshotChanges mine) 4 (.refl p v₄))
  intro _ v₅ _ _
  split
  case h_1 ref _ =>
    apply doesBind
    apply doesMono (askDoes (o := .delete ref.key) rfl (fun _ => trivial))
    exact fun _ _ _ _ => doesPure trivial
  case h_2 => exact doesPure trivial

theorem snapshotForDoes {now} : Does setup p (snapshotFor setup root finish now deadline) (fun _ _ => True) w := by
  have capture : Does setup p (snapshotFor.capture setup root finish now deadline) (fun _ _ => True) w := by
    unfold snapshotFor.capture
    apply doesBind
    apply doesMono (doesOutcome captureSnapshotDoes)
    intro captured v _ _
    split
    · exact doesPure trivial
    · exact doesThrow _
    apply doesBind
    apply doesMono (doesOutcome (transactDoes recordFailureChanges 4 (.refl p v)))
    exact fun _ _ _ _ => doesThrow _
  unfold snapshotFor
  split
  · split
    · exact fetchSnapshotDoes
    · exact capture
  · exact capture

theorem stepRuns : Runs setup p (step setup deadline) (fun _ _ => True) w := by
  unfold step
  split
  case isFalse => trivial
  apply runsAfter authorizeDoes
  case failed => exact fun _ _ _ => trivial
  intro now v _ _
  unfold advance
  apply runsAfter loadDoes
  case failed => exact fun _ _ _ => trivial
  rintro ⟨root,etag⟩ v₁ _ _
  dsimp only
  split
  · trivial
  apply runsAfter snapshotForDoes
  case failed => exact fun _ _ _ => trivial
  intro snapshot v₂ _ _
  unfold assessNext
  apply runsAfter loadDoes
  case failed => exact fun _ _ _ => trivial
  rintro ⟨root,etag⟩ v₃ _ _
  dsimp only
  split
  · trivial
  · exact assessRuns

theorem startsFollow {task} (started : Starts setup task) (p : Nat) (v : World E D) :
    (discipline setup).follows p task (fun _ _ => True) v := by
  cases started with
  | step => exact Machine.Discipline.followsBind stepRuns
  | dispatch => exact Machine.Discipline.followsBind dispatchRuns
  | complete id token completed =>
    apply Machine.Discipline.followsBind
    exact runsMono (transactDoes completeRunChanges 4 (.refl p v)) (fun _ _ _ => trivial)

end Programs

theorem lengthLeOne {γ : Type} {xs : List γ} (distinct : xs.Nodup) (same : ∀ x ∈ xs, ∀ y ∈ xs, x = y) : xs.length ≤ 1 := by
  match xs with
  | [] => exact Nat.zero_le _
  | [_] => exact le_refl _
  | x::y::rest =>
    have equal := same x mem_cons_self y (mem_cons_of_mem _ mem_cons_self)
    exact absurd (equal ▸ mem_cons_self) (nodup_cons.mp distinct).1

theorem soundFenced (sound : Sound setup w) : Fenced setup w where
  within root member month kind := by
    obtain ⟨k,known⟩ := mem_iff_getElem?.mp member
    have inside := (List.getElem?_eq_some_iff.mp known).1
    have wf := priorWf sound.linked (k + 1) inside
    rw [prior,known,Option.getD_some] at wf
    exact wf.within month kind
  grows i j root later order known known' month open_ kind := by
    obtain ⟨now,forward,rfl⟩ := open_
    have inside := (List.getElem?_eq_some_iff.mp known').1
    have grown := priorLater sound.linked (Nat.succ_le_succ order) inside
    simp only [prior,known,known',Option.getD_some] at grown
    exact grown.spend _ kind (setup.calendar.monotone forward)
  paid := by
    have each (call : Call) : ∃ i, ∀ n, (call,n) ∈ w.calls →
        i < n ∧ ∃ next, w.commits[i]? = some next ∧ Pays setup (prior w.commits i) next call := by
      by_cases made : ∃ n, (call,n) ∈ w.calls
      · obtain ⟨n,member⟩ := made
        obtain ⟨i,before,rest⟩ := backedPaid sound.linked (sound.backed _ member)
        refine ⟨i,fun n' member' => ?_⟩
        have same := inj_on_of_nodup_map sound.distinct member member' rfl
        cases same
        exact ⟨before,rest⟩
      · exact ⟨0,fun n member => absurd ⟨n,member⟩ made⟩
    choose charge pays using each
    refine ⟨charge,?_,fun c member => pays c.1 c.2 member⟩
    rw [nodup_map_iff_inj_on (List.Nodup.of_map Prod.fst sound.distinct)]
    intro c member c' member' same
    obtain ⟨-,next,known,paid⟩ := pays c.1 c.2 member
    obtain ⟨-,next',known',paid'⟩ := pays c'.1 c'.2 member'
    rw [← same] at known' paid'
    cases known.symm.trans known'
    have equal := paysOnce (sound.linked _ _ known) paid paid'
    exact inj_on_of_nodup_map sound.distinct member member' equal
  single finish group followup := by
    refine lengthLeOne ((List.Nodup.of_map Prod.fst sound.distinct).filter _) ?_
    rintro ⟨call,n⟩ kept ⟨call',n'⟩ kept'
    obtain ⟨member,matched⟩ := mem_filter.mp kept
    obtain ⟨member',matched'⟩ := mem_filter.mp kept'
    cases call with
    | investigation => cases matched
    | model f g a u =>
    cases call' with
    | investigation => cases matched'
    | model f' g' a' u' =>
    obtain ⟨rfl,rfl,rfl⟩ := of_decide_eq_true matched
    obtain ⟨rfl,rfl,rfl⟩ := of_decide_eq_true matched'
    have backed := (sound.backed _ member).grow (take_subset _ _)
    have backed' := (sound.backed _ member').grow (take_subset _ _)
    cases sameAttempt sound.linked backed backed'
    exact inj_on_of_nodup_map sound.distinct member member' rfl
  published finish i j one two := publishOnce sound.linked one two

theorem initialSound : Sound setup (World.initial : World E D) where
  linked := nofun
  pending := nofun
  distinct := nodup_nil
  backed := nofun
  drawn := nofun

theorem spendingFenced [DecidableEq E] [DecidableEq D] (setup : Setup E D) (s : State (Op E D) Reply (World E D))
    (run : (machine E D).Run (Starts setup) .initial s) : Fenced setup s.world :=
  soundFenced ((discipline setup).runHolds initialSound (fun _ started p v _ => startsFollow started p v) run)

section Sample

def sampleSetup : Setup Unit Nat where
  calendar := ⟨fun now => now / 1000000,fun now => now / 1000000,fun _ _ le => Int.ediv_le_ediv (by decide) le⟩
  config := ⟨true,some 99,5000,110,500000000000,100000000000,1000000000000,none⟩
  tokenHash := Prod.fst
  rootSize := fun _ => 0
  digest := fun _ => 0
  snapshotSize := fun _ => 0
  rank := fun _ _ => 0

def alone (task : Prog (Op Unit Nat) Reply Unit) (w : World Unit Nat) : State (Op Unit Nat) Reply (World Unit Nat) :=
  ⟨w,Function.update (fun _ => .done ()) 0 task⟩

theorem aloneActs {setup o next answer w v} (run : (machine Unit Nat).Run (Starts setup) .initial (alone (.act o next) w))
    (acts : Acts w 0 o answer v) : (machine Unit Nat).Run (Starts setup) .initial (alone (next answer) v) := by
  have ready : (alone (.act o next) w).running 0 = .act o next := by simp only [alone,Function.update_self]
  have after := run.tail (.act ready acts)
  rwa [alone,Function.update_idem] at after

-- one node claims its first scan; the write lands although it reported a failure
theorem spendingFencedFirstScan : ∃ s, (machine Unit Nat).Run (Starts sampleSetup) .initial s ∧
    s.world.commits.map Root.scanFinish = [some 0] ∧ Fenced sampleSetup s.world := by
  have started : (machine Unit Nat).Run (Starts sampleSetup) .initial
      (alone ((step sampleSetup 0).run >>= fun _ => pure ()) .initial) :=
    Relation.ReflTransGen.refl.tail (.start rfl (.step 0))
  have authorized := aloneActs started (.clock 7000000)
  have loaded := aloneActs (aloneActs authorized (.missing rfl)) (.nonce _)
  have drawn := aloneActs loaded (.nonce _)
  have reloaded := aloneActs (aloneActs drawn (.missing rfl)) (.nonce _)
  have charged := aloneActs (aloneActs reloaded (.clock 7000000)) (.nonce _)
  have written := aloneActs charged (.landed none _ .failed rfl)
  exact ⟨_,written,by rfl,spendingFenced sampleSetup _ written⟩

end Sample

end Pulso.Reliability
