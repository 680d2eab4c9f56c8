import Pulso.ReliabilityRuns

/-! Every program of the reliability loop keeps to the discipline: it writes only changes made
from the root it loaded, and calls only after its own claim is known to be committed. -/
namespace Pulso.Reliability
open Pulso.Interleaving Machine.Discipline List
variable {E D : Type} {setup : Setup E D} {p : Nat} {w v : World E D} {α β : Type}

def Runs (setup : Setup E D) (p : Nat) (task : Task E D α) (post : Except Reason α → World E D → Prop) (w : World E D) : Prop :=
  (discipline setup).follows p task.run post w

variable {task : Task E D α}

theorem runsMono {post post'} (runs : Runs setup p task post w)
    (weaker : ∀ r v, post r v → post' r v) : Runs setup p task post' w := followsMono runs weaker

theorem runsBind {k} {post : Except Reason β → World E D → Prop} (runs : Runs setup p task (fun r v => match r with
      | .ok a => Runs setup p (k a) post v
      | .error reason => post (.error reason) v) w) : Runs setup p (task >>= k) post w := by
  apply followsBind
  apply followsMono runs
  intro r v after
  cases r with
  | ok a => exact after
  | error reason => exact after

theorem runsOp {o post}
    (step : ∀ v, Rely p w v → Sound setup v → Allowed setup v p o ∧ ∀ answer u, Acts v p o answer u → post (.ok answer) u) :
    Runs setup p (op o) post w := step

theorem runsOutcome {post}
    (runs : Runs setup p task (fun r v => post (.ok r) v) w) : Runs setup p (outcome task) post w := by
  apply followsBind
  exact runs

def Does (setup : Setup E D) (p : Nat) (task : Task E D α) (post : α → World E D → Prop) (w : World E D) : Prop :=
  Runs setup p task (fun r v => Rely p w v ∧ ∀ a, r = .ok a → post a v) w

section Does
variable {post post' : α → World E D → Prop}

theorem doesPure {a} (h : post a w) : Does setup p (pure a) post w :=
  ⟨.refl p w,by rintro _ ⟨⟩; exact h⟩

theorem doesThrow (reason : Reason) : Does setup p (throw reason) post w := ⟨.refl p w,nofun⟩

theorem doesMono {task} (does : Does setup p task post w) (weaker : ∀ a v, Rely p w v → post a v → post' a v) :
    Does setup p task post' w :=
  runsMono does (fun _ v after => ⟨after.1,fun a ok => weaker a v after.1 (after.2 a ok)⟩)

theorem doesBind {task} {k : β → Task E D α} (does : Does setup p task (fun b v => Does setup p (k b) post v) w) :
    Does setup p (task >>= k) post w := by
  apply runsBind
  apply runsMono does
  rintro r v ⟨relied,after⟩
  cases r with
  | error reason => exact ⟨relied,nofun⟩
  | ok b => exact runsMono (after b rfl) (fun _ u last => ⟨relied.trans last.1,last.2⟩)

theorem doesOp {o post} (silent : quiet o) (step : ∀ v, Rely p w v → Sound setup v →
      Allowed setup v p o ∧ ∀ answer u, Acts v p o answer u → post answer u) : Does setup p (op o) post w := by
  intro v relied sound
  obtain ⟨allowed,after⟩ := step v relied sound
  refine ⟨allowed,fun answer u acts => ⟨relied.trans (actsQuiet silent acts),?_⟩⟩
  rintro _ ⟨⟩
  exact after answer u acts

theorem doesLift {result} (h : ∀ a, result = .ok a → post a w) : Does setup p (liftExcept result) post w := by
  cases result with
  | ok a => exact doesPure (h a rfl)
  | error reason => exact doesThrow reason

theorem doesOutcome {task} (does : Does setup p task post w) :
    Does setup p (outcome task) (fun r v => ∀ a, r = .ok a → post a v) w := by
  apply runsOutcome
  apply runsMono does
  rintro r v ⟨relied,after⟩
  refine ⟨relied,?_⟩
  rintro _ ⟨⟩
  exact after

end Does

/- A loaded root is the one its version was committed with, or an empty one before any commit. -/
structure Loaded (w : World E D) (root : Root E D) (etag : Option Nat) : Prop where
  inside : etag.getD 0 ≤ w.commits.length
  version : root = prior w.commits (etag.getD 0) ∨ (etag = none ∧ ∃ generation, root = .empty generation)

variable {etag : Option Nat}

theorem Loaded.grow {root} (loaded : Loaded w root etag) (relied : Rely p w v) : Loaded v root etag where
  inside := loaded.inside.trans relied.commits.length_le
  version := by
    rw [priorGrow loaded.inside relied.commits]
    exact loaded.version

theorem Loaded.wf {root} (loaded : Loaded w root etag) (sound : Sound setup w) : Wf setup w.nonces root := by
  rcases loaded.version with rfl|⟨-,generation,rfl⟩
  · exact priorWf sound.linked _ loaded.inside
  · exact emptyWf generation

structure Alike (a b : Root E D) : Prop where
  spend : a.spend = b.spend
  clock : a.clock = b.clock
  snapshot : a.snapshot = b.snapshot
  scanFinish : a.scanFinish = b.scanFinish
  scanClaim : a.scanClaim = b.scanClaim
  assessments : a.assessments = b.assessments
  investigations : a.investigations = b.investigations

section Alike
variable {a b c d : Root E D} {nonces : Nonces}

theorem Alike.refl (a : Root E D) : Alike a a := ⟨rfl,rfl,rfl,rfl,rfl,rfl,rfl⟩

theorem spentSame (same : a.spend = b.spend) (month : Int) (kind : Kind) : a.spent month kind = b.spent month kind := by
  rw [Root.spent,same]
  rfl

theorem Alike.attempt (same : Alike a b) (id : String) : a.attempt id = b.attempt id := by
  rw [Root.attempt,same.assessments]
  rfl

theorem Alike.finish (same : Alike a b) : a.finish = b.finish := by
  rw [Root.finish,same.snapshot]
  rfl

theorem Charged.same {now added} (charged : Charged setup a c now added)
    (from_ : a.spend = b.spend) (to_ : c.spend = d.spend) : Charged setup b d now added where
  top kind := by rw [← spentSame to_,← spentSame from_,charged.top]
  rest month kind other := by
    rw [← spentSame to_,← spentSame from_]
    exact charged.rest month kind other
  months := to_ ▸ charged.months
  within bounded month kind := by
    rw [← spentSame to_]
    exact charged.within (fun m k => (spentSame from_ m k).le.trans (bounded m k)) month kind

variable (from_ : Alike a b)
include from_

variable (to_ : Alike c d)
include to_

theorem SameLedger.alike (same : SameLedger a c) : SameLedger b d :=
  ⟨by rw [← to_.spend,← from_.spend,same.spend],by rw [← to_.clock,← from_.clock,same.clock]⟩

theorem SameWindow.alike (same : SameWindow a c) : SameWindow b d :=
  ⟨by rw [← to_.snapshot,← from_.snapshot,same.snapshot],by rw [← to_.scanFinish,← from_.scanFinish,same.scanFinish],
    by rw [← to_.scanClaim,← from_.scanClaim,same.scanClaim]⟩

theorem SameAttempts.alike (same : SameAttempts a c) : SameAttempts b d := by
  intro id
  rw [← to_.attempt,← from_.attempt,same]

theorem SameRuns.alike (same : SameRuns a c) : SameRuns b d := by
  unfold SameRuns
  rw [← to_.investigations,← from_.investigations]
  exact same

theorem Move.alike (move : Move setup nonces a c) : Move setup nonces b d := by
  cases move with
  | keep ledger window attempts runs =>
    exact .keep (ledger.alike from_ to_) (window.alike from_ to_) (attempts.alike from_ to_) (runs.alike from_ to_)
  | scan finish claim drawn after forward charged scanFinish scanClaim snapshot attempts runs =>
    refine .scan finish claim drawn (from_.scanFinish ▸ after) ?_ ?_ (to_.scanFinish ▸ scanFinish)
      (to_.scanClaim ▸ scanClaim) ?_ (attempts.alike from_ to_) (runs.alike from_ to_)
    · rw [← to_.clock,← from_.clock]
      exact forward
    · rw [← to_.clock]
      exact charged.same from_.spend to_.spend
    · rw [← to_.snapshot,← from_.snapshot,snapshot]
  | publish finish claim drawn claimed ledger snapshot attempts scanFinish scanClaim runs =>
    refine .publish finish claim drawn (from_.scanClaim ▸ claimed) (ledger.alike from_ to_) (to_.finish ▸ snapshot) ?_ ?_
      (to_.scanClaim ▸ scanClaim) (runs.alike from_ to_)
    · intro id
      rw [← to_.attempt,attempts]
    · rw [← to_.scanFinish,← from_.scanFinish,scanFinish]
  | reserve finish id attempt calls current slot forward charged window reserved others runs =>
    refine .reserve finish id attempt calls (from_.finish ▸ current) ?_ ?_ ?_ (window.alike from_ to_) ?_ ?_
      (runs.alike from_ to_)
    · rw [← from_.attempt]
      exact slot
    · rw [← to_.clock,← from_.clock]
      exact forward
    · rw [← to_.clock]
      exact charged.same from_.spend to_.spend
    · rw [← to_.attempt,reserved]
    · intro other different
      rw [← to_.attempt,← from_.attempt,others other different]
  | run id forward charged window attempts runs =>
    refine .run id ?_ ?_ (window.alike from_ to_) (attempts.alike from_ to_) ?_
    · rw [← to_.clock,← from_.clock]
      exact forward
    · rw [← to_.clock]
      exact charged.same from_.spend to_.spend
    · rw [← to_.investigations,← from_.investigations]
      exact runs

end Alike

theorem Loaded.move {root next} (loaded : Loaded w root etag)
    (move : Move setup w.nonces root next) : Move setup w.nonces (prior w.commits (etag.getD 0)) next := by
  rcases loaded.version with rfl|⟨rfl,generation,rfl⟩
  · exact move
  · exact Move.alike (a := .empty generation) ⟨rfl,rfl,rfl,rfl,rfl,rfl,rfl⟩ (.refl next) move

theorem loadDoes : Does setup p (load (E := E) (D := D)) (fun r v => Loaded v r.1 r.2 ∧ Wf setup v.nonces r.1) w := by
  apply doesBind
  apply doesOp rfl
  intro v relied sound
  refine ⟨trivial,fun answer u acts => ?_⟩
  cases acts with
  | @found root last =>
    apply doesPure
    have loaded : Loaded v root (some v.commits.length) := by
      refine ⟨le_refl _,.inl ?_⟩
      obtain ⟨xs,all⟩ := getLast?_eq_some_iff.mp last
      simp [prior,all]
    exact ⟨loaded,loaded.wf sound⟩
  | missing none =>
    apply doesBind
    apply doesOp rfl
    intro u' relied' sound'
    refine ⟨trivial,fun generation v' acts => ?_⟩
    exact doesPure ⟨⟨Nat.zero_le _,.inr ⟨rfl,generation,rfl⟩⟩,emptyWf generation⟩
  | unread reason => exact doesThrow reason

variable [DecidableEq E] [DecidableEq D]

def Landed (w : World E D) (next : Root E D) : Prop := ∃ publication, { next with publication := publication } ∈ w.commits

theorem readbackDoes {candidate : Root E D} {result : β} :
    Does setup p (readback candidate result) (fun b v => b = result ∧ candidate ∈ v.commits) w := by
  apply doesBind
  apply doesOp rfl
  intro v relied sound
  refine ⟨trivial,fun answer u acts => ?_⟩
  cases acts with
  | @found root last =>
    dsimp only
    split
    case isTrue same => exact doesPure ⟨rfl,same ▸ mem_of_getLast? last⟩
    case isFalse => exact doesThrow _
  | missing => exact doesThrow _
  | unread => exact doesThrow _

def Changes (setup : Setup E D) (p : Nat) (change : Root E D → Task E D (Root E D × β)) (made : β → Root E D → Prop)
    (w : World E D) : Prop :=
  ∀ v root, Rely p w v → Wf setup v.nonces root →
    Does setup p (change root) (fun r u => Move setup u.nonces root r.1 ∧ made r.2 r.1) v

theorem transactDoes {change : Root E D → Task E D (Root E D × β)} {made : β → Root E D → Prop}
    (changes : Changes setup p change made w) (attempts : Nat) (relied : Rely p w v) :
    Does setup p (transact setup change attempts) (fun result u => ∃ next, made result next ∧ Landed u next) v := by
  induction attempts generalizing v with
  | zero => exact doesThrow _
  | succ attempts ih =>
    apply doesBind
    apply doesMono loadDoes
    rintro ⟨root,etag⟩ u since ⟨loaded,wf⟩
    apply doesBind
    apply doesMono (changes u root (relied.trans since) wf)
    rintro ⟨next,result⟩ u₁ since₁ ⟨move,own⟩
    apply doesBind
    apply doesOp rfl
    intro u₂ since₂ _
    refine ⟨trivial,fun publication u₃ acts => ?_⟩
    have since₃ : Rely p u u₃ := since₁.trans (since₂.trans (actsQuiet rfl acts))
    have written : Move setup u₃.nonces root { next with publication := some publication } :=
      Move.alike (c := next) (.refl root) ⟨rfl,rfl,rfl,rfl,rfl,rfl,rfl⟩
        (move.grow (since₂.trans (actsQuiet rfl acts)).nonces)
    dsimp only
    split
    case isFalse => exact doesThrow _
    apply doesBind
    apply doesOp rfl
    intro u₄ since₄ _
    have here := loaded.grow (since₃.trans since₄)
    refine ⟨⟨here.inside,here.move (written.grow since₄.nonces)⟩,fun answer u₅ acts₅ => ?_⟩
    have landed {v'} (same : result = result ∧ { next with publication := some publication } ∈ v'.commits) :
        ∃ next, made result next ∧ Landed v' next := ⟨next,own,some publication,same.2⟩
    cases answer with
    | ok =>
      cases acts₅ with
      | landed => exact doesPure (landed ⟨rfl,mem_append_right _ mem_cons_self⟩)
      | lost _ _ _ wrong => exact absurd rfl wrong
      | delayed _ _ _ wrong => exact absurd rfl wrong
    | conflict => exact ih (relied.trans (since.trans (since₃.trans (since₄.trans (actsQuiet rfl acts₅)))))
    | failed =>
      apply doesMono readbackDoes
      rintro _ v' _ ⟨rfl,member⟩
      exact landed ⟨rfl,member⟩

end Pulso.Reliability
