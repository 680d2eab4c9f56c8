import Mathlib.Computability.RegularExpressions
import Pulso.AlertLifecycle

/-! The lifecycle of one label set as a machine of its own: what it goes through under any
verdicts, with the timing of its events and the words they form. -/
namespace Pulso.Alerting.Lifecycle
open List

inductive Verdict where
  | holds | fails
  -- no data, which the rule ignores
  | frozen
  deriving DecidableEq, Repr

structure Moment where
  time : Int
  verdict : Verdict
  emitted : List EventType
  deriving DecidableEq, Repr

inductive Phase where
  | idle
  | pending (since : Int)
  | firing
  | recovering (hold : Int)
  deriving DecidableEq, Repr

/- `wait` and `keep` are `for_ms` and `keep_firing_ms` in nanoseconds. -/
inductive Step (wait keep : Nat) : Phase → Moment → Phase → Prop
  | frozen (phase time) : Step wait keep phase ⟨time,.frozen,[]⟩ phase
  | quiet (time) : Step wait keep .idle ⟨time,.fails,[]⟩ .idle
  | fire (time) : wait = 0 → Step wait keep .idle ⟨time,.holds,[.firing]⟩ .firing
  | pend (time) : 0 < wait → Step wait keep .idle ⟨time,.holds,[.pending]⟩ (.pending time)
  | ripen {since time : Int} : since + wait ≤ time → Step wait keep (.pending since) ⟨time,.holds,[.firing]⟩ .firing
  | stay {since} (time) : Step wait keep (.pending since) ⟨time,.holds,[]⟩ (.pending since)
  | drop {since} (time) : Step wait keep (.pending since) ⟨time,.fails,[.resolved]⟩ .idle
  | burn (time) : Step wait keep .firing ⟨time,.holds,[]⟩ .firing
  | recover (time) : Step wait keep .firing ⟨time,.fails,[.recovering]⟩ (.recovering (time + keep))
  | resolve (time) : keep = 0 → Step wait keep .firing ⟨time,.fails,[.resolved]⟩ .idle
  | retrigger {hold} (time) : Step wait keep (.recovering hold) ⟨time,.holds,[.retriggered]⟩ .firing
  | hold {hold} (time) : Step wait keep (.recovering hold) ⟨time,.fails,[]⟩ (.recovering hold)
  | expire {hold time : Int} : hold ≤ time → Step wait keep (.recovering hold) ⟨time,.fails,[.resolved]⟩ .idle

inductive Path (wait keep : Nat) : List Moment → Phase → Prop
  | start : Path wait keep [] .idle
  | next {moments phase moment after} : Path wait keep moments phase → Step wait keep phase moment after →
      Path wait keep (moments ++ [moment]) after

section Timing
variable {wait keep : Nat} {moments older : List Moment} {moment : Moment} {phase : Phase}

theorem pathLast (path : Path wait keep (moments ++ [moment]) phase) :
    ∃ before, Path wait keep moments before ∧ Step wait keep before moment phase := by
  generalize all : moments ++ [moment] = ms at path
  cases path with
  | start => simp at all
  | next path step =>
    obtain ⟨rfl,same⟩ := append_inj' all rfl
    cases same
    exact ⟨_,path,step⟩

theorem pathPrefix {more} (path : Path wait keep (moments ++ more) phase) :
    ∃ before, Path wait keep moments before := by
  induction more using List.reverseRecOn generalizing phase with
  | nil => exact ⟨phase,append_nil moments ▸ path⟩
  | append_singleton more moment ih =>
    rw [← append_assoc] at path
    obtain ⟨before,path,-⟩ := pathLast path
    exact ih path

theorem pathAt {after} (path : Path wait keep (older ++ moment :: after) phase) :
    ∃ before next, Path wait keep older before ∧ Step wait keep before moment next := by
  rw [← singleton_append,← append_assoc] at path
  obtain ⟨next,path⟩ := pathPrefix path
  obtain ⟨before,path,step⟩ := pathLast path
  exact ⟨before,next,path,step⟩

def Streak (begins goes : Moment → Prop) (moments : List Moment) : Prop :=
  ∃ older start run, moments = older ++ start :: run ∧ begins start ∧ ∀ m ∈ run, goes m

theorem Streak.start {begins goes} (begun : begins moment) : Streak begins goes (moments ++ [moment]) :=
  ⟨moments,moment,[],rfl,begun,nofun⟩

theorem Streak.next {begins goes} (streak : Streak begins goes moments) (on : goes moment) :
    Streak begins goes (moments ++ [moment]) := by
  obtain ⟨older,start,run,rfl,begun,each⟩ := streak
  refine ⟨older,start,run ++ [moment],append_assoc _ _ _,begun,?_⟩
  intro m member
  rcases mem_append.mp member with old|new
  · exact each m old
  · exact mem_singleton.mp new ▸ on

theorem pendingSince {since} (path : Path wait keep moments (.pending since)) :
    Streak (fun m => m.time = since ∧ .pending ∈ m.emitted ∧ m.verdict = .holds) (fun m => m.verdict ≠ .fails) moments := by
  generalize at_ : Phase.pending since = phase at path
  induction path with
  | start => cases at_
  | next path step ih =>
    subst at_
    cases step with
    | frozen => exact (ih rfl).next nofun
    | stay => exact (ih rfl).next nofun
    | pend => exact .start ⟨rfl,mem_singleton_self _,rfl⟩

theorem firingRipe (positive : 0 < wait) (path : Path wait keep moments phase) {after}
    (step : Step wait keep phase moment after) (fired : .firing ∈ moment.emitted) :
    moment.verdict = .holds ∧ Streak (fun m => m.time + wait ≤ moment.time ∧ .pending ∈ m.emitted ∧ m.verdict = .holds)
      (fun m => m.verdict ≠ .fails) moments := by
  cases step with
  | fire _ none => omega
  | ripen ripe =>
    obtain ⟨older,start,run,rfl,⟨same,rest⟩,each⟩ := pendingSince path
    exact ⟨rfl,older,start,run,rfl,⟨by rw [same]; exact ripe,rest⟩,each⟩
  | frozen | quiet | pend | stay | drop | burn | recover | resolve | retrigger | hold | expire => simp at fired

def Fired (keep : Nat) (since : List Moment) : Phase → Prop
  | .firing => True
  | .recovering hold => Streak (fun m => m.time + keep = hold ∧ m.verdict = .fails) (fun m => m.verdict ≠ .holds) since
  | _ => False

theorem firedStep {after} (fired : Fired keep moments phase) (step : Step wait keep phase moment after)
    (unresolved : .resolved ∉ moment.emitted) : Fired keep (moments ++ [moment]) after := by
  cases step with
  | frozen =>
    cases phase with
    | firing => trivial
    | recovering => exact Streak.next fired nofun
    | idle => exact fired
    | pending => exact fired
  | burn => trivial
  | recover => exact Streak.start ⟨rfl,rfl⟩
  | retrigger => trivial
  | hold => exact Streak.next fired nofun
  | quiet | fire | pend | ripen | stay => exact fired.elim
  | drop | resolve | expire => simp at unresolved

theorem firedPhase {start} (fired : .firing ∈ start.emitted) (path : Path wait keep (older ++ start :: moments) phase)
    (unresolved : ∀ m ∈ moments, .resolved ∉ m.emitted) : Fired keep moments phase := by
  induction moments using List.reverseRecOn generalizing phase with
  | nil =>
    obtain ⟨before,-,step⟩ := pathLast path
    cases step with
    | fire | ripen => trivial
    | frozen | quiet | pend | stay | drop | burn | recover | resolve | retrigger | hold | expire => simp at fired
  | append_singleton moments moment ih =>
    rw [← cons_append,← append_assoc] at path
    obtain ⟨before,path,step⟩ := pathLast path
    have earlier := ih path (fun m member => unresolved m (mem_append_left _ member))
    exact firedStep earlier step (unresolved moment (mem_append_right _ mem_cons_self))

theorem resolvedLate {after} (fired : Fired keep moments phase) (step : Step wait keep phase moment after)
    (resolved : .resolved ∈ moment.emitted) :
    moment.verdict = .fails ∧ Streak (fun m => m.time + keep ≤ moment.time ∧ m.verdict = .fails)
      (fun m => m.verdict ≠ .holds) (moments ++ [moment]) := by
  cases step with
  | drop => exact fired.elim
  | resolve time none => exact ⟨rfl,.start ⟨by simp [none],rfl⟩⟩
  | @expire hold time late =>
    obtain ⟨older,start,run,rfl,⟨same,failed⟩,each⟩ := fired
    exact ⟨rfl,Streak.next ⟨older,start,run,rfl,⟨by rw [same]; exact late,failed⟩,each⟩ nofun⟩
  | frozen | quiet | fire | pend | ripen | stay | burn | recover | retrigger | hold => simp at resolved

end Timing

section Words
open RegularExpression

abbrev letter (type : EventType) : RegularExpression EventType := .char type

/- `(recovering retriggered)* recovering? resolved`, what follows a firing event. -/
def burning : RegularExpression EventType :=
  (letter .recovering * letter .retriggered).star * (1 + letter .recovering) * letter .resolved

def life : RegularExpression EventType :=
  letter .pending * (letter .resolved + letter .firing * burning) + letter .firing * burning

def lives : RegularExpression EventType := life.star

def Phase.remaining : Phase → Language EventType
  | .idle => lives.matches'
  | .pending _ => (letter .resolved + letter .firing * burning).matches' * lives.matches'
  | .firing => burning.matches' * lives.matches'
  | .recovering _ => (letter .retriggered * burning + letter .resolved).matches' * lives.matches'

theorem livesSplit : lives.matches' = 1 + life.matches' * lives.matches' := by
  rw [lives,matches'_star,Language.one_add_self_mul_kstar_eq_kstar]

theorem burningSplit :
    burning.matches' = {[.resolved]} + {[.recovering]} * (letter .retriggered * burning + letter .resolved).matches' := by
  have split := Language.one_add_self_mul_kstar_eq_kstar ({[EventType.recovering]} * {[EventType.retriggered]} : Language EventType)
  simp only [burning,matches'_mul,matches'_star,matches'_add,matches'_epsilon,matches'_char]
  nth_rewrite 1 [← split]
  simp only [add_mul,mul_add,one_mul,mul_one,mul_assoc]
  ac_rfl

theorem consChar {a b word l} : b :: word ∈ ({[a]} : Language EventType) * l ↔ b = a ∧ word ∈ l := by
  constructor
  · rintro ⟨x,rfl,y,member,same⟩
    cases same
    exact ⟨rfl,member⟩
  · rintro ⟨rfl,member⟩
    exact ⟨[b],rfl,word,member,rfl⟩

theorem nilChar {a l} : [] ∉ ({[a]} : Language EventType) * l := by
  rintro ⟨x,rfl,y,member,same⟩
  cases same

theorem remainingIdle (since : Int) : Phase.idle.remaining =
    1 + {[.pending]} * (Phase.pending since).remaining + {[.firing]} * Phase.firing.remaining := by
  simp only [Phase.remaining]
  nth_rewrite 1 [livesSplit]
  simp only [life,matches'_add,matches'_mul,matches'_char,add_mul,mul_add,mul_assoc,add_assoc]

theorem remainingPending (since : Int) : (Phase.pending since).remaining =
    {[.resolved]} * Phase.idle.remaining + {[.firing]} * Phase.firing.remaining := by
  simp only [Phase.remaining,matches'_add,matches'_mul,matches'_char,add_mul,mul_assoc]

theorem remainingFiring (hold : Int) : Phase.firing.remaining =
    {[.resolved]} * Phase.idle.remaining + {[.recovering]} * (Phase.recovering hold).remaining := by
  simp only [Phase.remaining]
  nth_rewrite 1 [burningSplit]
  simp only [add_mul,mul_assoc]

theorem remainingRecovering (hold : Int) : (Phase.recovering hold).remaining =
    {[.retriggered]} * Phase.firing.remaining + {[.resolved]} * Phase.idle.remaining := by
  simp only [Phase.remaining,matches'_add,matches'_mul,matches'_char,add_mul,mul_assoc]

variable {wait keep : Nat} {moments : List Moment} {moment : Moment} {phase after : Phase}

theorem stepRemaining (step : Step wait keep phase moment after) (rest : List EventType) :
    moment.emitted ++ rest ∈ phase.remaining ↔ rest ∈ after.remaining := by
  cases step with
  | frozen | quiet | stay | burn | hold => exact Iff.rfl
  | fire =>
    rw [remainingIdle 0,singleton_append,Language.mem_add,Language.mem_add,consChar,consChar]
    simp [Language.mem_one]
  | pend time =>
    rw [remainingIdle time,singleton_append,Language.mem_add,Language.mem_add,consChar,consChar]
    simp [Language.mem_one]
  | ripen | drop =>
    rw [remainingPending,singleton_append,Language.mem_add,consChar,consChar]
    simp
  | recover time =>
    rw [remainingFiring (time + keep),singleton_append,Language.mem_add,consChar,consChar]
    simp
  | resolve =>
    rw [remainingFiring 0,singleton_append,Language.mem_add,consChar,consChar]
    simp
  | retrigger | expire =>
    rw [remainingRecovering,singleton_append,Language.mem_add,consChar,consChar]
    simp

def word (moments : List Moment) : List EventType := moments.flatMap Moment.emitted

theorem pathRemaining (path : Path wait keep moments phase) (rest : List EventType) :
    word moments ++ rest ∈ lives.matches' ↔ rest ∈ phase.remaining := by
  induction path generalizing rest with
  | start => exact Iff.rfl
  | @next moments before moment after path step ih =>
    have split : word (moments ++ [moment]) ++ rest = word moments ++ (moment.emitted ++ rest) := by simp [word]
    rw [split,ih,stepRemaining step]

theorem nilRemaining : [] ∈ phase.remaining ↔ phase = .idle := by
  cases phase with
  | idle => exact iff_of_true (Language.nil_mem_kstar _) rfl
  | pending since =>
    rw [remainingPending,Language.mem_add]
    simp [nilChar]
  | firing =>
    rw [remainingFiring 0,Language.mem_add]
    simp [nilChar]
  | recovering hold =>
    rw [remainingRecovering,Language.mem_add]
    simp [nilChar]

theorem someRemaining (phase : Phase) : ∃ rest, rest ∈ phase.remaining := by
  have idle : [] ∈ Phase.idle.remaining := nilRemaining.mpr rfl
  cases phase with
  | idle => exact ⟨[],idle⟩
  | pending since =>
    refine ⟨[.resolved],?_⟩
    rw [remainingPending,Language.mem_add,consChar]
    exact .inl ⟨rfl,idle⟩
  | firing =>
    refine ⟨[.resolved],?_⟩
    rw [remainingFiring 0,Language.mem_add,consChar]
    exact .inl ⟨rfl,idle⟩
  | recovering hold =>
    refine ⟨[.resolved],?_⟩
    rw [remainingRecovering,Language.mem_add,consChar,consChar]
    exact .inr ⟨rfl,idle⟩

theorem pathWord (path : Path wait keep moments phase) :
    (∃ rest, word moments ++ rest ∈ lives.matches') ∧ (word moments ∈ lives.matches' ↔ phase = .idle) := by
  obtain ⟨rest,member⟩ := someRemaining phase
  refine ⟨⟨rest,(pathRemaining path rest).mpr member⟩,?_⟩
  rw [← nilRemaining,← pathRemaining path,append_nil]

end Words

end Pulso.Alerting.Lifecycle
