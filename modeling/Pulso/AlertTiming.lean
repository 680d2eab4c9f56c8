import Pulso.AlertTrace

/-! Evaluations of a threshold rule, seen by one label set, are a path of the lifecycle, whatever
the other label sets do. -/
namespace Pulso.Alerting.Lifecycle
open List
variable {A ν : Type}

section Advance
variable {condition : Condition ν} {time : Int} {hit : Bool} {prior : Option Instance} {seen : Option (Point ν)}

def waitNs (condition : Condition ν) : Nat := condition.forMs * 1000000
def keepNs (condition : Condition ν) : Nat := condition.keepFiringMs * 1000000
def judge (hit : Bool) : Verdict := if hit then .holds else .fails

inductive Shows : Option Instance → Phase → Prop
  | idle : Shows none .idle
  | pending {held : Instance} : held.status = .pending → Shows (some held) (.pending held.pendingSince)
  | firing {held : Instance} : held.status = .firing → Shows (some held) .firing
  | recovering {held : Instance} {hold : Int} : held.status = .recovering → held.holdUntil = some hold →
      Shows (some held) (.recovering hold)

def Does (condition : Condition ν) (time : Int) (verdict : Verdict) (phase : Phase)
    (result : Option Instance × Option (EventType × Instance)) : Prop :=
  ∃ after, Shows result.1 after ∧
    Step (waitNs condition) (keepNs condition) phase ⟨time,verdict,(result.2.map Prod.fst).toList⟩ after

theorem advanceHit {phase} (shows : Shows prior phase) (point : Point ν) :
    Does condition time .holds phase (advance condition time true prior (some point)) := by
  cases shows with
  | idle =>
    by_cases zero : condition.forMs = 0
    · simp only [advance,zero,if_true]
      exact ⟨.firing,.firing rfl,.fire time (by simp [waitNs,zero])⟩
    · simp only [advance,zero,if_false]
      exact ⟨.pending time,.pending rfl,.pend time (Nat.mul_pos (Nat.pos_of_ne_zero zero) (by decide))⟩
  | @pending held status =>
    by_cases ripe : time - held.pendingSince ≥ condition.forMs * 1000000
    · simp only [advance,status,ripe,and_self,if_true]
      exact ⟨.firing,.firing rfl,.ripen (by simp only [waitNs]; push_cast; omega)⟩
    · simp only [advance,status,ripe,and_false,if_false,reduceCtorEq]
      exact ⟨.pending held.pendingSince,.pending rfl,.stay time⟩
  | firing status =>
    simp only [advance,status,reduceCtorEq,false_and,if_false]
    exact ⟨.firing,.firing rfl,.burn time⟩
  | recovering status held =>
    simp only [advance,status,reduceCtorEq,false_and,if_false,if_true]
    exact ⟨.firing,.firing rfl,.retrigger time⟩

theorem advanceMiss {phase} (shows : Shows prior phase) :
    Does condition time .fails phase (advance condition time false prior seen) := by
  cases shows with
  | idle =>
    simp only [advance]
    exact ⟨.idle,.idle,.quiet time⟩
  | pending status =>
    simp only [advance,status,if_true]
    exact ⟨.idle,.idle,.drop time⟩
  | firing status =>
    by_cases positive : condition.keepFiringMs > 0
    · simp only [advance,status,positive,reduceCtorEq,and_self,if_false,if_true]
      exact ⟨_,.recovering rfl (by simp only [keepNs]; push_cast; rfl),.recover time⟩
    · simp only [advance,status,positive,reduceCtorEq,and_false,false_and,if_false]
      exact ⟨.idle,.idle,.resolve time (by simp only [keepNs]; omega)⟩
  | @recovering held hold status until_ =>
    by_cases early : time < hold
    · simp only [advance,status,until_,early,Option.getD_some,reduceCtorEq,false_and,and_self,if_false,if_true]
      exact ⟨.recovering hold,.recovering rfl rfl,.hold time⟩
    · simp only [advance,status,until_,early,Option.getD_some,reduceCtorEq,false_and,and_false,if_false]
      exact ⟨.idle,.idle,.expire (not_lt.mp early)⟩

end Advance

section Keys
variable {encode : LabelSet → String} {numbers : Numbers ν} {rule : Rule} {condition : Condition ν} {setting : Setting A}
  {previous : Dict String Instance} {points : Dict String (Point ν)} {key : String} {labels : LabelSet}

def advanced (numbers : Numbers ν) (condition : Condition ν) (time : Int) (previous : Dict String Instance)
    (points : Dict String (Point ν)) (key : String) : Option Instance × Option (EventType × Instance) :=
  advance condition time (((points.get? key).map fun point => condition.compare numbers point.number).getD false)
    (previous.get? key) (points.get? key)

def Keyed {β : Type} (encode : LabelSet → String) (labelsOf : β → LabelSet) (entries : Dict String β) : Prop :=
  ∀ key entry, entries.get? key = some entry → encode (labelsOf entry) = key

theorem pointsKeyed {samples : List Recording.Row} {acc} (keyed : Keyed encode Point.labels acc)
    (read : samples.foldlM (point encode numbers rule) acc = some points) : Keyed encode Point.labels points := by
  induction samples generalizing acc with
  | nil =>
    cases read
    exact keyed
  | cons row samples ih =>
    obtain ⟨next,one,rest⟩ := Option.bind_eq_some_iff.mp read
    refine ih ?_ rest
    obtain ⟨⟨labels,value⟩,-,one⟩ := Option.bind_eq_some_iff.mp one
    dsimp only at one
    split at one <;> try cases one
    obtain ⟨number,-,one⟩ := Option.bind_eq_some_iff.mp one
    split at one <;> try cases one
    split at one <;> cases one
    intro key entry found
    by_cases same : key = encode (alertLabels rule labels)
    · subst same
      rw [Dict.getPutSame] at found
      cases found
      rfl
    · rw [Dict.getPutOther _ _ same] at found
      exact keyed key entry found

theorem advanceLabels {time hit prior seen held} (result : (advance condition time hit prior seen).1 = some held ∨
      ∃ type, (advance condition time hit prior seen).2 = some (type,held)) :
    (∃ before, prior = some before ∧ held.labels = before.labels) ∨ ∃ point, seen = some point ∧ held.labels = point.labels := by
  cases prior with
  | none =>
    cases seen with
    | none => simp [advance] at result
    | some point =>
      cases hit with
      | false => simp [advance] at result
      | true =>
        simp only [advance] at result
        grind
  | some before =>
    cases hit with
    | true =>
      simp only [advance] at result
      grind
    | false =>
      simp only [advance] at result
      grind

theorem advancedKeyed {time held} (instances : Keyed encode Instance.labels previous)
    (read : Keyed encode Point.labels points)
    (result : (advanced numbers condition time previous points key).1 = some held ∨
      ∃ type, (advanced numbers condition time previous points key).2 = some (type,held)) : encode held.labels = key := by
  rcases advanceLabels result with ⟨before,found,same⟩|⟨point,found,same⟩
  · rw [same]
    exact instances key before found
  · rw [same]
    exact read key point found

def emitted (encode : LabelSet → String) (labels : LabelSet) (events : List (Draft A)) : List EventType :=
  events.filterMap (fun draft => draft.alert.bind (fun held => if encode held.labels = encode labels then some draft.type else none))

variable {acc : Dict String Instance × List (Draft A)}

theorem foldGet {keys : List String} (distinct : keys.Nodup) (absent : ∀ k ∈ keys, acc.1.get? k = none) :
    (keys.foldl (stepInstance numbers condition setting previous points) acc).1.get? key =
      if key ∈ keys then (advanced numbers condition setting.time previous points key).1 else acc.1.get? key := by
  induction keys generalizing acc with
  | nil => rfl
  | cons k keys ih =>
    obtain ⟨fresh,distinct⟩ := nodup_cons.mp distinct
    have others (other : String) (ne : other ≠ k) :
        (stepInstance numbers condition setting previous points acc k).1.get? other = acc.1.get? other := by
      simp only [stepInstance]
      split
      · exact Dict.getPutOther _ _ ne
      · rfl
    have own : (stepInstance numbers condition setting previous points acc k).1.get? k =
        (advanced numbers condition setting.time previous points k).1 := by
      simp only [stepInstance,advanced]
      split
      case h_1 next found => rw [Dict.getPutSame,found]
      case h_2 found => rw [found,absent k mem_cons_self]
    rw [foldl_cons,ih distinct]
    · by_cases same : key = k
      · subst same
        rw [if_neg fresh,if_pos mem_cons_self,own]
      · rw [others key same]
        simp only [mem_cons,same,false_or]
    · intro other member
      rw [others other (fun same => fresh (same ▸ member))]
      exact absent other (mem_cons_of_mem _ member)

theorem foldEmitted {keys : List String} (distinct : keys.Nodup)
    (instances : Keyed encode Instance.labels previous) (read : Keyed encode Point.labels points) :
    emitted encode labels (keys.foldl (stepInstance numbers condition setting previous points) acc).2 =
      emitted encode labels acc.2 ++ if encode labels ∈ keys
        then ((advanced numbers condition setting.time previous points (encode labels)).2.map Prod.fst).toList else [] := by
  induction keys generalizing acc with
  | nil => exact (append_nil _).symm
  | cons k keys ih =>
    obtain ⟨fresh,distinct⟩ := nodup_cons.mp distinct
    have one : emitted encode labels (stepInstance numbers condition setting previous points acc k).2 =
        emitted encode labels acc.2 ++ if encode labels = k
          then ((advanced numbers condition setting.time previous points k).2.map Prod.fst).toList else [] := by
      have stepped : (stepInstance numbers condition setting previous points acc k).2 = acc.2 ++
        ((advanced numbers condition setting.time previous points k).2.map fun e => event setting e.1 e.2).toList := rfl
      rw [stepped,emitted,filterMap_append]
      congr 1
      cases found : (advanced numbers condition setting.time previous points k).2 with
      | none => simp
      | some e =>
        have own := advancedKeyed instances read (.inr ⟨e.1,found⟩)
        by_cases same : encode labels = k
        · simp [event,own,same]
        · simp [event,own,same,Ne.symm same]
    rw [foldl_cons,ih distinct,one,append_assoc]
    by_cases same : encode labels = k
    · subst same
      simp [fresh]
    · simp [same]

end Keys

section Trace
variable (encode : LabelSet → String) (numbers : Numbers ν) (rule : Rule) (condition : Condition ν)

structure Evaluated (A : Type) where
  time : Int
  samples : List Recording.Row
  events : List (Draft A)

inductive Evaluations : Dict String Instance → List (Evaluated A) → Prop
  | start : Evaluations .empty []
  | next {instances trace result} {setting : Setting A} {samples} : Evaluations instances trace →
      step encode numbers rule condition setting instances samples = .ok result →
      Evaluations result.instances (trace ++ [⟨setting.time,samples,result.events⟩])

/- Does the condition hold for a label set; evaluations without data count as neither under `keep_last`. -/
def verdict (samples : List Recording.Row) (labels : LabelSet) : Verdict :=
  let points := (samples.foldlM (point encode numbers rule) Dict.empty).getD Dict.empty
  if points.size = 0 ∧ condition.noData = .keepLast then .frozen
  else judge (((points.get? (encode labels)).map fun point => condition.compare numbers point.number).getD false)

def Evaluated.moment (labels : LabelSet) (e : Evaluated A) : Moment :=
  ⟨e.time,verdict encode numbers rule condition e.samples labels,emitted encode labels e.events⟩

structure Timed (condition : Condition ν) (moments : List Moment) (held : Option Instance) : Prop where
  firing : 0 < condition.forMs → ∀ (before : List Moment) (e : Moment) (after : List Moment),
    moments = before ++ e :: after → .firing ∈ e.emitted → e.verdict = .holds ∧
      Streak (fun m => m.time + waitNs condition ≤ e.time ∧ .pending ∈ m.emitted ∧ m.verdict = .holds)
        (fun m => m.verdict ≠ .fails) before
  resolved : ∀ (before : List Moment) (f : Moment) (between : List Moment) (e : Moment) (after : List Moment),
    moments = before ++ f :: (between ++ e :: after) → .firing ∈ f.emitted → (∀ m ∈ between, .resolved ∉ m.emitted) →
    .resolved ∈ e.emitted → e.verdict = .fails ∧
      Streak (fun m => m.time + keepNs condition ≤ e.time ∧ m.verdict = .fails) (fun m => m.verdict ≠ .holds) (between ++ [e])
  word : ∃ rest, word moments ++ rest ∈ lives.matches'
  absent : held = none ↔ Lifecycle.word moments ∈ lives.matches'

end Trace

section Refinement
variable {encode : LabelSet → String} {numbers : Numbers ν} {rule : Rule} {condition : Condition ν} {setting : Setting A}
  {instances : Dict String Instance} {samples : List Recording.Row} {result : Lifecycle A} {trace : List (Evaluated A)}

def allKeys (instances : Dict String Instance) (points : Dict String (Point ν)) : List String :=
  (Lists.uniqBy id (instances.keys ++ points.keys)).insertionSort (· ≤ ·)

theorem allKeysNodup (points : Dict String (Point ν)) : (allKeys instances points).Nodup := by
  rw [allKeys,(perm_insertionSort _ _).nodup_iff,← map_id (Lists.uniqBy id _)]
  exact Lists.uniqByNodup _

variable {points : Dict String (Point ν)}

theorem allKeysMem {key} : key ∈ allKeys instances points ↔ key ∈ instances.keys ∨ key ∈ points.keys := by
  rw [allKeys,(perm_insertionSort _ _).mem_iff,Lists.uniqMem,mem_append]

theorem transitionOk (ok : transition numbers condition setting instances points = .ok result) :
    (points.size = 0 ∧ condition.noData = .keepLast) ∧ result.instances = instances ∧ result.events = [] ∨
    ¬(points.size = 0 ∧ condition.noData = .keepLast) ∧
      (result.instances,result.events) = (allKeys instances points).foldl (stepInstance numbers condition setting instances points)
        (Dict.empty,[]) := by
  have health : (if points.size = 0 then Health.noData else Health.ok) = .noData ↔ points.size = 0 := by
    split <;> simp_all
  unfold transition at ok
  by_cases frozen : points.size = 0 ∧ condition.noData = .keepLast
  · rw [if_pos ⟨health.mpr frozen.1,frozen.2⟩] at ok
    cases ok
    exact .inl ⟨frozen,rfl,rfl⟩
  rw [if_neg (fun both => frozen ⟨health.mp both.1,both.2⟩)] at ok
  dsimp only at ok
  split at ok
  case isFalse => cases ok
  cases ok
  exact .inr ⟨frozen,rfl⟩

theorem advancedAbsent {key time} (absent : key ∉ allKeys instances points) :
    advanced numbers condition time instances points key = (none,none) := by
  have none : instances.get? key = none ∧ points.get? key = none := by
    rw [allKeysMem,not_or] at absent
    exact ⟨Dict.getNone.mpr absent.1,Dict.getNone.mpr absent.2⟩
  rw [advanced,none.1,none.2]
  rfl

theorem stepMoment (keyed : Keyed encode Instance.labels instances)
    (ok : step encode numbers rule condition setting instances samples = .ok result) :
    Keyed encode Instance.labels result.instances ∧ ∀ labels phase, Shows (instances.get? (encode labels)) phase →
      ∃ after, Shows (result.instances.get? (encode labels)) after ∧ Step (waitNs condition) (keepNs condition) phase
        (Evaluated.moment encode numbers rule condition labels ⟨setting.time,samples,result.events⟩) after := by
  unfold step at ok
  split at ok <;> try cases ok
  split at ok <;> try cases ok
  rename_i points read
  have pointed : Keyed encode Point.labels points := pointsKeyed (fun _ _ found => by cases found) read
  have given : (samples.foldlM (point encode numbers rule) Dict.empty).getD Dict.empty = points := by rw [read]; rfl
  rcases transitionOk ok with ⟨frozen,same,none⟩|⟨awake,folded⟩
  · rw [same,none]
    refine ⟨keyed,fun labels phase shows => ⟨phase,shows,?_⟩⟩
    simp only [Evaluated.moment,verdict,given,if_pos frozen]
    exact .frozen phase setting.time
  have held (key : String) : result.instances.get? key = (advanced numbers condition setting.time instances points key).1 := by
    rw [show result.instances = _ from congrArg Prod.fst folded,foldGet (allKeysNodup points) (fun _ _ => rfl)]
    split
    · rfl
    case isFalse absent => rw [advancedAbsent absent]; rfl
  have events (labels : LabelSet) : emitted encode labels result.events =
      ((advanced numbers condition setting.time instances points (encode labels)).2.map Prod.fst).toList := by
    rw [show result.events = _ from congrArg Prod.snd folded,foldEmitted (allKeysNodup points) keyed pointed]
    split
    · rfl
    case isFalse absent => rw [advancedAbsent absent]; rfl
  constructor
  · intro key entry found
    rw [held] at found
    exact advancedKeyed keyed pointed (.inl found)
  intro labels phase shows
  rw [held]
  simp only [Evaluated.moment,verdict,given,if_neg awake,events,advanced]
  cases seen : points.get? (encode labels) with
  | none => exact advanceMiss shows
  | some point =>
    cases hit : condition.compare numbers point.number with
    | true =>
      simp only [Option.map_some,Option.getD_some,hit]
      exact advanceHit shows point
    | false =>
      simp only [Option.map_some,Option.getD_some,hit]
      exact advanceMiss shows

theorem evaluationsPath (run : Evaluations encode numbers rule condition instances trace) :
    Keyed encode Instance.labels instances ∧ ∀ labels, ∃ phase, Shows (instances.get? (encode labels)) phase ∧
      Path (waitNs condition) (keepNs condition) (trace.map (Evaluated.moment encode numbers rule condition labels)) phase := by
  induction run with
  | start => exact ⟨fun _ _ found => (by cases found),fun labels => ⟨.idle,.idle,.start⟩⟩
  | next _ ok ih =>
    obtain ⟨keyed,each⟩ := ih
    obtain ⟨keyed',moved⟩ := stepMoment keyed ok
    refine ⟨keyed',fun labels => ?_⟩
    obtain ⟨phase,shows,path⟩ := each labels
    obtain ⟨after,shows',step⟩ := moved labels phase shows
    refine ⟨after,shows',?_⟩
    rw [map_append]
    exact .next path step

theorem showsIdle {held phase} (shows : Shows held phase) : held = none ↔ phase = .idle := by
  cases shows <;> simp

theorem pathTimed {moments held phase} (shows : Shows held phase)
    (path : Path (waitNs condition) (keepNs condition) moments phase) : Timed condition moments held where
  firing positive before e after split fired := by
    subst split
    obtain ⟨earlier,next,path,step⟩ := pathAt path
    exact firingRipe (Nat.mul_pos positive (by decide)) path step fired
  resolved before f between e after split fired unresolved resolved := by
    subst split
    rw [← cons_append,← append_assoc] at path
    obtain ⟨earlier,next,path,step⟩ := pathAt path
    exact resolvedLate (firedPhase fired path unresolved) step resolved
  word := (pathWord path).1
  absent := by rw [(pathWord path).2,showsIdle shows]

/- However a rule is evaluated, the events of each label set keep their times and their order. -/
theorem lifecycleTimed (encode : LabelSet → String) (numbers : Numbers ν) (rule : Rule) (condition : Condition ν)
    (instances : Dict String Instance) (trace : List (Evaluated A))
    (run : Evaluations encode numbers rule condition instances trace) (labels : LabelSet) :
    Timed condition (trace.map (Evaluated.moment encode numbers rule condition labels)) (instances.get? (encode labels)) := by
  obtain ⟨phase,shows,path⟩ := (evaluationsPath run).2 labels
  exact pathTimed shows path

end Refinement

section Sample

def sampleEncode (labels : LabelSet) : String := (labels.lookup "i").getD ""
def sampleNumbers : Numbers Bool := ⟨fun text => some (text = "1"),fun a b => a && !b,fun _ _ => false,fun a b => a = b⟩
def sampleRule : Rule := ⟨.promqlThreshold,"r","q",true,1000,∅,[],[],"",by decide,by decide⟩
def sampleCondition : Condition Bool := ⟨.gt,false,2,1,.keepLast⟩
def sampleSetting (time : Int) : Setting Nat := ⟨none,[],⟨"p",.human⟩,time⟩
def sampleRow (value : String) : Recording.Row := some (Finmap.singleton "i" "a",value)

def sampleStep (time : Int) (values : List String) (previous : Dict String Instance) : Except Rejection (Lifecycle Nat) :=
  step sampleEncode sampleNumbers sampleRule sampleCondition (sampleSetting time) previous (values.map sampleRow)

def sampleTicks : List (Int × List String) :=
  [(1000000,["1"]),(2000000,[]),(3000000,["1"]),(4000000,["0"]),(5000000,["0"])]

def sampleRun : List (Int × List String) → Dict String Instance → List (Evaluated Nat) →
    Option (Dict String Instance × List (Evaluated Nat))
  | [],instances,trace => some (instances,trace)
  | (time,values)::rest,instances,trace => match sampleStep time values instances with
    | .ok result => sampleRun rest result.instances (trace ++ [⟨time,values.map sampleRow,result.events⟩])
    | .error _ => none

theorem sampleRuns {ticks instances trace out} (run : sampleRun ticks instances trace = some out)
    (before : Evaluations sampleEncode sampleNumbers sampleRule sampleCondition instances trace) :
    Evaluations sampleEncode sampleNumbers sampleRule sampleCondition out.1 out.2 := by
  induction ticks generalizing instances trace with
  | nil =>
    cases run
    exact before
  | cons tick rest ih =>
    rw [sampleRun] at run
    split at run
    case h_1 ok => exact ih run (.next before ok)
    case h_2 => cases run

def sampleLabels : LabelSet := Finmap.singleton "i" "a"
def sampleMoments (trace : List (Evaluated Nat)) : List Moment :=
  trace.map (Evaluated.moment sampleEncode sampleNumbers sampleRule sampleCondition sampleLabels)

-- the evaluation without data neither breaks the run nor resolves anything
theorem lifecycleTimedOnce : ∃ instances trace,
    Evaluations sampleEncode sampleNumbers sampleRule sampleCondition instances trace ∧
    word (sampleMoments trace) = [.pending,.firing,.recovering,.resolved] ∧
    Timed sampleCondition (sampleMoments trace) (instances.get? (sampleEncode sampleLabels)) := by
  have evaluated : ((sampleRun sampleTicks Dict.empty []).map fun out => word (sampleMoments out.2)) =
      some [.pending,.firing,.recovering,.resolved] := by decide +kernel
  obtain ⟨out,run,emitted⟩ := Option.map_eq_some_iff.mp evaluated
  have runs := sampleRuns run .start
  exact ⟨out.1,out.2,runs,emitted,
    lifecycleTimed sampleEncode sampleNumbers sampleRule sampleCondition out.1 out.2 runs sampleLabels⟩

end Sample

end Pulso.Alerting.Lifecycle
