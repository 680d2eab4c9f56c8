import Mathlib.Data.List.Sort
import Pulso.AlertRule
import Pulso.Results

/-! Recording results: what one tick of a recording rule or group writes, which series stay
current and which are marked stale. The canonical JSON text of a label set, the accepted
number texts and the encoded size of a result are parameters. -/
namespace Pulso.Alerting
open List

structure Sample where
  labels : LabelSet
  value : String
  stale : Bool
  deriving DecidableEq

def marker (labels : LabelSet) : Sample := ⟨labels,"NaN",true⟩

inductive Reason where
  | invalidRecordingResult | duplicateRecordingLabelSets | integrityError | recordingBacklog
  | notificationBacklog | notDue | ruleDisabled | staleEvaluation | conflict | operationReused
  | ambiguousOperation | notFound | forbidden | objectLimit | ambiguousObjectWrite | emptyOutbox
  | notificationClaimed | outboxConflict | recordingConflict | invalidTarget | evaluationSkipped
  | unsupportedRule | invalidArguments
  deriving DecidableEq, Repr

structure RecordingCodec where
  encode : LabelSet → String
  parses : String → Bool
  bytes : Int → List Sample → Nat

structure Limits where
  samples : Nat
  set : Nat
  joint : Nat
  deriving DecidableEq, Repr

namespace Recording

def single : Limits := ⟨128,(65536-2048)/2,65536-2048⟩
def group : Limits := ⟨4096,393216,1048576-65536⟩

def limits : Kind → Limits
  | .promqlRecordingGroup => group
  | _ => single

inductive MemberHealth where
  | ok (series : Nat) | noData | error (code : String)
  deriving DecidableEq, Repr

structure Result where
  timestamp : Int
  samples : List Sample
  nextSeries : List LabelSet
  ruleHealth : Option (List (String × MemberHealth))
  deriving DecidableEq

/-- A row of a query answer: its labels and value text, or something of another shape. -/
abbrev Row := Option (LabelSet × String)

variable (codec : RecordingCodec)

def point (name : String) (labels : LabelSet) (points : List (String × Sample)) (row : Row) :
    Except Reason (List (String × Sample)) :=
  match row with
  | none => .error .invalidRecordingResult
  | some (metric,value) =>
    let recorded := LabelSet.recorded name labels metric
    if metric.valid && metric.namesValid && codec.parses value && recorded.valid then
      if codec.encode recorded ∈ points.map Prod.fst then .error .duplicateRecordingLabelSets
      else .ok (points ++ [(codec.encode recorded,⟨recorded,value,false⟩)])
    else .error .invalidRecordingResult

def points (name : String) (labels : LabelSet) (rows : List Row) : Except Reason (List Sample) := do
  let points ← rows.foldlM (point codec name labels) []
  return (points.insertionSort (fun a b => a.1 ≤ b.1)).map Prod.snd

def retirement (previous : List LabelSet) (timestamp : Int) : Result :=
  ⟨timestamp,previous.map marker,[],none⟩

def setBounds (points : List Sample) (timestamp : Int) (limits : Limits) : Bool :=
  codec.bytes timestamp points ≤ limits.set &&
    codec.bytes timestamp ((points.map Sample.labels).map marker) ≤ limits.set

def result (rule : Rule) (rows : List Row) (timestamp : Int) : Except Reason (List Sample) :=
  if 0 ≤ timestamp ∧ timestamp ≤ 9223372036854775807 ∧ rows.length ≤ single.samples then
    (points codec rule.name rule.labels rows).bind fun points =>
      if setBounds codec points timestamp single then .ok points else .error .invalidRecordingResult
  else .error .invalidRecordingResult

def previousValid (previous : List LabelSet) (limits : Limits) : Bool :=
  previous.length ≤ limits.samples && previous.all LabelSet.valid

def finish (points : List Sample) (next : List LabelSet) (timestamp : Int)
    (previous : List LabelSet) (limits : Limits) : Except Reason Result :=
  let missing := previous.filter (· ∉ next)
  let samples := points ++ missing.map marker
  if codec.bytes timestamp samples ≤ limits.joint then .ok ⟨timestamp,samples,next,none⟩
  else .error .invalidRecordingResult

def transition (rule : Rule) (rows : List Row) (timestamp : Int) (previous : List LabelSet) : Except Reason Result :=
  (result codec rule rows timestamp).bind fun points =>
    if previousValid previous single then
      finish codec points (points.map Sample.labels) timestamp previous single
    else .error .integrityError

def groupPoints (member : Member) (rows : List Row) : Except Reason (List Sample) :=
  if rows.length ≤ group.samples then points codec member.record member.labels rows
  else .error .invalidRecordingResult

abbrev Outcome := String × Except String (List Sample)

def succeeded : Outcome → List Sample
  | (_,.ok points) => points
  | (_,.error _) => []

def failed : Outcome → Option String
  | (record,.error _) => some record
  | (_,.ok _) => none

def memberHealth : Outcome → String × MemberHealth
  | (record,.ok []) => (record,.noData)
  | (record,.ok points) => (record,.ok points.length)
  | (record,.error code) => (record,.error code)

/-- A failed rule writes nothing and marks nothing stale: its previous series are carried. -/
def carried (outcomes : List Outcome) (previous : List LabelSet) : List LabelSet :=
  previous.filter (fun labels => labels.metricName.any (· ∈ outcomes.filterMap failed))

def groupTransition (outcomes : List Outcome) (timestamp : Int) (previous : List LabelSet) : Except Reason Result :=
  let points := (outcomes.flatMap succeeded).insertionSort (fun a b => codec.encode a.labels ≤ codec.encode b.labels)
  let next := points.map Sample.labels ++ carried outcomes previous
  if previousValid previous group && points.length ≤ group.samples &&
      setBounds codec points timestamp group && next.length ≤ group.samples &&
      setBounds codec (next.map (fun labels => ⟨labels,"0",false⟩)) timestamp group then
    (finish codec points next timestamp previous group).map fun result =>
      { result with ruleHealth := some (outcomes.map memberHealth) }
  else .error .invalidRecordingResult

/-- What one member appends before the next one is evaluated. -/
def overlay (record : String) (points : List Sample) (previous : List LabelSet) : List Sample :=
  points ++ (previous.filter (fun labels =>
    labels.metricName = some record ∧ labels ∉ points.map Sample.labels)).map marker

structure Points (name : String) (points : List Sample) : Prop where
  distinct : (points.map Sample.labels).Nodup
  live : ∀ p ∈ points, p.stale = false
  named : ∀ p ∈ points, p.labels.metricName = some name

/-- A tick over the previous series: live values for some, markers for exactly the previous
series that are no longer current. -/
structure Replaces (previous : List LabelSet) (points : List Sample) (result : Result) : Prop where
  samples : result.samples = points ++ (previous.filter (· ∉ result.nextSeries)).map marker
  live : ∀ p ∈ points, p.stale = false
  current : ∀ p ∈ points, p.labels ∈ result.nextSeries
  kept : ∀ labels ∈ result.nextSeries, labels ∈ points.map Sample.labels ∨ labels ∈ previous
  distinct : result.nextSeries.Nodup
  separate : (points.map Sample.labels).Nodup

structure Keyed (name : String) (points : List (String × Sample)) : Prop where
  keys : ∀ e ∈ points, e.1 = codec.encode e.2.labels
  distinct : (points.map Prod.fst).Nodup
  live : ∀ e ∈ points, e.2.stale = false
  named : ∀ e ∈ points, e.2.labels.metricName = some name

variable {codec} {labels : LabelSet} {acc next : List (String × Sample)}

theorem pointKeyed {name row} (h : Keyed codec name acc) (ok : point codec name labels acc row = .ok next) :
    Keyed codec name next := by
  cases row with
  | none => simp [point] at ok
  | some row =>
    obtain ⟨metric,value⟩ := row
    simp only [point] at ok
    split at ok
    · split at ok
      · contradiction
      rename_i fresh
      cases ok
      constructor
      · intro e mem
        rcases mem_append.mp mem with old | new
        · exact h.keys e old
        · cases mem_singleton.mp new
          rfl
      · rw [map_append]
        apply h.distinct.append (by simp)
        simpa [disjoint_singleton] using fresh
      · intro e mem
        rcases mem_append.mp mem with old | new
        · exact h.live e old
        · cases mem_singleton.mp new
          rfl
      · intro e mem
        rcases mem_append.mp mem with old | new
        · exact h.named e old
        · cases mem_singleton.mp new
          exact LabelSet.recordedName name labels metric
    · contradiction

variable {rows : List Row}

theorem foldKeyed {name} (h : Keyed codec name acc)
    (ok : rows.foldlM (point codec name labels) acc = .ok next) : Keyed codec name next :=
  Results.foldOk (P := fun _ acc => Keyed codec name acc) (fun _ _ _ _ held step => pointKeyed held step) ok h

theorem pointsSpec {name samples} (ok : points codec name labels rows = .ok samples) : Points name samples := by
  unfold points at ok
  obtain ⟨keyed,folded,ok⟩ := Results.bindOk ok
  cases ok
  have spec : Keyed codec name keyed := foldKeyed ⟨by simp,by simp,by simp,by simp⟩ folded
  have perm := perm_insertionSort (fun a b : String × Sample => a.1 ≤ b.1) keyed
  have sorted := perm.map Prod.snd
  constructor
  · have keys : keyed.map Prod.fst = (keyed.map (fun e => e.2.labels)).map codec.encode := by
      rw [map_map]
      exact map_congr_left spec.keys
    have distinct := (keys ▸ spec.distinct).of_map
    exact (sorted.map Sample.labels).nodup_iff.mpr (by simpa [Function.comp_def] using distinct)
  · intro p mem
    obtain ⟨e,inside,rfl⟩ := mem_map.mp (sorted.mem_iff.mp mem)
    exact spec.live e inside
  · intro p mem
    obtain ⟨e,inside,rfl⟩ := mem_map.mp (sorted.mem_iff.mp mem)
    exact spec.named e inside

variable {timestamp : Int}

theorem finishCases {points next previous limits result}
    (ok : finish codec points next timestamp previous limits = .ok result) :
    result = ⟨timestamp,points ++ (previous.filter (· ∉ next)).map marker,next,none⟩ := by
  unfold finish at ok
  dsimp only at ok
  split at ok
  · exact (Except.ok.inj ok).symm
  · contradiction

variable {previous : List LabelSet}

theorem replacesOnce {points result} (h : Replaces previous points result) (distinct : previous.Nodup) :
    (result.samples.map Sample.labels).Nodup := by
  rw [h.samples,map_append,map_map,show Sample.labels ∘ marker = id from rfl,map_id]
  apply h.separate.append (distinct.filter _)
  intro labels here there
  obtain ⟨p,mem,rfl⟩ := mem_map.mp here
  have gone := (mem_filter.mp there).2
  simp [h.current p mem] at gone

theorem retirementReplaces (previous : List LabelSet) (timestamp : Int) :
    Replaces previous [] (retirement previous timestamp) where
  samples := by simp [retirement]
  live := by simp
  current := by simp
  kept := by simp [retirement]
  distinct := nodup_nil
  separate := nodup_nil

theorem resultSpec {rule samples} (ok : result codec rule rows timestamp = .ok samples) : Points rule.name samples := by
  unfold result at ok
  split at ok
  · obtain ⟨points,found,ok⟩ := Results.bindOk ok
    split at ok
    · cases ok
      exact pointsSpec found
    · contradiction
  · contradiction

theorem transitionReplaces {rule result} (ok : transition codec rule rows timestamp previous = .ok result) :
    result.timestamp = timestamp ∧ ∃ points, Replaces previous points result := by
  unfold transition at ok
  obtain ⟨points,found,ok⟩ := Results.bindOk ok
  split at ok
  · cases finishCases ok
    have spec := resultSpec found
    exact ⟨rfl,points,{
      samples := rfl
      live := spec.live
      current := fun p mem => mem_map_of_mem mem
      kept := fun labels mem => .inl mem
      distinct := spec.distinct
      separate := spec.distinct }⟩
  · contradiction

structure Outcomes (outcomes : List Outcome) : Prop where
  records : (outcomes.map Prod.fst).Nodup
  points : ∀ record samples, (record,Except.ok samples) ∈ outcomes → Points record samples

variable {outcomes : List Outcome} (h : Outcomes outcomes)
include h

theorem succeededMem {p} (mem : p ∈ outcomes.flatMap succeeded) : ∃ record samples,
      (record,Except.ok samples) ∈ outcomes ∧ p ∈ samples ∧ Points record samples := by
  obtain ⟨⟨record,outcome⟩,inside,found⟩ := mem_flatMap.mp mem
  cases outcome with
  | error code => simp [succeeded] at found
  | ok samples => exact ⟨record,samples,inside,found,h.points record samples inside⟩

theorem succeededDistinct : ((outcomes.flatMap succeeded).map Sample.labels).Nodup := by
  induction outcomes with
  | nil => simp
  | cons outcome outcomes ih =>
    have rest : Outcomes outcomes :=
      ⟨h.records.of_cons,fun record samples mem => h.points record samples (mem_cons_of_mem _ mem)⟩
    rw [flatMap_cons,map_append]
    obtain ⟨record,answer⟩ := outcome
    cases answer with
    | error code => simpa [succeeded] using ih rest
    | ok samples =>
      have spec := h.points record samples mem_cons_self
      apply spec.distinct.append (ih rest)
      intro labels here there
      obtain ⟨p,mem,rfl⟩ := mem_map.mp here
      obtain ⟨q,later,same⟩ := mem_map.mp there
      obtain ⟨other,others,inside,member,spec'⟩ := succeededMem rest later
      have names : some record = some other := by
        rw [← spec.named p mem,← spec'.named q member,same]
      have fresh := (nodup_cons.mp h.records).1
      have again : other ∈ outcomes.map Prod.fst := mem_map.mpr ⟨_,inside,rfl⟩
      exact fresh (Option.some.inj names ▸ again)

theorem carriedDisjoint (previous : List LabelSet) :
    ((outcomes.flatMap succeeded).map Sample.labels).Disjoint (carried outcomes previous) := by
  intro labels here there
  obtain ⟨p,mem,rfl⟩ := mem_map.mp here
  obtain ⟨record,samples,inside,member,spec⟩ := succeededMem h mem
  have named := spec.named p member
  obtain ⟨_,marked⟩ := mem_filter.mp there
  rw [named,Option.any_some,decide_eq_true_eq] at marked
  obtain ⟨⟨other,answer⟩,found,failure⟩ := mem_filterMap.mp marked
  cases answer with
  | ok samples => simp [failed] at failure
  | error code =>
    have same : other = record := by simpa [failed] using failure
    subst same
    have equal := inj_on_of_nodup_map h.records found inside rfl
    simp at equal

theorem groupTransitionReplaces {result} (distinct : previous.Nodup)
    (ok : groupTransition codec outcomes timestamp previous = .ok result) :
    result.timestamp = timestamp ∧ ∃ points, Replaces previous points result := by
  unfold groupTransition at ok
  dsimp only at ok
  generalize sorting : (outcomes.flatMap succeeded).insertionSort
    (fun a b => codec.encode a.labels ≤ codec.encode b.labels) = points at ok
  split at ok
  case isFalse => contradiction
  obtain ⟨final,finished,rfl⟩ := Results.mapOk ok
  cases finishCases finished
  have perm : points.Perm (outcomes.flatMap succeeded) := sorting ▸ perm_insertionSort _ _
  have labels := perm.map Sample.labels
  have distinctPoints := labels.nodup_iff.mpr (succeededDistinct h)
  refine ⟨rfl,points,rfl,?_,?_,?_,?_,distinctPoints⟩
  · intro p mem
    obtain ⟨record,samples,_,member,spec⟩ := succeededMem h (perm.mem_iff.mp mem)
    exact spec.live p member
  · intro p mem
    exact mem_append_left _ (mem_map_of_mem mem)
  · intro labels mem
    rcases mem_append.mp mem with here | there
    · exact .inl here
    · exact .inr (mem_filter.mp there).1
  · apply distinctPoints.append (distinct.filter _)
    intro x here there
    exact carriedDisjoint h previous (labels.mem_iff.mp here) there

end Recording
end Pulso.Alerting
