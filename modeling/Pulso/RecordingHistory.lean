import Pulso.AlertEvaluator

/-! What the recording intents of one rule leave behind: replaying every committed intent in
queue order, the series with a live last sample are the series the head claims. -/
namespace Pulso.Alerting
open List

def lastOf (samples : List Sample) (labels : LabelSet) : Option Sample :=
  (samples.filter (·.labels = labels)).getLast?

theorem lastAppend (a b : List Sample) (labels : LabelSet) :
    lastOf (a ++ b) labels = (lastOf b labels).or (lastOf a labels) := by
  simp [lastOf,filter_append,getLast?_append]

theorem lastNone {samples labels} : lastOf samples labels = none ↔ labels ∉ samples.map Sample.labels := by
  simp [lastOf]

theorem lastMem {samples labels sample}
    (last : lastOf samples labels = some sample) : sample ∈ samples ∧ sample.labels = labels := by
  have mem := mem_of_getLast? last
  simpa using mem

/-- After `before`, every stale marker of `samples` ends a series whose last sample is live. -/
def MarkersFollow (before samples : List Sample) : Prop :=
  ∀ front marker after, samples = front ++ marker :: after → marker.stale = true →
    ∃ live, lastOf (before ++ front) marker.labels = some live ∧ live.stale = false

theorem markersAppend {before xs ys} (first : MarkersFollow before xs)
    (second : MarkersFollow (before ++ xs) ys) : MarkersFollow before (xs ++ ys) := by
  intro front m after split stale
  rcases append_eq_append_iff.mp split with ⟨more,left,right⟩ | ⟨more,left,right⟩
  · obtain ⟨live,found,fresh⟩ := second more m after right stale
    exact ⟨live,by rw [left,← append_assoc]; exact found,fresh⟩
  cases more with
  | nil =>
    obtain ⟨live,found,fresh⟩ := second [] m after right.symm stale
    rw [append_nil] at found left
    exact ⟨live,by rw [← left]; exact found,fresh⟩
  | cons x more =>
    have same : m = x := by simpa using congrArg List.head? right
    exact first front m more (by rw [left,same]) stale

theorem markersLive {before points} (live : ∀ p ∈ points, p.stale = false) : MarkersFollow before points := by
  intro front m after split stale
  have fresh := live m (split ▸ mem_append_right front mem_cons_self)
  simp [stale] at fresh

theorem markersRetire {before} {missing : List LabelSet} (distinct : missing.Nodup)
    (current : ∀ labels ∈ missing, ∃ live, lastOf before labels = some live ∧ live.stale = false) :
    MarkersFollow before (missing.map marker) := by
  intro front m after split _
  have labels := congrArg (List.map Sample.labels) split
  rw [map_append,map_cons,map_map,show Sample.labels ∘ marker = id from rfl,map_id] at labels
  have mem : m.labels ∈ missing := labels ▸ mem_append_right _ mem_cons_self
  have unseen : lastOf front m.labels = none := by
    rw [lastNone]
    intro again
    exact (nodup_append.mp (labels ▸ distinct)).2.2 _ again _ mem_cons_self rfl
  rw [lastAppend,unseen,Option.none_or]
  exact current m.labels mem

structure Replayed (samples : List Sample) (series : List LabelSet) : Prop where
  distinct : series.Nodup
  current : ∀ labels ∈ series, ∃ sample, lastOf samples labels = some sample ∧ sample.stale = false
  ended : ∀ labels sample, labels ∉ series → lastOf samples labels = some sample → sample.stale = true
  markers : MarkersFollow [] samples

theorem replayedNothing : Replayed [] [] where
  distinct := nodup_nil
  current := by simp
  ended := by simp [lastOf]
  markers := markersLive (by simp)

section Tick
variable {samples points : List Sample} {series next : List LabelSet}

theorem markerLabels (missing : List LabelSet) : (missing.map marker).map Sample.labels = missing := by
  simp [Function.comp_def,marker]

theorem replayTick {result : Recording.Result} (h : Replayed samples series)
    (tick : Recording.Replaces series points result) :
    Replayed (samples ++ result.samples) result.nextSeries := by
  have last : ∀ labels, lastOf (samples ++ result.samples) labels =
      ((lastOf ((series.filter (· ∉ result.nextSeries)).map marker) labels).or (lastOf points labels)).or
        (lastOf samples labels) := by
    intro labels
    rw [tick.samples,lastAppend,lastAppend]
  have unmarked : ∀ labels ∈ result.nextSeries,
      lastOf ((series.filter (· ∉ result.nextSeries)).map marker) labels = none := by
    intro labels mem
    rw [lastNone,markerLabels]
    simp [mem]
  have unpointed : ∀ labels ∉ result.nextSeries, lastOf points labels = none := by
    intro labels gone
    rw [lastNone]
    intro mem
    obtain ⟨p,inside,rfl⟩ := mem_map.mp mem
    exact gone (tick.current p inside)
  constructor
  · exact tick.distinct
  · intro labels mem
    rw [last,unmarked labels mem,Option.none_or]
    cases found : lastOf points labels with
    | some p => exact ⟨p,rfl,tick.live p (lastMem found).1⟩
    | none =>
      rcases tick.kept labels mem with here | there
      · exact absurd here (lastNone.mp found)
      · exact h.current labels there
  · intro labels sample gone found
    rw [last,unpointed labels gone,Option.or_none] at found
    cases marked : lastOf ((series.filter (· ∉ result.nextSeries)).map marker) labels with
    | some m =>
      rw [marked,Option.some_or] at found
      cases found
      obtain ⟨origin,_,rfl⟩ := mem_map.mp (lastMem marked).1
      rfl
    | none =>
      rw [marked,Option.none_or] at found
      apply h.ended labels sample _ found
      intro mem
      rw [lastNone,markerLabels] at marked
      exact marked (mem_filter.mpr ⟨mem,by simpa using gone⟩)
  · rw [tick.samples]
    apply markersAppend h.markers
    apply markersAppend (markersLive tick.live)
    apply markersRetire (h.distinct.filter _)
    intro labels mem
    obtain ⟨inside,gone⟩ := mem_filter.mp mem
    have gone : labels ∉ result.nextSeries := by simpa using gone
    rw [lastAppend,unpointed labels gone,Option.none_or]
    exact h.current labels inside

end Tick

/-! The history of one head: every write of it, and the intents those writes committed. -/
namespace RecordingHistory
variable {A : Type}

inductive Act (A : Type) where
  | tick (tick : Tick A)
  | change (call : Call A) (node : Surroundings)
  | ackRecording (ref : Queued A) (progress : Progress A) (event : Option (Draft A))
  | recordingFailed (ref : Queued A) (reason : String)
  | claim (version : Target) (nonce : Nat) (now : Int)
  | ack (version : Target) (nonce : Nat)

/-- `rule` is the rule of the head's revision; `intents` are the committed intents, oldest first. -/
structure State (A : Type) where
  head : Option (Head A)
  rule : Option Rule
  intents : List (Intent A)

def start : State A := ⟨none,none,[]⟩

def enqueued (queue : List (Queued A)) (next : Head A) : List (Intent A) :=
  (next.recordingQueue.drop queue.length).map Queued.intent

section Steps
variable [DecidableEq A] (codec : Codec A) (address : Snapshot A → A)

def step (s : State A) : Act A → State A
  | .tick tick => match s.head, s.rule with
    | some head, some rule => match evaluate codec head rule tick with
      | .ok next =>
        { s with head := some next, intents := s.intents ++ enqueued head.recordingQueue next }
      | .error _ => s
    | _, _ => s
  | .change call node => match publishChange codec address call s.head node with
    | .ok (snapshot,next) =>
      let queue := (s.head.map Head.recordingQueue).getD []
      ⟨some next,some snapshot.rule,s.intents ++ enqueued queue next⟩
    | .error _ => s
  | .ackRecording ref progress event => match s.head with
    | some head => match ackRecording head ref progress event with
      | .ok (some next) => { s with head := some next }
      | _ => s
    | none => s
  | .recordingFailed ref reason => match s.head with
    | some head => { s with head := some ((recordingFailed head ref reason).getD head) }
    | none => s
  | .claim version nonce now => match s.head with
    | some head => match updateOutbox head version (Notifier.claim nonce now) with
      | .ok (_,next) => { s with head := some next }
      | .error _ => s
    | none => s
  | .ack version nonce => match s.head with
    | some head => match updateOutbox head version (Notifier.ack nonce) with
      | .ok (_,next) => { s with head := some next }
      | .error _ => s
    | none => s

def run (s : State A) (acts : List (Act A)) : State A := acts.foldl (step codec address) s

end Steps

def replay (intents : List (Intent A)) : List Sample := intents.flatMap Intent.samples

structure Kept (series : List LabelSet) (queue : List (Queued A)) (intents : List (Intent A)) : Prop where
  replayed : Replayed (replay intents) series
  once : ∀ intent ∈ intents, (intent.samples.map Sample.labels).Nodup
  queued : ∃ acked, intents = acked ++ queue.map Queued.intent
  increasing : (intents.map Intent.timestamp).Pairwise (· < ·)

/-- A retirement is fenced by its own timestamp, and a tick that leaves series behind is covered
by the completion time. -/
structure Fits (head : Head A) (intents : List (Intent A)) : Prop where
  kept : Kept head.recordingSeries head.recordingQueue intents
  fenced : ∀ intent ∈ intents, intent.timestamp ≤ max head.completedAt head.recordingFence
  completed : head.recordingSeries ≠ [] → ∀ intent ∈ intents, intent.timestamp ≤ head.completedAt

theorem emptyFits (generation : Nat) : Fits (Head.empty generation : Head A) [] where
  kept := ⟨replayedNothing,by simp,⟨[],rfl⟩,List.Pairwise.nil⟩
  fenced := by simp
  completed := by simp

def Inv (s : State A) : Prop :=
  match s.head with
  | some head => Fits head s.intents
  | none => s.intents = []

theorem baseFits {s} (h : Inv s) (call : Call A) (node : Surroundings) :
    Fits (changeBase call s.head node) s.intents := by
  unfold Inv at h
  cases held : s.head with
  | some head => simpa [held,changeBase] using h
  | none =>
    rw [held] at h
    rw [h]
    exact emptyFits _

theorem enqueuedAppend {queue added} {next : Head A}
    (eq : next.recordingQueue = queue ++ added) : enqueued queue next = added.map Queued.intent := by
  rw [enqueued,eq,drop_left]

theorem enqueuedNothing {queue} {next : Head A} (eq : next.recordingQueue = queue) : enqueued queue next = [] := by
  rw [enqueued,eq,drop_length]
  rfl

theorem enqueueKept {codec head next result points} {intents : List (Intent A)}
    (h : Kept head.recordingSeries head.recordingQueue intents)
    (tick : Recording.Replaces head.recordingSeries points result)
    (later : ∀ intent ∈ intents, intent.timestamp < result.timestamp)
    (ok : enqueueRecording codec head (some result) = .ok next) :
    Kept next.recordingSeries next.recordingQueue (intents ++ enqueued head.recordingQueue next) ∧
      ∀ intent ∈ enqueued head.recordingQueue next, intent.timestamp = result.timestamp := by
  obtain ⟨inline,eq⟩ := enqueueRecordingCases ok
  have series : next.recordingSeries = result.nextSeries := by rw [eq]
  have queue := congrArg Head.recordingQueue eq
  rw [enqueuedAppend queue,series,queue]
  by_cases nothing : result.samples = []
  · have replayed := replayTick h.replayed tick
    rw [nothing,append_nil] at replayed
    simp only [nothing,if_true,map_nil,append_nil]
    exact ⟨⟨replayed,h.once,h.queued,h.increasing⟩,by simp⟩
  simp only [nothing,if_false,map_cons,map_nil]
  refine ⟨⟨?_,?_,?_,?_⟩,by simp⟩
  · have replayed := replayTick h.replayed tick
    simpa [replay] using replayed
  · intro intent mem
    rcases mem_append.mp mem with old | new
    · exact h.once intent old
    · cases mem_singleton.mp new
      exact Recording.replacesOnce tick h.replayed.distinct
  · obtain ⟨acked,split⟩ := h.queued
    exact ⟨acked,by rw [split]; simp⟩
  · rw [map_append,pairwise_append]
    refine ⟨h.increasing,pairwise_singleton _ _,?_⟩
    intro a old b new
    obtain ⟨intent,mem,rfl⟩ := mem_map.mp old
    cases mem_singleton.mp new
    exact later intent mem

theorem dueLater {head : Head A} {rule now} (recording : rule.kind.recording = true)
    (ok : due head rule now = true) : max head.completedAt head.recordingFence < now := by
  simp only [due,recording,if_true,Bool.not_eq_true',Bool.or_eq_false_iff,decide_eq_false_iff_not,not_le] at ok
  exact ok.1

theorem sameFits {head next} {intents : List (Intent A)} (h : Fits head intents)
    (queue : next.recordingQueue = head.recordingQueue) (series : next.recordingSeries = head.recordingSeries)
    (completed : next.completedAt = head.completedAt) (fence : next.recordingFence = head.recordingFence) :
    Fits next intents := by
  constructor
  · rw [series,queue]
    exact h.kept
  · rw [completed,fence]
    exact h.fenced
  · rw [series,completed]
    exact h.completed

section Writes
variable [DecidableEq A] {codec : Codec A} {address : Snapshot A → A} {intents : List (Intent A)}

theorem tickFits {head next : Head A} {rule} {tick : Tick A} (h : Fits head intents)
    (ok : evaluate codec head rule tick = .ok next) :
    Fits next (intents ++ enqueued head.recordingQueue next) := by
  obtain ⟨lifecycle,recording,evaluated,due,evaluation,time,same,done⟩ := evaluateCases ok
  obtain ⟨logged,queued,_,_,later,logging,enqueuing,replaced⟩ := checkpointCases done
  have frame := appendEventsFrame logging
  cases recording with
  | none =>
    rw [same] at enqueuing
    cases enqueuing
    have queue : next.recordingQueue = head.recordingQueue := by rw [replaced,frame]
    have series : next.recordingSeries = head.recordingSeries := by rw [replaced,frame]
    have fence : next.recordingFence = head.recordingFence := by rw [replaced,frame]
    have completed : next.completedAt = tick.now := by rw [replaced,← time]
    rw [enqueuedNothing queue,append_nil]
    refine ⟨by rw [series,queue]; exact h.kept,?_,?_⟩
    · intro intent mem
      have bound := h.fenced intent mem
      omega
    intro nonempty intent mem
    have bound := h.completed (series ▸ nonempty) intent mem
    omega
  | some result =>
    rw [same] at enqueuing
    obtain ⟨kind,stamp,points,replaces⟩ := evaluationRecording h.kept.replayed.distinct evaluation
    have fenced := dueLater kind due
    have queue : logged.recordingQueue = head.recordingQueue := by rw [frame]
    have series : logged.recordingSeries = head.recordingSeries := by rw [frame]
    have before : ∀ intent ∈ intents, intent.timestamp < result.timestamp := by
      intro intent mem
      have bound := h.fenced intent mem
      omega
    have kept : Kept logged.recordingSeries logged.recordingQueue intents := by
      rw [series,queue]
      exact h.kept
    obtain ⟨kept',stamps⟩ := enqueueKept kept (series ▸ replaces) before enqueuing
    rw [queue] at kept' stamps
    subst replaced
    have bound : ∀ intent ∈ intents ++ enqueued head.recordingQueue queued,
        intent.timestamp ≤ evaluated.timestamp := by
      intro intent mem
      rcases mem_append.mp mem with old | new
      · have := before intent old
        omega
      · rw [stamps intent new,stamp,time]
    exact ⟨kept',fun intent mem => le_max_of_le_left (bound intent mem),fun _ => bound⟩

theorem changeFits {s call node snapshot} {next : Head A}
    (h : Inv s) (ok : publishChange codec address call s.head node = .ok (snapshot,next)) :
    Fits next (s.intents ++ enqueued ((s.head.map Head.recordingQueue).getD []) next) := by
  obtain ⟨targets,logged,retired,published⟩ := publishChangeCases ok
  have base := baseFits h call node
  have queue : (s.head.map Head.recordingQueue).getD [] = logged.recordingQueue := by
    rw [appendEventsFrame published.appended]
    cases s.head <;> rfl
  have logFits : Fits logged s.intents := by
    have frame := appendEventsFrame published.appended
    rw [frame]
    exact { base with }
  have retiredFits : Fits retired (s.intents ++ enqueued logged.recordingQueue retired) := by
    rcases retireRecordingCases published.retiring with ⟨_,rfl⟩ | ⟨nonempty,enqueuing⟩
    · rw [enqueuedNothing rfl,append_nil]
      exact logFits
    have before : ∀ intent ∈ s.intents, intent.timestamp < max node.clock (logged.completedAt+1) := by
      intro intent mem
      have bound := logFits.completed nonempty intent mem
      omega
    let fencing := { logged with recordingFence := max node.clock (logged.completedAt+1) }
    have kept : Kept fencing.recordingSeries fencing.recordingQueue s.intents := logFits.kept
    obtain ⟨kept,stamps⟩ := enqueueKept kept (Recording.retirementReplaces _ _) before enqueuing
    have frame := enqueueRecordingFrame enqueuing
    have fence : retired.recordingFence = max node.clock (logged.completedAt+1) := by rw [frame]
    have series : retired.recordingSeries = [] := by
      obtain ⟨_,eq⟩ := enqueueRecordingCases enqueuing
      rw [eq]
      rfl
    refine ⟨kept,?_,fun left => absurd series left⟩
    intro intent mem
    apply le_max_of_le_right
    rw [fence]
    rcases mem_append.mp mem with old | new
    · exact le_of_lt (before intent old)
    · exact le_of_eq (stamps intent new)
  rw [queue,published.replaced]
  exact { retiredFits with }

theorem ackFits {head next ref progress event}
    (h : Fits head intents) (ok : ackRecording head ref progress event = .ok (some next)) :
    Fits next intents := by
  obtain ⟨rest,logged,queue,logging,rfl⟩ := ackRecordingCases ok
  have frame := appendEventsFrame logging
  have series : logged.recordingSeries = head.recordingSeries := by rw [frame]
  have completed : logged.completedAt = head.completedAt := by rw [frame]
  have fence : logged.recordingFence = head.recordingFence := by rw [frame]
  obtain ⟨acked,split⟩ := h.kept.queued
  rw [queue,map_cons] at split
  constructor
  · dsimp only
    rw [series]
    exact { h.kept with queued := ⟨acked ++ [ref.intent],by rw [split]; simp⟩ }
  · dsimp only
    rw [completed,fence]
    exact h.fenced
  rw [series,completed]
  exact h.completed

theorem stepInv {s : State A} (h : Inv s) (act : Act A) : Inv (step codec address s act) := by
  have fits : ∀ {head}, s.head = some head → Fits head s.intents := fun held => by simpa [Inv,held] using h
  cases act with
  | tick tick =>
    simp only [step]
    split
    · rename_i held _
      split
      · rename_i ok
        exact tickFits (fits held) ok
      · exact h
    · exact h
  | change call node =>
    simp only [step]
    split
    · rename_i ok
      exact changeFits h ok
    · exact h
  | ackRecording ref progress event =>
    simp only [step]
    split
    · rename_i held
      split
      · rename_i ok
        exact ackFits (fits held) ok
      · exact h
    · exact h
  | recordingFailed ref reason =>
    simp only [step]
    split
    · rename_i held
      unfold recordingFailed
      split
      · exact sameFits (fits held) rfl rfl rfl rfl
      · exact fits held
    · exact h
  | claim version nonce _ | ack version nonce =>
    simp only [step]
    split
    · rename_i held
      split
      · rename_i ok
        have frame := updateOutboxFrame ok
        exact sameFits (fits held) (by rw [frame]) (by rw [frame]) (by rw [frame]) (by rw [frame])
      · exact h
    · exact h

theorem runInv {s} (h : Inv s) (acts : List (Act A)) : Inv (run codec address s acts) := by
  induction acts generalizing s with
  | nil => exact h
  | cons act acts ih => exact ih (stepInv h act)

end Writes

/-- In every history of a head: the series it claims are exactly those whose last committed
sample is live, all others that were ever recorded end in a stale marker, each marker ends a live
series, and the intents, written one by one in queue order, have increasing timestamps. -/
theorem recordedSeriesEnd [DecidableEq A] (codec : Codec A) (address : Snapshot A → A) (acts : List (Act A)) :
    let s := run codec address start acts
    let samples := replay s.intents
    (∀ head, s.head = some head →
      (∃ acked, s.intents = acked ++ head.recordingQueue.map Queued.intent) ∧
      ∀ labels sample, lastOf samples labels = some sample → (sample.stale = false ↔ labels ∈ head.recordingSeries)) ∧
    (∀ head, s.head = some head → ∀ labels ∈ head.recordingSeries, ∃ sample,lastOf samples labels = some sample) ∧
    (∀ before stale after, samples = before ++ stale :: after → stale.stale = true →
      ∃ live, lastOf before stale.labels = some live ∧ live.stale = false) ∧
    (∀ intent ∈ s.intents, (intent.samples.map Sample.labels).Nodup) ∧
    (s.intents.map Intent.timestamp).Pairwise (· < ·) := by
  intro s samples
  have started : Inv (start : State A) := rfl
  have inv : Inv s := runInv started acts
  unfold Inv at inv
  cases held : s.head with
  | none =>
    rw [held] at inv
    have nothing : samples = [] := by simp [samples,inv,replay]
    simp [nothing,inv]
  | some head =>
    rw [held] at inv
    obtain ⟨kept,_,_⟩ := inv
    refine ⟨?_,?_,?_,kept.once,kept.increasing⟩
    · intro other same
      cases same
      refine ⟨kept.queued,fun labels sample last => ⟨fun live => ?_,fun mem => ?_⟩⟩
      · by_contra gone
        have stale := kept.replayed.ended labels sample gone last
        simp [stale] at live
      obtain ⟨current,found,live⟩ := kept.replayed.current labels mem
      rw [last] at found
      exact Option.some.inj found ▸ live
    · intro other same labels mem
      cases same
      obtain ⟨current,found,_⟩ := kept.replayed.current labels mem
      exact ⟨current,found⟩
    · intro before stale after split marked
      obtain ⟨live,found,fresh⟩ := kept.replayed.markers before stale after split marked
      exact ⟨live,by simpa using found,fresh⟩

end RecordingHistory
end Pulso.Alerting
