import Pulso.AlertChange

/-! Notification outboxes: what every write of the head does to the queue and the claim of one
target. Appends only extend queues, and only with the events they commit. -/
namespace Pulso.Alerting
open List
variable {A : Type}

def Head.queueOf (head : Head A) (version : Target) : List (Event A) :=
  ((head.outboxes.get? version).map Box.queue).getD []

def Head.claimOf (head : Head A) (version : Target) : Option (Claim A) :=
  (head.outboxes.get? version).bind Box.claim

def addressed (version : Target) (event : Event A) : Bool :=
  event.deliverable && event.notificationTargets.contains version

section Boxes
variable {boxes next : Dict Target (Box A)} {event : Event A} {target : Target}
variable (ok : enqueueTarget event boxes target = .ok next)
include ok

theorem enqueueTargetCases : next = boxes.put target { ((boxes.get? target).getD ⟨target,[],none⟩) with
      queue := ((boxes.get? target).getD ⟨target,[],none⟩).queue ++ [event] } := by
  unfold enqueueTarget at ok
  dsimp only at ok
  split at ok
  · exact (Except.ok.inj ok).symm
  · contradiction

theorem enqueueTargetQueue (version : Target) : ((next.get? version).map Box.queue).getD [] =
      ((boxes.get? version).map Box.queue).getD [] ++ if version = target then [event] else [] := by
  cases enqueueTargetCases ok
  by_cases same : version = target
  · subst same
    cases found : boxes.get? version <;> simp [Dict.getPutSame]
  · simp [Dict.getPutOther _ _ same,same]

theorem enqueueTargetClaim
    (version : Target) : (next.get? version).bind Box.claim = (boxes.get? version).bind Box.claim := by
  cases enqueueTargetCases ok
  by_cases same : version = target
  · subst same
    cases found : boxes.get? version <;> simp [Dict.getPutSame]
  · simp [Dict.getPutOther _ _ same]

omit ok

theorem enqueueTargetsQueue {targets : List Target} (distinct : targets.Nodup)
    (ok : targets.foldlM (enqueueTarget event) boxes = .ok next) (version : Target) :
    ((next.get? version).map Box.queue).getD [] =
      ((boxes.get? version).map Box.queue).getD [] ++ if version ∈ targets then [event] else [] := by
  induction targets generalizing boxes with
  | nil =>
    cases ok
    simp
  | cons target targets ih =>
    obtain ⟨fresh,distinct⟩ := nodup_cons.mp distinct
    obtain ⟨middle,first,ok⟩ := Results.bindOk ok
    rw [ih distinct ok,enqueueTargetQueue first,append_assoc]
    by_cases same : version = target
    · subst same
      simp [fresh]
    · simp [same]

theorem enqueueTargetsClaim {targets : List Target}
    (ok : targets.foldlM (enqueueTarget event) boxes = .ok next) (version : Target) :
    (next.get? version).bind Box.claim = (boxes.get? version).bind Box.claim := by
  induction targets generalizing boxes with
  | nil =>
    cases ok
    rfl
  | cons target targets ih =>
    obtain ⟨middle,first,ok⟩ := Results.bindOk ok
    rw [ih ok,enqueueTargetClaim first]

end Boxes

structure Extends (head next : Head A) (events : List (Event A)) : Prop where
  queue : ∀ version, next.queueOf version = head.queueOf version ++ events.filter (addressed version)
  claim : ∀ version, next.claimOf version = head.claimOf version

variable {head next : Head A}

theorem extendsSame (same : next.outboxes = head.outboxes) : Extends head next [] where
  queue version := by simp [Head.queueOf,same]
  claim version := by simp [Head.claimOf,same]

theorem extendsTrans {a b c} {first second : List (Event A)} (h : Extends a b first)
    (g : Extends b c second) : Extends a c (first ++ second) where
  queue version := by rw [g.queue,h.queue,filter_append,append_assoc]
  claim version := by rw [g.claim,h.claim]

theorem enqueueNotificationExtends {event : Event A} (distinct : event.notificationTargets.Nodup)
    (ok : enqueueNotification head event = .ok next) : Extends head next [event] := by
  unfold enqueueNotification at ok
  split at ok
  · rename_i deliverable
    obtain ⟨boxes,folded,rfl⟩ := Results.mapOk ok
    constructor
    · intro version
      have queue := enqueueTargetsQueue distinct folded version
      simp only [Head.queueOf,queue]
      by_cases member : version ∈ event.notificationTargets <;> simp [addressed,deliverable,member]
    · exact enqueueTargetsClaim folded
  · rename_i quiet
    cases ok
    constructor
    · intro version
      simp [addressed,quiet]
    · intro version
      rfl

theorem appendEventExtends {draft : Draft A} (distinct : head.notificationTargets.Nodup)
    (ok : appendEvent head draft = .ok next) : Extends head next [head.stamp draft] := by
  obtain ⟨boxes,enqueued,rfl⟩ := appendEventCases ok
  obtain ⟨queue,claim⟩ := enqueueNotificationExtends distinct enqueued
  have grown : Extends head boxes [head.stamp draft] := ⟨queue,claim⟩
  have same : (sealTail boxes).outboxes = boxes.outboxes := by rw [sealTailFrame]
  exact extendsTrans grown (extendsSame same)

theorem stampedSame (head other : Head A) (drafts : List (Draft A))
    (generation : head.generation = other.generation) (seq : head.eventSeq = other.eventSeq)
    (targets : head.notificationTargets = other.notificationTargets) :
    stamped head drafts = stamped other drafts := by
  induction drafts generalizing head other with
  | nil => rfl
  | cons draft drafts ih =>
    have rest := ih { head with eventSeq := head.eventSeq+1 } { other with eventSeq := other.eventSeq+1 }
      generation (congrArg (· + 1) seq) targets
    have first : head.stamp draft = other.stamp draft := by
      simp only [Head.stamp,generation,seq,targets]
    exact congrArg₂ List.cons first rest

theorem appendEventsExtends {drafts : List (Draft A)} (distinct : head.notificationTargets.Nodup)
    (ok : appendEvents head drafts = .ok next) : Extends head next (stamped head drafts) := by
  induction drafts generalizing head with
  | nil =>
    cases ok
    exact extendsSame rfl
  | cons draft drafts ih =>
    obtain ⟨middle,first,ok⟩ := Results.bindOk ok
    have frame := appendEventFrame first
    have targets : middle.notificationTargets = head.notificationTargets := by rw [frame]
    have rest := ih (targets ▸ distinct) ok
    have events : stamped middle drafts = stamped { head with eventSeq := head.eventSeq+1 } drafts :=
      stampedSame _ _ _ (by rw [frame]) (by rw [frame]) targets
    rw [events] at rest
    exact extendsTrans (appendEventExtends distinct first) rest

theorem stampedSequences (head : Head A) (drafts : List (Draft A)) :
    (stamped head drafts).map Event.sequence = List.range' (head.eventSeq+1) drafts.length := by
  induction drafts generalizing head with
  | nil => rfl
  | cons draft drafts ih =>
    rw [stamped,map_cons,ih,length_cons,range'_succ]
    rfl

structure Appends (old : Option (Head A)) (next : Head A) (events : List (Event A)) : Prop where
  queue : ∀ version, next.queueOf version =
    ((old.map (Head.queueOf · version)).getD []) ++ events.filter (addressed version)
  claim : ∀ version, next.claimOf version = old.bind (Head.claimOf · version)
  sequences : events.map Event.sequence = List.range' ((old.map Head.eventSeq).getD 0+1) events.length
  counted : next.eventSeq = (old.map Head.eventSeq).getD 0+events.length
  targets : next.notificationTargets.Nodup

theorem appendsOf {head logged next} {drafts : List (Draft A)}
    (distinct : head.notificationTargets.Nodup) (ok : appendEvents head drafts = .ok logged)
    (boxes : next.outboxes = logged.outboxes) (seq : next.eventSeq = logged.eventSeq)
    (targets : next.notificationTargets.Nodup) : Appends (some head) next (stamped head drafts) := by
  have grown := extendsTrans (appendEventsExtends distinct ok) (extendsSame boxes)
  rw [append_nil] at grown
  have sequences := stampedSequences head drafts
  have length : (stamped head drafts).length = drafts.length := by
    simpa using congrArg List.length sequences
  exact {
    queue := grown.queue
    claim := grown.claim
    sequences := by rw [length]; exact sequences
    counted := by rw [seq,appendEventsFrame ok,length]; rfl
    targets := targets }

variable {targets : String → Option String}

theorem bindDistinct {ids bound} (distinct : ids.Nodup) (ok : bind targets ids = .ok bound) : bound.Nodup := by
  unfold bind at ok
  split at ok
  case isFalse => contradiction
  rename_i short
  have named : bound.map Target.id = ids := by
    have each := Lists.mapMOk ok
    clear ok distinct short
    induction each with
    | nil => rfl
    | @cons id target ids bound found _ ih =>
      cases secret : targets id with
      | none => simp [secret] at found
      | some value =>
        simp only [secret,Except.ok.injEq] at found
        subst found
        simpa using ih
  exact (named ▸ distinct).of_map

theorem bindTargetsDistinct {call} {old : Option (Head A)}
    {bound : List Target} (distinct : ∀ head, old = some head → head.notificationTargets.Nodup)
    (ok : bindTargets targets call old = .ok bound) : bound.Nodup := by
  unfold bindTargets at ok
  split at ok
  · cases ok
    exact distinct _ rfl
  · exact bindDistinct call.rule.distinctTargets ok

section Written
variable [DecidableEq A] {codec : Codec A} {address : Snapshot A → A} {old : Option (Head A)} {next : Head A}

theorem changeAppends {call} {node : Surroundings} {snapshot : Snapshot A}
    (distinct : ∀ head, old = some head → head.notificationTargets.Nodup)
    (ok : publishChange codec address call old node = .ok (snapshot,next)) :
    Appends old next (committedBy old (.change call node)) := by
  obtain ⟨targets,logged,retired,h⟩ := publishChangeCases ok
  have bound := bindTargetsDistinct distinct h.bound
  have frame := retireRecordingFrame h.retiring
  have boxes : next.outboxes = logged.outboxes := by
    rw [h.replaced,frame]
    rfl
  have seq : next.eventSeq = logged.eventSeq := by
    rw [h.replaced,frame]
    rfl
  have targets' : next.notificationTargets.Nodup := by
    rw [h.replaced,h.revised]
    exact bound
  cases old with
  | some head => exact appendsOf (distinct head rfl) h.appended boxes seq targets'
  | none =>
    have grown := appendsOf nodup_nil h.appended boxes seq targets'
    exact { grown with }

theorem checkpointAppends {head} {evaluation : Evaluation A}
    (distinct : head.notificationTargets.Nodup) (ok : checkpoint codec head evaluation = .ok next) :
    Appends (some head) next (committedBy (some head) (.checkpoint evaluation)) := by
  obtain ⟨logged,queued,_,_,_,logging,recording,rfl⟩ := checkpointCases ok
  have frame := enqueueRecordingFrame recording
  have same := appendEventsFrame logging
  apply appendsOf distinct logging
  · rw [frame]
  · rw [frame]
  · rw [frame,same]
    exact distinct

theorem ackRecordingAppends {head ref progress} {event : Option (Draft A)} (distinct : head.notificationTargets.Nodup)
    (ok : ackRecording head ref progress event = .ok (some next)) :
    Appends (some head) next (committedBy (some head) (.ackRecording ref progress event)) := by
  obtain ⟨rest,logged,_,logging,rfl⟩ := ackRecordingCases ok
  have same := appendEventsFrame logging
  apply appendsOf distinct logging
  · rfl
  · rfl
  · rw [same]
    exact distinct

theorem writtenAppends {write : Write A} (distinct : ∀ head, old = some head → head.notificationTargets.Nodup)
    (ok : written codec address old write = some next) : Appends old next (committedBy old write) := by
  have did := writtenCases ok
  cases write with
  | change call node =>
    obtain ⟨snapshot,published⟩ := did
    exact changeAppends distinct published
  | checkpoint evaluation =>
    obtain ⟨head,rfl,done⟩ := did
    exact checkpointAppends (distinct head rfl) done
  | ackRecording ref progress event =>
    obtain ⟨head,rfl,done⟩ := did
    exact ackRecordingAppends (distinct head rfl) done
  | recordingFailed ref reason =>
    obtain ⟨head,rfl,failed⟩ := did
    unfold recordingFailed at failed
    split at failed
    · cases failed
      have same : Appends (some head) head (stamped head []) :=
        appendsOf (distinct head rfl) rfl rfl rfl (distinct head rfl)
      exact { same with }
    · contradiction

end Written
end Pulso.Alerting
