import Pulso.AlertLifecycle
import Pulso.AlertOutbox

/-! Every bound a write of the head can run into: the queues of its targets, and the size of
the objects it stores. The store itself cooperates. -/
namespace Pulso.Alerting
open List
variable {A : Type}

structure Sizes (A : Type) where
  event : Event A → Nat
  page : Page A → Nat
  revision : Snapshot A → Nat

def pageOf (tail : List (Nat × Event A)) : Page A where
  first := (tail.head?.map Prod.fst).getD 0
  last := (tail.getLast?.map Prod.fst).getD 0
  events := tail.map Prod.snd

variable (sizes : Sizes A) (codec : Codec A)

def sealStored (head : Head A) : Except Reason (Head A) :=
  if head.tail.length < tailLimit then .ok head
  else if maxObjectBytes < sizes.page (pageOf head.tail) then .error .objectLimit
  else .ok (sealTail head)

def appendStored (head : Head A) (draft : Draft A) : Except Reason (Head A) :=
  let event := head.stamp draft
  if maxObjectBytes < sizes.event event then .error .objectLimit
  else
    let logged := { head with
      eventSeq := head.eventSeq+1
      tail := head.tail ++ [(head.eventSeq+1,event)] }
    (enqueueNotification logged event).bind (sealStored sizes)

def appendAllStored (head : Head A) (drafts : List (Draft A)) : Except Reason (Head A) :=
  drafts.foldlM (appendStored sizes) head

def writeHead (next : Head A) : Except Reason (Head A) :=
  if maxObjectBytes < codec.headBytes next then .error .objectLimit else .ok next

def checkpointStored [DecidableEq A] (head : Head A) (evaluation : Evaluation A) : Except Reason (Head A) :=
  if head.revision ≠ some evaluation.revision then .error .conflict
  else if head.state ≠ .active then .error .ruleDisabled
  else if evaluation.timestamp ≤ head.completedAt then .error .staleEvaluation
  else (appendAllStored sizes head evaluation.events).bind fun next =>
    (enqueueRecording codec next evaluation.recording).bind fun next =>
      writeHead codec { next with
        completedAt := evaluation.timestamp
        instances := evaluation.instances
        health := evaluation.health
        evaluationRevision := some evaluation.revision }

def changeStored [DecidableEq A] (address : Snapshot A → A) (call : Call A) (old : Option (Head A))
    (node : Surroundings) : Except Reason (Head A) := do
  mutationPrecondition old call.action call.expected
  let targets ← bindTargets node.targets call old
  let generation := nextGeneration old call.action node.generation
  let head := old.getD (Head.empty generation)
  let snapshot := changeSnapshot call head generation targets node.publicationTime
  if maxObjectBytes < sizes.revision snapshot then .error .objectLimit
  else
    let head ← appendAllStored sizes head (resetEvents head call.action snapshot.actor node.eventTime)
    let head ← retireRecording codec head node.clock
    writeHead codec (changedHead head snapshot (address snapshot))

/-- Heads of one rule, whichever writes of any node produced them. -/
inductive Reachable [DecidableEq A] (address : Snapshot A → A) : Option (Head A) → Prop
  | start : Reachable address none
  | change {old call node next} (before : Reachable address old)
      (ok : changeStored sizes codec address call old node = .ok next) : Reachable address (some next)
  | checkpoint {head evaluation next} (before : Reachable address (some head))
      (ok : checkpointStored sizes codec head evaluation = .ok next) : Reachable address (some next)
  | ackRecording {head ref progress event next} (before : Reachable address (some head))
      (ok : Alerting.ackRecording head ref progress event = .ok (some next)) : Reachable address (some next)
  | recordingFailed {head ref reason next} (before : Reachable address (some head))
      (ok : Alerting.recordingFailed head ref reason = some next) : Reachable address (some next)
  | outbox {head version update box next} (before : Reachable address (some head))
      (ok : updateOutbox head version update = .ok (box,next)) : Reachable address (some next)

def Refused (outcome : Except Reason (Head A)) : Prop :=
  outcome = .error .notificationBacklog ∨ outcome = .error .objectLimit

/-- The history pages a full tail is sealed into while `events` are appended. -/
def sealedPages (tail : List (Nat × Event A)) : List (Event A) → List (Page A)
  | [] => []
  | event :: events =>
    let tail := tail ++ [(event.sequence,event)]
    if tail.length < tailLimit then sealedPages tail events else pageOf tail :: sealedPages [] events

/-- What the new events of a write need: room in the queues of their targets, which hold `queued`
events each, and objects of at most 1 MiB. -/
structure Room (head : Head A) (queued : Nat) (drafts : List (Draft A)) : Prop where
  queues : head.notificationTargets = [] ∨ queued+(drafts.filter Draft.deliverable).length ≤ queueLimit
  events : ∀ event ∈ stamped head drafts, sizes.event event ≤ maxObjectBytes
  pages : ∀ page ∈ sealedPages head.tail (stamped head drafts), sizes.page page ≤ maxObjectBytes

variable {targets : List Target} {k : Nat}

section Queues

def queueLength (boxes : Dict Target (Box A)) (target : Target) : Nat :=
  ((boxes.get? target).map fun box => box.queue.length).getD 0

def Boxed (targets : List Target) (boxes : Dict Target (Box A)) : Prop := ∀ target ∈ boxes.keys, target ∈ targets

variable {boxes : Dict Target (Box A)}

theorem boxedSize (few : targets.length ≤ 8) (boxed : Boxed targets boxes) : boxes.size < boxLimit := by
  have within : boxes.keys.length ≤ targets.length := (List.Nodup.subperm boxes.distinct boxed).length_le
  have same : boxes.size = boxes.keys.length := by simp [Dict.size,Dict.keys]
  unfold boxLimit
  omega

variable {target : Target}

theorem enqueueTargetOk (few : targets.length ≤ 8)
    (boxed : Boxed targets boxes) (mem : target ∈ targets) (event : Event A)
    (room : queueLength boxes target < queueLimit) :
    ∃ next, enqueueTarget event boxes target = .ok next ∧ Boxed targets next ∧
      queueLength next target = queueLength boxes target+1 ∧
      ∀ other ≠ target, queueLength next other = queueLength boxes other := by
  have size := boxedSize few boxed
  have length : ((boxes.get? target).getD ⟨target,[],none⟩).queue.length = queueLength boxes target := by
    unfold queueLength
    cases boxes.get? target <;> rfl
  refine ⟨_,if_pos ⟨length ▸ room,.inr size⟩,?_,?_,?_⟩
  · intro key found
    rcases Dict.memKeysPut.mp found with rfl | old
    · exact mem
    · exact boxed key old
  · rw [queueLength,Dict.getPutSame]
    simp only [Option.map_some,Option.getD_some,length_append,length_singleton,length]
  · intro other ne
    rw [queueLength,Dict.getPutOther _ _ ne]
    rfl

theorem enqueueTargetFull (event : Event A)
    (full : queueLimit ≤ queueLength boxes target) : enqueueTarget event boxes target = .error .notificationBacklog := by
  have length : ((boxes.get? target).getD ⟨target,[],none⟩).queue.length = queueLength boxes target := by
    unfold queueLength
    cases boxes.get? target <;> rfl
  exact if_neg (fun room => absurd room.1 (by rw [length]; omega))

theorem enqueueTargetsOk (few : targets.length ≤ 8) (event : Event A) (room : k < queueLimit)
    {rest : List Target} (distinct : rest.Nodup) (within : ∀ target ∈ rest, target ∈ targets)
    (boxed : Boxed targets boxes) (level : ∀ target ∈ rest, queueLength boxes target = k) :
    ∃ next, rest.foldlM (enqueueTarget event) boxes = .ok next ∧ Boxed targets next ∧
      (∀ target ∈ rest, queueLength next target = k+1) ∧
      ∀ other ∉ rest, queueLength next other = queueLength boxes other := by
  induction rest generalizing boxes with
  | nil => exact ⟨boxes,rfl,boxed,by simp,fun _ _ => rfl⟩
  | cons target rest ih =>
    obtain ⟨fresh,distinct⟩ := nodup_cons.mp distinct
    have here := level target mem_cons_self
    obtain ⟨middle,first,boxed,grown,others⟩ :=
      enqueueTargetOk few boxed (within target mem_cons_self) event (here ▸ room)
    have still : ∀ other ∈ rest, queueLength middle other = k := by
      intro other mem
      have ne : other ≠ target := fun same => fresh (same ▸ mem)
      rw [others other ne]
      exact level other (mem_cons_of_mem _ mem)
    obtain ⟨next,later,boxed,levels,frame⟩ := ih distinct (forall_mem_cons.mp within).2 boxed still
    refine ⟨next,?_,boxed,?_,?_⟩
    · rw [foldlM_cons]
      simpa only [first,Bind.bind,Except.bind] using later
    · intro other mem
      cases mem with
      | head => rw [frame target fresh,grown,here]
      | tail _ mem => exact levels other mem
    · intro other notMem
      have ne : other ≠ target := fun same => notMem (same ▸ mem_cons_self)
      rw [frame other (fun mem => notMem (mem_cons_of_mem _ mem)),others other ne]

theorem enqueueTargetsFull (event : Event A) {rest} (full : queueLimit ≤ queueLength boxes target) :
    (target :: rest).foldlM (enqueueTarget event) boxes = .error .notificationBacklog := by
  rw [foldlM_cons,enqueueTargetFull event full]
  rfl

structure Level (head : Head A) (k : Nat) : Prop where
  few : head.notificationTargets.length ≤ 8
  distinct : head.notificationTargets.Nodup
  boxed : Boxed head.notificationTargets head.outboxes
  level : ∀ target ∈ head.notificationTargets, queueLength head.outboxes target = k
  within : head.notificationTargets = [] ∨ k ≤ queueLimit

structure SameStamps (head next : Head A) : Prop where
  generation : next.generation = head.generation
  eventSeq : next.eventSeq = head.eventSeq
  targets : next.notificationTargets = head.notificationTargets

theorem enqueueOk {head : Head A} (level : Level head k) (event : Event A)
    (targets : event.notificationTargets = head.notificationTargets)
    (room : event.deliverable = true → head.notificationTargets = [] ∨ k < queueLimit) :
    ∃ boxes, enqueueNotification head event = .ok { head with outboxes := boxes } ∧
      Level { head with outboxes := boxes } (if event.deliverable then k+1 else k) := by
  unfold enqueueNotification
  split
  · rename_i deliverable
    rcases room deliverable with none | open'
    · refine ⟨head.outboxes,?_,⟨level.few,level.distinct,level.boxed,?_,.inl none⟩⟩
      · rw [targets,none]
        rfl
      · simp only [none]
        simp
    · obtain ⟨boxes,enqueued,boxed,levels,_⟩ :=
        enqueueTargetsOk level.few event open' level.distinct (fun _ mem => mem) level.boxed level.level
      refine ⟨boxes,?_,⟨level.few,level.distinct,boxed,levels,.inr open'⟩⟩
      rw [targets,enqueued]
      rfl
  · exact ⟨head.outboxes,rfl,level⟩

theorem enqueueFull {head} (level : Level head k) {event : Event A}
    (targets : event.notificationTargets = head.notificationTargets) (deliverable : event.deliverable = true)
    (some : head.notificationTargets ≠ []) (full : queueLimit ≤ k) :
    enqueueNotification head event = .error .notificationBacklog := by
  obtain ⟨target,rest,cons⟩ := exists_cons_of_ne_nil some
  have here := level.level target (cons ▸ mem_cons_self)
  unfold enqueueNotification
  rw [if_pos deliverable,targets,cons,enqueueTargetsFull event (here ▸ full)]
  rfl

end Queues

variable {sizes codec}

theorem sealTailStamps (head : Head A) : SameStamps head (sealTail head) := by
  rw [sealTailFrame]
  exact ⟨rfl,rfl,rfl⟩

variable {head : Head A}

theorem sealTailLevel (level : Level head k) : Level (sealTail head) k := by
  rw [sealTailFrame]
  exact { level with }

def nextTail (tail : List (Nat × Event A)) (event : Event A) : List (Nat × Event A) :=
  if (tail ++ [(event.sequence,event)]).length < tailLimit then tail ++ [(event.sequence,event)] else []

theorem sealedPagesCons (tail : List (Nat × Event A)) (event : Event A) (events : List (Event A)) :
    sealedPages tail (event :: events) = sealedPages tail [event] ++ sealedPages (nextTail tail event) events := by
  simp only [sealedPages,nextTail]
  split <;> simp

structure Logged (head next : Head A) (draft : Draft A) (k : Nat) : Prop where
  level : Level next (if draft.deliverable then k+1 else k)
  stamps : SameStamps { head with eventSeq := head.eventSeq+1 } next
  tail : next.tail = nextTail head.tail (head.stamp draft)

variable {draft : Draft A}

theorem sealStoredOk {head queued} (level : Level queued (if draft.deliverable then k+1 else k))
    (stamps : SameStamps { head with eventSeq := head.eventSeq+1 } queued)
    (tail : queued.tail = head.tail ++ [((head.stamp draft).sequence,head.stamp draft)])
    (pages : ∀ page ∈ sealedPages head.tail [head.stamp draft], sizes.page page ≤ maxObjectBytes) :
    ∃ next, sealStored sizes queued = .ok next ∧ Logged head next draft k := by
  unfold sealStored
  split
  · rename_i short
    refine ⟨queued,rfl,level,stamps,?_⟩
    rw [tail] at short ⊢
    exact (if_pos short).symm
  rename_i full
  rw [tail] at full
  have small := pages (pageOf queued.tail) (by
    simp only [sealedPages]
    rw [if_neg full,tail]
    exact mem_cons_self)
  rw [if_neg (by omega)]
  have sealed := sealTailStamps queued
  refine ⟨_,rfl,sealTailLevel level,?_,?_⟩
  · exact ⟨sealed.generation.trans stamps.generation,sealed.eventSeq.trans stamps.eventSeq,
      sealed.targets.trans stamps.targets⟩
  · unfold sealTail nextTail
    rw [tail,if_neg full,if_neg full]

theorem sealStoredLarge {queued tail event}
    (same : queued.tail = tail ++ [(event.sequence,event)]) {page} (mem : page ∈ sealedPages tail [event])
    (large : maxObjectBytes < sizes.page page) : sealStored sizes queued = .error .objectLimit := by
  simp only [sealedPages] at mem
  split at mem
  · cases mem
  rename_i full
  cases mem_singleton.mp mem
  unfold sealStored
  rw [same,if_neg full,if_pos large]

theorem deliverableRoom (queues : targets = [] ∨ k+([draft].filter Draft.deliverable).length ≤ queueLimit)
    (deliverable : draft.deliverable = true) : targets = [] ∨ k < queueLimit := by
  refine queues.imp id ?_
  intro bound
  rw [filter_cons_of_pos deliverable,length_cons] at bound
  omega

theorem appendStoredOk (level : Level head k)
    (room : Room sizes head k [draft]) : ∃ next, appendStored sizes head draft = .ok next ∧ Logged head next draft k := by
  have small := room.events (head.stamp draft) mem_cons_self
  have logged : Level { head with
      eventSeq := head.eventSeq+1
      tail := head.tail ++ [(head.eventSeq+1,head.stamp draft)] } k :=
    { level with }
  obtain ⟨boxes,enqueued,level⟩ := enqueueOk logged (head.stamp draft) rfl (deliverableRoom room.queues)
  have sealed : ∃ next, sealStored sizes _ = .ok next ∧ Logged head next draft k :=
    sealStoredOk level ⟨rfl,rfl,rfl⟩ rfl room.pages
  obtain ⟨next,sealed,done⟩ := sealed
  refine ⟨next,?_,done⟩
  unfold appendStored
  simp only
  rw [if_neg (by omega),enqueued]
  exact sealed

theorem appendStoredRefused (level : Level head k)
    (tight : ¬Room sizes head k [draft]) : Refused (appendStored sizes head draft) := by
  unfold appendStored
  simp only
  split
  · exact .inr rfl
  rename_i small
  have logged : Level { head with
      eventSeq := head.eventSeq+1
      tail := head.tail ++ [(head.eventSeq+1,head.stamp draft)] } k :=
  { level with }
  by_cases queues : head.notificationTargets = [] ∨ k+([draft].filter Draft.deliverable).length ≤ queueLimit
  · -- the queues have room, so it is the sealed page that is too large
    obtain ⟨boxes,enqueued,_⟩ := enqueueOk logged (head.stamp draft) rfl (deliverableRoom queues)
    rw [enqueued]
    have large : ∃ page ∈ sealedPages head.tail [head.stamp draft], maxObjectBytes < sizes.page page := by
      by_contra none
      push Not at none
      refine tight ⟨queues,?_,none⟩
      intro event mem
      cases mem_singleton.mp mem
      omega
    obtain ⟨page,mem,large⟩ := large
    exact .inr (sealStoredLarge rfl mem large)
  · obtain ⟨some,beyond⟩ := not_or.mp queues
    have within := level.within.resolve_left some
    have deliverable : draft.deliverable = true := by
      by_contra silent
      rw [filter_cons_of_neg silent] at beyond
      exact beyond within
    have full : queueLimit ≤ k := by
      rw [filter_cons_of_pos deliverable] at beyond
      simp only [filter_nil,length_singleton] at beyond
      omega
    rw [enqueueFull logged rfl deliverable some full]
    exact .inl rfl

variable {drafts : List (Draft A)}

theorem queuesCons : (targets = [] ∨ k+((draft :: drafts).filter Draft.deliverable).length ≤ queueLimit) ↔
      (targets = [] ∨ k+([draft].filter Draft.deliverable).length ≤ queueLimit) ∧
      (targets = [] ∨ (if draft.deliverable then k+1 else k)+(drafts.filter Draft.deliverable).length ≤ queueLimit) := by
  rw [← or_and_left]
  refine or_congr Iff.rfl ?_
  by_cases deliverable : draft.deliverable = true
  · rw [filter_cons_of_pos deliverable,filter_cons_of_pos deliverable,if_pos deliverable]
    simp only [filter_nil,length_cons,length_nil]
    omega
  rw [filter_cons_of_neg deliverable,filter_cons_of_neg deliverable,if_neg deliverable]
  simp only [filter_nil,length_nil]
  omega

variable {head next : Head A}

theorem roomCons (logged : Logged head next draft k) (drafts : List (Draft A)) : Room sizes head k (draft :: drafts) ↔
      Room sizes head k [draft] ∧ Room sizes next (if draft.deliverable then k+1 else k) drafts := by
  have targets := logged.stamps.targets
  have rest : stamped next drafts = stamped { head with eventSeq := head.eventSeq+1 } drafts :=
    stampedSame _ _ drafts logged.stamps.generation logged.stamps.eventSeq logged.stamps.targets
  have events : stamped head (draft :: drafts) = stamped head [draft] ++ stamped next drafts := by
    rw [rest]
    rfl
  have pages : sealedPages head.tail (stamped head (draft :: drafts)) =
      sealedPages head.tail (stamped head [draft]) ++ sealedPages next.tail (stamped next drafts) := by
    rw [logged.tail,rest]
    exact sealedPagesCons _ _ _
  constructor
  · intro room
    obtain ⟨first,later⟩ := queuesCons.mp room.queues
    refine ⟨⟨first,?_,?_⟩,⟨targets ▸ later,?_,?_⟩⟩
    · exact fun event mem => room.events event (events ▸ mem_append_left _ mem)
    · exact fun page mem => room.pages page (pages ▸ mem_append_left _ mem)
    · exact fun event mem => room.events event (events ▸ mem_append_right _ mem)
    · exact fun page mem => room.pages page (pages ▸ mem_append_right _ mem)
  · rintro ⟨first,later⟩
    refine ⟨queuesCons.mpr ⟨first.queues,targets ▸ later.queues⟩,?_,?_⟩
    · intro event mem
      rw [events] at mem
      exact (mem_append.mp mem).elim (first.events event) (later.events event)
    intro page mem
    rw [pages] at mem
    exact (mem_append.mp mem).elim (first.pages page) (later.pages page)

theorem appendAllStoredOk (level : Level head k)
    (room : Room sizes head k drafts) : ∃ next, appendAllStored sizes head drafts = .ok next := by
  induction drafts generalizing head k with
  | nil => exact ⟨head,rfl⟩
  | cons draft drafts ih =>
    have first : Room sizes head k [draft] := by
      refine ⟨(queuesCons.mp room.queues).1,?_,?_⟩
      · exact fun event mem => room.events event (by
          rw [mem_singleton.mp mem]
          exact mem_cons_self)
      intro page mem
      refine room.pages page ?_
      rw [stamped,sealedPagesCons]
      exact mem_append_left _ mem
    obtain ⟨middle,appended,logged⟩ := appendStoredOk level first
    obtain ⟨next,later⟩ := ih logged.level ((roomCons logged drafts).mp room).2
    refine ⟨next,?_⟩
    unfold appendAllStored at later ⊢
    rw [foldlM_cons]
    simpa only [appended,Bind.bind,Except.bind] using later

theorem appendAllStoredRefused (level : Level head k)
    (tight : ¬Room sizes head k drafts) : Refused (appendAllStored sizes head drafts) := by
  induction drafts generalizing head k with
  | nil =>
    refine absurd ⟨?_,?_,?_⟩ tight
    · exact level.within
    · exact fun _ mem => absurd mem not_mem_nil
    · exact fun _ mem => absurd mem not_mem_nil
  | cons draft drafts ih =>
    unfold appendAllStored
    rw [foldlM_cons]
    by_cases first : Room sizes head k [draft]
    · obtain ⟨middle,appended,logged⟩ := appendStoredOk level first
      have later := ih logged.level (fun room => tight ((roomCons logged drafts).mpr ⟨first,room⟩))
      rw [appended]
      exact later
    · rcases appendStoredRefused level first with refused | refused <;> rw [refused]
      · exact .inl rfl
      · exact .inr rfl

theorem appendStoredAppends (ok : appendStored sizes head draft = .ok next) : appendEvent head draft = .ok next := by
  unfold appendStored at ok
  simp only at ok
  split at ok
  · cases ok
  simp only [appendEvent]
  generalize enqueueNotification _ _ = enqueued at ok ⊢
  cases enqueued with
  | error reason => cases ok
  | ok queued =>
    change sealStored sizes queued = .ok next at ok
    unfold sealStored at ok
    split at ok
    · rename_i short
      cases ok
      exact congrArg _ (if_pos short)
    split at ok
    · cases ok
    · exact ok

theorem appendAllStoredAppends
    (ok : appendAllStored sizes head drafts = .ok next) : appendEvents head drafts = .ok next := by
  induction drafts generalizing head with
  | nil => exact ok
  | cons draft drafts ih =>
    obtain ⟨middle,first,ok⟩ := Results.bindOk ok
    unfold appendEvents
    rw [foldlM_cons,appendStoredAppends first]
    exact ih ok

/-- The bounds an evaluation runs into: its events', and the size of the head it commits. -/
structure CheckpointRoom [DecidableEq A] (sizes : Sizes A) (codec : Codec A) (head : Head A) (evaluation : Evaluation A) :
    Prop where
  events : Room sizes head 0 evaluation.events
  head : ∀ next, checkpoint codec head evaluation = .ok next → codec.headBytes next ≤ maxObjectBytes

theorem checkpointRefused [DecidableEq A] (level : Level head 0) {evaluation}
    (current : head.revision = some evaluation.revision) (active : head.state = .active)
    (later : head.completedAt < evaluation.timestamp) (threshold : evaluation.recording = none) :
    Refused (checkpointStored sizes codec head evaluation) ↔ ¬CheckpointRoom sizes codec head evaluation := by
  have live : ¬head.state ≠ .active := not_not.mpr active
  have due : ¬evaluation.timestamp ≤ head.completedAt := by omega
  unfold checkpointStored
  rw [if_neg (not_not.mpr current),if_neg live,if_neg due]
  by_cases room : Room sizes head 0 evaluation.events
  · obtain ⟨next,appended⟩ := appendAllStoredOk level room
    have unsized : checkpoint codec head evaluation = .ok { next with
        completedAt := evaluation.timestamp
        instances := evaluation.instances
        health := evaluation.health
        evaluationRevision := some evaluation.revision } := by
      unfold checkpoint
      rw [if_neg (not_not.mpr current),if_neg live,if_neg due,appendAllStoredAppends appended,threshold]
      rfl
    rw [appended,threshold]
    change Refused (writeHead codec _) ↔ _
    unfold writeHead
    split
    · rename_i large
      refine ⟨fun _ fits => ?_,fun _ => .inr rfl⟩
      have := fits.head _ unsized
      omega
    · rename_i small
      refine ⟨?_,fun tight => absurd ⟨room,?_⟩ tight⟩
      · rintro (refused | refused) <;> cases refused
      intro written same
      rw [unsized] at same
      cases same
      omega
  · refine ⟨fun _ fits => room fits.events,fun _ => ?_⟩
    rcases appendAllStoredRefused level room with refused | refused <;> rw [refused]
    · exact .inl rfl
    · exact .inr rfl

end Pulso.Alerting
