import Pulso.RevisionChain

/-! Rule changes are applied exactly once. Receipts and the walk over the ancestry find the one
committed child of the expected revision again. A replay is told apart from other requests by
its operation id and digest; that part needs operation ids that are not used again and bindings
that agree on all nodes. -/
namespace Pulso.Alerting
open List
variable {A : Type}

def receiptOf (address : Snapshot A → A) (snapshot : Snapshot A) : Receipt A :=
  ⟨snapshot.operationId,snapshot.requestDigest,address snapshot⟩

section Publications
variable [DecidableEq A] {codec : Codec A} {address : Snapshot A → A} {call : Call A} {old : Option (Head A)}
  {node : Surroundings} {snapshot : Snapshot A} {next : Head A}

structure Publication (address : Snapshot A → A) (call : Call A) (old : Option (Head A))
    (node : Surroundings) (snapshot : Snapshot A) (next : Head A) : Prop where
  expected : call.expected = old.bind Head.revision
  parent : snapshot.parent = old.bind Head.revision
  changeSeq : snapshot.changeSeq = (old.map Head.changeSeq).getD 0+1
  operation : snapshot.operationId = call.operationId
  digest : snapshot.requestDigest = requestDigest call.request snapshot.notificationTargets
  targets : bindTargets node.targets call old = .ok snapshot.notificationTargets
  revision : next.revision = some (address snapshot)
  nextSeq : next.changeSeq = snapshot.changeSeq
  operations : next.operations = (receiptOf address snapshot :: (old.map Head.operations).getD []).take receiptLimit

theorem publicationOf (ok : publishChange codec address call old node = .ok (snapshot,next)) :
    Publication address call old node snapshot next := by
  obtain ⟨targets,logged,retired,h⟩ := publishChangeCases ok
  have frame := retireRecordingFrame h.retiring
  have logging := appendEventsFrame h.appended
  have expected : call.expected = old.bind Head.revision := by
    have precondition := h.precondition
    unfold mutationPrecondition at precondition
    split at precondition
    · assumption
    · contradiction
  have operations : retired.operations = (old.map Head.operations).getD [] := by
    rw [frame,logging]
    cases old <;> rfl
  rw [h.replaced,h.revised]
  exact {
    expected := expected
    parent := by cases old <;> rfl
    changeSeq := by cases old <;> rfl
    operation := rfl
    digest := rfl
    targets := h.bound
    revision := rfl
    nextSeq := rfl
    operations := by rw [← operations]; rfl }

theorem publishChangeError {reason} (precondition : mutationPrecondition old call.action call.expected = .ok ())
    (error : publishChange codec address call old node = .error reason) :
    reason ≠ .conflict ∧ reason ≠ .operationReused := by
  simp only [publishChange,precondition,Bind.bind,Except.bind] at error
  cases bound : bindTargets node.targets call old with
  | error inner =>
    simp only [bound,Except.error.injEq] at error
    subst error
    simp [bindTargetsError bound]
  | ok targets =>
    simp only [bound] at error
    generalize appended : appendEvents _ _ = result at error
    cases result with
    | error inner =>
      simp only [Except.error.injEq] at error
      subst error
      simp [appendEventsError appended]
    | ok logged =>
      cases retiring : retireRecording codec logged node.clock with
      | ok retired => simp [retiring,pure,Except.pure] at error
      | error inner =>
        simp only [retiring,Except.error.injEq] at error
        subst error
        rcases retireRecordingError retiring with rfl | rfl <;> simp

end Publications

namespace Repository

structure HeadFits (address : Snapshot A → A) (head : Head A) (history : List (Snapshot A)) : Prop where
  revision : head.revision = history.head?.map address
  nonempty : history ≠ []
  changeSeq : head.changeSeq = history.length
  operations : head.operations = (history.map (receiptOf address)).take receiptLimit

def boundTargets (bindings : String → Option String) (request : Request A) : List Target :=
  (request.rule.bind fun rule => (bind bindings rule.notificationTargets).toOption).getD []

theorem boundDigest {bindings call} {old : Option (Head A)}
    {targets : List Target} (ok : bindTargets bindings call old = .ok targets) :
    requestDigest call.request targets = requestDigest call.request (boundTargets bindings call.request) := by
  by_cases deleted : call.action = .delete
  · simp [requestDigest,Call.request,deleted]
  have bound : bind bindings call.rule.notificationTargets = .ok targets := by
    unfold bindTargets at ok
    cases action : call.action with
    | delete => exact absurd action deleted
    | _ => simpa only [action] using ok
  simp [boundTargets,Call.request,deleted,bound,Except.toOption]

section Invariant
variable [DecidableEq A] {allowed : Surroundings → Prop} {codec : Codec A} {address : Snapshot A → A}
  {s : State A} {act : Act A}

/-- `allowed` is what the run promises of the nodes that publish. -/
def CallFits (allowed : Surroundings → Prop) (address : Snapshot A → A) (objects : List (Snapshot A)) :
    Progressing A → Prop
  | .idle => True
  | .loaded call old => mutationPrecondition old call.action call.expected = .ok ()
  | .publishing call old snapshot next => snapshot ∈ objects ∧
    ∃ node, allowed node ∧ Publication address call old node snapshot next
  | .unconfirmed call snapshot next => snapshot ∈ objects ∧
    ∃ old node, allowed node ∧ Publication address call old node snapshot next
  | .recovering call digest => ∃ old node targets, allowed node ∧
    bindTargets node.targets call old = .ok targets ∧ digest = requestDigest call.request targets

structure Inv (allowed : Surroundings → Prop) (address : Snapshot A → A) (s : State A) : Prop where
  head : ∀ head, s.head = some head → HeadFits address head s.history
  fresh : s.head = none → s.history = []
  chain : Chain address s.history
  stored : ∀ c ∈ s.history, c ∈ s.objects
  committed : ∀ c ∈ s.history, ∃ call old node next, allowed node ∧ Publication address call old node c next
  calls : ∀ id, CallFits allowed address s.objects (s.calls id)

theorem callFitsGrows {objects more progress}
    (grown : ∀ c ∈ objects, c ∈ more) (fits : CallFits allowed address objects progress) :
    CallFits allowed address more progress := by
  cases progress with
  | idle => trivial
  | loaded call old => exact fits
  | publishing call old snapshot next => exact ⟨grown snapshot fits.1,fits.2⟩
  | unconfirmed call snapshot next => exact ⟨grown snapshot fits.1,fits.2⟩
  | recovering call digest => exact fits

theorem startInv : Inv allowed address (start : State A) where
  head := by simp [start]
  fresh _ := rfl
  chain := trivial
  stored := by simp [start]
  committed := by simp [start]
  calls _ := trivial

namespace Inv

variable (h : Inv allowed address s)
include h

theorem setCall (id : Nat) (progress : Progressing A)
    (fits : CallFits allowed address s.objects progress) : Inv allowed address (s.setCall id progress) := by
  refine { h with calls := fun other => ?_ }
  by_cases eq : other = id
  · subst eq
    simpa [State.setCall] using fits
  · simpa [State.setCall,eq] using h.calls other

theorem store (snapshot : Snapshot A) : Inv allowed address { s with objects := s.objects ++ [snapshot] } where
  head := h.head
  fresh := h.fresh
  chain := h.chain
  stored c mem := mem_append_left _ (h.stored c mem)
  committed := h.committed
  calls id := callFitsGrows (fun _ mem => mem_append_left _ mem) (h.calls id)

theorem otherHead {head next} (current : s.head = some head)
    (revision : next.revision = head.revision) (seq : next.changeSeq = head.changeSeq)
    (operations : next.operations = head.operations) : Inv allowed address { s with head := some next } where
  head other eq := by
    cases eq
    have fits := h.head head current
    exact ⟨revision.trans fits.revision,fits.nonempty,seq.trans fits.changeSeq,operations.trans fits.operations⟩
  fresh eq := by cases eq
  chain := h.chain
  stored := h.stored
  committed := h.committed
  calls := h.calls

theorem land {call node snapshot next} (stored : snapshot ∈ s.objects) (promised : allowed node)
    (published : Publication address call s.head node snapshot next) :
    Inv allowed address { s with head := some next, history := snapshot :: s.history } where
  head other eq := by
    cases eq
    constructor
    · exact published.revision
    · exact cons_ne_nil _ _
    · rw [published.nextSeq,published.changeSeq,length_cons]
      cases current : s.head with
      | none => simp [h.fresh current]
      | some head => simp [(h.head head current).changeSeq]
    · rw [published.operations,map_cons]
      cases current : s.head with
      | none => simp [h.fresh current]
      | some head => simp [(h.head head current).operations,receiptLimit,take_take]
  fresh eq := by cases eq
  chain := by
    refine ⟨?_,?_,h.chain⟩
    · rw [published.parent]
      cases current : s.head with
      | none => simp [h.fresh current]
      | some head => simp [(h.head head current).revision]
    · rw [published.changeSeq]
      cases current : s.head with
      | none => simp [h.fresh current]
      | some head => simp [(h.head head current).changeSeq]
  stored c mem := by
    rcases mem_cons.mp mem with rfl | old
    · exact stored
    · exact h.stored c old
  committed c mem := by
    rcases mem_cons.mp mem with rfl | old
    · exact ⟨call,s.head,node,next,promised,published⟩
    · exact h.committed c old
  calls := h.calls

end Inv

theorem decideLoaded {object call} {old : Option (Head A)} (none : decideChange object call old = none) :
    mutationPrecondition old call.action call.expected = .ok () := by
  unfold decideChange at none
  split at none
  · contradiction
  split at none
  · split at none
    · contradiction
    · split at none <;> contradiction
  split at none
  · contradiction
  cases checked : mutationPrecondition old call.action call.expected with
  | error reason => simp [checked] at none
  | ok => rfl

theorem otherWriteKeeps {head next} (ok : otherWrite codec head act = some next) :
    next.revision = head.revision ∧ next.changeSeq = head.changeSeq ∧ next.operations = head.operations := by
  cases act with
  | checkpoint evaluation =>
    obtain ⟨logged,queued,_,_,_,logging,recording,rfl⟩ := checkpointCases (Results.okOf ok)
    rw [enqueueRecordingFrame recording,appendEventsFrame logging]
    simp
  | ackRecording ref progress event =>
    obtain ⟨rest,logged,_,logging,rfl⟩ := ackRecordingCases (Results.okOf (Option.join_eq_some_iff.mp ok))
    rw [appendEventsFrame logging]
    simp
  | recordingFailed ref reason =>
    simp only [otherWrite,Alerting.recordingFailed] at ok
    split at ok
    · cases ok
      simp
    · contradiction
  | claim version nonce _ | ack version nonce =>
    obtain ⟨⟨box,_⟩,done,rfl⟩ := Option.map_eq_some_iff.mp ok
    rw [updateOutboxFrame (Results.okOf done)]
    simp
  | _ => simp [otherWrite] at ok

theorem otherStep (h : Inv allowed address s) (act : Act A) :
    Inv allowed address { s with head := s.head.map fun head => (otherWrite codec head act).getD head } := by
  cases current : s.head with
  | none => exact { h with
      head := by simp
      fresh := fun _ => h.fresh current }
  | some head =>
    cases ok : otherWrite codec head act with
    | none => simpa [ok] using h.otherHead current rfl rfl rfl
    | some next =>
      obtain ⟨revision,seq,operations⟩ := otherWriteKeeps ok
      simpa [ok] using h.otherHead current revision seq operations

def Promised (allowed : Surroundings → Prop) : Act A → Prop
  | .prepare _ node _ _ => allowed node
  | _ => True

inductive Outcome (codec : Codec A) (address : Snapshot A → A) (s : State A) :
    Act A → State A × Option (Call A × Answer A) → Prop where
  | still (any : Act A) : Outcome codec address s any (s,none)
  | decided {id call answer} (decided : decideChange (s.object address) call s.head = some answer) :
      Outcome codec address s (.call id call) (s,some (call,answer))
  | loaded {id call} (open_ : decideChange (s.object address) call s.head = none) :
      Outcome codec address s (.call id call) (s.setCall id (.loaded call s.head),none)
  | failed {id node lands stored call old reason} (held : s.calls id = .loaded call old)
      (refused : publishChange codec address call old node = .error reason) :
      Outcome codec address s (.prepare id node lands stored) (s.setCall id .idle,some (call,.error reason))
  | prepared {id node lands stored call old snapshot next put}
      (published : publishChange codec address call old node = .ok (snapshot,next))
      (puts : put = s ∨ put = { s with objects := s.objects ++ [snapshot] }) (present : snapshot ∈ put.objects) :
      Outcome codec address s (.prepare id node lands stored) (put.setCall id (.publishing call old snapshot next),none)
  | unstored {id node lands stored call snapshot put}
      (puts : put = s ∨ put = { s with objects := s.objects ++ [snapshot] }) :
      Outcome codec address s (.prepare id node lands stored)
        (put.setCall id .idle,some (call,.error .ambiguousObjectWrite))
  | oversized {id lands reported call old snapshot next} (held : s.calls id = .publishing call old snapshot next) :
      Outcome codec address s (.write id lands reported) (s.setCall id (.recovering call snapshot.requestDigest),none)
  | landed {id reported call snapshot next} (held : s.calls id = .publishing call s.head snapshot next) :
      Outcome codec address s (.write id true reported)
        (if reported then ({ s with head := some next, history := snapshot :: s.history }.setCall id .idle,
            some (call,.ok (snapshot,address snapshot)))
          else ({ s with head := some next, history := snapshot :: s.history }.setCall id
            (.unconfirmed call snapshot next),none))
  | lost {id lands reported call old snapshot next} (held : s.calls id = .publishing call old snapshot next) :
      Outcome codec address s (.write id lands reported) (s.setCall id (.unconfirmed call snapshot next),none)
  | confirmed {id call snapshot next} (held : s.calls id = .unconfirmed call snapshot next)
      (current : s.head = some next) :
      Outcome codec address s (.confirm id) (s.setCall id .idle,some (call,.ok (snapshot,address snapshot)))
  | unsure {id call snapshot next} (held : s.calls id = .unconfirmed call snapshot next) :
      Outcome codec address s (.confirm id) (s.setCall id (.recovering call snapshot.requestDigest),none)
  | recovered {id call digest} (held : s.calls id = .recovering call digest) :
      Outcome codec address s (.recover id)
        (s.setCall id .idle,some (call,recoverChange (s.object address) call digest s.head))
  | crashed (id) : Outcome codec address s (.crash id) (s.setCall id .idle,none)
  | other (any : Act A) : Outcome codec address s any
      ({ s with head := s.head.map fun head => (otherWrite codec head any).getD head },none)

theorem stepOutcome (codec : Codec A) (address : Snapshot A → A) (s : State A) (act : Act A) :
    Outcome codec address s act (step codec address s act) := by
  cases act with
  | call id call =>
    simp only [step]
    split
    · split
      · exact .decided (by assumption)
      · exact .loaded (by assumption)
    · exact .still _
  | prepare id node lands othersStored =>
    simp only [step]
    split
    · rename_i call old held
      split
      · exact .failed held (by assumption)
      rename_i snapshot next published
      have puts : (if lands then { s with objects := s.objects ++ [snapshot] } else s) = s ∨
          (if lands then { s with objects := s.objects ++ [snapshot] } else s) =
            { s with objects := s.objects ++ [snapshot] } := by
        cases lands
        · exact .inl rfl
        · exact .inr rfl
      generalize (if lands then { s with objects := s.objects ++ [snapshot] } else s) = put at puts
      split
      · rename_i present
        exact .prepared published puts present.1
      · exact .unstored puts
    · exact .still _
  | write id lands reported =>
    simp only [step]
    split
    · rename_i call old snapshot next held
      split
      · exact .oversized held
      split
      · rename_i lands
        obtain ⟨rfl,rfl⟩ := lands
        exact .landed held
      · exact .lost held
    · exact .still _
  | confirm id =>
    simp only [step]
    split
    · rename_i held
      split
      · exact .confirmed held (by assumption)
      · exact .unsure held
    · exact .still _
  | recover id =>
    simp only [step]
    split
    · exact .recovered (by assumption)
    · exact .still _
  | crash id => exact .crashed id
  | _ => exact .other _

theorem stepInv (h : Inv allowed address s) (promised : Promised allowed act) :
    Inv allowed address (step codec address s act).1 := by
  have fits := h.calls
  have outcome := stepOutcome codec address s act
  generalize step codec address s act = result at outcome ⊢
  cases outcome with
  | still => exact h
  | decided => exact h
  | @loaded id call open_ => exact h.setCall id (.loaded call s.head) (decideLoaded open_)
  | @failed id => exact h.setCall id .idle trivial
  | @prepared id node _ _ call old snapshot next put published puts present =>
    have stored : Inv allowed address put := by
      rcases puts with rfl | rfl
      · exact h
      · exact h.store snapshot
    exact stored.setCall id (.publishing call old snapshot next) ⟨present,node,promised,publicationOf published⟩
  | @unstored id _ _ _ _ snapshot put puts =>
    rcases puts with rfl | rfl
    · exact h.setCall id .idle trivial
    · exact (h.store snapshot).setCall id .idle trivial
  | @oversized id _ _ call old snapshot _ held =>
    obtain ⟨_,node,allows,published⟩ := held ▸ fits id
    exact h.setCall id (.recovering call snapshot.requestDigest) ⟨old,node,_,allows,published.targets,published.digest⟩
  | @landed id reported call snapshot next held =>
    obtain ⟨stored,node,allows,published⟩ := held ▸ fits id
    have landed := h.land stored allows published
    cases reported with
    | true => exact landed.setCall id .idle trivial
    | false => exact landed.setCall id (.unconfirmed call snapshot next) ⟨stored,s.head,node,allows,published⟩
  | @lost id _ _ call old snapshot next held =>
    obtain ⟨stored,node,allows,published⟩ := held ▸ fits id
    exact h.setCall id (.unconfirmed call snapshot next) ⟨stored,old,node,allows,published⟩
  | @confirmed id => exact h.setCall id .idle trivial
  | @unsure id call snapshot _ held =>
    obtain ⟨_,old,node,allows,published⟩ := held ▸ fits id
    exact h.setCall id (.recovering call snapshot.requestDigest) ⟨old,node,_,allows,published.targets,published.digest⟩
  | @recovered id => exact h.setCall id .idle trivial
  | crashed id => exact h.setCall id .idle trivial
  | other => exact otherStep h act

namespace Inv

variable {c : Snapshot A}

theorem recorded (h : Inv allowed address s) (mem : c ∈ s.history) :
    c.requestDigest.request.expected = c.parent ∧ c.requestDigest.request.operationId = c.operationId ∧
      c.requestDigest = requestDigest c.requestDigest.request c.notificationTargets := by
  obtain ⟨call,old,node,next,_,published⟩ := h.committed c mem
  have request : c.requestDigest.request = call.request := by rw [published.digest]; rfl
  refine ⟨?_,?_,?_⟩
  · rw [request,published.parent,← published.expected]
    rfl
  · rw [request,published.operation]
    rfl
  · rw [request]
    exact published.digest

theorem historyFree (h : Inv allowed address s) (free : CollisionFree address s.objects) :
    CollisionFree address s.history :=
  fun a mem b mem' same => free a (h.stored a mem) b (h.stored b mem') same

theorem objectOf (free : CollisionFree address s.objects) (mem : c ∈ s.objects) :
    s.object address (address c) = some c := by
  cases found : s.object address (address c) with
  | none =>
    have missing := find?_eq_none.mp found c mem
    simp at missing
  | some d =>
    have same : address d = address c := by simpa using find?_some found
    rw [free d (mem_of_find?_eq_some found) c mem same]

variable (h : Inv allowed address s)
include h

theorem receiptCases {head} (current : s.head = some head)
    {operation receipt} (found : findReceipt head operation = some receipt) :
    ∃ c ∈ s.history, receipt = receiptOf address c ∧ c.operationId = operation := by
  have mem := mem_of_find?_eq_some found
  rw [(h.head head current).operations] at mem
  obtain ⟨c,inside,rfl⟩ := mem_map.mp (mem_of_mem_take mem)
  have same : (receiptOf address c).operationId = operation := by simpa using find?_some found
  exact ⟨c,inside,rfl,same⟩

variable (free : CollisionFree address s.objects)
include free

theorem requestsNodup : (s.history.map (·.requestDigest.request)).Nodup := by
  apply List.Nodup.map_on _ (chainNodup h.chain)
  intro c mem d mem' same
  apply chainChild h.chain (h.historyFree free) mem mem'
  rw [← (h.recorded mem).1,← (h.recorded mem').1,same]

theorem tipCases {head} (current : s.head = some head) :
    ∃ first rest, s.history = first :: rest ∧ head.revision = some (address first) ∧
      ∀ c ∈ first :: rest, s.object address (address c) = some c := by
  have fits := h.head head current
  cases history : s.history with
  | nil => exact absurd history fits.nonempty
  | cons first rest =>
    refine ⟨first,rest,rfl,?_,fun c mem => objectOf free (h.stored c (history ▸ mem))⟩
    rw [fits.revision,history]
    rfl

theorem decideOk {call ref} (ok : decideChange (s.object address) call s.head = some (.ok (c,ref))) :
    c ∈ s.history ∧ ref = address c ∧ c.requestDigest.request = call.request := by
  unfold decideChange at ok
  split at ok
  · simp at ok
  cases current : s.head with
  | none =>
    simp only [current,Option.bind_none,Option.isSome_none,Bool.false_eq_true,false_and,if_false] at ok
    split at ok <;> simp at ok
  | some head =>
    obtain ⟨first,rest,history,tip,stored⟩ := h.tipCases free current
    simp only [current,Option.bind_some] at ok
    cases receipts : findReceipt head call.operationId with
    | some receipt =>
      obtain ⟨d,mem,rfl,_⟩ := h.receiptCases current receipts
      simp only [receipts,receiptOf,stored d (history ▸ mem)] at ok
      split at ok
      · rename_i same
        obtain ⟨rfl,rfl⟩ := ok
        exact ⟨mem,rfl,by rw [← same]; rfl⟩
      · simp at ok
    | none =>
      simp only [receipts,tip,Option.elim_some] at ok
      split at ok
      · obtain ⟨mem,rfl,same⟩ := resolveOk (history ▸ h.chain) stored (Option.some.inj ok)
        exact ⟨history ▸ mem,rfl,by rw [same]; rfl⟩
      · split at ok <;> simp at ok

theorem recoverOk {call digest ref} (ok : recoverChange (s.object address) call digest s.head = .ok (c,ref)) :
    c ∈ s.history ∧ ref = address c ∧ c.requestDigest = digest := by
  unfold recoverChange at ok
  cases current : s.head with
  | none => simp [current] at ok
  | some head =>
    obtain ⟨first,rest,history,tip,stored⟩ := h.tipCases free current
    simp only [current] at ok
    cases receipts : findReceipt head call.operationId with
    | some receipt =>
      obtain ⟨d,mem,rfl,_⟩ := h.receiptCases current receipts
      simp only [receipts,receiptOf,stored d (history ▸ mem)] at ok
      split at ok
      · rename_i same
        obtain ⟨rfl,rfl⟩ := ok
        exact ⟨mem,rfl,same⟩
      · contradiction
    | none =>
      simp only [receipts,tip,Option.elim_some] at ok
      obtain ⟨mem,rfl,same⟩ := resolveOk (history ▸ h.chain) stored ok
      exact ⟨history ▸ mem,rfl,same⟩

end Inv

/-- Operation ids of committed revisions are distinct and every node binds alike. -/
structure Distinct (bindings : String → Option String) (address : Snapshot A → A) (s : State A) : Prop
    extends Inv (·.targets = bindings) address s where
  operationIds : ∀ c ∈ s.history, ∀ d ∈ s.history, c.operationId = d.operationId → c = d

namespace Distinct
variable {bindings : String → Option String} (h : Distinct bindings address s)
include h

theorem digestOf {c : Snapshot A} (mem : c ∈ s.history) {request : Request A}
    (same : c.requestDigest.request = request) :
    c.requestDigest = requestDigest request (boundTargets bindings request) := by
  obtain ⟨call,old,node,next,rfl,published⟩ := h.committed c mem
  have request : c.requestDigest.request = call.request := by rw [published.digest]; rfl
  rw [← same,request,published.digest]
  exact boundDigest published.targets

variable (free : CollisionFree address s.objects)
include free

theorem decideCommitted {call c} (mem : c ∈ s.history) (same : c.requestDigest.request = call.request)
    (authorized : (authorize call.principal .rulesWrite call.rule.classification &&
      authorizeOld call.principal s.head) = true) :
    decideChange (s.object address) call s.head = some (.error .ambiguousOperation) ∨
      decideChange (s.object address) call s.head = some (.ok (c,address c)) := by
  obtain ⟨parent,operation,digest⟩ := h.recorded mem
  rw [same] at parent operation digest
  cases current : s.head with
  | none =>
    rw [h.fresh current] at mem
    cases mem
  | some head =>
    obtain ⟨first,rest,history,tip,stored⟩ := h.tipCases free current
    rw [current] at authorized
    unfold decideChange
    simp only [authorized,not_true,if_false,Option.bind_some]
    cases receipts : findReceipt head call.operationId with
    | some receipt =>
      obtain ⟨d,inside,rfl,id⟩ := h.receiptCases current receipts
      cases h.operationIds d inside c mem (id.trans operation)
      right
      simp only [receiptOf,stored c (history ▸ mem)]
      exact if_pos digest.symm
    | none =>
      have chain : Chain address (first :: rest) := history ▸ h.chain
      have tipless := chainTip chain (history ▸ h.historyFree free) (history ▸ mem : c ∈ first :: rest)
      have older : call.expected ≠ some (address first) := by
        intro eq
        exact tipless (parent.symm.trans eq)
      simp only [tip,Option.isSome_some,true_and,ne_eq,older,not_false_eq_true,if_true,Option.elim_some]
      rcases resolveCommitted chain stored (history ▸ h.historyFree free) (history ▸ mem) parent.symm
          operation.symm digest receiptLimit with lost | found
      · exact .inl (congrArg some lost)
      · exact .inr (congrArg some found)

theorem recoverCommitted {call digest c} (mem : c ∈ s.history) (same : c.requestDigest.request = call.request)
    (bound : digest = requestDigest call.request (boundTargets bindings call.request)) :
    recoverChange (s.object address) call digest s.head = .error .ambiguousOperation ∨
      recoverChange (s.object address) call digest s.head = .ok (c,address c) := by
  obtain ⟨parent,operation,_⟩ := h.recorded mem
  have digests : c.requestDigest = digest := by rw [bound,h.digestOf mem same]
  rw [same] at parent operation
  cases current : s.head with
  | none =>
    rw [h.fresh current] at mem
    cases mem
  | some head =>
    obtain ⟨first,rest,history,tip,stored⟩ := h.tipCases free current
    unfold recoverChange
    dsimp only
    cases receipts : findReceipt head call.operationId with
    | some receipt =>
      obtain ⟨d,inside,rfl,id⟩ := h.receiptCases current receipts
      cases h.operationIds d inside c mem (id.trans operation)
      right
      simp only [receiptOf,digests,if_true,stored c (history ▸ mem)]
    | none =>
      simp only [tip,Option.elim_some]
      exact resolveCommitted (history ▸ h.chain) stored (history ▸ h.historyFree free) (history ▸ mem)
        parent.symm operation.symm digests receiptLimit

end Distinct

theorem Inv.weaken (h : Inv allowed address s) : Inv (fun _ => True) address s := by
  refine { h with committed := fun c mem => ?_, calls := fun id => ?_ }
  · obtain ⟨call,old,node,next,_,published⟩ := h.committed c mem
    exact ⟨call,old,node,next,trivial,published⟩
  have fits := h.calls id
  cases held : s.calls id with
  | idle => trivial
  | loaded call old => rwa [held] at fits
  | publishing call old snapshot next =>
    rw [held] at fits
    obtain ⟨stored,node,_,published⟩ := fits
    exact ⟨stored,node,trivial,published⟩
  | unconfirmed call snapshot next =>
    rw [held] at fits
    obtain ⟨stored,old,node,_,published⟩ := fits
    exact ⟨stored,old,node,trivial,published⟩
  | recovering call digest =>
    rw [held] at fits
    obtain ⟨old,node,targets,_,bound,digest⟩ := fits
    exact ⟨old,node,targets,trivial,bound,digest⟩

structure Lands (s : State A) (act : Act A) (id : Nat) (reported : Bool) (call : Call A)
    (snapshot : Snapshot A) (next : Head A) : Prop where
  act : act = .write id true reported
  call : s.calls id = .publishing call s.head snapshot next

theorem stepGrows (codec : Codec A) (address : Snapshot A → A) (s : State A) (act : Act A) :
    (∀ c ∈ s.objects, c ∈ (step codec address s act).1.objects) ∧
    ((step codec address s act).1.history = s.history ∨
      ∃ id reported call snapshot next, Lands s act id reported call snapshot next ∧
        (step codec address s act).1.history = snapshot :: s.history) := by
  have outcome := stepOutcome codec address s act
  generalize step codec address s act = result at outcome ⊢
  cases outcome with
  | prepared _ puts _ | unstored puts =>
    rcases puts with rfl | rfl
    · exact ⟨fun c mem => mem,.inl rfl⟩
    · exact ⟨fun c mem => mem_append_left _ mem,.inl rfl⟩
  | @landed id reported call snapshot next held =>
    cases reported <;> exact ⟨fun c mem => mem,.inr ⟨id,_,call,snapshot,next,⟨rfl,held⟩,rfl⟩⟩
  | _ => exact ⟨fun c mem => mem,.inl rfl⟩

theorem stepOk (h : Inv allowed address s) (free : CollisionFree address s.objects)
    {call c ref} (ok : (step codec address s act).2 = some (call,.ok (c,ref))) :
    c ∈ (step codec address s act).1.history ∧ ref = address c ∧ c.requestDigest.request = call.request := by
  have fits := h.calls
  have outcome := stepOutcome codec address s act
  generalize step codec address s act = result at outcome ok ⊢
  cases outcome with
  | decided decided =>
    cases ok
    exact h.decideOk free decided
  | @landed id reported _ _ _ held =>
    obtain ⟨_,node,_,published⟩ := held ▸ fits id
    cases reported with
    | false => cases ok
    | true =>
      cases ok
      exact ⟨mem_cons_self,rfl,by rw [published.digest]; rfl⟩
  | @confirmed id _ snapshot _ held current =>
    obtain ⟨stored,old,node,_,published⟩ := held ▸ fits id
    cases ok
    obtain ⟨first,rest,history,tip,_⟩ := h.tipCases free current
    have same : address first = address c := Option.some.inj (tip.symm.trans published.revision)
    have first' := free first (h.stored first (history ▸ mem_cons_self)) c stored same
    refine ⟨?_,rfl,by rw [published.digest]; rfl⟩
    simp only [State.setCall]
    rw [history,first']
    exact mem_cons_self
  | @recovered id _ _ held =>
    obtain ⟨old,node,targets,_,_,rfl⟩ := held ▸ fits id
    simp only [Option.some.injEq,Prod.mk.injEq] at ok
    obtain ⟨rfl,ok⟩ := ok
    obtain ⟨mem,at_,digest⟩ := h.recoverOk free ok
    exact ⟨mem,at_,by rw [digest]; rfl⟩
  | _ => cases ok

theorem stepRefused {bindings} (h : Distinct bindings address s)
    (free : CollisionFree address s.objects) {call : Call A} {reason : Reason}
    (refused : (step codec address s act).2 = some (call,.error reason))
    (conflict : reason = .conflict ∨ reason = .operationReused) :
    ∀ c ∈ (step codec address s act).1.history, c.requestDigest.request ≠ call.request := by
  have fits := h.calls
  have unambiguous : ∀ {answer : Answer A}, answer = .error reason →
      ∀ {c : Snapshot A}, ¬(answer = .error .ambiguousOperation ∨ answer = .ok (c,address c)) := by
    intro answer eq c either
    subst eq
    rcases conflict with rfl | rfl <;> simp at either
  have outcome := stepOutcome codec address s act
  generalize step codec address s act = result at outcome refused ⊢
  cases outcome with
  | decided decided =>
    cases refused
    intro c mem same
    by_cases authorized : (authorize call.principal .rulesWrite call.rule.classification &&
        authorizeOld call.principal s.head) = true
    · have found := h.decideCommitted free mem same authorized
      rw [decided] at found
      exact unambiguous rfl (found.imp Option.some.inj Option.some.inj)
    have forbidden : decideChange (s.object address) call s.head = some (.error .forbidden) := if_pos authorized
    rw [decided] at forbidden
    rcases conflict with rfl | rfl <;> simp at forbidden
  | @failed id _ _ _ _ _ _ held error =>
    have loaded := held ▸ fits id
    cases refused
    obtain ⟨first,second⟩ := publishChangeError loaded error
    rcases conflict with rfl | rfl <;> contradiction
  | unstored =>
    cases refused
    rcases conflict with same | same <;> cases same
  | @landed id reported => cases reported <;> cases refused
  | @recovered id _ _ held =>
    obtain ⟨old,node,targets,rfl,bound,rfl⟩ := held ▸ fits id
    simp only [Option.some.injEq,Prod.mk.injEq] at refused
    obtain ⟨rfl,answer⟩ := refused
    intro c mem same
    exact unambiguous answer (h.recoverCommitted free mem same (boundDigest bound))
  | _ => cases refused

/-- The promises of a run: all nodes bind targets alike, and no change is committed under an
operation id that an earlier revision carries. -/
def Honest (bindings : String → Option String) (s : State A) : Act A → Prop
  | .prepare _ node _ _ => node.targets = bindings
  | .write id lands _ => match s.calls id with
    | .publishing call old _ _ => lands = true → s.head = old → ∀ c ∈ s.history, c.operationId ≠ call.operationId
    | _ => True
  | _ => True

def HonestRun (codec : Codec A) (address : Snapshot A → A) (bindings : String → Option String) :
    State A → List (Act A) → Prop
  | _, [] => True
  | s, act :: acts => Honest bindings s act ∧ HonestRun codec address bindings (step codec address s act).1 acts

section Runs
variable {bindings : String → Option String}

theorem stepDistinct (h : Distinct bindings address s) (honest : Honest bindings s act) :
    Distinct bindings address (step codec address s act).1 := by
  have promised : Promised (·.targets = bindings) act := by
    cases act with
    | prepare id node lands othersStored => exact honest
    | _ => trivial
  refine ⟨stepInv h.toInv promised,?_⟩
  rcases (stepGrows codec address s act).2 with same | ⟨id,reported,call,snapshot,next,landed,grown⟩
  · rw [same]
    exact h.operationIds
  cases landed.act
  have fits := h.calls id
  rw [landed.call] at fits
  obtain ⟨_,node,_,published⟩ := fits
  simp only [Honest,landed.call] at honest
  have fresh : ∀ c ∈ s.history, c.operationId ≠ snapshot.operationId := by
    rw [published.operation]
    exact honest trivial trivial
  rw [grown]
  intro c mem d mem' same
  rcases mem_cons.mp mem with rfl | old <;> rcases mem_cons.mp mem' with rfl | old'
  · rfl
  · exact absurd same.symm (fresh d old')
  · exact absurd same (fresh c old)
  · exact h.operationIds c old d old' same

theorem runDistinct (h : Distinct bindings address s) {acts}
    (honest : HonestRun codec address bindings s acts) : Distinct bindings address (run codec address s acts) := by
  induction acts generalizing s with
  | nil => exact h
  | cons act acts ih => exact ih (stepDistinct h honest.1) honest.2

theorem runInv (h : Inv (fun _ => True) address s) (acts : List (Act A)) :
    Inv (fun _ => True) address (run codec address s acts) := by
  induction acts generalizing s with
  | nil => exact h
  | cons act acts ih =>
    have promised : Promised (fun _ => True) act := by cases act <;> trivial
    exact ih (stepInv h promised)

theorem runGrows (codec : Codec A) (address : Snapshot A → A) (s : State A) (acts : List (Act A)) :
    (∀ c ∈ s.objects, c ∈ (run codec address s acts).objects) ∧
      ∀ c ∈ s.history, c ∈ (run codec address s acts).history := by
  induction acts generalizing s with
  | nil => exact ⟨fun c mem => mem,fun c mem => mem⟩
  | cons act acts ih =>
    obtain ⟨objects,history⟩ := stepGrows codec address s act
    obtain ⟨objects',history'⟩ := ih (step codec address s act).1
    refine ⟨fun c mem => objects' c (objects c mem),fun c mem => history' c ?_⟩
    rcases history with same | ⟨_,_,_,_,_,_,grown⟩
    · rw [same]
      exact mem
    · rw [grown]
      exact mem_cons_of_mem _ mem

theorem runSuffix (codec : Codec A) (address : Snapshot A → A) (s : State A) (acts : List (Act A)) :
    s.history <:+ (run codec address s acts).history := by
  induction acts generalizing s with
  | nil => exact suffix_refl _
  | cons act acts ih =>
    refine .trans ?_ (ih (step codec address s act).1)
    rcases (stepGrows codec address s act).2 with same | ⟨_,_,_,_,_,_,grown⟩
    · rw [same]
    · rw [grown]
      exact suffix_cons _ _

end Runs
end Invariant

/-- In every run that keeps its promises: a request is committed at most once; a revision answered
to a caller stays in the ancestry of every later head; a repeated call that may see the rule gets
the committed revision back or an ambiguity; and a call refused as a conflict or as a reuse has
not been committed. -/
theorem changesApplyOnce [DecidableEq A] (codec : Codec A) (address : Snapshot A → A)
    (bindings : String → Option String) (acts : List (Act A))
    (honest : HonestRun codec address bindings start acts)
    (free : CollisionFree address (run codec address start acts).objects) :
    let s := run codec address start acts
    (s.history.map (·.requestDigest.request)).Nodup ∧
    (∀ act call c ref more, (step codec address s act).2 = some (call,.ok (c,ref)) →
      let later := run codec address (step codec address s act).1 more
      CollisionFree address later.objects →
      c.requestDigest.request = call.request ∧ ∃ head tip, later.head = some head ∧
        head.revision = some tip ∧ Ancestor (later.object address) ref tip) ∧
    (∀ id call c, s.calls id = .idle → c ∈ s.history → c.requestDigest.request = call.request →
      (authorize call.principal .rulesWrite call.rule.classification && authorizeOld call.principal s.head) = true →
      ∃ answer, (step codec address s (.call id call)).2 = some (call,answer) ∧
        (answer = .error .ambiguousOperation ∨ answer = .ok (c,address c))) ∧
    ∀ act call reason, (step codec address s act).2 = some (call,.error reason) →
      reason = .conflict ∨ reason = .operationReused →
      ∀ c ∈ (step codec address s act).1.history, c.requestDigest.request ≠ call.request := by
  intro s
  have begun : Distinct bindings address (start : State A) := ⟨startInv,by simp [start]⟩
  have h : Distinct bindings address s := runDistinct begun honest
  refine ⟨h.requestsNodup free,?_,?_,fun act call reason => stepRefused h free⟩
  · intro act call c ref more ok later free'
    obtain ⟨mem,rfl,request⟩ := stepOk h.toInv free ok
    refine ⟨request,?_⟩
    have promised : Promised (fun _ => True) act := by cases act <;> trivial
    have inv : Inv (fun _ => True) address later := runInv (stepInv h.toInv.weaken promised) more
    have kept : c ∈ later.history := (runGrows codec address _ more).2 c mem
    cases current : later.head with
    | none =>
      rw [inv.fresh current] at kept
      cases kept
    | some head =>
      obtain ⟨first,rest,history,tip,stored⟩ := inv.tipCases free' current
      exact ⟨head,address first,rfl,tip,chainAncestor (history ▸ inv.chain) stored (history ▸ kept)⟩
  · intro id call c idle mem same authorized
    simp only [step,idle]
    rcases h.decideCommitted free mem same authorized with lost | found
    · exact ⟨.error .ambiguousOperation,by rw [lost],.inl rfl⟩
    · exact ⟨.ok (c,address c),by rw [found],.inr rfl⟩

/-- In every run, also when nodes bind targets differently: committed revisions only gain newer ones, no two follow
the same one, and the head counts them, keeps the latest receipts and descends from each. -/
theorem revisionsNeverFork [DecidableEq A] (codec : Codec A) (address : Snapshot A → A) (acts more : List (Act A))
    (free : CollisionFree address (run codec address (run codec address start acts) more).objects) :
    let later := run codec address (run codec address start acts) more
    (run codec address start acts).history <:+ later.history ∧
    (∀ c ∈ later.history, ∀ d ∈ later.history, c.parent = d.parent → c = d) ∧
    ∀ head, later.head = some head → head.changeSeq = later.history.length ∧
      head.operations = (later.history.map (receiptOf address)).take receiptLimit ∧
      ∃ tip, head.revision = some tip ∧ ∀ c ∈ later.history, Ancestor (later.object address) (address c) tip := by
  intro later
  have inv : Inv (fun _ => True) address later := runInv (runInv startInv acts) more
  refine ⟨runSuffix codec address _ more,fun c mem d mem' => chainChild inv.chain (inv.historyFree free) mem mem',?_⟩
  intro head current
  have fits := inv.head head current
  obtain ⟨first,rest,history,tip,stored⟩ := inv.tipCases free current
  refine ⟨fits.changeSeq,fits.operations,address first,tip,fun c mem => ?_⟩
  exact chainAncestor (history ▸ inv.chain) stored (history ▸ mem)

/-! A create sent twice, under a short name for each part. -/

def sampleCodec : Codec Nat where
  encode _ := ""
  parses _ := true
  bytes _ _ := 0
  intentBytes _ := 0
  headBytes _ := 0

def sampleAddress (snapshot : Snapshot Nat) : Nat := 100*snapshot.changeSeq+snapshot.publicationTime.toNat

def sampleCall : Call Nat where
  principal := ⟨"editor",.human,[.rulesWrite]⟩
  action := .create
  rule := {
    kind := .promqlThreshold
    name := "cpu"
    query := "up"
    enabled := true
    cadenceMs := 60000
    labels := ∅
    notificationTargets := ["ops"]
    rules := []
    rest := ""
    distinctRecords := List.nodup_nil
    distinctTargets := List.nodup_singleton "ops" }
  operationId := "op-1"
  reason := "add"
  expected := none
  restoredFrom := none

def sampleNode (secret : String) (time : Int) : Surroundings := ⟨fun _ => some secret,0,time,time,time⟩

def sentTwice (second : String) : List (Act Nat) :=
  [.call 0 sampleCall,.call 1 sampleCall,.prepare 0 (sampleNode "PULSO_ALERTING_A" 1) true true,
    .prepare 1 (sampleNode second 2) true true,.write 0 true true,.write 1 true false,.confirm 1]

theorem rebindingRefusesCommitted : let s := run sampleCodec sampleAddress start (sentTwice "PULSO_ALERTING_B")
    s.history.map (·.requestDigest.request) = [sampleCall.request] ∧
      (step sampleCodec sampleAddress s (.recover 1)).2 = some (sampleCall,.error .operationReused) := by
  decide +kernel

theorem sentTwiceHonest : HonestRun sampleCodec sampleAddress (sampleNode "PULSO_ALERTING_A" 0).targets start
    (sentTwice "PULSO_ALERTING_A") := by
  refine ⟨trivial,trivial,rfl,rfl,?_,?_,trivial,trivial⟩
  · intro _ _ c mem
    cases mem
  intro _ taken
  revert taken
  decide +kernel

theorem sentTwiceFree : CollisionFree sampleAddress
    (run sampleCodec sampleAddress start (sentTwice "PULSO_ALERTING_A")).objects := by
  unfold CollisionFree
  decide +kernel

theorem changesApplyOnceSentTwice : let s := run sampleCodec sampleAddress start (sentTwice "PULSO_ALERTING_A")
    (s.history.map (·.requestDigest.request)).Nodup ∧
      ∃ c answer, c ∈ s.history ∧ (step sampleCodec sampleAddress s (.call 7 sampleCall)).2 = some (sampleCall,answer) ∧
        (answer = .error .ambiguousOperation ∨ answer = .ok (c,sampleAddress c)) := by
  intro s
  obtain ⟨distinct,_,repeated,_⟩ :=
    changesApplyOnce sampleCodec sampleAddress (sampleNode "PULSO_ALERTING_A" 0).targets
      (sentTwice "PULSO_ALERTING_A") sentTwiceHonest sentTwiceFree
  have committed : s.history.map (·.requestDigest.request) = [sampleCall.request] := by decide +kernel
  have mem : sampleCall.request ∈ s.history.map (·.requestDigest.request) := by simp [committed]
  obtain ⟨c,inside,same⟩ := mem_map.mp mem
  obtain ⟨answer,answered,shape⟩ := repeated 7 sampleCall c rfl inside same (by decide +kernel)
  exact ⟨distinct,c,answer,inside,answered,shape⟩

theorem revisionsNeverForkSentTwice : let s := run sampleCodec sampleAddress start (sentTwice "PULSO_ALERTING_A")
    ∃ head tip, s.head = some head ∧ head.revision = some tip ∧
      ∀ c ∈ s.history, Ancestor (s.object sampleAddress) (sampleAddress c) tip := by
  intro s
  have some : s.head.isSome = true := by decide +kernel
  obtain ⟨head,current⟩ := Option.isSome_iff_exists.mp some
  obtain ⟨-,-,heads⟩ := revisionsNeverFork sampleCodec sampleAddress (sentTwice "PULSO_ALERTING_A") [] sentTwiceFree
  obtain ⟨-,-,tip,revision,ancestors⟩ := heads head current
  exact ⟨head,tip,current,revision,ancestors⟩

end Repository
end Pulso.Alerting
