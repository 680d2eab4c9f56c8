import Pulso.AlertOutbox

/-! Notifier passes on any nodes race with each other and with the writes that append events.
Each pass loads the head, writes its claim under the loaded ETag, posts the event its claim
covers and acknowledges it under the same nonce. A conditional write may land although its
response is lost. -/
namespace Pulso.Alerting
open List
variable {A : Type}

/-- A pass over one outbox, between two of its requests. -/
inductive Pass (A : Type) where
  | idle
  | claiming (version : Target) (nonce : Nat) (box : Box A) (loaded next : Head A)
  | claimUnsure (version : Target) (nonce : Nat) (box : Box A)
  | claimed (version : Target) (nonce : Nat) (box : Box A)
  | acknowledging (version : Target) (nonce attempts : Nat)
  | acking (version : Target) (nonce attempts : Nat) (box : Box A) (loaded next : Head A)
  | ackUnsure (version : Target) (nonce attempts : Nat) (box : Box A)

namespace Notifier

/-- `committed` and `delivered` record what happened: the events of landed writes, and the posts
that succeeded, both in order. Nonces are drawn fresh. -/
structure State (A : Type) where
  head : Option (Head A)
  committed : List (Event A)
  delivered : List (Target × Event A)
  nonces : Nat
  passes : Nat → Pass A

def start : State A := ⟨none,[],[],0,fun _ => .idle⟩

inductive Act (A : Type) where
  | commit (write : Write A)
  | loadClaim (pass : Nat) (version : Target) (now : Int)
  | writeClaim (pass : Nat) (lands reported : Bool)
  | confirmClaim (pass : Nat)
  | post (pass : Nat) (success : Bool)
  | loadAck (pass : Nat)
  | writeAck (pass : Nat) (lands reported : Bool)
  | confirmAck (pass : Nat)
  | crash (pass : Nat)

namespace State

def setPass (s : State A) (id : Nat) (pass : Pass A) : State A :=
  { s with passes := Function.update s.passes id pass }

def queueOf (s : State A) (version : Target) : List (Event A) :=
  (s.head.map (Head.queueOf · version)).getD []

def claimOf (s : State A) (version : Target) : Option (Claim A) := s.head.bind (Head.claimOf · version)

def committedTo (s : State A) (version : Target) : List (Event A) :=
  s.committed.filter (addressed version)

def deliveredTo (s : State A) (version : Target) : List (Event A) :=
  (s.delivered.filter (·.1 = version)).map Prod.snd

end State

section Steps
variable [DecidableEq A] (codec : Codec A) (address : Snapshot A → A)

/-- `confirm_outbox` after a write that reported an error. -/
def confirmed (head : Option (Head A)) (version : Target) (expected : Box A) : Bool :=
  head.any fun head => match head.outboxes.get? version with
    | some box => decide (box = expected)
    | none => decide (expected.queue = [] ∧ expected.claim = none)

def step (s : State A) : Act A → State A
  -- any other writer: its conditional write lands on the head it loaded
  | .commit write => match written codec address s.head write with
    | some next => { s with head := some next, committed := s.committed ++ committedBy s.head write }
    | none => s
  | .loadClaim id version now => match s.passes id, s.head with
    | .idle, some head => match updateOutbox head version (claim s.nonces now) with
      | .ok (box,next) =>
        { s with nonces := s.nonces+1 }.setPass id (.claiming version s.nonces box head next)
      | .error _ => { s with nonces := s.nonces+1 }
    | _, _ => s
  | .writeClaim id lands reported => match s.passes id with
    | .claiming version nonce box loaded next =>
      if lands ∧ s.head = some loaded then
        { s with head := some next }.setPass id
          (if reported then .claimed version nonce box else .claimUnsure version nonce box)
      else s.setPass id (.claimUnsure version nonce box)
    | _ => s
  | .confirmClaim id => match s.passes id with
    | .claimUnsure version nonce box =>
      s.setPass id (if confirmed s.head version box then .claimed version nonce box else .idle)
    | _ => s
  | .post id success => match s.passes id with
    | .claimed version nonce box => match success, box.queue with
      | true, event :: _ =>
        { s with delivered := s.delivered ++ [(version,event)] }.setPass id (.acknowledging version nonce 3)
      | _, _ => s.setPass id .idle
    | _ => s
  | .loadAck id => match s.passes id, s.head with
    | .acknowledging version nonce (attempts+1), some head =>
      match updateOutbox head version (ack nonce) with
      | .ok (box,next) => s.setPass id (.acking version nonce (attempts+1) box head next)
      | .error .outboxConflict => s.setPass id (.acknowledging version nonce attempts)
      | .error _ => s.setPass id .idle
    | .acknowledging _ _ _, _ => s.setPass id .idle
    | _, _ => s
  | .writeAck id lands reported => match s.passes id with
    | .acking version nonce attempts box loaded next =>
      if lands ∧ s.head = some loaded then
        { s with head := some next }.setPass id (if reported then .idle else .ackUnsure version nonce attempts box)
      else s.setPass id (.ackUnsure version nonce attempts box)
    | _ => s
  | .confirmAck id => match s.passes id with
    | .ackUnsure version nonce attempts box =>
      s.setPass id (if confirmed s.head version box then .idle
        else .acknowledging version nonce (attempts-1))
    | _ => s
  | .crash id => s.setPass id .idle

def run (s : State A) (acts : List (Act A)) : State A := acts.foldl (step codec address) s

end Steps
/-! What the two updates of an outbox do. -/

variable {version : Target} {nonce : Nat} {now : Int} {head next : Head A} {box : Box A}

theorem claimCases (ok : updateOutbox head version (claim nonce now) = .ok (box,next)) :
    ∃ old event rest, head.outboxes.get? version = some old ∧ old.queue = event :: rest ∧
      box = { old with claim := some ⟨nonce,now+lease,event⟩ } ∧
      next = { head with outboxes := head.outboxes.put version box } := by
  obtain ⟨old,found,updated,rfl⟩ := updateOutboxCases ok
  unfold claim at updated
  cases queue : old.queue with
  | nil => simp [queue] at updated
  | cons event rest =>
    simp only [queue] at updated
    split at updated
    · cases updated
    · cases updated
      exact ⟨old,event,rest,found,queue,by rw [queue],by simp⟩

theorem ackCases [DecidableEq A] (ok : updateOutbox head version (ack nonce) = .ok (box,next)) :
    ∃ old held rest, head.outboxes.get? version = some old ∧ old.claim = some held ∧
      held.nonce = nonce ∧ old.queue = held.event :: rest ∧
      box = { old with claim := none, queue := rest } ∧
      next = { head with outboxes := if rest = [] then head.outboxes.delete version
        else head.outboxes.put version box } := by
  obtain ⟨old,found,updated,rfl⟩ := updateOutboxCases ok
  unfold ack at updated
  split at updated
  · rename_i held event rest holding queue
    split at updated
    · rename_i nonce
      split at updated
      · rename_i same
        cases updated
        exact ⟨old,held,rest,found,holding,nonce,by rw [queue,same],rfl,by simp⟩
      · cases updated
    · cases updated
  · cases updated

variable (ok : updateOutbox head version (claim nonce now) = .ok (box,next))
include ok

theorem claimQueue (other : Target) : next.queueOf other = head.queueOf other := by
  obtain ⟨old,event,rest,found,queue,rfl,rfl⟩ := claimCases ok
  by_cases same : other = version
  · subst same
    simp [Head.queueOf,Dict.getPutSame,found]
  · simp [Head.queueOf,Dict.getPutOther _ _ same]

theorem claimClaim {other held} (holds : next.claimOf other = some held) : head.claimOf other = some held ∨
      (other = version ∧ held.nonce = nonce ∧ box.queue.head? = some held.event) := by
  obtain ⟨old,event,rest,found,queue,rfl,rfl⟩ := claimCases ok
  by_cases same : other = version
  · subst same
    simp only [Head.claimOf,Dict.getPutSame,Option.bind_some,Option.some.injEq] at holds
    subst holds
    exact .inr ⟨rfl,rfl,by simp [queue]⟩
  · simp only [Head.claimOf,Dict.getPutOther _ _ same] at holds
    exact .inl holds

omit ok

theorem ackQueue [DecidableEq A] (ok : updateOutbox head version (ack nonce) = .ok (box,next)) :
    ∃ held, head.claimOf version = some held ∧ held.nonce = nonce ∧
      head.queueOf version = held.event :: next.queueOf version ∧
      ∀ other ≠ version, next.queueOf other = head.queueOf other := by
  obtain ⟨old,held,rest,found,holding,nonce,queue,rfl,rfl⟩ := ackCases ok
  refine ⟨held,by simp [Head.claimOf,found,holding],nonce,?_,?_⟩
  · split
    · rename_i empty
      simp [Head.queueOf,Dict.getDeleteSame,found,queue,empty]
    · simp [Head.queueOf,Dict.getPutSame,found,queue]
  · intro other differs
    split
    · simp [Head.queueOf,Dict.getDeleteOther _ differs]
    · simp [Head.queueOf,Dict.getPutOther _ _ differs]

theorem ackClaim [DecidableEq A] (ok : updateOutbox head version (ack nonce) = .ok (box,next)) {other held}
    (holds : next.claimOf other = some held) : head.claimOf other = some held := by
  obtain ⟨old,before,rest,found,holding,nonce,queue,rfl,rfl⟩ := ackCases ok
  by_cases same : other = version
  · subst same
    split at holds
    · simp [Head.claimOf,Dict.getDeleteSame] at holds
    · simp [Head.claimOf,Dict.getPutSame] at holds
  · split at holds
    · simpa [Head.claimOf,Dict.getDeleteOther _ same] using holds
    · simpa [Head.claimOf,Dict.getPutOther _ _ same] using holds

/-! The invariant of all interleavings. -/

def Reached (s : State A) (version : Target) (event : Event A) : Prop :=
  ∃ earlier later, s.committedTo version = earlier ++ event :: later ∧ ∀ e ∈ earlier, e ∈ s.deliveredTo version

section Invariant
variable [DecidableEq A] {issued issued' : Nat → Option (Target × Event A)} {s s' : State A} {loaded : Head A} {event : Event A}

/-- `issued` tells for which target and event each nonce was drawn. -/
def PassFits (issued : Nat → Option (Target × Event A)) (s : State A) : Pass A → Prop
  | .idle => True
  | .claiming version nonce box loaded next => nonce < s.nonces ∧
    (∃ event, box.queue.head? = some event ∧ issued nonce = some (version,event)) ∧
    ∃ now, updateOutbox loaded version (claim nonce now) = .ok (box,next)
  | .claimUnsure version nonce box => nonce < s.nonces ∧
    ∃ event, box.queue.head? = some event ∧ issued nonce = some (version,event)
  | .claimed version nonce box => nonce < s.nonces ∧
    ∃ event, box.queue.head? = some event ∧ issued nonce = some (version,event) ∧ Reached s version event
  | .acknowledging version nonce _ | .ackUnsure version nonce _ _ => nonce < s.nonces ∧
    ∃ event ∈ s.deliveredTo version, issued nonce = some (version,event)
  | .acking version nonce _ box loaded next => nonce < s.nonces ∧
    (∃ event ∈ s.deliveredTo version, issued nonce = some (version,event)) ∧
    updateOutbox loaded version (ack nonce) = .ok (box,next)

structure Inv (issued : Nat → Option (Target × Event A)) (s : State A) : Prop where
  queue : ∀ version, ∃ gone, s.committedTo version = gone ++ s.queueOf version ∧
    ∀ event ∈ gone, event ∈ s.deliveredTo version
  claims : ∀ version held, s.claimOf version = some held →
    held.nonce < s.nonces ∧ issued held.nonce = some (version,held.event)
  numbered : (s.committed.map Event.sequence).Pairwise (· < ·)
  counted : ∀ event ∈ s.committed, event.sequence ≤ (s.head.map Head.eventSeq).getD 0
  targets : ∀ head, s.head = some head → head.notificationTargets.Nodup
  known : ∀ version, ∀ event ∈ s.deliveredTo version, event ∈ s.committedTo version
  ordered : ∀ version earlier event later before after,s.committedTo version = earlier ++ event :: later →
    s.deliveredTo version = before ++ event :: after → ∀ e ∈ earlier, e ∈ before
  passes : ∀ id, PassFits issued s (s.passes id)

structure Grows (s s' : State A) : Prop where
  nonces : s.nonces ≤ s'.nonces
  committed : ∀ version, ∃ more, s'.committedTo version = s.committedTo version ++ more
  delivered : ∀ version, ∃ more, s'.deliveredTo version = s.deliveredTo version ++ more

omit [DecidableEq A] in
theorem deliveredGrows (h : Grows s s') (mem : event ∈ s.deliveredTo version) : event ∈ s'.deliveredTo version := by
  obtain ⟨more,eq⟩ := h.delivered version
  rw [eq]
  exact mem_append_left more mem

omit [DecidableEq A] in
theorem reachedGrows (h : Grows s s') (reached : Reached s version event) : Reached s' version event := by
  obtain ⟨earlier,later,split,before⟩ := reached
  obtain ⟨more,eq⟩ := h.committed version
  refine ⟨earlier,later ++ more,?_,fun e mem => deliveredGrows h (before e mem)⟩
  rw [eq,split,append_assoc,cons_append]

theorem passFitsGrows (h : Grows s s') (agrees : ∀ nonce < s.nonces, issued' nonce = issued nonce)
    {pass} (fits : PassFits issued s pass) : PassFits issued' s' pass := by
  have kept : ∀ {nonce version event}, nonce < s.nonces → issued nonce = some (version,event) →
      issued' nonce = some (version,event) := fun drawn known => (agrees _ drawn).trans known
  cases pass with
  | idle => trivial
  | claiming version nonce box loaded next =>
    obtain ⟨drawn,⟨event,first,known⟩,update⟩ := fits
    exact ⟨Nat.lt_of_lt_of_le drawn h.nonces,⟨event,first,kept drawn known⟩,update⟩
  | claimUnsure version nonce box =>
    obtain ⟨drawn,event,first,known⟩ := fits
    exact ⟨Nat.lt_of_lt_of_le drawn h.nonces,event,first,kept drawn known⟩
  | claimed version nonce box =>
    obtain ⟨drawn,event,first,known,reached⟩ := fits
    exact ⟨Nat.lt_of_lt_of_le drawn h.nonces,event,first,kept drawn known,reachedGrows h reached⟩
  | acknowledging version nonce _ | ackUnsure version nonce _ _ =>
    obtain ⟨drawn,event,mem,known⟩ := fits
    exact ⟨Nat.lt_of_lt_of_le drawn h.nonces,event,deliveredGrows h mem,kept drawn known⟩
  | acking version nonce attempts box loaded next =>
    obtain ⟨drawn,⟨event,mem,known⟩,update⟩ := fits
    exact ⟨Nat.lt_of_lt_of_le drawn h.nonces,⟨event,deliveredGrows h mem,kept drawn known⟩,update⟩

namespace Inv

variable (h : Inv issued s)
include h

theorem setPass (id : Nat) (pass : Pass A) (fits : PassFits issued s pass) : Inv issued (s.setPass id pass) := by
  refine { h with passes := fun other => ?_ }
  have same : Grows s (s.setPass id pass) :=
    ⟨Nat.le_refl _,fun _ => ⟨[],(append_nil _).symm⟩,fun _ => ⟨[],(append_nil _).symm⟩⟩
  apply passFitsGrows same (fun _ _ => rfl)
  by_cases eq : other = id
  · subst eq
    simpa [State.setPass] using fits
  · simpa [State.setPass,eq] using h.passes other

theorem committedDistinct (version : Target) : (s.committedTo version).Nodup := by
  have sequences : (s.committed.map Event.sequence).Nodup := h.numbered.imp Nat.ne_of_lt
  exact sequences.of_map.filter _

theorem setHead (queue : ∀ version, ∃ gone, s.committedTo version = gone ++ next.queueOf version ∧
      ∀ event ∈ gone, event ∈ s.deliveredTo version)
    (claims : ∀ version held, next.claimOf version = some held →
      held.nonce < s.nonces ∧ issued held.nonce = some (version,held.event))
    (seq : some next.eventSeq = s.head.map Head.eventSeq)
    (targets : next.notificationTargets.Nodup) : Inv issued { s with head := some next } where
  queue := queue
  claims := claims
  numbered := h.numbered
  counted event mem := by
    have bound := h.counted event mem
    rw [← seq] at bound
    exact bound
  targets head eq := by
    cases eq
    exact targets
  known := h.known
  ordered := h.ordered
  passes id := passFitsGrows (s := s)
    ⟨Nat.le_refl _,fun _ => ⟨[],(append_nil _).symm⟩,fun _ => ⟨[],(append_nil _).symm⟩⟩
    (fun _ _ => rfl) (h.passes id)

variable (current : s.head = some loaded)
include current

theorem claimLands (drawn : nonce < s.nonces) (first : box.queue.head? = some event)
    (known : issued nonce = some (version,event))
    (update : updateOutbox loaded version (claim nonce now) = .ok (box,next)) :
    Inv issued { s with head := some next } := by
  apply h.setHead
  · intro other
    obtain ⟨gone,split,before⟩ := h.queue other
    refine ⟨gone,?_,before⟩
    rw [split,claimQueue update]
    simp [State.queueOf,current]
  · intro other held holds
    rcases claimClaim update holds with old | ⟨rfl,rfl,claimed⟩
    · exact h.claims other held (by simpa [State.claimOf,current] using old)
    · have same : held.event = event := Option.some.inj (claimed.symm.trans first)
      exact ⟨drawn,by rw [known,same]⟩
  · obtain ⟨old,_,rest,_,_,_,rfl⟩ := claimCases update
    simp [current]
  · obtain ⟨old,_,rest,_,_,_,rfl⟩ := claimCases update
    exact h.targets loaded current

theorem ackCovers (known : issued nonce = some (version,event))
    (update : updateOutbox loaded version (ack nonce) = .ok (box,next)) :
    ∃ held, s.claimOf version = some held ∧ held.nonce = nonce ∧ held.event = event ∧
      s.queueOf version = event :: next.queueOf version := by
  obtain ⟨held,holds,same,queue,_⟩ := ackQueue update
  have claimed : s.claimOf version = some held := by simpa [State.claimOf,current] using holds
  have issuedFor := (h.claims version held claimed).2
  rw [same,known] at issuedFor
  have covered : event = held.event := by simpa using issuedFor
  refine ⟨held,claimed,same,covered.symm,?_⟩
  simpa [State.queueOf,current,covered] using queue

theorem ackLands (mem : event ∈ s.deliveredTo version) (known : issued nonce = some (version,event))
    (update : updateOutbox loaded version (ack nonce) = .ok (box,next)) :
    Inv issued { s with head := some next } := by
  obtain ⟨held,_,_,_,popped⟩ := h.ackCovers current known update
  apply h.setHead
  · intro other
    obtain ⟨gone,split,before⟩ := h.queue other
    by_cases same : other = version
    · subst same
      refine ⟨gone ++ [event],?_,?_⟩
      · rw [split,popped,append_assoc]
        rfl
      intro e inside
      rcases mem_append.mp inside with old | new
      · exact before e old
      · exact mem_singleton.mp new ▸ mem
    · obtain ⟨_,_,_,_,others⟩ := ackQueue update
      refine ⟨gone,?_,before⟩
      rw [split,others other same]
      simp [State.queueOf,current]
  · intro other held holds
    exact h.claims other held (by simpa [State.claimOf,current] using ackClaim update holds)
  · obtain ⟨old,_,rest,_,_,_,_,_,rfl⟩ := ackCases update
    simp [current]
  · obtain ⟨old,_,rest,_,_,_,_,_,rfl⟩ := ackCases update
    exact h.targets loaded current

omit current

theorem postSucceeds (reached : Reached s version event) :
    Inv issued { s with delivered := s.delivered ++ [(version,event)] } := by
  have grown : ∀ other, ({ s with delivered := s.delivered ++ [(version,event)] } : State A).deliveredTo other =
      s.deliveredTo other ++ if other = version then [event] else [] := by
    intro other
    by_cases same : other = version
    · simp [State.deliveredTo,same]
    · simp [State.deliveredTo,same,Ne.symm same]
  have grows : Grows s { s with delivered := s.delivered ++ [(version,event)] } :=
    ⟨Nat.le_refl _,fun _ => ⟨[],(append_nil _).symm⟩,fun other => ⟨_,grown other⟩⟩
  obtain ⟨earlier,later,split,before⟩ := reached
  exact {
    queue := fun other => by
      obtain ⟨gone,split,before⟩ := h.queue other
      exact ⟨gone,split,fun e mem => deliveredGrows grows (before e mem)⟩
    claims := h.claims
    numbered := h.numbered
    counted := h.counted
    targets := h.targets
    known := fun other e mem => by
      rw [grown] at mem
      rcases mem_append.mp mem with old | new
      · exact h.known other e old
      split at new
      · rename_i same
        cases mem_singleton.mp new
        subst same
        exact split ▸ mem_append_right earlier mem_cons_self
      · simp at new
    ordered := fun other earlier' e later' before' after committed delivered => by
      rw [grown] at delivered
      by_cases same : other = version
      · subst same
        rw [if_pos rfl] at delivered
        rcases Lists.splitSnoc delivered with ⟨rest,old⟩ | ⟨rfl,rfl⟩
        · exact h.ordered other earlier' e later' before' rest committed old
        have unique : earlier = earlier' :=
          Lists.splitUnique (split.symm.trans committed) (split ▸ h.committedDistinct other)
        exact unique ▸ before
      · rw [if_neg same,append_nil] at delivered
        exact h.ordered other earlier' e later' before' after committed delivered
    passes := fun id => passFitsGrows grows (fun _ _ => rfl) (h.passes id) }

theorem drawNonce (drawn : Option (Target × Event A)) :
    Inv (Function.update issued s.nonces drawn) { s with nonces := s.nonces+1 } := by
  have agrees : ∀ nonce < s.nonces, Function.update issued s.nonces drawn nonce = issued nonce :=
    fun nonce lt => Function.update_of_ne (Nat.ne_of_lt lt) _ _
  have grows : Grows s { s with nonces := s.nonces+1 } :=
    ⟨Nat.le_succ _,fun _ => ⟨[],(append_nil _).symm⟩,fun _ => ⟨[],(append_nil _).symm⟩⟩
  exact { h with
    claims := fun version held holds => by
      obtain ⟨lt,known⟩ := h.claims version held holds
      exact ⟨Nat.lt_succ_of_lt lt,by rw [agrees _ lt,known]⟩
    passes := fun id => passFitsGrows grows agrees (h.passes id) }

theorem commitLands {codec address write} (ok : written codec address s.head write = some next) :
    Inv issued { s with head := some next, committed := s.committed ++ committedBy s.head write } := by
  have appends := writtenAppends h.targets ok
  have later : ∀ e ∈ committedBy s.head write, (s.head.map Head.eventSeq).getD 0 < e.sequence ∧
      e.sequence ≤ next.eventSeq := by
    intro e mem
    have inside : e.sequence ∈ (committedBy s.head write).map Event.sequence := mem_map_of_mem mem
    rw [appends.sequences,mem_range'_1] at inside
    rw [appends.counted]
    omega
  have numbered : ((s.committed ++ committedBy s.head write).map Event.sequence).Pairwise (· < ·) := by
    rw [map_append,pairwise_append]
    refine ⟨h.numbered,by rw [appends.sequences]; exact pairwise_lt_range',?_⟩
    intro a old b new
    obtain ⟨e,mem,rfl⟩ := mem_map.mp old
    obtain ⟨f,inside,rfl⟩ := mem_map.mp new
    exact Nat.lt_of_le_of_lt (h.counted e mem) (later f inside).1
  let s' : State A := { s with head := some next, committed := s.committed ++ committedBy s.head write }
  have committed : ∀ version, s'.committedTo version =
      s.committedTo version ++ (committedBy s.head write).filter (addressed version) :=
    fun version => filter_append ..
  have grows : Grows s s' := ⟨Nat.le_refl _,fun version => ⟨_,committed version⟩,fun _ => ⟨[],(append_nil _).symm⟩⟩
  have distinct : ∀ version, (s'.committedTo version).Nodup :=
    fun version => (List.Nodup.of_map _ (numbered.imp Nat.ne_of_lt)).filter _
  exact {
    queue := fun version => by
      obtain ⟨gone,split,before⟩ := h.queue version
      refine ⟨gone,?_,before⟩
      have queue := appends.queue version
      rw [committed,split,append_assoc]
      exact congrArg (gone ++ ·) queue.symm
    claims := fun version held holds =>
      h.claims version held ((appends.claim version).symm.trans holds)
    numbered := numbered
    counted := fun e mem => by
      rcases mem_append.mp mem with old | new
      · have bound := h.counted e old
        have counted := appends.counted
        show e.sequence ≤ next.eventSeq
        omega
      · exact (later e new).2
    targets := fun head eq => by
      cases eq
      exact appends.targets
    known := fun version e mem => by
      rw [committed]
      exact mem_append_left _ (h.known version e mem)
    ordered := fun version earlier e later before after split delivered => by
      have mem : e ∈ s.committedTo version := h.known version e (delivered ▸ mem_append_right before mem_cons_self)
      rw [committed] at split
      obtain ⟨rest,old⟩ := Lists.splitLeft split mem (committed version ▸ distinct version)
      exact h.ordered version earlier e rest before after old delivered
    passes := fun id => passFitsGrows grows (fun _ _ => rfl) (h.passes id) }

theorem reachedFirst (rest : List (Event A)) (queue : s.queueOf version = event :: rest) : Reached s version event := by
  obtain ⟨gone,split,before⟩ := h.queue version
  exact ⟨gone,rest,by rw [split,queue],before⟩

theorem confirmedReached (first : box.queue.head? = some event) (ok : confirmed s.head version box = true) :
    Reached s version event := by
  obtain ⟨rest,queue⟩ := head?_eq_some_iff.mp first
  cases current : s.head with
  | none => simp [confirmed,current] at ok
  | some head =>
    cases found : head.outboxes.get? version with
    | none => simp [confirmed,current,found,queue] at ok
    | some held =>
      have same : held = box := by simpa [confirmed,current,found] using ok
      exact h.reachedFirst rest (by simp [State.queueOf,current,Head.queueOf,found,same,queue])

end Inv

theorem startInv : Inv (fun _ => none) (start : State A) where
  queue version := ⟨[],by simp [start,State.committedTo,State.queueOf],by simp⟩
  claims version held holds := by simp [start,State.claimOf] at holds
  numbered := List.Pairwise.nil
  counted := by simp [start]
  targets := by simp [start]
  known := by simp [start,State.deliveredTo]
  ordered version earlier event later before after committed delivered := by
    simp [start,State.committedTo] at committed
  passes id := trivial

inductive Outcome (codec : Codec A) (address : Snapshot A → A) (s : State A) : Act A → State A → Prop where
  | same (act : Act A) : Outcome codec address s act s
  | moved {act : Act A} (id : Nat) (pass : Pass A) (fits : ∀ issued, Inv issued s → PassFits issued s pass) :
      Outcome codec address s act (s.setPass id pass)
  | committed {write next} (ok : written codec address s.head write = some next) : Outcome codec address s (.commit write)
      { s with head := some next, committed := s.committed ++ committedBy s.head write }
  | drawn {id version now} : Outcome codec address s (.loadClaim id version now) { s with nonces := s.nonces+1 }
  | claiming {id version now head box next} (update : updateOutbox head version (claim s.nonces now) = .ok (box,next)) :
      Outcome codec address s (.loadClaim id version now)
        ({ s with nonces := s.nonces+1 }.setPass id (.claiming version s.nonces box head next))
  | claimed {id reported version nonce box loaded next} (held : s.passes id = .claiming version nonce box loaded next)
      (current : s.head = some loaded) : Outcome codec address s (.writeClaim id true reported)
        ({ s with head := some next }.setPass id
          (if reported then .claimed version nonce box else .claimUnsure version nonce box))
  | posted {id version nonce box event rest} (held : s.passes id = .claimed version nonce box)
      (queue : box.queue = event :: rest) : Outcome codec address s (.post id true)
        ({ s with delivered := s.delivered ++ [(version,event)] }.setPass id (.acknowledging version nonce 3))
  | acked {id reported version nonce attempts box loaded next}
      (held : s.passes id = .acking version nonce attempts box loaded next) (current : s.head = some loaded) :
      Outcome codec address s (.writeAck id true reported) ({ s with head := some next }.setPass id
        (if reported then .idle else .ackUnsure version nonce attempts box))

variable (codec : Codec A) (address : Snapshot A → A)

theorem stepOutcome (s : State A) (act : Act A) : Outcome codec address s act (step codec address s act) := by
  cases act with
  | commit write =>
    simp only [step]
    split
    · rename_i ok
      exact .committed ok
    · exact .same _
  | loadClaim id version now =>
    simp only [step]
    split
    · split
      · rename_i update
        exact .claiming update
      · exact .drawn
    · exact .same _
  | writeClaim id lands reported =>
    simp only [step]
    split
    · rename_i held
      split
      · rename_i landed
        obtain ⟨rfl,current⟩ := landed
        exact .claimed held current
      refine .moved id _ fun issued h => ?_
      have fits := h.passes id
      rw [held] at fits
      exact ⟨fits.1,fits.2.1⟩
    · exact .same _
  | confirmClaim id =>
    simp only [step]
    split
    · rename_i held
      refine .moved id _ fun issued h => ?_
      have fits := h.passes id
      rw [held] at fits
      obtain ⟨drawn,event,first,known⟩ := fits
      split
      · rename_i ok
        exact ⟨drawn,event,first,known,h.confirmedReached first ok⟩
      · trivial
    · exact .same _
  | post id success =>
    simp only [step]
    split
    · rename_i held
      split
      · rename_i queue
        exact .posted held queue
      · exact .moved id .idle fun _ _ => trivial
    · exact .same _
  | loadAck id =>
    simp only [step]
    split
    · rename_i held current
      split
      · rename_i update
        refine .moved id _ fun issued h => ?_
        have fits := h.passes id
        rw [held] at fits
        exact ⟨fits.1,fits.2,update⟩
      · refine .moved id _ fun issued h => ?_
        have fits := h.passes id
        rwa [held] at fits
      · exact .moved id .idle fun _ _ => trivial
    · exact .moved id .idle fun _ _ => trivial
    · exact .same _
  | writeAck id lands reported =>
    simp only [step]
    split
    · rename_i held
      split
      · rename_i landed
        obtain ⟨rfl,current⟩ := landed
        exact .acked held current
      refine .moved id _ fun issued h => ?_
      have fits := h.passes id
      rw [held] at fits
      exact ⟨fits.1,fits.2.1⟩
    · exact .same _
  | confirmAck id =>
    simp only [step]
    split
    · rename_i held
      refine .moved id _ fun issued h => ?_
      have fits := h.passes id
      rw [held] at fits
      split
      · trivial
      · exact fits
    · exact .same _
  | crash id => exact .moved id .idle fun _ _ => trivial

theorem stepInv (h : Inv issued s) (act : Act A) : ∃ issued', Inv issued' (step codec address s act) := by
  have outcome := stepOutcome codec address s act
  generalize step codec address s act = after at outcome ⊢
  cases outcome with
  | same => exact ⟨issued,h⟩
  | moved id pass fits => exact ⟨issued,h.setPass id pass (fits issued h)⟩
  | committed ok => exact ⟨issued,h.commitLands ok⟩
  | drawn => exact ⟨_,h.drawNonce none⟩
  | @claiming id version now head box next update =>
    obtain ⟨old,event,rest,found,queue,boxed,_⟩ := claimCases update
    refine ⟨_,(h.drawNonce (some (version,event))).setPass id _ ⟨Nat.lt_succ_self _,⟨event,?_,?_⟩,now,update⟩⟩
    · simp [boxed,queue]
    · exact Function.update_self ..
  | @claimed id reported version nonce box loaded next held current =>
    have fits := h.passes id
    rw [held] at fits
    obtain ⟨drawn,⟨event,first,known⟩,now,update⟩ := fits
    have landed := h.claimLands current drawn first known update
    refine ⟨issued,landed.setPass id _ ?_⟩
    split
    · obtain ⟨old,event',rest,found,queue,rfl,rfl⟩ := claimCases update
      have same : event' = event := by simpa [queue] using first
      refine ⟨drawn,event,first,known,landed.reachedFirst rest ?_⟩
      simp [State.queueOf,Head.queueOf,Dict.getPutSame,queue,same]
    · exact ⟨drawn,event,first,known⟩
  | @posted id version nonce box event rest held queue =>
    have fits := h.passes id
    rw [held] at fits
    obtain ⟨drawn,event',first,known,reached⟩ := fits
    cases Option.some.inj ((congrArg List.head? queue).symm.trans first)
    refine ⟨issued,(h.postSucceeds reached).setPass id _ ⟨drawn,event,?_,known⟩⟩
    simp [State.deliveredTo]
  | @acked id reported version nonce attempts box loaded next held current =>
    have fits := h.passes id
    rw [held] at fits
    obtain ⟨drawn,⟨event,mem,known⟩,update⟩ := fits
    refine ⟨issued,(h.ackLands current mem known update).setPass id _ ?_⟩
    split
    · trivial
    · exact ⟨drawn,event,mem,known⟩

theorem runInv (h : Inv issued s) (acts : List (Act A)) : ∃ issued', Inv issued' (run codec address s acts) := by
  induction acts generalizing s issued with
  | nil => exact ⟨issued,h⟩
  | cons act acts ih =>
    obtain ⟨_,next⟩ := stepInv codec address h act
    exact ih next

structure Removal (s : State A) (act : Act A) (version : Target) (rest : List (Event A))
    (id nonce attempts : Nat) (reported : Bool) (box : Box A) (loaded next : Head A) (held : Claim A) :
    Prop where
  act : act = .writeAck id true reported
  pass : s.passes id = .acking version nonce attempts box loaded next
  claim : s.claimOf version = some held
  nonce : held.nonce = nonce
  queue : s.queueOf version = held.event :: rest
  delivered : held.event ∈ s.deliveredTo version

theorem stepQueue (h : Inv issued s) (act : Act A) (version : Target) :
    (∃ added, (step codec address s act).queueOf version = s.queueOf version ++ added) ∨
    ∃ id nonce attempts reported box loaded next held,
      Removal s act version ((step codec address s act).queueOf version) id nonce attempts reported box
        loaded next held := by
  have outcome := stepOutcome codec address s act
  generalize step codec address s act = after at outcome ⊢
  cases outcome with
  | committed ok => exact .inl ⟨_,(writtenAppends h.targets ok).queue version⟩
  | @claimed id _ _ _ _ _ _ held current =>
    have fits := h.passes id
    rw [held] at fits
    obtain ⟨_,_,now,update⟩ := fits
    have queue := claimQueue update version
    exact .inl ⟨[],by simpa [State.queueOf,State.setPass,current] using queue⟩
  | @acked id reported acked nonce attempts box loaded next held current =>
    have fits := h.passes id
    rw [held] at fits
    obtain ⟨_,⟨event,mem,known⟩,update⟩ := fits
    by_cases same : version = acked
    · subst same
      obtain ⟨claim,claimed,drawn,rfl,queue⟩ := h.ackCovers current known update
      exact .inr ⟨id,nonce,attempts,reported,box,loaded,next,claim,rfl,held,claimed,drawn,queue,mem⟩
    obtain ⟨_,_,_,_,others⟩ := ackQueue update
    have queue := others version same
    exact .inl ⟨[],by simpa [State.queueOf,State.setPass,current] using queue⟩
  | _ => exact .inl ⟨[],(append_nil _).symm⟩

end Invariant

/-- Outboxes deliver at least once and in order, in every interleaving: a committed event stays
queued until it was delivered, first deliveries follow the order of commitment, and an event
only leaves by the acknowledgement of a claim that covers it, after its post succeeded. -/
theorem outboxesDeliverInOrder [DecidableEq A] (codec : Codec A) (address : Snapshot A → A) (acts : List (Act A)) :
    let s := run codec address start acts
    (∀ version, ∀ event ∈ s.committedTo version,event ∈ s.queueOf version ∨ event ∈ s.deliveredTo version) ∧
    (∀ version earlier event later before after,s.committedTo version = earlier ++ event :: later →
      s.deliveredTo version = before ++ event :: after → ∀ e ∈ earlier, e ∈ before) ∧
    ∀ act version,(∃ added, (step codec address s act).queueOf version = s.queueOf version ++ added) ∨
      ∃ id nonce attempts reported box loaded next held,
        Removal s act version ((step codec address s act).queueOf version) id nonce attempts reported
          box loaded next held := by
  obtain ⟨issued,h⟩ := runInv codec address startInv acts
  refine ⟨?_,h.ordered,fun act version => stepQueue codec address h act version⟩
  intro version event mem
  obtain ⟨gone,split,before⟩ := h.queue version
  rw [split] at mem
  rcases mem_append.mp mem with left | queued
  · exact .inr (before event left)
  · exact .inl queued

end Notifier
end Pulso.Alerting
