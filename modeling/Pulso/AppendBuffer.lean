import Pulso.Places

/-! The buffer of appends without an idempotency key: reservations of callers, the batch that
collects, its timer, and the flushes that publish batches and answer their requests. -/
namespace Pulso.AppendBuffer
open Pulso.Places

def maxCallers : Nat := 2048
def maxRows : Nat := 400000
def maxBytes : Nat := 32 * 1024 * 1024
def flushRows : Nat := maxRows / 4
def flushBytes : Nat := maxBytes / 4
def flushCallers : Nat := maxCallers / 4
def maxFlushes : Nat := 16
def maxSplits : Nat := 8

inductive Limit
  | retentionExpired | timestampTooNew

/- Reasons of a failed append; `R` are the reasons of the store and of the manifest owner that the
buffer hands on unread. -/
inductive Reason (R : Type)
  | invalidTenant
  | payloadTooLarge | encodeFailed | attributeKeyCollision
  | admissionRejected (limit : Limit)
  | limit (limit : Limit)
  | retentionFloorAdvanced
  | storageUnavailable
  | other (reason : R)

abbrev Result (R : Type) := Except (Reason R) Unit

inductive EncodeError (R : Type)
  | payloadTooLarge | encodeFailed | attributeKeyCollision
  | other (reason : R)

section Publishing
variable {R : Type}

def EncodeError.reason : EncodeError R → Reason R
  | .payloadTooLarge => .payloadTooLarge
  | .encodeFailed => .encodeFailed
  | .attributeKeyCollision => .attributeKeyCollision
  | .other reason => .other reason

structure Checks (R : Type) where
  tenant : Bool
  encode : Option (EncodeError R)
  retention : Option (Limit ⊕ R)

def preflight (splitAdmissionErrors : Bool) (checks : Checks R) : Result R :=
  if checks.tenant then
    match checks.encode with
    | some error => .error error.reason
    | none =>
      match checks.retention with
      | some (.inl limit) => .error (if splitAdmissionErrors then .admissionRejected limit else .limit limit)
      | some (.inr reason) => .error (.other reason)
      | none => .ok ()
  else .error .invalidTenant

def stored : Option R → Result R
  | some reason => .error (.other reason)
  | none => .ok ()

def registered : Option (Limit ⊕ R) → Result R
  | some (.inl limit) => .error (.limit limit)
  | some (.inr reason) => .error (.other reason)
  | none => .ok ()

def appendUnbuffered (splitAdmissionErrors : Bool) (checks : Checks R) (put : Option R) (register : Option (Limit ⊕ R)) :
    Except (Reason R) Unit := do
  preflight splitAdmissionErrors checks
  stored put
  registered register

def encodingError : Result R → Bool
  | .error .payloadTooLarge => true
  | .error (.admissionRejected _) => true
  | .error .encodeFailed => true
  | .error .attributeKeyCollision => true
  | _ => false

end Publishing

structure Request (A : Type) where
  id : Nat
  records : List A
  bytes : Nat

def Request.rows {A : Type} (r : Request A) : Nat := r.records.length

inductive Stage (A R : Type)
  | calling
  | registering
  | answering (result : Result R) (left : List (Request A))
  | splitting (waiting running : List (Request A))
  | reported
  | closed

/- A flush task. `began`, `outcome`, `alone` and `answered` record what it has done: whether an upload
was begun, how the shared attempt ended, the requests passed on alone, and the replies sent. -/
structure Flush (A R : Type) where
  batch : List (Request A)
  stage : Stage A R
  began : Bool
  uploaded : Bool
  outcome : Option (Result R)
  alone : List (Request A)
  answered : List (Request A × Result R)

inductive Work (R : Type)
  | call (checks : Checks R) (put : Option R)
  | register (answer : Option (Limit ⊕ R))
  | answer
  | split
  | splitReply (id : Nat) (checks : Checks R) (put : Option R) (register : Option (Limit ⊕ R))
  | splitRaised (id : Nat)
  | report

section Tasks
variable {A R : Type}

def Flush.start (batch : List (Request A)) : Flush A R := ⟨batch,.calling,false,false,none,[],[]⟩

-- an error before the upload is split; a floor that moved under several requests is to be retried
def Flush.publish (f : Flush A R) (result : Result R) : Flush A R :=
  let stage : Stage A R :=
    if encodingError result then .splitting f.batch []
    else
      match result,f.batch with
      | .error (.limit .retentionExpired),_::_::_ => .answering (.error .retentionFloorAdvanced) f.batch
      | _,_ => .answering result f.batch
  { f with stage := stage,outcome := some result }

def Flush.splitReply (f : Flush A R) (waiting running : List (Request A)) (id : Nat) (result : Result R) :
    Option (Flush A R × Option (Request A) × Bool) :=
  match pull (fun r => r.id = id) running with
  | some (r,rest) => some ({ f with stage := .splitting waiting rest,answered := f.answered ++ [(r,result)] },some r,false)
  | none => none

/- The task after its next piece of work, with the request it releases and whether it tells the
buffer of an upload. -/
def Flush.act (f : Flush A R) (work : Work R) : Option (Flush A R × Option (Request A) × Bool) :=
  match f.stage,work with
  | .calling,.call checks put =>
    match preflight true checks with
    | .error reason => some (f.publish (.error reason),none,false)
    | .ok () =>
      match put with
      | some reason => some ({ f with began := true }.publish (stored (some reason)),none,false)
      | none => some ({ f with began := true,uploaded := true,stage := .registering },none,true)
  | .registering,.register answer => some (f.publish (registered answer),none,false)
  | .answering result (r::left),.answer =>
    some ({ f with stage := .answering result left,answered := f.answered ++ [(r,result)] },some r,false)
  | .answering _ [],.report => some ({ f with stage := .reported },none,false)
  | .splitting (r::waiting) running,.split =>
    if running.length < maxSplits then
      some ({ f with stage := .splitting waiting (running ++ [r]),alone := f.alone ++ [r] },none,false)
    else none
  | .splitting waiting running,.splitReply id checks put register =>
    f.splitReply waiting running id (appendUnbuffered false checks put register)
  | .splitting waiting running,.splitRaised id => f.splitReply waiting running id (.error .storageUnavailable)
  | .splitting [] [],.report => some ({ f with stage := .reported },none,false)
  | _,_ => none

end Tasks

structure Counters where
  callers : Int
  bytes : Int
  rows : Int

/- The buffer with its callers: reservations to be undone, reservations whose message is not sent yet,
messages sent; timers running and timer messages due; messages of uploads. -/
structure World (A R : Type) where
  alive : Bool
  issued : Nat
  counters : Counters
  rejected : List (Request A)
  admitted : List (Request A)
  mailbox : List (Request A)
  pending : List (Request A)
  pendingBytes : Nat
  pendingRows : Nat
  flushing : Int
  uploading : Int
  timer : Option Nat
  tokens : Nat
  clocks : List Nat
  due : List Nat
  uploads : Nat
  flushes : List (Flush A R)

section Buffer
variable {A R : Type}

def World.init : World A R := ⟨true,0,⟨0,0,0⟩,[],[],[],[],0,0,0,0,none,0,[],[],0,[]⟩

def Counters.take (c : Counters) (r : Request A) : Counters := ⟨c.callers + 1,c.bytes + r.bytes,c.rows + r.rows⟩
def Counters.release (c : Counters) (r : Request A) : Counters := ⟨c.callers - 1,c.bytes - r.bytes,c.rows - r.rows⟩

def Counters.within (c : Counters) : Prop := c.callers ≤ maxCallers ∧ c.bytes ≤ maxBytes ∧ c.rows ≤ maxRows

instance (c : Counters) : Decidable c.within := inferInstanceAs (Decidable (_ ∧ _ ∧ _))

def World.reserve (w : World A R) (records : List A) (bytes : Nat) : World A R :=
  if maxRows < records.length ∨ maxBytes < bytes then w
  else
    let r : Request A := ⟨w.issued,records,bytes⟩
    let counters := w.counters.take r
    if counters.within then { w with issued := w.issued + 1,counters := counters,admitted := w.admitted ++ [r] }
    else { w with issued := w.issued + 1,counters := counters,rejected := w.rejected ++ [r] }

def World.schedule (w : World A R) : World A R :=
  { w with timer := some w.tokens,tokens := w.tokens + 1,clocks := w.clocks ++ [w.tokens] }

def World.flush (w : World A R) : World A R :=
  if w.pending.isEmpty then w
  else if maxFlushes ≤ w.flushing then { w with timer := none }
  else
    { w with
      pending := []
      pendingBytes := 0
      pendingRows := 0
      flushing := w.flushing + 1
      uploading := w.uploading + 1
      timer := none
      clocks := w.clocks.filter (fun token => some token ≠ w.timer)
      flushes := w.flushes ++ [.start w.pending.reverse] }

def World.append (w : World A R) (r : Request A) : World A R :=
  let w := { w with
    pending := r::w.pending
    pendingBytes := w.pendingBytes + r.bytes
    pendingRows := w.pendingRows + r.rows }
  if flushBytes ≤ w.pendingBytes ∨ flushRows ≤ w.pendingRows ∨ flushCallers ≤ w.pending.length then w.flush
  else if w.timer.isSome then w
  else w.schedule

def World.alarm (w : World A R) (token : Nat) : World A R :=
  if w.timer = some token then { w with timer := none }.flush else w

def World.flushed (w : World A R) (uploaded : Bool) : World A R :=
  let w := { w with flushing := w.flushing - 1,uploading := w.uploading - (if uploaded then 0 else 1) }
  if !w.pending.isEmpty && w.timer.isNone then w.flush else w

inductive Event (A R : Type)
  | reserve (records : List A) (bytes : Nat)
  | undo (id : Nat)
  | send (id : Nat)
  | timeout (id : Nat)
  | append (id : Nat)
  | expire (token : Nat)
  | alarm (token : Nat)
  | uploaded
  | flushed (index : Nat)
  | work (index : Nat) (work : Work R)
  | idle
  | crash

def World.task (w : World A R) (index : Nat) (f : Flush A R) (released : Option (Request A)) (told : Bool) : World A R :=
  { w with
    flushes := w.flushes.set index f
    uploads := if told then w.uploads + 1 else w.uploads
    counters := match released with
      | some r => w.counters.release r
      | none => w.counters }

def Stage.isReported : Stage A R → Bool
  | .reported => true
  | _ => false

def World.step (w : World A R) (event : Event A R) : World A R :=
  if !w.alive then w
  else
    match event with
    | .reserve records bytes => w.reserve records bytes
    | .undo id =>
      match pull (fun r => r.id = id) w.rejected with
      | some (r,rest) => { w with rejected := rest,counters := w.counters.release r }
      | none => w
    | .send id =>
      match pull (fun r => r.id = id) w.admitted with
      | some (r,rest) => { w with admitted := rest,mailbox := w.mailbox ++ [r] }
      | none => w
    -- a caller that gives up releases nothing
    | .timeout _ => w
    | .append id =>
      match pull (fun r => r.id = id) w.mailbox with
      | some (r,rest) => { w with mailbox := rest }.append r
      | none => w
    | .expire token => if token ∈ w.clocks then { w with clocks := w.clocks.erase token,due := w.due ++ [token] } else w
    | .alarm token => if token ∈ w.due then { w with due := w.due.erase token }.alarm token else w
    | .uploaded => if 0 < w.uploads then { w with uploads := w.uploads - 1,uploading := w.uploading - 1 } else w
    | .flushed index =>
      match w.flushes[index]? with
      | some f =>
        if f.stage.isReported then
          { w with flushes := w.flushes.set index { f with stage := .closed } }.flushed f.uploaded
        else w
      | none => w
    | .work index work =>
      match w.flushes[index]? with
      | some f =>
        match f.act work with
        | some (next,released,told) => w.task index next released told
        | none => w
      | none => w
    | .idle => if w.pending.isEmpty && w.flushing = 0 then { w with alive := false } else w
    | .crash => { w with alive := false }

def run (events : List (Event A R)) : World A R := events.foldl World.step .init

end Buffer

end Pulso.AppendBuffer
