import Pulso.JournalManifest

/-! Maintenance: planned replacement, cleanup and expiry. Plans read and write pages against
a snapshot of the root; committing one touches only the root (and possibly a gc page). -/
namespace Pulso.Journal

structure ReplacePlan where
  inline : List Key
  replacements : List Segment
  deadline : Nat
  changes : List Change

def keyMaxTs (key : Key) : Except Fail Int :=
  match key.maxTs? with
  | some ts => .ok ts
  | none => .error .invalidSegmentKey

def retireLeaf (targets : List Key) (deadline : Nat) (l : Listing) : Listing :=
  let gone := l.segments.filter (fun s => s.key ∈ targets)
  if gone = [] then l
  else ⟨l.segments.filter (fun s => s.key ∉ targets),Manifest.retireAll l.retired (gone.map Segment.key) deadline⟩

def planRetirePaged (env : Env) (root : Root) (keys : List Key) (deadline : Nat) : Op (List Change) :=
  if keys = [] then pure []
  else planRewrite env root.refs (keys.map (fun k => k.maxTs?.getD 0)) (retireLeaf keys deadline)

-- every paged source is found active, which needs its key's time bound
def checkSources (env : Env) (root : Root) : List Key → Op Unit
  | [] => pure ()
  | key::rest => do
    let ts ← Op.lift (fun _ => keyMaxTs key)
    let found ← Op.lift (find env root.refs key ts)
    Op.require (found = .active) .compactionConflict
    checkSources env root rest

def checkReplacements (env : Env) (root : Root) : List Segment → Op Unit
  | [] => pure ()
  | s::rest => do
    let found ← Op.lift (lookup env root s.key s.maxTs)
    Op.require (found = .absent) .compactionConflict
    checkReplacements env root rest

def planReplace (env : Env) (root : Root) (sources : List Key) (replacements : List Segment) (minimum deadline : Nat) :
    Op ReplacePlan := do
  let keys := Lists.uniqBy id sources
  validateSegments env replacements
  Op.require (minimum ≤ keys.length) .compactionConflict
  checkReplacements env root replacements
  let inline := keys.filter (· ∈ root.activeKeys)
  let paged := keys.filter (· ∉ root.activeKeys)
  checkSources env root paged
  let changes ← planRetirePaged env root paged deadline
  pure ⟨inline,replacements,deadline,changes⟩

def commitReplace (env : Env) (root : Root) (plan : ReplacePlan) : Op Root := do
  Op.require (∀ k ∈ plan.inline, k ∈ root.activeKeys) .compactionConflict
  Op.require (∀ r ∈ plan.replacements, r.key ∉ root.activeKeys ∧ r.key ∉ root.retired.keys) .compactionConflict
  let out := substitute root.refs plan.changes
  Op.require (out.stale.length = 0) .compactionConflict
  let retired : Listing := ⟨root.segments.filter (fun s => s.key ∉ plan.inline),
    Manifest.retireAll root.retired plan.inline plan.deadline⟩
  let root ← supersede env ((root.withListing retired).withRefs out.refs)
    (out.applied.flatMap Change.superseded) (max plan.deadline (env.now + env.graceMs))
  touch (root.withListing (Manifest.merge false root.toListing plan.replacements))

abbrev Due := Key × Retirement

def sortDue (due : List Due) : List Due := due.insertionSort (fun a b => a.1 ≤ b.1)
def dueIn (now : Nat) (retired : Dict Key Retirement) : List Due := sortDue (retired.entries.filter (fun e => e.2.due now))

def opens (now : Nat) (ref : Ref) : Bool :=
  match ref.rd with
  | some rd => rd ≤ now
  | none => false

-- only a subtree with a retirement already due is opened
def dueSweep (now : Nat) (visit : Ref → Nat → Disk → Except Fail (List Due)) :
    List Ref → Nat → Disk → Except Fail (List Due)
  | [],_,_ => .ok []
  | ref::rest,left,d =>
    if 0 < left ∧ opens now ref then do
      let found ← visit ref left d
      let more ← dueSweep now visit rest (left - found.length) d
      pure (found ++ more)
    else dueSweep now visit rest left d

def duePaged (env : Env) (now : Nat) : Nat → Ref → Nat → Disk → Except Fail (List Due)
  | 0,ref,left,d =>
    match readLeaf env ref d with
    | .error e => .error e
    | .ok leaf => .ok ((dueIn now leaf.retired).take left)
  | h+1,ref,left,d =>
    match readIndex env ref d with
    | .error e => .error e
    | .ok children => dueSweep now (duePaged env now h) children left d

def dueRetired (env : Env) (now : Nat) (refs : List Ref) (left : Nat) (d : Disk) : Except Fail (List Due) :=
  dueSweep now (fun r => duePaged env now r.h r) refs left d

structure Cleanup where
  retired : List Due
  pages : List PageKey
  gcPages : List (GcRef × List PageKey)

-- a gc page is deleted only after every page it lists
def gcKeys (env : Env) (ref : GcRef) (d : Disk) : Except Fail (List PageKey) :=
  match readGc env ref d with
  | .error .manifestPageMissing => .ok []
  | result => result

def cleanupPlan (env : Env) (root : Root) (now maximum : Nat) (d : Disk) : Except Fail Cleanup := do
  let window := 4 * maximum
  let inline := (dueIn now root.retired).take window
  let paged ← dueRetired env now root.refs (window - inline.length) d
  let due := sortDue (inline ++ paged)
  let passed := fun e : Due => match root.paging.rc with
    | some cursor => decide (e.1 ≤ cursor)
    | none => false
  let rotated := due.dropWhile passed ++ due.takeWhile passed
  let pages := (root.paging.g.filter (fun e => e.deadline ≤ now)).map GcEntry.key
  let gcPages ← ((root.paging.gr.filter (fun r => r.d ≤ now)).take 2).mapM (fun r => do
    let keys ← gcKeys env r d
    pure (r,keys))
  pure ⟨rotated.take maximum,pages.take maximum,gcPages⟩

def markDeleted (observed : Dict Key Retirement) (key : Key) (r : Retirement) : Retirement :=
  if observed.get? key = some r then { r with deleted := true } else r

def markListing (observed : Dict Key Retirement) (l : Listing) : Listing :=
  ⟨l.segments,l.retired.mapValues (markDeleted observed)⟩

structure Work where
  deleted : List Due
  pages : List PageKey
  gcRefs : List PageKey
  cursor : Option Key
  changes : List Change

def planCleanup (env : Env) (root : Root) (deleted : List Due) : Op (List Change) :=
  let paged := deleted.filter (fun e => e.1 ∉ root.retired.keys)
  if paged = [] then pure []
  else do
    Op.require (∀ e ∈ paged, e.1.maxTs?.isSome) .invalidSegmentKey
    planRewrite env root.refs (paged.map (fun e => e.1.maxTs?.getD 0)) (markListing (Dict.ofList deleted))

def applyCleanup (env : Env) (root : Root) (work : Work) : Op Root :=
  let marked := root.withListing (markListing (Dict.ofList work.deleted) root.toListing)
  let out := substitute root.refs work.changes
  let paging : Paging := { root.paging with
    rc := if work.cursor.isSome then work.cursor else root.paging.rc
    refs := out.refs
    g := root.paging.g.filter (fun e => e.key ∉ work.pages)
    gr := root.paging.gr.filter (fun r => r.k ∉ work.gcRefs) }
  supersede env { marked with paging := paging }
    (out.applied.flatMap Change.superseded ++ out.stale.flatMap Change.written) (env.now + env.graceMs)

end Pulso.Journal
