import Pulso.JournalApply

/-! Operations on format-4 roots: conversion, registration, sealing, lookup, replacement,
cleanup and expiry, as the manifest owner and the maintenance jobs call them. -/
namespace Pulso.Journal

def newRoot : Op Root := do
  let n ← nonce
  pure ⟨Listing.empty,⟨n,[],[],[],0,none,none⟩⟩

def touch (root : Root) : Op Root := do
  let n ← nonce
  pure { root with paging := { root.paging with nonce := n } }

def Root.withListing (r : Root) (l : Listing) : Root := ⟨l,r.paging⟩

def validateSegments (env : Env) (segments : List Segment) : Op Unit :=
  Op.require (∀ s ∈ segments, s.Valid env.scope) .invalidSegmentKey

/- A small history stays inline; a larger one moves into leaves packed bottom-up. -/
def convert (env : Env) (flat : Listing) : Op Root := do
  validateSegments env flat.segments
  Op.require (∀ k ∈ flat.retired.keys, ValidRetiredKey env.scope k) .invalidSegmentKey
  let root ← newRoot
  if flat.size ≤ leafEntries then pure (root.withListing flat)
  else do
    let xs ← Op.lift (fun _ => items flat)
    let leaves ← putLeaves env (chunk env.sizes xs)
    let refs ← build env leaves.length leaves
    pure (root.withRefs refs)

inductive Found where
  | active
  | retired (r : Retirement)
  | absent
  deriving DecidableEq, Repr

def findListed (l : Listing) (key : Key) : Option Found :=
  if key ∈ l.activeKeys then some .active else (l.retired.get? key).map .retired

def findFirst {α : Type} (f : α → Except Fail (Option Found)) : List α → Except Fail (Option Found)
  | [] => .ok none
  | x::xs =>
    match f x with
    | .error e => .error e
    | .ok (some found) => .ok (some found)
    | .ok none => findFirst f xs

def findIn (env : Env) (key : Key) (maxTs : Int) : Nat → Ref → Disk → Except Fail (Option Found)
  | 0,ref,d =>
    match readLeaf env ref d with
    | .error e => .error e
    | .ok leaf => .ok (findListed leaf key)
  | h+1,ref,d =>
    match readIndex env ref d with
    | .error e => .error e
    | .ok children =>
      findFirst (fun c => if covers c maxTs then findIn env key maxTs h c d else .ok none) children

def find (env : Env) (refs : List Ref) (key : Key) (maxTs : Int) (d : Disk) : Except Fail Found :=
  match findFirst (fun r => if covers r maxTs then findIn env key maxTs r.h r d else .ok none) refs with
  | .error e => .error e
  | .ok found => .ok (found.getD .absent)

def lookup (env : Env) (root : Root) (key : Key) (maxTs : Int) (d : Disk) : Except Fail Found :=
  match findListed root.toListing key with
  | some found => .ok found
  | none => find env root.refs key maxTs d

/- Leaves to read, one level of index pages at a time; heights bound the rounds. -/
def collectLeaves (env : Env) (select : Ref → Bool) : Nat → List Ref → Disk → Except Fail (List Ref)
  | 0,_,_ => .ok []
  | fuel+1,refs,d => do
    let chosen := refs.filter select
    let leaves := chosen.filter (fun r => r.h = 0)
    let children ← (chosen.filter (fun r => r.h ≠ 0)).mapM (fun r => readIndex env r d)
    let deeper ← collectLeaves env select fuel children.flatten d
    pure (leaves ++ deeper)

def rounds (refs : List Ref) : Nat := (refs.map (fun r => r.h)).foldr max 0 + 1

def materialize (env : Env) (root : Root) (maxBytes : Nat) (d : Disk) : Except Fail Listing := do
  let leaves ← collectLeaves env (fun _ => true) (rounds root.refs) root.refs d
  if maxBytes < (leaves.map (fun r => r.b)).sum then .error .retentionCapacity
  else do
    let pages ← leaves.mapM (fun r => readLeaf env r d)
    pure ⟨Lists.sortDesc Segment.maxTs (root.segments ++ pages.flatMap Listing.segments),
      pages.foldl (fun retired page => retired.merge page.retired) root.retired⟩

/- `{root, applied, []} = substitute(...)`: a plan applied to the references it was made from. -/
def rewriteRoot (env : Env) (root : Root) (timestamps : List Int) (update : Listing → Listing) : Op Root := do
  let changes ← planRewrite env root.refs timestamps update
  let out := substitute root.refs changes
  Op.require (out.stale.length = 0) .raised
  supersede env (root.withRefs out.refs) (out.applied.flatMap Change.superseded) (env.now + env.graceMs)

def reviveLeaf (key : Key) (l : Listing) : Listing :=
  match l.retired.get? key with
  | some r => { l with retired := l.retired.put key r.retried }
  | none => l

def revive (env : Env) (root : Root) (s : Segment) : Op Root := rewriteRoot env root [s.maxTs] (reviveLeaf s.key)

/- A deterministic key may already be published in a page: keep it active, or revive it. -/
def registerPaged (env : Env) (root : Root) (fresh : List Segment) (s : Segment) : Op (Root × List Segment) := do
  let found ← Op.lift (find env root.refs s.key s.maxTs)
  match found with
  | .absent => pure (root,s::fresh)
  | .active => pure (root,fresh)
  | .retired _ => do
    let root ← revive env root s
    pure (root,fresh)

def registerEach (env : Env) (tail : List Key) : List Segment → Root → List Segment → Op (Root × List Segment)
  | [],root,fresh => pure (root,fresh)
  | s::rest,root,fresh =>
    if s.key ∈ tail ∨ s.key ∈ root.retired.keys ∨ s.key.random then registerEach env tail rest root (s::fresh)
    else do
      let (root,fresh) ← registerPaged env root fresh s
      registerEach env tail rest root fresh

def register (env : Env) (root : Root) (segments : List Segment) : Op Root := do
  let segments := Lists.uniqBy Segment.key segments
  validateSegments env segments
  let (root,fresh) ← registerEach env root.activeKeys segments root []
  touch (root.withListing (Manifest.merge false root.toListing fresh.reverse))

def spills (env : Env) (root : Root) : Bool :=
  leafEntries < root.size ||
    (0 < root.size && leafBytes < env.rootBytes root &&
      leafBytes < env.rootBytes root - env.sizes.root (root.withListing Listing.empty))

def spill (env : Env) (root : Root) : Op Root := do
  let xs ← Op.lift (fun _ => items root.toListing)
  let leaves ← putLeaves env (chunk env.sizes xs)
  let refs ← pushAll env root.refs leaves
  pure ((root.withListing Listing.empty).withRefs refs)

def sealRoot (env : Env) (root : Root) : Op Root := do
  let root ← if spills env root then do
      let spilled ← spill env root
      touch spilled
    else pure root
  Op.require (env.rootBytes root ≤ rootLimit) .manifestCapacity
  pure root

end Pulso.Journal
