import Pulso.Manifest
import Pulso.PageTree

/-! Format-4 roots and their immutable pages: references, page store, reads and writes.
A page key carries its digest; the random nonce in every page makes digests unique, so
they are drawn from a counter. The store may refuse any single request. -/
namespace Pulso.Journal
open List

def fanout : Nat := 16
def maxHeight : Nat := 12
def maxRefs : Nat := (fanout - 1) * (maxHeight + 1)
def leafEntries : Nat := 512
def leafBytes : Nat := 131072
def leafReadEntries : Nat := 2048
def pageLimit : Nat := 1048576
def rootLimit : Nat := 1048576
def rootEntries : Nat := 4096
def refBytes : Nat := 4096
def gcInline : Nat := 256
def gcRefs : Nat := 512
def gcPageKeys : Nat := 4096

inductive Fail where
  | compactionConflict | manifestCapacity | manifestGcBacklog | invalidSegmentKey | invalidManifestPage
  | manifestPageMissing | retentionCapacity | queryScanLimit
  | store (reason : Nat)
  -- an exception the journal does not catch, such as `Enum.min/1` of an empty list
  | raised
  deriving DecidableEq, Repr

inductive PageKind where
  | leaf | index | gc
  deriving DecidableEq, Repr

def PageKind.name : PageKind → Bytes
  | .leaf => ascii "leaf"
  | .index => ascii "index"
  | .gc => ascii "gc"

def PageKind.ofHeight : Nat → PageKind
  | 0 => .leaf
  | _+1 => .index

-- `<journal><sha>-<kind>.json`
structure PageKey where
  journal : Bytes
  sha : Nat
  kind : PageKind
  deriving DecidableEq, Repr

def PageKey.bytes (k : PageKey) : Nat := k.journal.length + 64 + 1 + k.kind.name.length + 5

structure Stub where
  k : PageKey
  b : Nat
  sha : Nat
  deriving DecidableEq, Repr

structure Stats where
  n : Nat
  e : Nat
  l : Nat
  mn : Option Int
  mx : Option Int
  kn : Int
  kx : Int
  rd : Option Nat
  sb : Option Nat
  deriving DecidableEq, Repr

structure Ref extends Stub, Stats where
  h : Nat
  q : Option PageSummary
  deriving DecidableEq

structure GcRef extends Stub where
  d : Nat
  c : Nat
  deriving DecidableEq, Repr

structure GcEntry where
  key : PageKey
  deadline : Nat
  deriving DecidableEq, Repr

structure Paging where
  nonce : Nat
  refs : List Ref
  g : List GcEntry
  gr : List GcRef
  cc : Nat
  rc : Option Key
  rf : Option Int
  deriving DecidableEq

structure Root extends Listing where
  paging : Paging
  deriving DecidableEq

abbrev Root.refs (r : Root) : List Ref := r.paging.refs

inductive Page where
  | leaf (content : Listing)
  | index (children : List Ref)
  | gc (keys : List PageKey)
  deriving DecidableEq

structure Stored where
  page : Page
  bytes : Nat
  deriving DecidableEq

structure Disk where
  pages : PageKey → Option Stored
  next : Nat

structure Sizes extends SummarySizes where
  segment : Segment → Nat
  ref : Ref → Nat
  leaf : Listing → Nat
  index : List Ref → Nat
  gc : List PageKey → Nat
  root : Root → Nat

structure Context where
  scope : Scope
  sizes : Sizes

/- One operation's surroundings: the clock it reads, the page grace, how many bytes its encode
cache makes of a root, and which object store requests fail. -/
structure Env extends Context where
  now : Nat
  graceMs : Nat
  rootBytes : Root → Nat
  get : PageKey → Option Fail
  put : PageKey → Option Fail

def Env.calm (scope : Scope) (now graceMs : Nat) (rootBytes : Root → Nat) : Env where
  scope := scope
  sizes := ⟨⟨fun _ => 1,fun _ => 1,fun _ => 1,fun _ => 1,fun _ => 1⟩,fun _ => 1,fun _ => 1,fun _ => 1,fun _ => 1,fun _ => 1,
    rootBytes⟩
  now := now
  graceMs := graceMs
  rootBytes := rootBytes
  get := fun _ => none
  put := fun _ => none

def Disk.blank : Disk := ⟨fun _ => none,0⟩

/- A journal operation: it may write pages and then fail; pages written before a failure stay. -/
def Op (α : Type) : Type := Disk → Except Fail α × Disk

namespace Op

instance : Monad Op where
  pure a := fun d => (.ok a,d)
  bind x f := fun d => match x d with
    | (.ok a,d') => f a d'
    | (.error e,d') => (.error e,d')

def fail {α : Type} (e : Fail) : Op α := fun d => (.error e,d)
def lift {α : Type} (read : Disk → Except Fail α) : Op α := fun d => (read d,d)
def require (p : Prop) [Decidable p] (e : Fail) : Op Unit := if p then pure () else fail e

def done {α : Type} (x : Op α) (d : Disk) : Option (α × Disk) :=
  match x d with
  | (.ok a,d') => some (a,d')
  | (.error _,_) => none

def failed {α : Type} (x : Op α) (d : Disk) : Option Fail :=
  match x d with
  | (.ok _,_) => none
  | (.error e,_) => some e

-- the pages of one level, in order
def each {α β : Type} (f : α → Op β) : List α → Op (List β)
  | [] => pure []
  | x::xs => do
    let y ← f x
    let ys ← each f xs
    pure (y::ys)

variable {d d' : Disk}

theorem pureOk {α : Type} {a b} : (pure a : Op α) d = (.ok b,d') ↔ b = a ∧ d' = d := by
  constructor
  · intro h; cases h; exact ⟨rfl,rfl⟩
  · rintro ⟨rfl,rfl⟩; rfl

theorem bindOk {α β : Type} {x} {f : α → Op β} {b : β} :
    (x >>= f) d = (.ok b,d') ↔ ∃ a d₁, x d = (.ok a,d₁) ∧ f a d₁ = (.ok b,d') := by
  have unfolded : (x >>= f) d = match x d with
    | (.ok a,d') => f a d'
    | (.error e,d') => (.error e,d') := rfl
  rw [unfolded]
  cases run : x d with
  | mk result d₁ =>
    cases result with
    | error e => simp
    | ok a =>
      constructor
      · exact fun h => ⟨a,d₁,rfl,h⟩
      · rintro ⟨a',d₂,same,h⟩; cases same; exact h

theorem doneOk {α : Type} {x : Op α} (h : (x.done d).isSome = true) :
    x d = (.ok ((x.done d).get h).1,((x.done d).get h).2) := by
  revert h
  unfold done
  cases run : x d with
  | mk result d' => cases result <;> simp

variable {e : Fail}

theorem failedError {α : Type} {x : Op α} (h : x.failed d = some e) : ∃ d', x d = (.error e,d') := by
  unfold failed at h
  cases run : x d with
  | mk result d' =>
    rw [run] at h
    cases result with
    | ok a => simp at h
    | error e' => cases h; exact ⟨d',rfl⟩

@[simp] theorem failOk {α : Type} {e} {a : α} {d d'} : fail e d = (.ok a,d') ↔ False := by
  simp [fail]

theorem liftOk {α : Type} {read} {a : α} : lift read d = (.ok a,d') ↔ read d = .ok a ∧ d' = d := by
  simp only [lift,Prod.mk.injEq]
  exact ⟨fun ⟨r,s⟩ => ⟨r,s.symm⟩,fun ⟨r,s⟩ => ⟨r,s.symm⟩⟩

theorem requireOk {p : Prop} [Decidable p] {u : Unit} : require p e d = (.ok u,d') ↔ p ∧ d' = d := by
  unfold require
  by_cases h : p
  · rw [if_pos h,pureOk]; exact ⟨fun ⟨_,s⟩ => ⟨h,s⟩,fun ⟨_,s⟩ => ⟨rfl,s⟩⟩
  · simp [h]

theorem pureError {α : Type} {a} : (pure a : Op α) d = (.error e,d') ↔ False := by
  simp [pure]

theorem bindError {α β : Type} {x} {f : α → Op β} :
    (x >>= f) d = (.error e,d') ↔ x d = (.error e,d') ∨ ∃ a d₁, x d = (.ok a,d₁) ∧ f a d₁ = (.error e,d') := by
  have unfolded : (x >>= f) d = match x d with
    | (.ok a,d') => f a d'
    | (.error e,d') => (.error e,d') := rfl
  rw [unfolded]
  cases run : x d with
  | mk result d₁ =>
    cases result with
    | error e' => simp
    | ok a =>
      constructor
      · exact fun h => .inr ⟨a,d₁,rfl,h⟩
      rintro (failed | ⟨a',d₂,same,h⟩)
      · simp at failed
      · cases same; exact h

theorem requireError {p : Prop} [Decidable p] {e'} : require p e d = (.error e',d') ↔ ¬ p ∧ e' = e ∧ d' = d := by
  unfold require
  by_cases h : p
  · rw [if_pos h,pureError]; exact ⟨False.elim,fun ⟨no,_⟩ => no h⟩
  rw [if_neg h]
  simp only [fail,Prod.mk.injEq,Except.error.injEq,h,not_false_iff,true_and]
  exact ⟨fun ⟨a,b⟩ => ⟨a.symm,b.symm⟩,fun ⟨a,b⟩ => ⟨a.symm,b.symm⟩⟩

section Each
variable {α β : Type} {f : α → Op β} {xs : List α} {ys : List β} {d d' : Disk}

theorem eachLength (ok : each f xs d = (.ok ys,d')) : ys.length = xs.length := by
  induction xs generalizing ys d with
  | nil =>
    obtain ⟨rfl,-⟩ := pureOk.mp ok
    rfl
  | cons x xs ih =>
    simp only [each,bindOk,pureOk] at ok
    obtain ⟨y,d₁,-,rest,d₂,tail,rfl,rfl⟩ := ok
    rw [length_cons,ih tail,length_cons]

theorem eachMem (ok : each f xs d = (.ok ys,d')) : ∀ y ∈ ys, ∃ x ∈ xs, ∃ e e', f x e = (.ok y,e') := by
  induction xs generalizing ys d with
  | nil =>
    obtain ⟨rfl,-⟩ := pureOk.mp ok
    simp
  | cons x xs ih =>
    simp only [each,bindOk,pureOk] at ok
    obtain ⟨z,d₁,head,rest,d₂,tail,rfl,rfl⟩ := ok
    refine forall_mem_cons.mpr ⟨⟨x,mem_cons_self,d,d₁,head⟩,fun y old => ?_⟩
    obtain ⟨x',hx,made⟩ := ih tail y old
    exact ⟨x',mem_cons_of_mem _ hx,made⟩

theorem eachTotal (total : ∀ x ∈ xs, ∀ e, ∃ y e', f x e = (.ok y,e')) (d : Disk) : ∃ ys d', each f xs d = (.ok ys,d') := by
  induction xs generalizing d with
  | nil => exact ⟨[],d,rfl⟩
  | cons x xs ih =>
    obtain ⟨y,d₁,head⟩ := total x mem_cons_self d
    obtain ⟨ys,d₂,tail⟩ := ih (forall_mem_cons.mp total).2 d₁
    exact ⟨y::ys,d₂,by simp only [each,bindOk,pureOk]; exact ⟨y,d₁,head,ys,d₂,tail,rfl,rfl⟩⟩

end Each
end Op
end Pulso.Journal
