import Pulso.Dict
import Pulso.Lists
import Pulso.Worklist

/-! Structural chains of TraceQL over the spans of one trace, as the native search and the reference
evaluator compute them, and what a chain means. -/
namespace Pulso.TraceQL
open Worklist

inductive Relation where
  | descendant | child | ancestor | parent | sibling
  deriving DecidableEq, Repr

/- The order in which a set or a map lists its members is the runtime's. -/
structure Iteration (ι : Type) where
  visit : List ι → List ι
  same : ∀ l, (visit l).Perm l

section Grouping
variable {α κ ν : Type} [DecidableEq κ]

def gather (groups : Dict κ (List ν)) (k : κ) : List ν := (groups.get? k).getD []

def groupBy (pairs : List (κ × ν)) : Dict κ (List ν) :=
  pairs.foldl (fun groups pair => groups.put pair.1 (gather groups pair.1 ++ [pair.2])) Dict.empty

end Grouping

namespace Native

structure Link where
  id : UInt64
  parent : Option UInt64
  mask : UInt8
  deriving DecidableEq, Repr

def bit (i : Nat) : UInt8 := 1 <<< UInt8.ofNat i

structure Visit where
  queue : List UInt64
  seen : List UInt64

def visit (v : Visit) (id : UInt64) : Visit := if id ∈ v.seen then v else ⟨id::v.queue,id::v.seen⟩

/- The queue is popped at its end in the source, at its head here. -/
def drain (edges : Dict UInt64 (List UInt64)) : Nat → Visit → Option (List UInt64)
  | _,⟨[],seen⟩ => some seen
  | 0,⟨_::_,_⟩ => none
  | fuel+1,⟨id::rest,seen⟩ => drain edges fuel ((gather edges id).foldl visit ⟨rest,seen⟩)

def closure (fuel : Nat) (seeds : List UInt64) (edges : Dict UInt64 (List UInt64)) : Option (List UInt64) :=
  drain edges fuel (seeds.foldl visit ⟨[],[]⟩)

def childEdges (spans : List Link) : Dict UInt64 (List UInt64) :=
  groupBy (spans.filterMap (fun s => s.parent.map (fun parent => (parent,s.id))))

def parentEdges (spans : List Link) : Dict UInt64 (List UInt64) :=
  groupBy (spans.filterMap (fun s => s.parent.map (fun parent => (s.id,parent))))

def chosen (spans : List Link) (current : List Bool) : List Link :=
  (spans.zip current).filterMap (fun pair => if pair.2 then some pair.1 else none)

def related (order : Iteration UInt64) (fuel : Nat) (spans : List Link) (relation : Relation) (current : List Bool) :
    Option (Link → Bool) :=
  let ids := Lists.uniqBy id ((chosen spans current).map Link.id)
  match relation with
  | .child => some (fun s => s.parent.any (fun p => p ∈ ids))
  | .parent =>
    let wanted := (chosen spans current).filterMap Link.parent
    some (fun s => s.id ∈ wanted)
  | .descendant => do
    let down ← closure fuel (order.visit ids) (childEdges spans)
    some (fun s => s.parent.any (fun p => p ∈ down))
  | .ancestor => do
    let up ← closure fuel ((chosen spans current).filterMap Link.parent) (parentEdges spans)
    some (fun s => s.id ∈ up)
  | .sibling =>
    let byParent := groupBy ((chosen spans current).filterMap (fun s => s.parent.map (fun parent => (parent,s.id))))
    some (fun s => s.parent.any (fun p => (gather byParent p).any (fun other => other ≠ s.id)))

def structural (order : Iteration UInt64) (fuel : Nat) (relations : List Relation) (spans : List Link) :
    Option (List Bool) :=
  relations.zipIdx.foldlM (fun current entry => do
    let holds ← related order fuel spans entry.1 current
    some (spans.map (fun s => (s.mask &&& bit (entry.2 + 1) ≠ 0) && holds s)))
    (spans.map (fun s => decide (s.mask &&& 1 ≠ 0)))

end Native

/- A span as the reference evaluator holds it, its identifiers the stored texts. -/
@[ext] structure Span (ι : Type) where
  id : ι
  parent : Option ι
  mask : Nat
  deriving DecidableEq, Repr

namespace Reference
variable {ι : Type} [DecidableEq ι]

def spread (edges : Dict ι (List ι)) : Nat → List ι → List ι → Option (List ι)
  | _,[],seen => some seen
  | 0,_::_,_ => none
  | fuel+1,id::rest,seen =>
    let next := (gather edges id).filter (fun n => n ∉ seen)
    spread edges fuel (next ++ rest) (next ++ seen)

def closure (fuel : Nat) (seeds : List ι) (edges : Dict ι (List ι)) : Option (List ι) := spread edges fuel seeds seeds

def parented (spans : List (Span ι)) (pair : Span ι → ι → ι × ι) : List (ι × ι) :=
  spans.filterMap (fun s => s.parent.map (pair s))

def childEdges (spans : List (Span ι)) : Dict ι (List ι) := groupBy (parented spans (fun s parent => (parent,s.id)))
def parentEdges (spans : List (Span ι)) : Dict ι (List ι) := groupBy (parented spans (fun s parent => (s.id,parent)))

def related (order : Iteration ι) (fuel : Nat) (relation : Relation) (chosen : List (Span ι)) (ids : List ι)
    (children parents : Dict ι (List ι)) : Option (Span ι → Bool) :=
  match relation with
  | .child => some (fun s => s.parent.any (fun p => p ∈ ids))
  | .parent =>
    let wanted := chosen.map Span.parent
    some (fun s => some s.id ∈ wanted)
  | .descendant => do
    let down ← closure fuel (order.visit ids) children
    some (fun s => s.parent.any (fun p => p ∈ down))
  | .ancestor => do
    let up ← closure fuel (chosen.filterMap Span.parent) parents
    some (fun s => s.id ∈ up)
  | .sibling =>
    let byParent := groupBy (parented chosen (fun s parent => (parent,s.id)))
    some (fun s => s.parent.any (fun p => (gather byParent p).any (fun other => other ≠ s.id)))

def structural (order : Iteration ι) (fuel : Nat) (relations : List Relation) (spans : List (Span ι)) :
    Option (List Bool) :=
  (relations.zipIdx 1).foldlM (fun current entry => do
    let chosen := ((spans.zip current).filter (fun pair => pair.2)).map Prod.fst
    let ids := Lists.uniqBy id (chosen.map Span.id)
    let holds ← related order fuel entry.1 chosen ids (childEdges spans) (parentEdges spans)
    some (spans.map (fun s => (s.mask &&& (1 <<< entry.2) ≠ 0) && holds s)))
    (spans.map (fun s => decide (s.mask &&& 1 ≠ 0)))

end Reference
end Pulso.TraceQL
