import Pulso.Lists
import Pulso.TraceSummary

/-! Segments, retirements and the listings manifests and leaf pages are made of, with
what one trip through the wire form keeps of them. -/
namespace Pulso

structure Segment where
  key : Key
  minTs : Int
  maxTs : Int
  byteSize : Option Nat
  metricNames : Option (List Bytes)
  metricNameBloom : Option Bloom
  metricLabels : Option LabelSets
  logServices : Option (List Bytes)
  logLabels : Option LabelSets
  traceSummary : Option TraceSummary
  deriving DecidableEq

structure Retirement where
  deleteAfter : Nat
  revision : Nat
  deleted : Bool
  deriving DecidableEq, Repr

namespace Retirement

def new (deadline : Nat) : Retirement := ⟨deadline,0,false⟩

-- a retry can upload a retired object again; the new revision outdates every cleanup that saw the old one
def retried (r : Retirement) : Retirement := ⟨r.deleteAfter,r.revision + 1,false⟩

def due (now : Nat) (r : Retirement) : Bool := !r.deleted && r.deleteAfter ≤ now

end Retirement

namespace Segment

structure Identity where
  key : Key
  minTs : Int
  maxTs : Int
  byteSize : Option Nat
  deriving DecidableEq

def identity (s : Segment) : Identity := ⟨s.key,s.minTs,s.maxTs,s.byteSize⟩

def listedNames : Nat := 128
def bloomSizes : List Nat := [64,128,256,512,1024]
def pageSummaryBytes : Nat := 2048

def validNames (names : List Bytes) : Option (List Bytes) :=
  if names.length ≤ listedNames ∧ names.all (fun n => n.length ≤ 256) then some names else none

def validNameBloom (b : Bloom) : Option Bloom := if b.bytes ∈ bloomSizes ∧ b.bits ≠ 0 then some b else none

def validServices : List Bytes → Option (List Bytes)
  | [] => none
  | services =>
    if services.length ≤ 128 ∧ services.all (fun v => 1 ≤ v.length && v.length ≤ 256) then some services else none

def logLabelNames : List Bytes :=
  ["error_source","error_project","cluster","namespace","container","service_name","env","job","pod","app",
   "instance"].map ascii

def mergeLogLabels (sizes : SummarySizes) (summaries : List (Option LabelSets)) : Option LabelSets :=
  LabelSets.union sizes summaries logLabelNames

def logServiceUnion (segments : List Segment) : Option (List Bytes) :=
  if segments.all (fun s => s.logServices.isSome) then
    let services := Bytes.sort (segments.flatMap (fun s => s.logServices.getD [])).dedup
    if services.length ≤ 128 then some services else none
  else none

def knownPage (page : LogPage) : Bool := page.services.isSome || page.labels.isSome

/- Labels are dropped before services when the summary is too large. -/
def logPageSummary (sizes : SummarySizes) (segments : List Segment) : Option LogPage :=
  let described := segments.filter (fun s => s.key.tier ≠ .rollup)
  let services := logServiceUnion described
  let labels := mergeLogLabels sizes (described.map Segment.logLabels)
  [⟨services,labels⟩,⟨services,none⟩].find? (fun p => knownPage p && sizes.logPage p ≤ pageSummaryBytes)

/- What `from_wire/1` keeps of one entry once the dictionaries are expanded. -/
def received (sizes : SummarySizes) (s : Segment) : Segment :=
  { s with
    metricNames := s.metricNames.bind validNames
    metricNameBloom := s.metricNameBloom.bind validNameBloom
    metricLabels := s.metricLabels.bind (LabelSets.parse sizes)
    logServices := s.logServices.bind validServices
    logLabels := s.logLabels.bind (LabelSets.parse sizes)
    traceSummary := s.traceSummary.map TraceSummary.persisted }

/- Active segments keep the flat format's contract: valid bounds inside the scope. -/
def Valid (scope : Scope) (s : Segment) : Prop := 0 ≤ s.minTs ∧ s.minTs ≤ s.maxTs ∧ scope.Holds s.key
instance (scope : Scope) (s : Segment) : Decidable (s.Valid scope) := by unfold Valid; infer_instance

def EncodesBounds (s : Segment) : Prop := s.key.segmentFromKey = some ⟨s.minTs,s.maxTs⟩
instance (s : Segment) : Decidable s.EncodesBounds := by unfold EncodesBounds; infer_instance

end Segment

structure Listing where
  segments : List Segment
  retired : Dict Key Retirement
  deriving DecidableEq

namespace Listing

def empty : Listing := ⟨[],Dict.empty⟩
def size (l : Listing) : Nat := l.segments.length + l.retired.size

def dictionaryBytes : Nat := 65536

structure Dictionary (α : Type) where
  entries : List α
  bytes : Nat

/- A set beyond the dictionary's budget is left out, so the summary becomes unknown. -/
def Dictionary.admit {α : Type} [DecidableEq α] (size : α → Nat) (dict : Dictionary α) :
    Option α → Option α × Dictionary α
  | none => (none,dict)
  | some value =>
    if value ∈ dict.entries then (some value,dict)
    else if dict.bytes + size value + 1 ≤ dictionaryBytes then
      (some value,⟨value::dict.entries,dict.bytes + size value + 1⟩)
    else (none,dict)

def transmit (sizes : SummarySizes) (names : Dictionary (List Bytes)) (labels : Dictionary LabelSets) :
    List Segment → List Segment
  | [] => []
  | s::rest =>
    let n := names.admit sizes.strings s.metricNames
    let l := labels.admit sizes.labels s.metricLabels
    Segment.received sizes { s with metricNames := n.1, metricLabels := l.1 } :: transmit sizes n.2 l.2 rest

/- `decode` after `encode`: the decoder accumulates in reverse and then sorts. -/
def persisted (sizes : SummarySizes) (l : Listing) : Listing :=
  ⟨Lists.sortDesc Segment.maxTs (transmit sizes ⟨[],2⟩ ⟨[],2⟩ l.segments).reverse,l.retired⟩

theorem transmitIdentity (sizes names labels) (segments : List Segment) :
    (transmit sizes names labels segments).map Segment.identity = segments.map Segment.identity := by
  induction segments generalizing names labels with
  | nil => rfl
  | cons s rest ih => simp [transmit,ih,Segment.identity,Segment.received]

variable (sizes : SummarySizes)

theorem persistedIdentity (l : Listing) :
    ((l.persisted sizes).segments.map Segment.identity).Perm (l.segments.map Segment.identity) := by
  have sorted := (Lists.sortDescPerm Segment.maxTs (transmit sizes ⟨[],2⟩ ⟨[],2⟩ l.segments).reverse).trans
    (List.reverse_perm _)
  simpa [persisted,transmitIdentity] using sorted.map Segment.identity

@[simp] theorem persistedRetired (l : Listing) : (l.persisted sizes).retired = l.retired := rfl

theorem persistedMap {β : Type} (f : Segment.Identity → β) (sizes : SummarySizes) (l : Listing) :
    ((l.persisted sizes).segments.map (fun s => f s.identity)).Perm (l.segments.map (fun s => f s.identity)) := by
  simpa [Function.comp_def] using (persistedIdentity sizes l).map f

theorem persistedSize (l : Listing) : (l.persisted sizes).size = l.size := by
  have same := (persistedIdentity sizes l).length_eq
  simp only [List.length_map] at same
  simp [size,same]

end Listing
end Pulso
