import Pulso.Dict
import Pulso.Key

/-! Pruning summaries of segments and pages: label value sets, trace attribute sets and
trace summaries, with the validation every decoder applies. Byte lengths of JSON
encodings are parameters; nothing is assumed about them. -/
namespace Pulso

abbrev LabelSets := Dict Bytes (List Bytes)

def Bytes.sort (xs : List Bytes) : List Bytes := xs.insertionSort (· ≤ ·)

structure AttributeOwner where
  keys : Dict Bytes (Option (List Bytes))
  complete : Bool
  deriving DecidableEq

structure AttributeSummary where
  resource : AttributeOwner
  span : AttributeOwner
  deriving DecidableEq

-- `bits` is the big-endian integer the stored binary spells
structure Bloom where
  bytes : Nat
  bits : Nat
  deriving DecidableEq, Repr

structure TraceSummary where
  services : Option (List Bytes)
  bits : Option Bloom
  lookupHashes : Option (List Nat)
  lookupBits : Option Bloom
  attributes : Option AttributeSummary
  statuses : Option (List Nat)
  events : Bool
  pruningSafe : Bool
  deriving DecidableEq

structure TracePage where
  services : Option (List Bytes)
  bits : Option Bloom
  pruningSafe : Bool
  statuses : Option (List Nat)
  noEvents : Bool
  attributes : Option AttributeSummary
  deriving DecidableEq

structure LogPage where
  services : Option (List Bytes)
  labels : Option LabelSets
  deriving DecidableEq

inductive PageSummary where
  | logs (page : LogPage)
  | traces (page : TracePage)
  deriving DecidableEq

structure SummarySizes where
  strings : List Bytes → Nat
  labels : LabelSets → Nat
  attributes : AttributeSummary → Nat
  tracePage : TracePage → Nat
  logPage : LogPage → Nat

namespace LabelSets

def maxNames : Nat := 16
def maxValues : Nat := 32
def maxBytes : Nat := 4096

def validName (name : Bytes) : Bool := 1 ≤ name.length && name.length ≤ 128 && Bytes.validUtf8 name
def validValue (value : Bytes) : Bool := value.length ≤ 256 && Bytes.validUtf8 value

def validEntry (e : Bytes × List Bytes) : Bool :=
  validName e.1 && 1 ≤ e.2.length && e.2.length ≤ maxValues && e.2.all validValue

def parse (sizes : SummarySizes) (sets : LabelSets) : Option LabelSets :=
  if 1 ≤ sets.size ∧ sets.size ≤ maxNames ∧ sets.entries.all validEntry ∧ sizes.labels sets ≤ maxBytes then some sets
  else none

def addLabel (sizes : SummarySizes) (acc : LabelSets × Nat) (label : Bytes × List Bytes) : LabelSets × Nat :=
  if acc.1.size < maxNames then
    let values := Bytes.sort label.2
    let added := sizes.labels (Dict.empty.put label.1 values)
    if acc.2 + added ≤ maxBytes then (acc.1.put label.1 values,acc.2 + added) else acc
  else acc

def known (sets : LabelSets) : Option LabelSets := if sets.size > 0 then some sets else none

def unionValues (summaries : List LabelSets) (name : Bytes) : List (Bytes × List Bytes) :=
  let values := (summaries.flatMap (fun s => (s.get? name).getD [])).dedup
  if values.length ≤ maxValues then [(name,values)] else []

def union (sizes : SummarySizes) (summaries : List (Option LabelSets)) (names : List Bytes) : Option LabelSets :=
  if summaries ≠ [] ∧ summaries.all Option.isSome then
    let sets := summaries.reduceOption
    let kept := (names.take maxNames).filter (fun name => sets.all (fun s => s.has name))
    known ((kept.flatMap (unionValues sets)).foldl (addLabel sizes) (Dict.empty,2)).1
  else none

end LabelSets

namespace AttributeSummary

def maxKeys : Nat := 64
def maxValues : Nat := 8
def pageBytes : Nat := 512
def unknownOwner : AttributeOwner := ⟨Dict.empty,false⟩

def validKey (key : Bytes) : Bool := 1 ≤ key.length && key.length ≤ 256 && Bytes.validUtf8 key
def validValue (value : Bytes) : Bool := value.length ≤ 96 && Bytes.validUtf8 value

def validValues : Option (List Bytes) → Bool
  | none => true
  | some values => values ≠ [] && values.length ≤ maxValues && values.all validValue

def Informative (s : AttributeSummary) : Prop :=
  (s.resource.complete ∨ s.resource.keys.entries ≠ []) ∨ s.span.complete ∨ s.span.keys.entries ≠ []
instance (s : AttributeSummary) : Decidable s.Informative := by unfold Informative; infer_instance

def parseOwner (o : AttributeOwner) : AttributeOwner :=
  if o.keys.size ≤ maxKeys ∧ o.keys.entries.all (fun e => validKey e.1 && validValues e.2) then o else unknownOwner

def parse (s : AttributeSummary) : Option AttributeSummary :=
  let parsed : AttributeSummary := ⟨parseOwner s.resource,parseOwner s.span⟩
  if parsed.Informative then some parsed else none

def mergeValues (name : Bytes) : List AttributeOwner → List Bytes → Option (List Bytes)
  | [],acc => let values := Bytes.sort acc.dedup; if values.length ≤ maxValues then some values else none
  | part::rest,acc =>
    match part.keys.get? name with
    | some (some (v::vs)) => mergeValues name rest (v::vs ++ acc)
    | some _ => none
    | none => if part.complete then mergeValues name rest acc else none

def mergeOwner (parts : List AttributeOwner) : AttributeOwner :=
  let complete := parts.all AttributeOwner.complete
  let names := (parts.flatMap (fun p => p.keys.keys)).dedup
  let keys := names.flatMap (fun name =>
    match mergeValues name parts [] with
    | some values => [(name,some values)]
    | none => if complete then [(name,none)] else [])
  if keys.length ≤ maxKeys then ⟨Dict.ofList keys,complete⟩
  else ⟨Dict.ofList ((keys.filter (fun e => e.2.isSome)).take maxKeys),false⟩

inductive Owner where
  | resource | span
  deriving DecidableEq, Repr

def update (s : AttributeSummary) (owner : Owner) (f : AttributeOwner → AttributeOwner) : AttributeSummary :=
  match owner with
  | .resource => ⟨f s.resource,s.span⟩
  | .span => ⟨s.resource,f s.span⟩

def incompleteOwner (o : AttributeOwner) : AttributeOwner := ⟨o.keys.filter (fun e => e.2.isSome),false⟩

-- a complete owner keeps the key name, an incomplete one drops it
def forgetValues (s : AttributeSummary) (owner : Owner) (key : Bytes) (complete : Bool) : AttributeSummary :=
  s.update owner (fun o =>
    if complete then ⟨o.keys.put key none,o.complete⟩ else ⟨o.keys.filter (fun e => e.1 ≠ key),o.complete⟩)

def costs (sizes : SummarySizes) (owner : Owner) (o : AttributeOwner) : List (Owner × Bytes × Bool × Nat) :=
  o.keys.entries.filterMap (fun e => match e.2 with
    | some (v::vs) => some (owner,e.1,o.complete,sizes.strings (v::vs))
    | _ => none)

def shrinkWhile (sizes : SummarySizes) (budget : Nat) (s : AttributeSummary) :
    List (Owner × Bytes × Bool × Nat) → AttributeSummary
  | [] => s
  | (owner,key,complete,_)::rest =>
    let smaller := s.forgetValues owner key complete
    if sizes.attributes smaller ≤ budget then smaller else shrinkWhile sizes budget smaller rest

def shrink (sizes : SummarySizes) (budget : Nat) (s : AttributeSummary) : Option AttributeSummary :=
  if sizes.attributes s ≤ budget then some s
  else
    let costly := (costs sizes .resource s.resource ++ costs sizes .span s.span).insertionSort
      (fun a b => b.2.2.2 ≤ a.2.2.2)
    let smaller := shrinkWhile sizes budget s costly
    if sizes.attributes smaller ≤ budget then some smaller else none

def fit (sizes : SummarySizes) (budget : Nat) (s : AttributeSummary) : Option AttributeSummary :=
  let variants := [s,⟨s.resource,incompleteOwner s.span⟩,⟨incompleteOwner s.resource,incompleteOwner s.span⟩]
  match variants.findSome? (shrink sizes budget) with
  | some fitted => if fitted.Informative then some fitted else none
  | none => none

def merge (sizes : SummarySizes) (summaries : List (Option AttributeSummary)) : Option AttributeSummary :=
  let resource := mergeOwner (summaries.map (fun s => (s.map AttributeSummary.resource).getD unknownOwner))
  let span := mergeOwner (summaries.map (fun s => (s.map AttributeSummary.span).getD unknownOwner))
  fit sizes pageBytes ⟨resource,span⟩

end AttributeSummary
end Pulso
