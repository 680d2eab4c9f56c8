import Pulso.Summary

/-! Trace summaries: what a manifest round trip keeps of one, and the summary of a whole
page built from the summaries of its segments. -/
namespace Pulso

namespace Bloom

def size (b : Bloom) : Nat := b.bytes * 8

def lookupPositions (hash size : Nat) : List Nat :=
  let a := hash >>> 32
  let b := (hash &&& 0xFFFFFFFF) ||| 1
  (List.range 4).map (fun i => (a + i * b) % size)

def setAll (bits : Nat) (positions : List Nat) : Nat := positions.foldl (fun bits p => bits ||| (1 <<< p)) bits
def addHash (size bits hash : Nat) : Nat := setAll bits (lookupPositions hash size)

def hasAll (bits : Nat) (positions : List Nat) : Bool := positions.all (fun p => bits.testBit p)
def hasHash (b : Bloom) (hash : Nat) : Bool := hasAll b.bits (lookupPositions hash b.size)

end Bloom

namespace TraceSummary

def maxBloomBytes : Nat := 8192
def maxExactIds : Nat := 1024
def canonicalBytes : Nat := 2048
def pageBytes : Nat := 3584

def parseServices : Option (List Bytes) → Option (List Bytes)
  | some (s::rest) =>
    let services := s::rest
    if services.length ≤ 128 ∧ services.all (fun v => 1 ≤ v.length && v.length ≤ 256) then some services else none
  | _ => none

-- a power of two; base64 of at most 10924 bytes holds no larger bloom
def parseBits : Option Bloom → Option Bloom
  | some b =>
    if 16 ≤ b.bytes ∧ b.bytes ≤ maxBloomBytes ∧ b.bytes &&& (b.bytes - 1) = 0 ∧ b.bits ≠ 0 then some b else none
  | none => none

def parseCanonical (b : Option Bloom) : Option Bloom := (parseBits b).filter (fun b => b.bytes = canonicalBytes)

def parseHashes : Option (List Nat) → Option (List Nat)
  | some hashes => if 1 ≤ hashes.length ∧ hashes.length ≤ maxExactIds then some hashes else none
  | none => none

def sortStatuses (statuses : List Nat) : List Nat := statuses.dedup.insertionSort (· ≤ ·)

def parseStatuses : Option (List Nat) → Option (List Nat)
  | some (s::rest) =>
    let statuses := s::rest
    if statuses.length ≤ 3 ∧ statuses.all (fun c => c ≤ 2) then some (sortStatuses statuses) else none
  | _ => none

/- `parse/1` after `to_wire/1`. -/
def persisted (s : TraceSummary) : TraceSummary where
  services := parseServices s.services
  bits := parseBits s.bits
  lookupHashes := parseHashes s.lookupHashes
  lookupBits := parseCanonical s.lookupBits
  attributes := s.attributes.bind AttributeSummary.parse
  statuses := parseStatuses s.statuses
  events := match parseStatuses s.statuses with
    | some _ => s.events
    | none => true
  pruningSafe := s.pruningSafe

def collectServices : List (Option TraceSummary) → List Bytes → Option (List Bytes)
  | [],acc => some acc
  | summary::rest,acc =>
    match summary.bind TraceSummary.services with
    | some (v::vs) =>
      let values := (acc ++ (v::vs)).dedup
      if values.length ≤ 128 then collectServices rest values else none
    | _ => none

def pageServices (sizes : SummarySizes) (summaries : List (Option TraceSummary)) : Option (List Bytes) :=
  match collectServices summaries [] with
  | some services =>
    let values := Bytes.sort services
    if sizes.strings values ≤ 512 then some values else none
  | none => none

def pageHashes : List (Option TraceSummary) → List Nat → Option (List Nat)
  | [],acc => some acc
  | summary::rest,acc =>
    match summary.bind TraceSummary.lookupHashes with
    | some hashes => pageHashes rest (acc ++ hashes).dedup
    | none => none

def pageBloom (hashes : List Nat) : Bloom :=
  let wanted := (hashes.length * 12 + 7) / 8
  let bytes := ([32,64,128,256,512,1024,2048].find? (wanted ≤ ·)).getD 2048
  ⟨bytes,hashes.foldl (Bloom.addHash (bytes * 8)) 0⟩

def pageCanonical : List (Option TraceSummary) → Nat → Option Bloom
  | [],acc => some ⟨canonicalBytes,acc⟩
  | none::_,_ => none
  | some s::rest,acc =>
    match s.lookupBits,s.lookupHashes with
    | some bits,_ => pageCanonical rest (acc ||| bits.bits)
    | none,some hashes => pageCanonical rest (hashes.foldl (Bloom.addHash (canonicalBytes * 8)) acc)
    | none,none => none

def safe (s : Option TraceSummary) : Bool := (s.map TraceSummary.pruningSafe).getD false
def classed (s : Option TraceSummary) : Bool := safe s && (((s.bind TraceSummary.statuses).getD []) ≠ [])

def putPageClasses (summaries : List (Option TraceSummary)) (page : TracePage) : TracePage :=
  if summaries ≠ [] ∧ summaries.all classed then
    let statuses := sortStatuses (summaries.flatMap (fun s => (s.bind TraceSummary.statuses).getD []))
    let events := summaries.any (fun s => (s.map TraceSummary.events).getD true)
    -- `put_classes/2` writes nothing for an empty list
    if statuses = [] then page else { page with statuses := some statuses, noEvents := !events }
  else page

def putPageAttributes (sizes : SummarySizes) (summaries : List (Option TraceSummary)) (page : TracePage) : TracePage :=
  let attributes := AttributeSummary.merge sizes (summaries.map (fun s => s.bind TraceSummary.attributes))
  let withAttributes := match attributes with
    | some a => { page with attributes := some a }
    | none => page
  if sizes.tracePage withAttributes ≤ pageBytes then withAttributes else page

/- `page_summary/1` over the wire forms of a page's segments. -/
def pageSummary (sizes : SummarySizes) (entries : List (Option TraceSummary)) : TracePage :=
  let summaries := entries.map (fun s => s.map persisted)
  let services := pageServices sizes summaries
  let bits := match pageHashes summaries [] with
    | some hashes => some (pageBloom hashes)
    | none => pageCanonical summaries 0
  let page : TracePage := ⟨services,bits,services.isSome && summaries.all safe,none,false,none⟩
  putPageAttributes sizes summaries (putPageClasses summaries page)

end TraceSummary
end Pulso
