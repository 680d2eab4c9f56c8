import Pulso.LabelSummary
import Pulso.TraceSearch
import Pulso.TraceSummary

/-! How a trace segment gets its summary, and the tests a query runs on the summaries of
segments and pages. The digest of trace ids is a parameter. -/
namespace Pulso.Traces

-- the four words of a SHA-256 digest
structure Digest where
  a : Nat
  b : Nat
  c : Nat
  d : Nat

abbrev Hash := Bytes → Digest

def lookupHash (hash : Hash) (id : Bytes) : Nat := (hash id).a

def positions (hash : Hash) (id : Bytes) (size : Nat) : List Nat :=
  let digest := hash id
  [digest.a,digest.b,digest.c,digest.d].map (· % size)

def maxLookupIds : Nat := 256

def bloomBytes (wanted : Nat) : Nat := ([16,32,64,128,256,512,1024].find? (wanted ≤ ·)).getD 1024

def bloom (hash : Hash) (ids : List Bytes) : Bloom :=
  let bytes := bloomBytes ids.length
  ⟨bytes,ids.foldl (fun bits id => Bloom.setAll bits (positions hash id (bytes * 8))) 0⟩

def canonicalBloom (hash : Hash) (ids : List Bytes) : Bloom :=
  ⟨TraceSummary.canonicalBytes,
    ids.foldl (fun bits id => Bloom.addHash (TraceSummary.canonicalBytes * 8) bits (lookupHash hash id)) 0⟩

def hexDigit (b : UInt8) : Bool := (48 ≤ b && b ≤ 57) || (97 ≤ b && b ≤ 102)
def validId (id : Bytes) : Bool := id.length = 32 && id.all hexDigit && !id.all (· = 48)

def collectIds : List Bytes → List Bytes → Option (List Bytes)
  | [],ids => some ids
  | id::rest,ids => if validId id then collectIds rest (ids.insert id) else none

def lookupHashes (hash : Hash) (exact : Nat) (ids : List Bytes) : Option (List Nat) :=
  if 1 ≤ ids.length ∧ ids.length ≤ exact then
    some ((ids.map (lookupHash hash)).dedup.insertionSort (· ≤ ·))
  else none

def unknownSummary : TraceSummary := ⟨none,none,none,none,none,none,true,false⟩

def idSummary (hash : Hash) (exact : Nat) : Option (List Bytes) → TraceSummary
  | none => unknownSummary
  | some ids =>
    { unknownSummary with
      bits := if ids.length ≤ maxLookupIds then some (bloom hash ids) else none
      lookupHashes := lookupHashes hash exact ids
      lookupBits := if ids.length > exact then some (canonicalBloom hash ids) else none }

-- status codes and event presence; `none` for a code outside the range
structure Classes where
  statuses : Option (List (Option Nat))
  events : Bool

def statusClass (code : Int) : Option Nat := if 0 ≤ code ∧ code ≤ 2 then some code.toNat else none

def summaryOf (hash : Hash) (services : Option (List Bytes)) (ids : Option (List Bytes)) (safe : Bool) (classes : Classes)
    (exact : Nat) : TraceSummary :=
  let statuses := if safe then (classes.statuses.bind (List.mapM id)).map TraceSummary.sortStatuses else none
  { idSummary hash exact ids with
    statuses := statuses
    events := statuses = none || classes.events
    services := services
    pruningSafe := safe }

def Span.hasEvents (span : Span) : Bool :=
  match span.otlp with
  | some typed => !(span.events = 0 && typed.events.isEmpty)
  | none => true

def rowClasses (rows : List Span) : Classes :=
  ⟨some (rows.map (fun r => statusClass r.statusCode)).dedup,rows.any Span.hasEvents⟩

/- The encoder's proof for one row: typed metadata whose original service name, if it is
a string, is the promoted service. -/
def Span.metadataSafe (span : Span) : Bool :=
  match span.otlp with
  | none => false
  | some typed => match stringService typed.resource with
    | some original => span.service = some original
    | none => true

/-! Attribute value sets. -/

def putValue (set : List Bytes) (value : Bytes) : Option (List Bytes) :=
  if AttributeSummary.validValue value then
    let set := set.insert value
    if set.length > AttributeSummary.maxValues then none else some set
  else none

def addValue (owner : AttributeOwner) : Bytes × Value → AttributeOwner
  | (key,.text value) => match owner.keys.get? key with
    | some none => owner
    | some (some set) => ⟨owner.keys.put key (putValue set value),owner.complete⟩
    | none =>
      if AttributeSummary.validKey key ∧ owner.keys.size < AttributeSummary.maxKeys then
        ⟨owner.keys.put key (putValue [] value),owner.complete⟩
      else ⟨owner.keys,false⟩
  | _ => owner

def sortValues (owner : AttributeOwner) : AttributeOwner :=
  ⟨owner.keys.mapValues (fun _ set => set.map Bytes.sort),owner.complete⟩

-- a row without an attribute map leaves every key unknown
def collectOwner (maps : List (Option Projection)) : AttributeOwner :=
  if maps.all Option.isSome then
    sortValues ((maps.reduceOption.flatMap Dict.entries).foldl addValue ⟨Dict.empty,true⟩)
  else AttributeSummary.unknownOwner

def segmentBytes : Nat := 384

/- Ingestion and native compaction collect by the same rules. -/
def buildAttributes (budget : Nat) (sizes : SummarySizes) (rows : List Span) : Option AttributeSummary :=
  AttributeSummary.fit sizes budget ⟨collectOwner (rows.map Span.resource),collectOwner (rows.map Span.attributes)⟩

def mergeAttributes (budget : Nat) (sizes : SummarySizes) (summaries : List (Option AttributeSummary)) :
    Option AttributeSummary :=
  let resource := AttributeSummary.mergeOwner
    (summaries.map (fun s => (s.map AttributeSummary.resource).getD AttributeSummary.unknownOwner))
  let span := AttributeSummary.mergeOwner
    (summaries.map (fun s => (s.map AttributeSummary.span).getD AttributeSummary.unknownOwner))
  AttributeSummary.fit sizes budget ⟨resource,span⟩

/-! Segment summaries. -/

def rowServices (rows : List Span) : Option (List Bytes) := Services.complete (rows.map Span.service)
def rowIds (rows : List Span) : Option (List Bytes) := collectIds (rows.map Span.traceId) []

def build (budget : Nat) (sizes : SummarySizes) (hash : Hash) (rows : List Span) (safe : Bool) : TraceSummary :=
  { summaryOf hash (rowServices rows) (rowIds rows) safe (rowClasses rows) maxLookupIds with
    attributes := buildAttributes budget sizes rows }

-- a plain compaction keeps no classes and unites its sources' attributes
def compacted (budget : Nat) (sizes : SummarySizes) (hash : Hash) (sources : List (Option TraceSummary)) (rows : List Span) :
    TraceSummary :=
  { summaryOf hash (rowServices rows) (rowIds rows) (rows.all Span.metadataSafe) ⟨none,true⟩ maxLookupIds with
    attributes := mergeAttributes budget sizes (sources.map (fun s => s.bind TraceSummary.attributes)) }

def splitOutput (budget : Nat) (sizes : SummarySizes) (hash : Hash) (rows : List Span) : TraceSummary :=
  { summaryOf hash (rowServices rows) (rowIds rows) (rows.all Span.metadataSafe) (rowClasses rows)
      TraceSummary.maxExactIds with
    attributes := buildAttributes budget sizes rows }

/-! Tests. -/

structure Options where
  traceId : Option Bytes
  service : Option Bytes
  resource : Option Projection
  attributes : Option Projection
  resourceRegex : Option (Dict Bytes Bytes)
  attributesRegex : Option (Dict Bytes Bytes)
  provenOnly : Bool
  requires : List Need

def Filters.options (q : Filters) : Options :=
  ⟨q.traceId,q.service,q.resource,q.attributes,q.resourceRegex,q.attributesRegex,false,[]⟩

-- repeated keys keep their first value
def putNew {α : Type} (filters : Option (Dict Bytes α)) (key : Bytes) (value : α) : Option (Dict Bytes α) :=
  match filters with
  | none => some (Dict.empty.put key value)
  | some map => if map.has key then some map else some (map.put key value)

def addPredicate (o : Options) (p : Predicate) : Options :=
  match p.owner,p.op with
  | .resource,.equal => { o with resource := putNew o.resource p.key (.text p.value) }
  | .resource,.regex => { o with resourceRegex := putNew o.resourceRegex p.key p.value }
  | .span,.equal => { o with attributes := putNew o.attributes p.key (.text p.value) }
  | .span,.regex => { o with attributesRegex := putNew o.attributesRegex p.key p.value }

def noOptions : Options := ⟨none,none,none,none,none,none,false,[]⟩

-- `none` where a search adds no options
def tempoFilters : Search → Option Options
  | .predicates all => some (all.foldl addPredicate { noOptions with provenOnly := true })
  | .expression program => match requirements program with
    | [] => none
    | requires => some { noOptions with provenOnly := true, requires := requires }

/- `Keyword.merge/2`: an option of the search replaces the query's. -/
def merged (q found : Options) : Options where
  traceId := q.traceId
  service := q.service
  resource := found.resource.or q.resource
  attributes := found.attributes.or q.attributes
  resourceRegex := found.resourceRegex.or q.resourceRegex
  attributesRegex := found.attributesRegex.or q.attributesRegex
  provenOnly := found.provenOnly
  requires := found.requires

def Query.options (q : Query) : Options :=
  match q.search.bind tempoFilters with
  | some found => merged q.filters.options found
  | none => q.filters.options

section Tests
variable (regex : Regex)

-- a pattern the engine rejects never prunes
def regexMayMatch (pattern value : Bytes) : Bool := regex pattern value ≠ some false

def exactMayMatch (owner : AttributeOwner) : Bytes × Value → Bool
  | (key,.text value) => match owner.keys.get? key with
    | some none => true
    | some (some values) => value ∈ values
    | none => !owner.complete
  | _ => true

def patternMayMatch (owner : AttributeOwner) (filter : Bytes × Bytes) : Bool :=
  match owner.keys.get? filter.1 with
  | some none => true
  | some (some values) => values.any (regexMayMatch regex filter.2)
  | none => !owner.complete

def ownerMatches (owner : AttributeOwner) (exact : Option Projection) (patterns : Option (Dict Bytes Bytes)) : Bool :=
  (entriesOf exact).all (exactMayMatch owner) && (entriesOf patterns).all (patternMayMatch regex owner)

def attributeSummaryMatches (o : Options) : Option AttributeSummary → Bool
  | none => true
  | some s => ownerMatches regex s.resource o.resource o.resourceRegex &&
      ownerMatches regex s.span o.attributes o.attributesRegex

def attributesMatch (proven : Bool) (attributes : Option AttributeSummary) (o : Options) : Bool :=
  (o.provenOnly && !proven) || attributeSummaryMatches regex o attributes

def exactService (o : Options) : Option Bytes :=
  match o.resource.bind (fun map => map.get? serviceName) with
  | some (.text value) => some value
  | _ => none

def servicePattern (o : Options) : Option Bytes := o.resourceRegex.bind (fun map => map.get? serviceName)

def resourceServicesMatch (proven : Bool) (services : Option (List Bytes)) (o : Options) : Bool :=
  match proven,services with
  | true,some (s::rest) =>
    (exactService o = none && servicePattern o = none) || (s::rest).any (fun service =>
      (exactService o).all (service = ·) && (servicePattern o).all (fun pattern => regexMayMatch regex pattern service))
  | _,_ => true

def classesMatch (proven : Bool) (statuses : Option (List Nat)) (events : Bool) (requires : List Need) : Bool :=
  match proven,statuses with
  | true,some statuses => requires.all (fun need => match need with
    | .error => 2 ∈ statuses
    | .event => events)
  | _,_ => true

def serviceMatches (services : Option (List Bytes)) (service : Option Bytes) : Bool :=
  match services,service with
  | some all,some wanted => wanted ∈ all
  | _,_ => true

variable (hash : Hash)

def bloomMatches (bits : Option Bloom) (id : Option Bytes) : Bool :=
  match bits,id with
  | some bits,some id => bits.hasHash (lookupHash hash id)
  | _,_ => true

def idMatches (s : TraceSummary) : Option Bytes → Bool
  | none => true
  | some id => match s.lookupBits,s.bits,s.lookupHashes with
    | some canonical,_,_ => canonical.hasHash (lookupHash hash id)
    | none,some bits,_ => Bloom.hasAll bits.bits (positions hash id bits.size)
    | none,none,some hashes => lookupHash hash id ∈ hashes
    | none,none,none => true

/- `matches?/2` -/
def summaryMatches (summary : Option TraceSummary) (o : Options) : Bool :=
  match summary with
  | none => true
  | some s => serviceMatches s.services o.service && resourceServicesMatch regex s.pruningSafe s.services o &&
      attributesMatch regex s.pruningSafe s.attributes o && classesMatch s.pruningSafe s.statuses s.events o.requires &&
      idMatches hash s o.traceId

/- `page_matches?/2`, without the hashes of a context plan. -/
def pageMatches (page : Option TracePage) (o : Options) : Bool :=
  match page with
  | none => true
  | some p =>
    let services := TraceSummary.parseServices p.services
    serviceMatches services o.service && bloomMatches hash (TraceSummary.parseBits p.bits) o.traceId &&
      resourceServicesMatch regex p.pruningSafe services o &&
      attributesMatch regex p.pruningSafe (p.attributes.bind AttributeSummary.parse) o &&
      classesMatch p.pruningSafe (TraceSummary.parseStatuses p.statuses) (!p.noEvents) o.requires

end Tests

/- The ways a trace segment gets its summary, with any budgets: on append, by the two
compactions, and by being read back from a manifest. -/
inductive Summarized (sizes : SummarySizes) (hash : Hash) : List Span → Option TraceSummary → Prop where
  | unknown {rows} : Summarized sizes hash rows none
  | appended {budget rows} : Summarized sizes hash rows (some (build budget sizes hash rows (rows.all Span.metadataSafe)))
  | unproven {budget rows} : Summarized sizes hash rows (some (build budget sizes hash rows false))
  | compacted {budget} {parts : List (List Span × Option TraceSummary)} {rows} :
      (∀ p ∈ parts, Summarized sizes hash p.1 p.2) → rows.Perm (parts.flatMap Prod.fst) →
      Summarized sizes hash rows (some (compacted budget sizes hash (parts.map Prod.snd) rows))
  | split {budget rows} : Summarized sizes hash rows (some (splitOutput budget sizes hash rows))
  | received {rows s} : Summarized sizes hash rows (some s) → Summarized sizes hash rows (some (TraceSummary.persisted s))

end Pulso.Traces
