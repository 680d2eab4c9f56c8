import Pulso.LabelSummary
import Pulso.Segment

/-! Log segments and their summaries. Records are stored as rows, summarised by service and
stream label, and skipped by queries on the strength of those summaries alone. -/
namespace Pulso.Logs
open LabelSets (Labels)

-- a term of the ingesting side; `other` numbers the terms that are neither atoms nor binaries
inductive Term where
  | null
  | flag (value : Bool)
  | atom (name : Bytes)
  | binary (text : Bytes)
  | other (id : Nat)
  deriving DecidableEq

structure Record where
  service : Term
  severityText : Term
  resource : Option (Dict Term Term)

-- a top-level value of the stored resource object
inductive Stored where
  | text (bytes : Bytes)
  | other
  deriving DecidableEq

structure Row where
  service : Option Bytes
  severityText : Option Bytes
  resource : Dict Bytes Stored
  deriving DecidableEq

section Encoding
variable (spell : Nat → Bytes)

def stringifyKey : Term → Bytes
  | .null => ascii "nil"
  | .flag true => ascii "true"
  | .flag false => ascii "false"
  | .atom name => name
  | .binary text => text
  | .other id => spell id

-- the encoder rejects a string that is not UTF-8
def storedValue : Term → Option Stored
  | .binary text => if Bytes.validUtf8 text then some (.text text) else none
  | .atom name => some (.text name)
  | _ => some .other

def storedText : Term → Option (Option Bytes)
  | .null => some none
  | .flag false => some none
  | .binary text => if Bytes.validUtf8 text then some (some text) else none
  | _ => none

def sanitizeMap : List (Term × Term) → Dict Bytes Stored → Option (Dict Bytes Stored)
  | [],acc => some acc
  | (key,value)::rest,acc =>
    let name := stringifyKey spell key
    if acc.has name || !Bytes.validUtf8 name then none
    else (storedValue value).bind (fun v => sanitizeMap rest (acc.put name v))

def resourceEntries (r : Record) : List (Term × Term) := (r.resource.map Dict.entries).getD []

def encodeRow (r : Record) : Option Row := do
  let service ← storedText r.service
  let severityText ← storedText r.severityText
  let resource ← sanitizeMap spell (resourceEntries r) Dict.empty
  some ⟨service,severityText,resource⟩

def encodeRows (records : List Record) : Option (List Row) := records.mapM (encodeRow spell)

end Encoding

inductive MatchOp where
  | eq | neq | re | nre
  deriving DecidableEq, Repr

structure Matcher where
  name : Bytes
  op : MatchOp
  value : Bytes
  deriving DecidableEq

structure RegexEngine where
  Regex : Type
  compile : Bytes → Option Regex
  isMatch : Regex → Bytes → Bool

section Engine
variable (engine : RegexEngine)

def serviceLabel : Bytes := ascii "service"
def serviceNameLabel : Bytes := ascii "service_name"
def levelLabel : Bytes := ascii "level"
def detectedLevelLabel : Bytes := ascii "detected_level"

def resourceLookup (row : Row) (name : Bytes) : Option Bytes :=
  match row.resource.get? name with
  | some (.text value) => some value
  | _ => none

-- a pattern that does not compile fails the query before any row is read
def evaluatePresent (m : Matcher) (value : Bytes) : Bool :=
  match m.op with
  | .eq => value = m.value
  | .neq => value ≠ m.value
  | .re => match engine.compile m.value with
    | some regex => engine.isMatch regex value
    | none => false
  | .nre => match engine.compile m.value with
    | some regex => !engine.isMatch regex value
    | none => false

def evaluateAbsent (m : Matcher) : Bool :=
  match m.op with
  | .eq => m.value.isEmpty
  | .neq => !m.value.isEmpty
  | .re => match engine.compile m.value with
    | some regex => engine.isMatch regex []
    | none => false
  | .nre => match engine.compile m.value with
    | some regex => !engine.isMatch regex []
    | none => false

def evaluateLookup (m : Matcher) : Option Bytes → Bool
  | some value => evaluatePresent engine m value
  | none => evaluateAbsent engine m

def promotedOrResource (promoted : Option Bytes) (row : Row) (m : Matcher) : Bool :=
  match promoted with
  | some (b::rest) => evaluatePresent engine m (b::rest)
  | _ => evaluateLookup engine m (resourceLookup row m.name)

def matcherPasses (row : Row) (m : Matcher) : Bool :=
  if m.name = serviceLabel ∨ m.name = serviceNameLabel then promotedOrResource engine row.service row m
  else if m.name = levelLabel ∨ m.name = detectedLevelLabel then promotedOrResource engine row.severityText row m
  else evaluateLookup engine m (resourceLookup row m.name)

def matchersPass (matchers : List Matcher) (row : Row) : Bool := matchers.all (matcherPasses engine row)

end Engine

/-! The summaries, as the writers compute them. -/

def labelNames : List Bytes := Segment.logLabelNames

def labelText : Term → Option Bytes
  | .binary text => some text
  | _ => none

-- `service_name` prefers a promoted service; every other name reads the resource
def logLabelValue (r : Record) (name : Bytes) : Term :=
  if name = serviceNameLabel ∧ r.service ≠ .null ∧ r.service ≠ .binary [] then r.service
  else ((r.resource.bind (fun map => map.get? (.binary name))).getD (.binary []))

def summarizedLabels (r : Record) : Labels :=
  Dict.ofList (labelNames.map (fun name => (name,labelText (logLabelValue r name))))

def validKey : Term → Bool
  | .binary text => Bytes.validUtf8 text
  | _ => false

section Summaries
variable (budget : Nat) (sizes : SummarySizes)

def summarizeLogs (s : Segment) (records : List Record) : Segment :=
  let valid := records.all (fun r => (resourceEntries r).all (fun e => validKey e.1))
  { s with
    logServices := Services.complete (records.map (fun r => labelText r.service))
    logLabels := if valid then LabelSets.build budget sizes (records.map summarizedLabels) labelNames else none }

-- the native grouper reports the services and the distinct streams of each of its outputs
structure Stream where
  service : Option Bytes
  resource : Dict Bytes Stored
  deriving DecidableEq

def maxStreams : Nat := 4096

def Row.stream (row : Row) : Stream := ⟨row.service,row.resource⟩

def groupStreams (rows : List Row) : Option (List Stream) :=
  let streams := (rows.map Row.stream).dedup
  if streams.length ≤ maxStreams then some streams else none

def decodedText : Option Bytes → Term
  | some text => .binary text
  | none => .null

def decodedValue : Stored → Term
  | .text bytes => .binary bytes
  | .other => .other 0

def decodedRecord (s : Stream) : Record :=
  ⟨decodedText s.service,.null,
    some (Dict.ofList (s.resource.entries.map (fun e => (Term.binary e.1,decodedValue e.2))))⟩

def summarizeLogStreams (s : Segment) (services : Option (List Bytes)) (streams : Option (List Stream)) : Segment :=
  { s with
    logServices := services.bind Segment.validServices
    logLabels := streams.bind (fun streams =>
      LabelSets.build budget sizes (streams.map (fun stream => summarizedLabels (decodedRecord stream))) labelNames) }

def groupedSegment (s : Segment) (rows : List Row) : Segment :=
  summarizeLogStreams budget sizes s (Services.complete (rows.map Row.service)) (groupStreams rows)

-- a compacted segment holds exactly the rows of its sources
def compactedSegment (s : Segment) (sources : List Segment) (rows : List Row) : Segment :=
  { s with
    logServices := Services.complete (rows.map Row.service)
    logLabels := LabelSets.unionWithin budget sizes (sources.map Segment.logLabels) labelNames }

end Summaries

/-! The per-segment and the per-page test. -/

structure Query (engine : RegexEngine) where
  rollups : Bool
  service : Option Bytes
  matchers : List Matcher
  regexes : Dict Bytes (Option engine.Regex)

section Tests
variable {engine : RegexEngine}

def compileLogMatchers (engine : RegexEngine) (rollups : Bool) (service : Option Bytes) (matchers : List Matcher) :
    Query engine :=
  let patterns := matchers.filter (fun m => (m.op = .re || m.op = .nre) && m.name ∈ labelNames)
  ⟨rollups,service,matchers,Dict.ofList (patterns.map (fun m => (m.value,engine.compile m.value)))⟩

def serviceMatches (services : Option (List Bytes)) (q : Query engine) : Bool :=
  match services with
  | none => true
  | some services => services.any (fun service =>
      (q.service = none || q.service = some service) &&
        q.matchers.all (fun m =>
          if m.op = .eq ∧ (m.name = serviceLabel ∨ m.name = serviceNameLabel) then service = m.value else true))

def regexMatches (q : Query engine) (pattern value : Bytes) (positive : Bool) : Bool :=
  match q.regexes.get? pattern with
  | some (some regex) => engine.isMatch regex value = positive
  | _ => true

def labelValueMatches (q : Query engine) (m : Matcher) (value : Bytes) : Bool :=
  match m.op with
  | .eq => value = m.value
  | .neq => value ≠ m.value
  | .re => regexMatches q m.value value true
  | .nre => regexMatches q m.value value false

def logLabelsMatch (q : Query engine) (matchers : List Matcher) : Option LabelSets → Bool
  | none => true
  | some sets => matchers.all (fun m => match sets.get? m.name with
    | some values => values.any (labelValueMatches q m)
    | none => true)

-- a pushed-down service is also an equality on `service_name`
def effectiveMatchers (q : Query engine) : List Matcher :=
  match q.service with
  | some service => ⟨serviceNameLabel,.eq,service⟩::q.matchers
  | none => q.matchers

def summaryMatches (q : Query engine) (services : Option (List Bytes)) (labels : Option LabelSets) : Bool :=
  serviceMatches services q && logLabelsMatch q (effectiveMatchers q) labels

def matchesLogService (s : Segment) (q : Query engine) : Bool :=
  if q.rollups then s.key.tier = .rollup
  else s.key.tier ≠ .rollup && summaryMatches q s.logServices s.logLabels

def logPageMatches (sizes : SummarySizes) (page : Option LogPage) (q : Query engine) : Bool :=
  match page with
  | none => true
  | some page => q.rollups ||
      summaryMatches q (page.services.bind Segment.validServices) (page.labels.bind (LabelSets.parse sizes))

end Tests

/- `log_page_summary/1` with its two byte budgets as parameters. -/
def logPageSummaryWithin (labelBytes pageBytes : Nat) (sizes : SummarySizes) (segments : List Segment) : Option LogPage :=
  let described := segments.filter (fun s => s.key.tier ≠ .rollup)
  let services := Segment.logServiceUnion described
  let labels := LabelSets.unionWithin labelBytes sizes (described.map Segment.logLabels) labelNames
  [⟨services,labels⟩,⟨services,none⟩].find? (fun p => Segment.knownPage p && sizes.logPage p ≤ pageBytes)

end Pulso.Logs
