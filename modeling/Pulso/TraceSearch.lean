import Pulso.Dict
import Pulso.Key
import Pulso.Lists

/-! Spans and the searches over them: the filters of a span query, the selectors and the
structural expressions of a Tempo search. A regex that the engine rejects has no answer. -/
namespace Pulso.Traces
open List

-- typed attribute values; nested values are opaque
inductive AnyValue where
  | empty
  | text (bytes : Bytes)
  | flag (value : Bool)
  | int (value : Int)
  | double (bits : Nat)
  | nonfinite (spelling : Bytes)
  | bytes (base64 : Bytes)
  | array (id : Nat)
  | kvlist (id : Nat)
  deriving DecidableEq

-- the query-friendly projection of a typed value
inductive Value where
  | null
  | text (bytes : Bytes)
  | flag (value : Bool)
  | int (value : Int)
  | double (bits : Nat)
  | array (id : Nat)
  | map (id : Nat)
  deriving DecidableEq

def project : AnyValue → Value
  | .empty => .null
  | .text bytes => .text bytes
  | .flag value => .flag value
  | .int value => .int value
  | .double bits => .double bits
  | .nonfinite spelling => .text spelling
  | .bytes base64 => .text base64
  | .array id => .array id
  | .kvlist id => .map id

abbrev Attributes := Dict Bytes AnyValue
abbrev Projection := Dict Bytes Value

def projection (typed : Attributes) : Projection :=
  Dict.ofList (typed.entries.map (fun e => (e.1,project e.2)))

structure Typed where
  resource : Attributes
  attributes : Attributes
  events : List Attributes
  deriving DecidableEq

def serviceName : Bytes := ascii "service.name"

def stringService (resource : Attributes) : Option Bytes :=
  match resource.get? serviceName with
  | some (.text value) => some value
  | _ => none

/- A span as the decoder makes it. One without typed metadata is a legacy row. -/
structure Span where
  traceId : Bytes
  spanId : Bytes
  parentSpanId : Option Bytes
  service : Option Bytes
  name : Bytes
  kind : Nat
  statusCode : Int
  start : Int
  finish : Int
  resource : Option Projection
  attributes : Option Projection
  events : Nat
  otlp : Option Typed
  resourceProjected : ∀ t, otlp = some t → resource = some (projection t.resource)
  attributesProjected : ∀ t, otlp = some t → attributes = some (projection t.attributes)
  promoted : ∀ t, otlp = some t → service = stringService t.resource
  eventsAgree : ∀ t, otlp = some t → events = t.events.length

abbrev Regex := Bytes → Bytes → Option Bool

/-! Span queries. -/

structure Filters where
  traceId : Option Bytes
  spanId : Option Bytes
  parentSpanId : Option Bytes
  service : Option Bytes
  name : Option Bytes
  kind : Option Nat
  statusCode : Option Int
  rootOnly : Bool
  minDuration : Option Int
  maxDuration : Option Int
  attributes : Option Projection
  resource : Option Projection
  attributesRegex : Option (Dict Bytes Bytes)
  resourceRegex : Option (Dict Bytes Bytes)

def wantedOr {α : Type} [DecidableEq α] (wanted : Option α) (actual : Option α) : Bool :=
  wanted = none || wanted = actual

def entriesOf {α : Type} (filters : Option (Dict Bytes α)) : List (Bytes × α) := (filters.map Dict.entries).getD []

def exactFilters (filters : Option Projection) (values : Option Projection) : Bool :=
  (entriesOf filters).all (fun e => values.bind (fun v => v.get? e.1) = some e.2)

def regexFilters (regex : Regex) (filters : Option (Dict Bytes Bytes)) (values : Option Projection) : Bool :=
  (entriesOf filters).all (fun e => match values.bind (fun v => v.get? e.1) with
    | some (.text value) => regex e.2 value = some true
    | _ => false)

def durationMatches (span : Span) (q : Filters) : Bool :=
  let duration := span.finish - span.start
  q.minDuration.all (· ≤ duration) && q.maxDuration.all (duration ≤ ·)

def Span.matches (regex : Regex) (span : Span) (q : Filters) : Bool :=
  wantedOr q.traceId (some span.traceId) && wantedOr q.spanId (some span.spanId) &&
    wantedOr q.parentSpanId span.parentSpanId && wantedOr q.service span.service &&
    wantedOr q.name (some span.name) && wantedOr q.kind (some span.kind) &&
    wantedOr q.statusCode (some span.statusCode) && (!q.rootOnly || span.parentSpanId = none) &&
    durationMatches span q &&
    regexFilters regex q.attributesRegex span.attributes && regexFilters regex q.resourceRegex span.resource &&
    exactFilters q.attributes span.attributes && exactFilters q.resource span.resource

/-! Search programs: postfix instructions of each spanset, joined by relations. -/

inductive Owner where
  | resource | span | none | event
  deriving DecidableEq, Repr

inductive Kind where
  | string | int
  deriving DecidableEq, Repr

inductive Scope where
  | field (owner : Owner) (kind : Kind)
  | intrinsic
  deriving DecidableEq, Repr

inductive Op where
  | eq | neq | re | nre | lt | le | gt | ge
  deriving DecidableEq, Repr

inductive BoolOp where
  | and | or
  deriving DecidableEq, Repr

inductive Relation where
  | descendant | ancestor | child | parent | sibling
  deriving DecidableEq, Repr

inductive Instruction where
  | leaf (scope : Scope) (key : Bytes) (op : Op) (value : Bytes)
  | boolean (op : BoolOp)
  | spanset (relation : Relation)
  | select (scope key : Bytes)
  deriving DecidableEq

structure Split where
  spansets : List (List Instruction)
  relations : List Relation
  select : List Instruction

def Instruction.isSelect : Instruction → Bool
  | .select _ _ => true
  | _ => false

def chunks : List Instruction → List Instruction → List (List Instruction) → List Relation →
    Option (List (List Instruction) × List Relation)
  | [],current,spansets,relations => some ((current.reverse::spansets).reverse,relations.reverse)
  | .spanset relation::rest,current,spansets,relations =>
    if current = [] then none else chunks rest [] (current.reverse::spansets) (relation::relations)
  | leaf::rest,current,spansets,relations => chunks rest (leaf::current) spansets relations

def split (program : List Instruction) : Option Split :=
  let body := program.takeWhile (fun i => !i.isSelect)
  let select := program.dropWhile (fun i => !i.isSelect)
  if select.all Instruction.isSelect then
    (chunks body [] [] []).map (fun c => ⟨c.1,c.2,select⟩)
  else none

inductive Actual where
  | string (value : Bytes)
  | int (value : Int)

def typedValue : Kind → Option AnyValue → Option Actual
  | .string,some (.text text) => some (.string text)
  | .int,some (.int number) => some (.int number)
  | _,_ => none

def matchInt (op : Op) (actual wanted : Int) : Bool :=
  match op with
  | .eq => actual = wanted
  | .neq => actual ≠ wanted
  | .lt => actual < wanted
  | .le => actual ≤ wanted
  | .gt => actual > wanted
  | .ge => actual ≥ wanted
  | _ => false

def matchValue (regex : Regex) : Option Actual → Op → Bytes → Bool
  | some (.string value),.re,pattern => regex pattern value = some true
  | some (.string value),.nre,pattern => regex pattern value = some false
  | some (.string value),.eq,wanted => value = wanted
  | some (.string value),.neq,wanted => value ≠ wanted
  | some (.int actual),op,wanted => match Bytes.integer wanted with
    | some number => matchInt op actual number
    | none => false
  | _,_,_ => false

def durationKey : Bytes := ascii "duration"
def statusKey : Bytes := ascii "status"

def ownerValue (typed : Typed) (owner : Owner) (key : Bytes) : Option AnyValue :=
  match owner with
  | .resource => typed.resource.get? key
  | .span => typed.attributes.get? key
  -- presence, not a successful comparison, selects the owner
  | .none => if typed.attributes.has key then typed.attributes.get? key else typed.resource.get? key
  | .event => none

def intrinsic (span : Span) (key : Bytes) : Option Actual :=
  if key = durationKey then some (.int (span.finish - span.start))
  else if key = statusKey then some (.int span.statusCode)
  else none

def evaluateLeaf (regex : Regex) (span : Span) (typed : Typed) : Scope → Bytes → Op → Bytes → Bool
  | .field .event kind,key,op,wanted =>
    typed.events.any (fun event => matchValue regex (typedValue kind (event.get? key)) op wanted)
  | .field owner kind,key,op,wanted => matchValue regex (typedValue kind (ownerValue typed owner key)) op wanted
  | .intrinsic,key,op,wanted => matchValue regex (intrinsic span key) op wanted

def execute (regex : Regex) (span : Span) (typed : Typed) : List Instruction → List Bool → Option (List Bool)
  | [],stack => some stack
  | .leaf scope key op value::rest,stack =>
    execute regex span typed rest (evaluateLeaf regex span typed scope key op value::stack)
  | .boolean op::rest,rhs::lhs::stack =>
    execute regex span typed rest ((if op = .and then lhs && rhs else lhs || rhs)::stack)
  | _,_ => none

-- a program that does not leave exactly one result fails the query
def spansetMatches (regex : Regex) (span : Span) (typed : Typed) (program : List Instruction) : Bool :=
  execute regex span typed program [] = some [true]

/-! Structural relations over the spans of one trace. -/

structure Link where
  id : Bytes
  parent : Option Bytes
  mask : List Bool

def edges (links : List Link) (f : Link → Bytes × Bytes) (id : Bytes) : List Bytes :=
  (links.filter (fun l => l.parent.isSome && (f l).1 = id)).map (fun l => (f l).2)

def childrenOf (links : List Link) : Bytes → List Bytes := edges links (fun l => (l.parent.getD [],l.id))
def parentsOf (links : List Link) : Bytes → List Bytes := edges links (fun l => (l.id,l.parent.getD []))

-- every link is an edge once, so the fuel the callers give suffices
def closure (next : Bytes → List Bytes) : Nat → List Bytes → List Bytes → List Bytes
  | 0,_,seen => seen
  | _+1,[],seen => seen
  | fuel+1,id::rest,seen =>
    let fresh := (next id).filter (fun n => n ∉ seen)
    closure next fuel (fresh ++ rest) (seen ++ fresh)

def related (links : List Link) (chosen : List Link) (relation : Relation) (l : Link) : Bool :=
  let ids := chosen.map Link.id
  let fuel := links.length + chosen.length + 1
  match relation with
  | .child => l.parent.any (· ∈ ids)
  | .parent => (chosen.map Link.parent).contains (some l.id)
  | .descendant => l.parent.any (· ∈ closure (childrenOf links) fuel ids ids)
  | .ancestor =>
    let up := (chosen.map Link.parent).reduceOption
    l.id ∈ closure (parentsOf links) fuel up up
  | .sibling => l.parent.isSome && chosen.any (fun c => c.parent = l.parent && c.id ≠ l.id)

def structuralFrom (links : List Link) : List Relation → Nat → List Bool → List Bool
  | [],_,current => current
  | relation::rest,i,current =>
    let chosen := ((links.zip current).filter Prod.snd).map Prod.fst
    structuralFrom links rest (i + 1) (links.map (fun l => (l.mask[i]?).getD false && related links chosen relation l))

def structural (relations : List Relation) (links : List Link) : List Bool :=
  structuralFrom links relations 1 (links.map (fun l => (l.mask[0]?).getD false))

/-! Searches, and which spans of a trace they return. -/

inductive PredicateOwner where
  | resource | span
  deriving DecidableEq, Repr

inductive PredicateOp where
  | equal | regex
  deriving DecidableEq, Repr

structure Predicate where
  owner : PredicateOwner
  key : Bytes
  op : PredicateOp
  value : Bytes
  deriving DecidableEq

inductive Search where
  | predicates (all : List Predicate)
  | expression (program : List Instruction)

def originalString (typed : Attributes) (key : Bytes) : Option Bytes :=
  match typed.get? key with
  | some (.text text) => some text
  | _ => none

def predicateHolds (regex : Regex) (typed : Typed) (p : Predicate) : Bool :=
  let owner := match p.owner with
    | .resource => typed.resource
    | .span => typed.attributes
  match originalString owner p.key with
  | none => false
  | some actual => match p.op with
    | .equal => actual = p.value
    | .regex => regex p.value actual = some true

def spansetMask (regex : Regex) (spansets : List (List Instruction)) (span : Span) : List Bool :=
  match span.otlp with
  | some typed => spansets.map (spansetMatches regex span typed)
  | none => []

def link (regex : Regex) (spansets : List (List Instruction)) (span : Span) : Link :=
  ⟨span.spanId,span.parentSpanId,spansetMask regex spansets span⟩

-- the spans with typed metadata that the last spanset returns
def expressionSpans (regex : Regex) (program : List Instruction) (trace : List Span) : List Span :=
  match split program with
  | none => []
  | some parts =>
    let rich := trace.filter (fun span => span.otlp.isSome)
    let links := rich.map (link regex parts.spansets)
    ((rich.zip (structural parts.relations links)).filter Prod.snd).map Prod.fst

-- legacy rows always potentially match
def returned (regex : Regex) (trace : List Span) (span : Span) : Option Search → Prop
  | none => True
  | some (.predicates all) => ∀ t, span.otlp = some t → all.all (predicateHolds regex t) = true
  | some (.expression program) => span.otlp = none ∨ span ∈ expressionSpans regex program trace

structure Query where
  filters : Filters
  search : Option Search

def Satisfies (regex : Regex) (trace : List Span) (q : Query) : Prop :=
  ∃ span ∈ trace, span.matches regex q.filters = true ∧ returned regex trace span q.search

/-! What every span of the last spanset has. -/

inductive Need where
  | error | event
  deriving DecidableEq, Repr

def leafNeeds (scope : Scope) (key : Bytes) (op : Op) (value : Bytes) : List Need :=
  match scope with
  | .field .event _ => [.event]
  | .intrinsic => if key = statusKey ∧ op = .eq ∧ value = ascii "2" then [.error] else []
  | _ => []

def needs : List Instruction → List (List Need) → List Need
  | [],[needs] => needs
  | [],_ => []
  | .boolean op::rest,rhs::lhs::stack =>
    needs rest ((if op = .and then lhs.union rhs else lhs.inter rhs)::stack)
  | .leaf scope key op value::rest,stack => needs rest (leafNeeds scope key op value::stack)
  | .boolean _::_,_ => []
  -- any other instruction counts as a leaf without needs
  | _::rest,stack => needs rest ([]::stack)

def requirements (program : List Instruction) : List Need :=
  match split program with
  | some parts => match parts.spansets.getLast? with
    | some last => needs last []
    | none => []
  | none => []

def Has (span : Span) (typed : Typed) : Need → Prop
  | .error => span.statusCode = 2
  | .event => typed.events ≠ []

theorem leafHas {regex span typed scope key op value}
    (h : evaluateLeaf regex span typed scope key op value = true) : ∀ n ∈ leafNeeds scope key op value, Has span typed n := by
  intro n mem
  cases scope with
  | intrinsic =>
    unfold leafNeeds at mem
    simp only at mem
    split at mem
    case isFalse => cases mem
    rename_i status
    obtain ⟨isStatus,isEq,isTwo⟩ := status
    cases mem_singleton.mp mem
    have different : statusKey ≠ durationKey := by decide
    have two : Bytes.integer (ascii "2") = some 2 := by decide
    subst isStatus isEq isTwo
    simpa [evaluateLeaf,intrinsic,different,matchValue,two,matchInt,Has] using h
  | field owner kind =>
    cases owner with
    | event =>
      cases mem_singleton.mp mem
      obtain ⟨event,inside,_⟩ := any_eq_true.mp h
      exact ne_nil_of_mem inside
    | resource => cases mem
    | span => cases mem
    | none => cases mem

theorem executeNeeds {regex span typed program stack final wanted}
    (run : execute regex span typed program stack = some final) (single : final = [true])
    (each : List.Forall₂ (fun b ns => b = true → ∀ n ∈ ns, Has span typed n) stack wanted) :
    ∀ n ∈ needs program wanted, Has span typed n := by
  induction program generalizing stack wanted with
  | nil =>
    cases run
    subst single
    cases each with
    | cons head tail =>
      cases tail
      exact head rfl
  | cons instruction rest ih =>
    cases instruction with
    | leaf scope key op value =>
      exact ih run (.cons leafHas each)
    | spanset => simp [execute] at run
    | select => simp [execute] at run
    | boolean op =>
      cases each with
      | nil => simp [execute] at run
      | cons first tail =>
        cases tail with
        | nil => simp [execute] at run
        | cons second others =>
          apply ih run
          apply List.Forall₂.cons _ others
          intro holds n mem
          cases op with
          | and =>
            simp only [if_true,Bool.and_eq_true] at holds
            cases mem_union_iff.mp mem with
            | inl left => exact second holds.1 n left
            | inr right => exact first holds.2 n right
          | or =>
            simp only [reduceCtorEq,if_false,Bool.or_eq_true] at holds
            obtain ⟨left,right⟩ := mem_inter_iff.mp mem
            cases holds with
            | inl isLeft => exact second isLeft n left
            | inr isRight => exact first isRight n right

theorem spansetNeeds {regex span typed program} (h : spansetMatches regex span typed program = true) :
    ∀ n ∈ needs program [], Has span typed n :=
  executeNeeds (of_decide_eq_true h) rfl .nil

theorem chunksLength {body current spansets relations out} (h : chunks body current spansets relations = some out) :
    out.1.length + relations.length = spansets.length + 1 + out.2.length := by
  induction body generalizing current spansets relations with
  | nil =>
    cases h
    simp
  | cons instruction rest ih =>
    cases instruction with
    | spanset relation =>
      simp only [chunks] at h
      split at h
      case isTrue => cases h
      have step := ih h
      simp only [length_cons] at step
      omega
    | leaf => exact ih h
    | boolean => exact ih h
    | select => exact ih h

theorem splitLast {program parts} (h : split program = some parts) :
    parts.spansets.getLast? = parts.spansets[parts.relations.length]? := by
  unfold split at h
  simp only at h
  split at h
  case isFalse => cases h
  obtain ⟨out,cut,rfl⟩ := Option.map_eq_some_iff.mp h
  have size := chunksLength cut
  simp only [length_nil,Nat.add_zero,Nat.zero_add] at size
  simp [getLast?_eq_getElem?,size]

theorem structuralFromMask {links : List Link} {relations i current}
    (reached : ∀ l, (l,true) ∈ links.zip current → l.mask[i]? = some true) {l}
    (h : (l,true) ∈ links.zip (structuralFrom links relations (i + 1) current)) :
    l.mask[i + relations.length]? = some true := by
  induction relations generalizing i current with
  | nil => exact reached l h
  | cons relation rest ih =>
    have next (k : Link) (mem : (k,true) ∈ links.zip (links.map (fun k => (k.mask[i + 1]?).getD false &&
        related links (((links.zip current).filter Prod.snd).map Prod.fst) relation k))) :
        k.mask[i + 1]? = some true := by
      have both := (Lists.zipMapMem mem).2
      simp only [Bool.true_eq,Bool.and_eq_true] at both
      cases bit : k.mask[i + 1]? with
      | none => simp [bit] at both
      | some b => simpa [bit] using both.1
    have step := ih next h
    simpa [Nat.add_assoc,Nat.add_comm 1] using step

theorem structuralMask {links : List Link} {relations l}
    (h : (l,true) ∈ links.zip (structural relations links)) : l.mask[relations.length]? = some true := by
  have first (k : Link) (mem : (k,true) ∈ links.zip (links.map (fun k => (k.mask[0]?).getD false))) :
      k.mask[0]? = some true := by
    have bit := (Lists.zipMapMem mem).2
    cases head : k.mask[0]? with
    | none => simp [head] at bit
    | some b => simpa [head] using bit.symm
  have reached := structuralFromMask first h
  simpa using reached

theorem expressionNeeds {regex program} {trace : List Span} {span} (h : span ∈ expressionSpans regex program trace) :
    ∃ typed, span.otlp = some typed ∧ ∀ n ∈ requirements program, Has span typed n := by
  unfold expressionSpans at h
  cases cut : split program with
  | none => simp [cut] at h
  | some parts =>
    simp only [cut,mem_map,mem_filter] at h
    obtain ⟨⟨s,flag⟩,⟨zipped,isTrue⟩,rfl⟩ := h
    subst isTrue
    let rich := trace.filter (fun span => span.otlp.isSome)
    have kept : s ∈ rich := (of_mem_zip zipped).1
    obtain ⟨typed,isTyped⟩ := Option.isSome_iff_exists.mp (mem_filter.mp kept).2
    have linked : (link regex parts.spansets s,true) ∈
        (rich.map (link regex parts.spansets)).zip
          (structural parts.relations (rich.map (link regex parts.spansets))) := by
      rw [zip_map_left]
      exact mem_map.mpr ⟨(s,true),zipped,rfl⟩
    have mask := structuralMask linked
    simp only [link,spansetMask,isTyped,getElem?_map,← splitLast cut] at mask
    cases last : parts.spansets.getLast? with
    | none => simp [last] at mask
    | some program =>
      simp only [last,Option.map_some,Option.some.injEq] at mask
      refine ⟨typed,isTyped,?_⟩
      simp only [requirements,cut,last]
      exact spansetNeeds mask

end Pulso.Traces
