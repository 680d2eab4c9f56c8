import Pulso.TraceCoverage

/-! Pruning by trace summaries is sound: no test of a segment or a page refuses a summary
that describes a span the query selects. -/
namespace Pulso.Traces
open List

/-! What a span a query selects has. -/

variable {span : Span} {typed : Typed} {key text : Bytes} {o : Options}

section Selection
variable {regex : Regex}

variable (regex) in
structure AttributesHold (span : Span) (o : Options) : Prop where
  resource : ∀ key text, (key,Value.text text) ∈ entriesOf o.resource → HasText span.resource key text
  attributes : ∀ key text, (key,Value.text text) ∈ entriesOf o.attributes → HasText span.attributes key text
  resourceRegex : ∀ e ∈ entriesOf o.resourceRegex, ∃ text, HasText span.resource e.1 text ∧ regex e.2 text = some true
  attributesRegex : ∀ e ∈ entriesOf o.attributesRegex, ∃ text, HasText span.attributes e.1 text ∧ regex e.2 text = some true

theorem exactFiltersHold {filters values} (h : exactFilters filters values = true) (key text : Bytes)
    (mem : (key,Value.text text) ∈ entriesOf filters) : HasText values key text := by
  have found := of_decide_eq_true (all_eq_true.mp h _ mem)
  obtain ⟨p,isSome,held⟩ := Option.bind_eq_some_iff.mp found
  exact ⟨p,isSome,held⟩

theorem regexFiltersHold {filters values} (h : regexFilters regex filters values = true) : ∀ e ∈ entriesOf filters,
      ∃ text, HasText values e.1 text ∧ regex e.2 text = some true := by
  intro e mem
  have passes := all_eq_true.mp h e mem
  split at passes
  case h_1 text found =>
    obtain ⟨p,isSome,held⟩ := Option.bind_eq_some_iff.mp found
    exact ⟨text,⟨p,isSome,held⟩,of_decide_eq_true passes⟩
  case h_2 => cases passes

theorem filtersHold {q} (h : span.matches regex q = true) :
    AttributesHold regex span q.options ∧ (∀ id, q.traceId = some id → span.traceId = id) ∧
      ∀ v, q.service = some v → span.service = some v := by
  simp only [Span.matches,Bool.and_eq_true] at h
  obtain ⟨⟨⟨⟨⟨⟨⟨⟨⟨⟨⟨⟨id,_⟩,_⟩,service⟩,_⟩,_⟩,_⟩,_⟩,_⟩,spanRegex⟩,resourceRegex⟩,spanExact⟩,resourceExact⟩ := h
  refine ⟨⟨exactFiltersHold resourceExact,exactFiltersHold spanExact,regexFiltersHold resourceRegex,
    regexFiltersHold spanRegex⟩,?_,?_⟩
  · intro wanted isSome
    simpa [wantedOr,isSome,eq_comm] using id
  · intro wanted isSome
    simpa [wantedOr,isSome,eq_comm] using service

theorem projectionText {typed} (h : originalString typed key = some text) :
    (projection typed).get? key = some (.text text) := by
  unfold originalString at h
  split at h
  case h_2 => cases h
  rename_i own held
  cases h
  have distinct : ((typed.entries.map (fun e => (e.1,project e.2))).map Prod.fst).Nodup := by
    simpa [map_map,Function.comp_def] using typed.distinct
  have entries : (projection typed).entries = typed.entries.map (fun e => (e.1,project e.2)) := by
    simpa [projection,Dict.ofList,Dict.empty] using
      Dict.putAllFresh (m := Dict.empty) (by simp [Dict.keys,Dict.empty]) distinct
  apply Dict.getIff.mpr
  rw [entries]
  exact mem_map.mpr ⟨(key,.text text),Dict.getIff.mp held,rfl⟩

theorem predicateText (isTyped : span.otlp = some typed) {p} (h : predicateHolds regex typed p = true) :
    ∃ text, HasText (match p.owner with
      | .resource => span.resource
      | .span => span.attributes) p.key text ∧
      (match p.op with
        | .equal => text = p.value
        | .regex => regex p.value text = some true) := by
  unfold predicateHolds at h
  simp only at h
  split at h
  case h_1 => cases h
  rename_i actual found
  refine ⟨actual,?_,?_⟩
  · cases owner : p.owner with
    | resource =>
      simp only [owner] at found
      exact ⟨_,span.resourceProjected typed isTyped,projectionText found⟩
    | span =>
      simp only [owner] at found
      exact ⟨_,span.attributesProjected typed isTyped,projectionText found⟩
  · cases op : p.op with
    | equal => simpa [op] using h
    | regex => simpa [op] using h

theorem putNewEntries {α : Type} {filters value} {e : Bytes × α}
    (h : e ∈ entriesOf (putNew filters key value)) : e ∈ entriesOf filters ∨ e = (key,value) := by
  obtain ⟨k,v⟩ := e
  cases filters with
  | none => simpa [putNew,entriesOf,Dict.put,Dict.empty,Dict.has,Dict.keys] using h
  | some map =>
    simp only [putNew] at h
    split at h
    · exact .inl h
    have found := Dict.getIff.mpr (show (k,v) ∈ (map.put key value).entries from h)
    by_cases same : k = key
    · subst same
      rw [Dict.getPutSame] at found
      cases found
      exact .inr rfl
    · rw [Dict.getPutOther _ _ same] at found
      exact .inl (Dict.getIff.mp found)

theorem predicatesHold (isTyped : span.otlp = some typed) {all : List Predicate}
    (holds : ∀ p ∈ all, predicateHolds regex typed p = true) (start : AttributesHold regex span o) :
    AttributesHold regex span (all.foldl addPredicate o) := by
  induction all generalizing o with
  | nil => exact start
  | cons p rest ih =>
    apply ih (forall_mem_cons.mp holds).2
    obtain ⟨text,has,fits⟩ := predicateText isTyped (holds p mem_cons_self)
    unfold addPredicate
    cases owner : p.owner <;> cases op : p.op <;> simp only [owner,op] at has fits ⊢
    · refine { start with resource := ?_ }
      intro key wanted mem
      cases putNewEntries mem with
      | inl old => exact start.resource key wanted old
      | inr new =>
        cases new
        exact fits ▸ has
    · refine { start with resourceRegex := ?_ }
      intro e mem
      cases putNewEntries mem with
      | inl old => exact start.resourceRegex e old
      | inr new =>
        cases new
        exact ⟨text,has,fits⟩
    · refine { start with attributes := ?_ }
      intro key wanted mem
      cases putNewEntries mem with
      | inl old => exact start.attributes key wanted old
      | inr new =>
        cases new
        exact fits ▸ has
    · refine { start with attributesRegex := ?_ }
      intro e mem
      cases putNewEntries mem with
      | inl old => exact start.attributesRegex e old
      | inr new =>
        cases new
        exact ⟨text,has,fits⟩

theorem mergedHold {q found} (own : AttributesHold regex span q)
    (searched : AttributesHold regex span found) : AttributesHold regex span (merged q found) := by
  constructor
  · cases isSome : found.resource with
    | none => simpa [merged,isSome] using own.resource
    | some map => simpa [merged,isSome] using searched.resource
  · cases isSome : found.attributes with
    | none => simpa [merged,isSome] using own.attributes
    | some map => simpa [merged,isSome] using searched.attributes
  · cases isSome : found.resourceRegex with
    | none => simpa [merged,isSome] using own.resourceRegex
    | some map => simpa [merged,isSome] using searched.resourceRegex
  cases isSome : found.attributesRegex with
  | none => simpa [merged,isSome] using own.attributesRegex
  | some map => simpa [merged,isSome] using searched.attributesRegex

theorem noneHold (resource : o.resource = none) (attributes : o.attributes = none)
    (resourceRegex : o.resourceRegex = none) (attributesRegex : o.attributesRegex = none) : AttributesHold regex span o := by
  constructor <;> simp [entriesOf,resource,attributes,resourceRegex,attributesRegex]

theorem foldPredicates (all : List Predicate) (o : Options) :
    (all.foldl addPredicate o).provenOnly = o.provenOnly ∧ (all.foldl addPredicate o).requires = o.requires := by
  induction all generalizing o with
  | nil => exact ⟨rfl,rfl⟩
  | cons p rest ih =>
    have same : (addPredicate o p).provenOnly = o.provenOnly ∧ (addPredicate o p).requires = o.requires := by
      unfold addPredicate
      cases p.owner <;> cases p.op <;> exact ⟨rfl,rfl⟩
    obtain ⟨proven,requires⟩ := ih (addPredicate o p)
    exact ⟨proven.trans same.1,requires.trans same.2⟩

theorem queryHolds {trace} {q : Query} (passes : span.matches regex q.filters = true)
    (chosen : returned regex trace span q.search) :
    (q.options.provenOnly = true → span.otlp.isSome = true) → AttributesHold regex span q.options := by
  intro rich
  have own := (filtersHold passes).1
  unfold Query.options at rich ⊢
  cases search : q.search with
  | none =>
    simp only [Option.bind_none]
    exact own
  | some found =>
    cases found with
    | predicates all =>
      simp only [search,Option.bind_some,tempoFilters,merged,(foldPredicates all _).1,forall_const] at rich
      obtain ⟨typed,isTyped⟩ := Option.isSome_iff_exists.mp rich
      simp only [search,returned] at chosen
      have holds := all_eq_true.mp (chosen typed isTyped)
      simp only [Option.bind_some,tempoFilters]
      exact mergedHold own (predicatesHold isTyped holds (noneHold rfl rfl rfl rfl))
    | expression program =>
      simp only [Option.bind_some]
      cases needed : requirements program with
      | nil =>
        simp only [tempoFilters,needed]
        exact own
      | cons n rest =>
        simp only [tempoFilters,needed]
        exact mergedHold own (noneHold rfl rfl rfl rfl)

theorem queryNeeds {trace} {q : Query} (chosen : returned regex trace span q.search)
    (isTyped : span.otlp = some typed) : ∀ n ∈ q.options.requires, Has span typed n := by
  unfold Query.options
  cases search : q.search with
  | none => simp [Filters.options]
  | some found =>
    cases found with
    | predicates all => simp [tempoFilters,merged,(foldPredicates all _).2,noOptions]
    | expression program =>
      simp only [search,returned] at chosen
      have matching : span ∈ expressionSpans regex program trace := chosen.resolve_left (by simp [isTyped])
      obtain ⟨own,isOwn,has⟩ := expressionNeeds matching
      cases isTyped.symm.trans isOwn
      simp only [Option.bind_some]
      cases needed : requirements program with
      | nil => simp [tempoFilters,needed,Filters.options]
      | cons n rest =>
        simp only [tempoFilters,needed,merged]
        exact needed ▸ has

theorem queryPlain (q : Query) : q.options.service = q.filters.service ∧ q.options.traceId = q.filters.traceId := by
  unfold Query.options
  split
  · exact ⟨rfl,rfl⟩
  · exact ⟨rfl,rfl⟩

end Selection

/-! The tests. -/

variable {proven : Bool}

section Tests
variable {regex : Regex} {rows : List Span} {span : Span}

theorem serviceKept {services}
    (cover : ∀ all, services = some all → ∀ r ∈ rows, ∃ v, r.service = some v ∧ v ∈ all) (mem : span ∈ rows)
    {service} (wanted : ∀ v, service = some v → span.service = some v) :
    serviceMatches services service = true := by
  cases services with
  | none => rfl
  | some all =>
    cases service with
    | none => rfl
    | some v =>
      obtain ⟨own,isOwn,inside⟩ := cover all rfl span mem
      cases (wanted v rfl).symm.trans isOwn
      simpa [serviceMatches] using inside

variable {maps : List (Option Projection)} {owner : AttributeOwner} {map : Option Projection}
variable (cover : OwnerCovers maps owner)
include cover

theorem exactKept (mem : map ∈ maps) (has : HasText map key text) : exactMayMatch owner (key,.text text) = true := by
  cases held : owner.keys.get? key with
  | none =>
    cases complete : owner.complete with
    | false => simp [exactMayMatch,held,complete]
    | true => exact absurd (cover.complete complete map mem key text has) (Dict.getNone.mp held)
  | some set =>
    cases set with
    | none => simp [exactMayMatch,held]
    | some values => simpa [exactMayMatch,held] using cover.listed key values held map mem text has

theorem patternKept (mem : map ∈ maps) {pattern} (has : HasText map key text)
    (fits : regex pattern text = some true) : patternMayMatch regex owner (key,pattern) = true := by
  cases held : owner.keys.get? key with
  | none =>
    cases complete : owner.complete with
    | false => simp [patternMayMatch,held,complete]
    | true => exact absurd (cover.complete complete map mem key text has) (Dict.getNone.mp held)
  | some set =>
    cases set with
    | none => simp [patternMayMatch,held]
    | some values =>
      simp only [patternMayMatch,held]
      apply any_eq_true.mpr
      exact ⟨text,cover.listed key values held map mem text has,by simp [regexMayMatch,fits]⟩

theorem ownerKept (mem : map ∈ maps) {exact patterns}
    (texts : ∀ key text, (key,Value.text text) ∈ entriesOf exact → HasText map key text)
    (fits : ∀ e ∈ entriesOf patterns, ∃ text, HasText map e.1 text ∧ regex e.2 text = some true) :
    ownerMatches regex owner exact patterns = true := by
  unfold ownerMatches
  simp only [Bool.and_eq_true]
  constructor
  · apply all_eq_true.mpr
    intro e inside
    obtain ⟨key,value⟩ := e
    cases value with
    | text text => exact exactKept cover mem (texts key text inside)
    | null => rfl
    | flag => rfl
    | int => rfl
    | double => rfl
    | array => rfl
    | map => rfl
  · apply all_eq_true.mpr
    intro e inside
    obtain ⟨text,has,matching⟩ := fits e inside
    exact patternKept cover mem has matching

omit cover

theorem attributesKept {attributes} (cover : MaybeCover rows attributes)
    (mem : span ∈ rows) (holds : (o.provenOnly = true → proven = true) → AttributesHold regex span o) :
    attributesMatch regex proven attributes o = true := by
  unfold attributesMatch
  cases skipped : o.provenOnly && !proven with
  | true => rfl
  | false =>
    have facts : AttributesHold regex span o := by
      apply holds
      intro only
      simpa [only] using skipped
    cases attributes with
    | none => rfl
    | some s =>
      have known := cover s rfl
      simp only [attributeSummaryMatches,Bool.false_or,Bool.and_eq_true]
      constructor
      · exact ownerKept known.resource (mem_map_of_mem mem) facts.resource facts.resourceRegex
      · exact ownerKept known.span (mem_map_of_mem mem) facts.attributes facts.attributesRegex

theorem safeTyped {s : Span} (h : s.metadataSafe = true) : ∃ typed, s.otlp = some typed := by
  unfold Span.metadataSafe at h
  split at h
  · cases h
  · exact ⟨_,by assumption⟩

theorem promotedText (isTyped : span.otlp = some typed) {service}
    (promoted : span.service = some service) (has : HasText span.resource serviceName text) : text = service := by
  have own := (span.promoted typed isTyped).symm.trans promoted
  have original : originalString typed.resource serviceName = some service := own
  obtain ⟨p,isProjection,held⟩ := has
  cases (span.resourceProjected typed isTyped).symm.trans isProjection
  have same := (projectionText original).symm.trans held
  simpa using same.symm

theorem entriesGet {α : Type} {filters} {value : α}
    (h : filters.bind (fun map => map.get? key) = some value) : (key,value) ∈ entriesOf filters := by
  obtain ⟨map,rfl,held⟩ := Option.bind_eq_some_iff.mp h
  exact Dict.getIff.mp held

variable (safe : proven = true → ∀ r ∈ rows, r.metadataSafe = true)
include safe

theorem resourceServicesKept {services : Option (List Bytes)}
    (cover : ∀ all, services = some all → ∀ r ∈ rows, ∃ v, r.service = some v ∧ v ∈ all) (mem : span ∈ rows)
    (holds : proven = true → AttributesHold regex span o) : resourceServicesMatch regex proven services o = true := by
  unfold resourceServicesMatch
  split
  case h_2 => rfl
  rename_i first rest
  have facts := holds rfl
  obtain ⟨typed,isTyped⟩ := safeTyped (safe rfl span mem)
  obtain ⟨service,promoted,inside⟩ := cover _ rfl span mem
  have exact : (exactService o).all (service = ·) = true := by
    unfold exactService
    split
    case h_2 => rfl
    rename_i value found
    have text := promotedText isTyped promoted (facts.resource _ _ (entriesGet found))
    simp [text]
  have pattern : (servicePattern o).all (fun pattern => regexMayMatch regex pattern service) = true := by
    cases found : servicePattern o with
    | none => rfl
    | some pattern =>
      obtain ⟨text,has,fits⟩ := facts.resourceRegex _ (entriesGet found)
      cases promotedText isTyped promoted has
      simp [regexMayMatch,fits]
  have some : (first::rest).any (fun service => (exactService o).all (service = ·) &&
      (servicePattern o).all (fun pattern => regexMayMatch regex pattern service)) = true :=
    any_eq_true.mpr ⟨service,inside,by simp only [exact,pattern,Bool.and_self]⟩
  rw [some,Bool.or_true]

theorem classesKept {events statuses}
    (cover : ∀ all, statuses = some all → ∀ r ∈ rows, ∃ c, statusClass r.statusCode = some c ∧ c ∈ all)
    (quiet : ∀ all, statuses = some all → events = false → ∀ r ∈ rows, r.hasEvents = false) (mem : span ∈ rows)
    {requires} (needed : ∀ typed, span.otlp = some typed → ∀ n ∈ requires, Has span typed n) :
    classesMatch proven statuses events requires = true := by
  unfold classesMatch
  split
  case h_2 => rfl
  rename_i all
  obtain ⟨typed,isTyped⟩ := safeTyped (safe rfl span mem)
  apply all_eq_true.mpr
  intro n listed
  have has := needed typed isTyped n listed
  cases n with
  | error =>
    obtain ⟨c,isClass,inside⟩ := cover all rfl span mem
    have two : span.statusCode = 2 := has
    rw [two] at isClass
    have same : c = 2 := by simpa [statusClass,eq_comm] using isClass
    simpa [same] using inside
  | event =>
    cases loud : events with
    | true => rfl
    | false =>
      have silent := quiet all rfl loud span mem
      have present : typed.events ≠ [] := has
      simp [Span.hasEvents,isTyped,present] at silent

omit safe

theorem idKept {hash s} (cover : Covers hash rows s) (mem : span ∈ rows) {id}
    (wanted : ∀ v, id = some v → span.traceId = v) : idMatches hash s id = true := by
  cases id with
  | none => rfl
  | some id =>
    have same := wanted id rfl
    subst same
    cases canonical : s.lookupBits with
    | some b => simpa [idMatches,canonical] using cover.canonical b canonical span mem
    | none =>
      cases bits : s.bits with
      | some b => simpa [idMatches,canonical,bits] using cover.bits b bits span mem
      | none =>
        cases hashes : s.lookupHashes with
        | some all => simpa [idMatches,canonical,bits,hashes] using cover.hashes all hashes span mem
        | none => simp [idMatches,canonical,bits,hashes]

end Tests

section Soundness
variable {regex : Regex} {hash : Hash} {sizes : SummarySizes} {rows trace : List Span} {q : Query}

structure Selected (regex : Regex) (rows : List Span) (q : Query) (span : Span) : Prop where
  inside : span ∈ rows
  service : ∀ v, q.options.service = some v → span.service = some v
  traceId : ∀ v, q.options.traceId = some v → span.traceId = v
  attributes : (q.options.provenOnly = true → span.otlp.isSome = true) → AttributesHold regex span q.options
  needs : ∀ typed, span.otlp = some typed → ∀ n ∈ q.options.requires, Has span typed n

theorem satisfiedSelected (within : ∀ s ∈ trace, s ∈ rows) (h : Satisfies regex trace q) :
    ∃ span, Selected regex rows q span := by
  obtain ⟨span,mem,passes,chosen⟩ := h
  obtain ⟨_,id,service⟩ := filtersHold passes
  obtain ⟨sameService,sameId⟩ := queryPlain q
  refine ⟨span,within span mem,?_,?_,queryHolds passes chosen,fun typed isTyped => queryNeeds chosen isTyped⟩
  · rw [sameService]
    exact service
  · rw [sameId]
    exact id

theorem provenHold (selected : Selected regex rows q span) (safe : proven = true → ∀ r ∈ rows, r.metadataSafe = true)
    (only : q.options.provenOnly = true → proven = true) : AttributesHold regex span q.options := by
  apply selected.attributes
  intro isOnly
  obtain ⟨typed,isTyped⟩ := safeTyped (safe (only isOnly) span selected.inside)
  simp [isTyped]

theorem summaryKept {summary} (cover : MaybeCovers hash rows summary)
    (selected : Selected regex rows q span) : summaryMatches regex hash summary q.options = true := by
  cases summary with
  | none => rfl
  | some s =>
    have known := cover s rfl
    simp only [summaryMatches,Bool.and_eq_true]
    refine ⟨⟨⟨⟨?_,?_⟩,?_⟩,?_⟩,?_⟩
    · exact serviceKept known.services selected.inside selected.service
    · exact resourceServicesKept known.safe known.services selected.inside
        (fun proven => provenHold selected known.safe (fun _ => proven))
    · exact attributesKept known.attributes selected.inside (provenHold selected known.safe)
    · exact classesKept known.safe known.statuses known.events selected.inside selected.needs
    · exact idKept known selected.inside selected.traceId

theorem pageKept {page} (cover : PageCovers hash rows page)
    (selected : Selected regex rows q span) : pageMatches regex hash (some page) q.options = true := by
  have services : ∀ all, TraceSummary.parseServices page.services = some all → ∀ r ∈ rows, ∃ v, r.service = some v ∧ v ∈ all :=
    fun all isSome => cover.services all (parseServicesKept isSome)
  simp only [pageMatches,Bool.and_eq_true]
  refine ⟨⟨⟨⟨?_,?_⟩,?_⟩,?_⟩,?_⟩
  · exact serviceKept services selected.inside selected.service
  · cases parsed : TraceSummary.parseBits page.bits with
    | none => rfl
    | some b =>
      cases wanted : q.options.traceId with
      | none => rfl
      | some id =>
        have same := selected.traceId id wanted
        subst same
        exact cover.bits b (parseBitsKept parsed) span selected.inside
  · exact resourceServicesKept cover.safe services selected.inside
      (fun proven => provenHold selected cover.safe (fun _ => proven))
  · exact attributesKept (parseCover cover.attributes) selected.inside (provenHold selected cover.safe)
  · apply classesKept cover.safe _ _ selected.inside selected.needs
    · intro all isSome r mem
      obtain ⟨own,isOwn,same⟩ := parseStatusesKept isSome
      obtain ⟨c,isC,inside⟩ := cover.statuses own isOwn r mem
      exact ⟨c,isC,(same c).mpr inside⟩
    · intro _ _ quiet
      exact cover.events (by simpa using quiet)

/- No trace is lost: a query that some trace of the segment's spans satisfies keeps the
segment, and every page the segment's summary was united into. -/
theorem tracePruningSound (sizes : SummarySizes) (hash : Hash) (regex : Regex) (rows : List Span)
    (summary : Option TraceSummary) (summarized : Summarized sizes hash rows summary) (trace : List Span)
    (within : ∀ span ∈ trace, span ∈ rows) (q : Query) (satisfied : Satisfies regex trace q) :
    summaryMatches regex hash summary q.options = true ∧
    ∀ parts : Parts, (∀ p ∈ parts, Summarized sizes hash p.1 p.2) → (rows,summary) ∈ parts →
      pageMatches regex hash (some (TraceSummary.pageSummary sizes (parts.map Prod.snd))) q.options = true := by
  constructor
  · obtain ⟨span,selected⟩ := satisfiedSelected within satisfied
    exact summaryKept (summarizedCovers summarized) selected
  intro parts each listed
  have all : ∀ span ∈ trace, span ∈ rowsOf parts :=
    fun span mem => mem_flatMap.mpr ⟨(rows,summary),listed,within span mem⟩
  obtain ⟨span,selected⟩ := satisfiedSelected all satisfied
  exact pageKept (pageSummaryCovers (fun p mem => summarizedCovers (each p mem))) selected

end Soundness

namespace Sample

def sizes : SummarySizes := ⟨fun _ => 1,fun _ => 1,fun _ => 1,fun _ => 1,fun _ => 1⟩
def hash : Hash := fun id => ⟨id.length,7,8,9⟩
def regex : Regex := fun pattern value => some (pattern = value)

def decoded (status : Int) (typed : Typed) : Span where
  traceId := List.replicate 32 49
  spanId := [1]
  parentSpanId := none
  service := stringService typed.resource
  name := []
  kind := 0
  statusCode := status
  start := 0
  finish := 1
  resource := some (projection typed.resource)
  attributes := some (projection typed.attributes)
  events := typed.events.length
  otlp := some typed
  resourceProjected _ same := by cases same; rfl
  attributesProjected _ same := by cases same; rfl
  promoted _ same := by cases same; rfl
  eventsAgree _ same := by cases same; rfl

def failing : Span := decoded 2 ⟨Dict.empty,Dict.empty.put [107] (.text [118]),[]⟩
def anything : Filters := ⟨none,none,none,none,none,none,none,false,none,none,none,none,none,none⟩

def program (value : Bytes) : List Instruction :=
  [.leaf .intrinsic statusKey .eq (ascii "2"),.leaf (.field .span .string) [107] .eq value,.boolean .and]
def failed (value : Bytes) : Query := ⟨anything,some (.expression (program value))⟩
def events : Query := ⟨anything,some (.expression [.leaf (.field .event .string) [107] .eq [118]])⟩
def summary : Option TraceSummary := some (build segmentBytes sizes hash [failing] ([failing].all Span.metadataSafe))

end Sample

theorem tracePruningSoundFailed : Satisfies Sample.regex [Sample.failing] (Sample.failed [118]) ∧
    summaryMatches Sample.regex Sample.hash Sample.summary (Sample.failed [118]).options = true ∧
    pageMatches Sample.regex Sample.hash (some (TraceSummary.pageSummary Sample.sizes [Sample.summary]))
      (Sample.failed [118]).options = true ∧
    summaryMatches Sample.regex Sample.hash Sample.summary Sample.events.options = false := by
  have found : Sample.failing ∈ expressionSpans Sample.regex (Sample.program [118]) [Sample.failing] := by
    have single : expressionSpans Sample.regex (Sample.program [118]) [Sample.failing] = [Sample.failing] := by rfl
    simp [single]
  have satisfied : Satisfies Sample.regex [Sample.failing] (Sample.failed [118]) :=
    ⟨Sample.failing,by simp,by decide +kernel,.inr found⟩
  have summarized : Summarized Sample.sizes Sample.hash [Sample.failing] Sample.summary := .appended
  obtain ⟨kept,pages⟩ := tracePruningSound Sample.sizes Sample.hash Sample.regex [Sample.failing] Sample.summary summarized
    [Sample.failing] (fun _ mem => mem) (Sample.failed [118]) satisfied
  have page := pages [([Sample.failing],Sample.summary)]
    (by
      intro p mem
      cases mem_singleton.mp mem
      exact summarized) (by simp)
  exact ⟨satisfied,kept,page,by decide +kernel⟩

end Pulso.Traces
