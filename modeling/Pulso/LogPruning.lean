import Pulso.LogSummary

/-! Pruning by log summaries is sound: a summary, however it was made, lists every value the
rows of its segment have, and the summary of a page is weaker than those of its segments. -/
namespace Pulso.Logs
open List

-- the label a matcher reads; an absent one is the empty string
def streamLabel (row : Row) (name : Bytes) : Bytes :=
  let promoted := if name = serviceLabel ∨ name = serviceNameLabel then row.service
    else if name = levelLabel ∨ name = detectedLevelLabel then row.severityText
    else none
  match promoted with
  | some (b::rest) => b::rest
  | _ => (resourceLookup row name).getD []

section Semantics
variable {engine : RegexEngine}

theorem evaluateLookupLabel (m : Matcher) (found : Option Bytes) :
    evaluateLookup engine m found = evaluatePresent engine m (found.getD []) := by
  cases found with
  | some value => rfl
  | none =>
    have empty : m.value.isEmpty = decide ([] = m.value) := by cases m.value <;> rfl
    cases op : m.op <;> simp [evaluateLookup,evaluateAbsent,evaluatePresent,op,empty]

theorem matcherPassesLabel (row : Row) (m : Matcher) :
    matcherPasses engine row m = evaluatePresent engine m (streamLabel row m.name) := by
  have promoted (column : Option Bytes) : promotedOrResource engine column row m =
      evaluatePresent engine m (match column with
        | some (b::rest) => b::rest
        | _ => (resourceLookup row m.name).getD []) := by
    cases column with
    | none => exact evaluateLookupLabel m _
    | some text => cases text with
      | nil => exact evaluateLookupLabel m _
      | cons b rest => rfl
  unfold matcherPasses streamLabel
  split
  · exact promoted row.service
  split
  · exact promoted row.severityText
  · exact evaluateLookupLabel m _

end Semantics

def ServicesCover (rows : List Row) (services : Option (List Bytes)) : Prop :=
  ∀ all, services = some all → ∀ row ∈ rows, ∃ v, row.service = some v ∧ v ≠ [] ∧ v ∈ all

structure Describes (rows : List Row) (s : Segment) : Prop where
  services : ServicesCover rows s.logServices
  labels : LabelSets.Covers streamLabel rows s.logLabels

theorem rowServicesCover (rows : List Row) : ServicesCover rows (Services.complete (rows.map Row.service)) := by
  intro all known row mem
  obtain ⟨v,same,valid,inside⟩ := Services.completeGet known row.service (mem_map_of_mem mem)
  exact ⟨v,same,Services.validNonempty valid,inside⟩

theorem validServicesKept {services kept} (h : Segment.validServices services = some kept) : kept = services := by
  unfold Segment.validServices at h
  split at h
  · cases h
  split at h
  · exact (Option.some.inj h).symm
  · cases h

variable {rows : List Row}

theorem servicesCoverValid {services} (h : ServicesCover rows services) :
    ServicesCover rows (services.bind Segment.validServices) := by
  intro all known
  obtain ⟨own,isOwn,accepted⟩ := Option.bind_eq_some_iff.mp known
  exact validServicesKept accepted ▸ h own isOwn

/-! A label read from a record is the label its stored row has. -/

theorem sanitizeGet {spell entries acc out name v} (h : sanitizeMap spell entries acc = some out) :
    out.get? name = some v ↔
      acc.get? name = some v ∨ ∃ e ∈ entries, stringifyKey spell e.1 = name ∧ storedValue e.2 = some v := by
  induction entries generalizing acc with
  | nil =>
    cases h
    simp
  | cons e rest ih =>
    simp only [sanitizeMap] at h
    split at h
    case isTrue => cases h
    rename_i fresh
    obtain ⟨value,stored,tail⟩ := Option.bind_eq_some_iff.mp h
    simp only [Bool.or_eq_true,Dict.hasIff,not_or] at fresh
    have absent := Dict.getNone.mpr fresh.1
    have step := ih tail
    by_cases same : name = stringifyKey spell e.1
    · subst same
      simp only [step,Dict.getPutSame,absent,mem_cons,exists_eq_or_imp,stored,reduceCtorEq,false_or,true_and]
    · simp only [step,Dict.getPutOther _ _ same,mem_cons,exists_eq_or_imp,Ne.symm same,false_and,false_or]

def Agrees (r : Record) (row : Row) : Prop :=
  ∀ name ∈ labelNames, ∀ text, labelText (logLabelValue r name) = some text →
    LabelSets.validValue text = true → streamLabel row name = text

theorem labelNamesPlain {name} (h : name ∈ labelNames) :
    name ≠ serviceLabel ∧ name ≠ levelLabel ∧ name ≠ detectedLevelLabel := by
  have plain : ∀ n ∈ labelNames, n ≠ serviceLabel ∧ n ≠ levelLabel ∧ n ≠ detectedLevelLabel := by decide
  exact plain name h

theorem labelTextBinary {t text} (h : labelText t = some text) : t = .binary text := by
  cases t with
  | binary own => simpa [labelText] using h
  | null => cases h
  | flag => cases h
  | atom => cases h
  | other => cases h

variable {r : Record}

theorem agreesOf {row} (service : ∀ b rest, r.service = .binary (b::rest) → row.service = some (b::rest))
    (unpromoted : r.service = .null ∨ r.service = .binary [] → row.service = none ∨ row.service = some [])
    (present : ∀ name text, r.resource.bind (fun map => map.get? (.binary name)) = some (.binary text) →
      LabelSets.validValue text = true → resourceLookup row name = some text)
    (missing : ∀ name, r.resource.bind (fun map => map.get? (.binary name)) = none → resourceLookup row name = none) :
    Agrees r row := by
  intro name listed text found valid
  obtain ⟨plain,level,detected⟩ := labelNamesPlain listed
  have binary := labelTextBinary found
  have looked (read : (r.resource.bind (fun map => map.get? (.binary name))).getD (.binary []) = .binary text) :
      (resourceLookup row name).getD [] = text := by
    cases held : r.resource.bind (fun map => map.get? (.binary name)) with
    | none =>
      simp only [held,Option.getD_none,Term.binary.injEq] at read
      simp [missing name held,read]
    | some t =>
      simp only [held,Option.getD_some] at read
      subst read
      simp [present name text held valid]
  unfold logLabelValue at binary
  split at binary
  case isTrue promoted =>
    cases text with
    | nil => exact absurd binary promoted.2.2
    | cons b rest => simp [streamLabel,promoted.1,service b rest binary]
  rename_i unread
  by_cases isName : name = serviceNameLabel
  · have fallback : r.service = .null ∨ r.service = .binary [] := by
      by_contra neither
      exact unread ⟨isName,fun h => neither (.inl h),fun h => neither (.inr h)⟩
    cases unpromoted fallback with
    | inl none => simpa [streamLabel,isName,none] using isName ▸ looked binary
    | inr empty => simpa [streamLabel,isName,empty] using isName ▸ looked binary
  · simpa [streamLabel,plain,isName,level,detected] using looked binary

theorem encodeRowInv {spell row} (h : encodeRow spell r = some row) : storedText r.service = some row.service ∧
      sanitizeMap spell (resourceEntries r) Dict.empty = some row.resource := by
  obtain ⟨service,stored,h⟩ := Option.bind_eq_some_iff.mp h
  obtain ⟨severity,_,h⟩ := Option.bind_eq_some_iff.mp h
  obtain ⟨resource,sanitized,h⟩ := Option.bind_eq_some_iff.mp h
  cases h
  exact ⟨stored,sanitized⟩

theorem storedTextBinary {text column} (h : storedText (.binary text) = some column) : column = some text := by
  simp only [storedText] at h
  split at h
  · exact (Option.some.inj h).symm
  · cases h

theorem resourceMem {name t} :
    r.resource.bind (fun map => map.get? (.binary name)) = some t ↔ (Term.binary name,t) ∈ resourceEntries r := by
  cases held : r.resource with
  | none => simp [resourceEntries,held]
  | some map => simp [resourceEntries,held,Dict.getIff]

-- only when every key is a valid binary can no other key be stored under a label's name
theorem agreesEncoded {spell row} (h : encodeRow spell r = some row)
    (keys : ∀ e ∈ resourceEntries r, validKey e.1 = true) : Agrees r row := by
  obtain ⟨service,resource⟩ := encodeRowInv h
  have lookup (name : Bytes) (v : Stored) : row.resource.get? name = some v ↔ _ := sanitizeGet resource
  apply agreesOf
  · intro b rest isService
    exact storedTextBinary (isService ▸ service)
  · intro unpromoted
    cases unpromoted with
    | inl null =>
      rw [null] at service
      exact .inl (Option.some.inj service).symm
    | inr empty => exact .inr (storedTextBinary (empty ▸ service))
  · intro name text held valid
    have mem := resourceMem.mp held
    have utf8 : Bytes.validUtf8 text = true := by
      simp only [LabelSets.validValue,Bool.and_eq_true] at valid
      exact valid.2
    have stored : row.resource.get? name = some (.text text) :=
      (lookup name _).mpr (.inr ⟨_,mem,rfl,by simp [storedValue,utf8]⟩)
    simp [resourceLookup,stored]
  · intro name absent
    have missing : row.resource.get? name = none := by
      cases stored : row.resource.get? name with
      | none => rfl
      | some v =>
        cases (lookup name v).mp stored with
        | inl initial => simp [Dict.get?,Dict.empty] at initial
        | inr held =>
          obtain ⟨e,mem,spelled,_⟩ := held
          have valid := keys e mem
          cases key : e.1 with
          | binary text =>
            simp only [key,stringifyKey] at spelled
            have present := resourceMem.mpr (show (Term.binary name,e.2) ∈ resourceEntries r by
              rw [← spelled,← key]
              exact mem)
            simp [absent] at present
          | null => simp [key,validKey] at valid
          | flag => simp [key,validKey] at valid
          | atom => simp [key,validKey] at valid
          | other => simp [key,validKey] at valid
    simp [resourceLookup,missing]

theorem decodedEntries (resource : Dict Bytes Stored) :
    (Dict.ofList (resource.entries.map (fun e => (Term.binary e.1,decodedValue e.2)))).entries =
      resource.entries.map (fun e => (Term.binary e.1,decodedValue e.2)) := by
  have distinct : ((resource.entries.map (fun e => (Term.binary e.1,decodedValue e.2))).map Prod.fst).Nodup := by
    have injective : Function.Injective Term.binary := fun a b same => Term.binary.inj same
    simpa [map_map,Function.comp_def] using resource.distinct.map injective
  simpa [Dict.ofList,Dict.empty] using Dict.putAllFresh (m := Dict.empty) (by simp [Dict.keys,Dict.empty]) distinct

theorem agreesDecoded (row : Row) : Agrees (decodedRecord row.stream) row := by
  have entries := decodedEntries row.resource
  have lookup (name : Bytes) (t : Term) :
      (decodedRecord row.stream).resource.bind (fun map => map.get? (.binary name)) = some t ↔
        ∃ v, row.resource.get? name = some v ∧ decodedValue v = t := by
    simp [decodedRecord,Row.stream,Dict.getIff,entries]
  apply agreesOf
  · intro b rest isService
    cases held : row.service with
    | none => simp [decodedRecord,Row.stream,decodedText,held] at isService
    | some v => simpa [decodedRecord,Row.stream,decodedText,held] using isService
  · intro unpromoted
    cases held : row.service with
    | none => exact .inl rfl
    | some v => simpa [decodedRecord,Row.stream,decodedText,held] using unpromoted
  · intro name text held _
    obtain ⟨v,stored,decoded⟩ := (lookup name _).mp held
    cases v with
    | text bytes =>
      simp only [decodedValue,Term.binary.injEq] at decoded
      simp [resourceLookup,stored,decoded]
    | other => cases decoded
  · intro name absent
    cases stored : row.resource.get? name with
    | none => simp [resourceLookup,stored]
    | some v =>
      have present := (lookup name _).mpr ⟨v,stored,rfl⟩
      simp [absent] at present

theorem summarizedValue {name} (listed : name ∈ labelNames) :
    LabelSets.value (summarizedLabels r) name = labelText (logLabelValue r name) := by
  obtain ⟨v,held⟩ := Dict.memKeys.mp (show name ∈ (summarizedLabels r).keys by
    apply Dict.memKeysPutAll.mpr
    simpa [map_map,Function.comp_def] using Or.inr listed)
  obtain ⟨n,_,entry⟩ := mem_map.mp (Dict.getOfList held)
  cases entry
  simp [LabelSets.value,held]

variable {records : List Record}

theorem buildCovers {budget sizes} (each : ∀ row ∈ rows, ∃ r ∈ records, Agrees r row) :
    LabelSets.Covers streamLabel rows (LabelSets.build budget sizes (records.map summarizedLabels) labelNames) := by
  intro sets built name values found row mem
  obtain ⟨listed,complete⟩ := LabelSets.buildGet built found
  obtain ⟨r,inside,agrees⟩ := each row mem
  obtain ⟨text,isText,valid,held⟩ := complete _ (mem_map_of_mem inside)
  rw [summarizedValue listed] at isText
  exact (agrees name listed text isText valid).symm ▸ held

/- The ways a log segment gets its summary: on append, from the native grouper, by
compaction, and by being read back from a manifest. Rollups are no log rows. -/
inductive Summarized (spell : Nat → Bytes) (sizes : SummarySizes) : List Row → Segment → Prop where
  | appended {budget records rows s} : s.key.tier ≠ .rollup → encodeRows spell records = some rows →
      Summarized spell sizes rows (summarizeLogs budget sizes s records)
  | grouped {budget rows s} : s.key.tier ≠ .rollup → Summarized spell sizes rows (groupedSegment budget sizes s rows)
  | compacted {budget} {parts : List (List Row × Segment)} {rows s} : s.key.tier ≠ .rollup →
      (∀ p ∈ parts, Summarized spell sizes p.1 p.2) → rows.Perm (parts.flatMap Prod.fst) →
      Summarized spell sizes rows (compactedSegment budget sizes s (parts.map Prod.snd) rows)
  | received {rows s} : Summarized spell sizes rows s → Summarized spell sizes rows (Segment.received sizes s)

theorem encodeRowsMem {spell} (h : encodeRows spell records = some rows) :
    ∀ row ∈ rows, ∃ r ∈ records, encodeRow spell r = some row := by
  induction records generalizing rows with
  | nil =>
    cases h
    simp
  | cons r rest ih =>
    simp only [encodeRows,mapM_cons,Option.bind_eq_bind] at h
    obtain ⟨first,encoded,h⟩ := Option.bind_eq_some_iff.mp h
    obtain ⟨others,tail,h⟩ := Option.bind_eq_some_iff.mp h
    cases h
    refine forall_mem_cons.mpr ⟨⟨r,mem_cons_self,encoded⟩,fun row later => ?_⟩
    obtain ⟨x,inside,stored⟩ := ih tail row later
    exact ⟨x,mem_cons_of_mem _ inside,stored⟩

theorem describesAppended {spell budget sizes s}
    (h : encodeRows spell records = some rows) : Describes rows (summarizeLogs budget sizes s records) := by
  have origin := encodeRowsMem h
  constructor
  · intro all known row mem
    obtain ⟨r,inside,encoded⟩ := origin row mem
    obtain ⟨v,isText,valid,held⟩ := Services.completeGet known _ (mem_map_of_mem inside)
    have stored := (encodeRowInv encoded).1
    rw [labelTextBinary isText] at stored
    exact ⟨v,storedTextBinary stored,Services.validNonempty valid,held⟩
  · show LabelSets.Covers streamLabel rows (if _ then _ else none)
    split
    case isFalse =>
      intro sets known
      cases known
    rename_i valid
    apply buildCovers
    intro row mem
    obtain ⟨r,inside,encoded⟩ := origin row mem
    have keys := all_eq_true.mp (all_eq_true.mp valid r inside)
    exact ⟨r,inside,agreesEncoded encoded keys⟩

theorem describesGrouped {budget sizes} (s : Segment) (rows : List Row) :
    Describes rows (groupedSegment budget sizes s rows) := by
  constructor
  · exact servicesCoverValid (rowServicesCover rows)
  intro sets known
  obtain ⟨streams,reported,built⟩ := Option.bind_eq_some_iff.mp known
  have complete : ∀ row ∈ rows, row.stream ∈ streams := by
    intro row mem
    unfold groupStreams at reported
    simp only at reported
    split at reported
    · cases reported
      exact mem_dedup.mpr (mem_map_of_mem mem)
    · cases reported
  have covers : LabelSets.Covers streamLabel rows
      (LabelSets.build budget sizes ((streams.map decodedRecord).map summarizedLabels) labelNames) := by
    apply buildCovers
    intro row mem
    exact ⟨decodedRecord row.stream,mem_map_of_mem (complete row mem),agreesDecoded row⟩
  apply covers sets
  simpa [map_map,Function.comp_def] using built

theorem describesCompacted {budget sizes} {parts : List (List Row × Segment)} (s : Segment)
    (each : ∀ p ∈ parts, Describes p.1 p.2) (same : rows.Perm (parts.flatMap Prod.fst)) :
    Describes rows (compactedSegment budget sizes s (parts.map Prod.snd) rows) := by
  constructor
  · exact rowServicesCover rows
  let described := parts.map (fun p => (p.1,p.2.logLabels))
  have covers : LabelSets.Covers streamLabel (described.flatMap Prod.fst)
      (LabelSets.unionWithin budget sizes (described.map Prod.snd) labelNames) := by
    apply LabelSets.coversUnion
    intro p mem
    obtain ⟨part,inside,rfl⟩ := mem_map.mp mem
    exact (each part inside).labels
  intro sets known name values found row mem
  apply covers sets _ name values found row
  · simpa [described,flatMap_map] using same.subset mem
  · simpa [described,compactedSegment,map_map,Function.comp_def] using known

theorem summarizedDescribes {spell sizes rows s} (h : Summarized spell sizes rows s) :
    s.key.tier ≠ .rollup ∧ Describes rows s := by
  induction h with
  | appended plain encoded => exact ⟨plain,describesAppended encoded⟩
  | grouped plain => exact ⟨plain,describesGrouped _ _⟩
  | compacted plain _ same ih => exact ⟨plain,describesCompacted _ (fun p mem => (ih p mem).2) same⟩
  | received _ ih =>
    obtain ⟨plain,describes⟩ := ih
    exact ⟨plain,servicesCoverValid describes.services,LabelSets.coversParse describes.labels⟩

/-! Pruning is sound. -/

section Soundness
variable {engine : RegexEngine}

def Query.Compiled (q : Query engine) : Prop :=
  ∀ pattern regex, q.regexes.get? pattern = some (some regex) → engine.compile pattern = some regex

theorem compiledMatchers (rollups : Bool) (service : Option Bytes) (matchers : List Matcher) :
    (compileLogMatchers engine rollups service matchers).Compiled := by
  intro pattern regex held
  obtain ⟨m,_,entry⟩ := mem_map.mp (Dict.getOfList held)
  simp only [Prod.mk.injEq] at entry
  exact entry.1 ▸ entry.2

variable {q : Query engine}

theorem labelValuePasses (compiled : q.Compiled) {m value}
    (h : evaluatePresent engine m value = true) : labelValueMatches q m value = true := by
  have regex (positive : Bool)
      (holds : ∀ regex, engine.compile m.value = some regex → engine.isMatch regex value = positive) :
      regexMatches q m.value value positive = true := by
    unfold regexMatches
    split
    case h_1 regex held => simpa using holds regex (compiled _ _ held)
    case h_2 => rfl
  cases op : m.op with
  | eq => simpa [labelValueMatches,evaluatePresent,op] using h
  | neq => simpa [labelValueMatches,evaluatePresent,op] using h
  | re =>
    simp only [labelValueMatches,op]
    apply regex
    intro r native
    simpa [evaluatePresent,op,native] using h
  | nre =>
    simp only [labelValueMatches,op]
    apply regex
    intro r native
    simpa [evaluatePresent,op,native] using h

theorem servicesPass {rows services} (cover : ServicesCover rows services)
    {row} (mem : row ∈ rows) (direct : q.service = none ∨ q.service = row.service)
    (pass : matchersPass engine q.matchers row = true) : serviceMatches services q = true := by
  cases services with
  | none => rfl
  | some all =>
    obtain ⟨v,isService,nonempty,inside⟩ := cover all rfl row mem
    apply any_eq_true.mpr
    refine ⟨v,inside,?_⟩
    simp only [Bool.and_eq_true,Bool.or_eq_true,decide_eq_true_eq,all_eq_true]
    constructor
    · simpa [isService] using direct
    intro m listed
    have passes := all_eq_true.mp pass m listed
    rw [matcherPassesLabel] at passes
    split
    case isFalse => rfl
    rename_i equality
    have label : streamLabel row m.name = v := by
      cases v with
      | nil => exact absurd rfl nonempty
      | cons b rest => simp [streamLabel,equality.2,isService]
    simpa [evaluatePresent,equality.1,label] using passes

theorem labelsPass {rows labels} (cover : LabelSets.Covers streamLabel rows labels)
    (compiled : q.Compiled) {row} (mem : row ∈ rows) {matchers}
    (pass : matchersPass engine matchers row = true) : logLabelsMatch q matchers labels = true := by
  cases labels with
  | none => rfl
  | some sets =>
    apply all_eq_true.mpr
    intro m listed
    have passes := all_eq_true.mp pass m listed
    rw [matcherPassesLabel] at passes
    cases held : sets.get? m.name with
    | none => rfl
    | some values =>
      apply any_eq_true.mpr
      exact ⟨_,cover sets rfl m.name values held row mem,labelValuePasses compiled passes⟩

theorem segmentKept {spell sizes rows s} (h : Summarized spell sizes rows s) {matchers row}
    (mem : row ∈ rows) (pass : matchersPass engine matchers row = true) :
    matchesLogService s (compileLogMatchers engine false none matchers) = true := by
  obtain ⟨plain,describes⟩ := summarizedDescribes h
  have services : serviceMatches s.logServices (compileLogMatchers engine false none matchers) = true :=
    servicesPass describes.services mem (.inl rfl) pass
  have labels : logLabelsMatch (compileLogMatchers engine false none matchers) matchers s.logLabels = true :=
    labelsPass describes.labels (compiledMatchers _ _ _) mem pass
  have summary : summaryMatches (compileLogMatchers engine false none matchers) s.logServices s.logLabels = true := by
    simp only [summaryMatches,services,Bool.true_and]
    exact labels
  have direct : (compileLogMatchers engine false none matchers).rollups = false := rfl
  simp [matchesLogService,direct,plain,summary]

structure Weakens (own wide : Option (List Bytes) × Option LabelSets) : Prop where
  services : ∀ all, wide.1 = some all → ∃ kept, own.1 = some kept ∧ ∀ v ∈ kept, v ∈ all
  labels : ∀ sets, wide.2 = some sets → ∀ name values, sets.get? name = some values →
    ∃ kept all, own.2 = some kept ∧ kept.get? name = some all ∧ ∀ v ∈ all, v ∈ values

theorem weakerKeeps {own wide} (weaker : Weakens own wide)
    (h : summaryMatches q own.1 own.2 = true) : summaryMatches q wide.1 wide.2 = true := by
  simp only [summaryMatches,Bool.and_eq_true] at h ⊢
  constructor
  · cases known : wide.1 with
    | none => rfl
    | some all =>
      obtain ⟨kept,isOwn,inside⟩ := weaker.services all known
      have some := h.1
      rw [isOwn] at some
      obtain ⟨service,mem,matching⟩ := any_eq_true.mp some
      exact any_eq_true.mpr ⟨service,inside service mem,matching⟩
  · cases known : wide.2 with
    | none => rfl
    | some sets =>
      apply all_eq_true.mpr
      intro m listed
      cases held : sets.get? m.name with
      | none => rfl
      | some values =>
        obtain ⟨kept,all,isOwn,get,within⟩ := weaker.labels sets known m.name values held
        have every := h.2
        rw [isOwn] at every
        have matching := all_eq_true.mp every m listed
        simp only [get] at matching
        obtain ⟨value,mem,fits⟩ := any_eq_true.mp matching
        exact any_eq_true.mpr ⟨value,within value mem,fits⟩

variable {segments : List Segment}

theorem serviceUnionGet {all} (h : Segment.logServiceUnion segments = some all) {s} (mem : s ∈ segments) :
    ∃ kept, s.logServices = some kept ∧ ∀ v ∈ kept, v ∈ all := by
  unfold Segment.logServiceUnion at h
  split at h
  case isFalse => cases h
  rename_i known
  obtain ⟨kept,isOwn⟩ := Option.isSome_iff_exists.mp (all_eq_true.mp known s mem)
  simp only at h
  split at h
  case isFalse => cases h
  cases h
  refine ⟨kept,isOwn,?_⟩
  intro v inside
  have listed : v ∈ segments.flatMap (fun s => s.logServices.getD []) :=
    mem_flatMap.mpr ⟨s,mem,by simpa [isOwn] using inside⟩
  simpa [Bytes.sort] using listed

theorem pageWeakens {labelBytes pageBytes sizes page}
    (h : logPageSummaryWithin labelBytes pageBytes sizes segments = some page) {s} (mem : s ∈ segments)
    (plain : s.key.tier ≠ .rollup) :
    Weakens (s.logServices,s.logLabels)
      (page.services.bind Segment.validServices,page.labels.bind (LabelSets.parse sizes)) := by
  have described : s ∈ segments.filter (fun s => s.key.tier ≠ .rollup) := by simp [mem,plain]
  have candidate := mem_of_find?_eq_some h
  have services : page.services = Segment.logServiceUnion (segments.filter (fun s => s.key.tier ≠ .rollup)) := by
    simp only [mem_cons,not_mem_nil,or_false] at candidate
    cases candidate with
    | inl full => rw [full]
    | inr short => rw [short]
  constructor
  · intro all known
    obtain ⟨union,isUnion,accepted⟩ := Option.bind_eq_some_iff.mp known
    have same := validServicesKept accepted
    subst same
    exact serviceUnionGet (services ▸ isUnion) described
  intro sets known name values found
  obtain ⟨union,isUnion,accepted⟩ := Option.bind_eq_some_iff.mp known
  have same : union = sets := by
    unfold LabelSets.parse at accepted
    split at accepted
    · exact Option.some.inj accepted
    · cases accepted
  subst same
  simp only [mem_cons,not_mem_nil,or_false] at candidate
  cases candidate with
  | inr short =>
    rw [short] at isUnion
    cases isUnion
  | inl full =>
    rw [full] at isUnion
    exact (LabelSets.unionGet isUnion found).2 s.logLabels (mem_map_of_mem described)

theorem pageKept {sizes} (labelBytes pageBytes : Nat) {s} (mem : s ∈ segments) (h : matchesLogService s q = true) :
    logPageMatches sizes (logPageSummaryWithin labelBytes pageBytes sizes segments) q = true := by
  cases summary : logPageSummaryWithin labelBytes pageBytes sizes segments with
  | none => rfl
  | some page =>
    unfold matchesLogService at h
    split at h
    case isTrue rollups => simp [logPageMatches,rollups]
    simp only [Bool.and_eq_true,decide_eq_true_eq] at h
    have kept := weakerKeeps (pageWeakens summary mem h.1) h.2
    simp [logPageMatches,kept]

/- No matching row is lost: neither the segment's own test nor that of a page skips it. -/
theorem logPruningSound (spell : Nat → Bytes) (sizes : SummarySizes) (engine : RegexEngine) :
    (∀ rows s, Summarized spell sizes rows s → ∀ matchers, (∃ row ∈ rows, matchersPass engine matchers row = true) →
      matchesLogService s (compileLogMatchers engine false none matchers) = true) ∧
    (∀ labelBytes pageBytes (segments : List Segment), segments ≠ [] → ∀ q : Query engine,
      (∃ s ∈ segments, matchesLogService s q = true) →
      logPageMatches sizes (logPageSummaryWithin labelBytes pageBytes sizes segments) q = true) := by
  constructor
  · intro rows s summarized matchers selected
    obtain ⟨row,mem,pass⟩ := selected
    exact segmentKept summarized mem pass
  intro labelBytes pageBytes segments _ q kept
  obtain ⟨s,mem,own⟩ := kept
  exact pageKept labelBytes pageBytes mem own

end Soundness

namespace Sample

-- every encoding takes one byte and a regex is a literal
def sizes : SummarySizes := ⟨fun _ => 1,fun _ => 1,fun _ => 1,fun _ => 1,fun _ => 1⟩
def engine : RegexEngine := ⟨Bytes,some,fun regex value => regex = value⟩
def spell : Nat → Bytes := fun _ => []

def job (op : MatchOp) (value : Bytes) : Matcher := ⟨ascii "job",op,value⟩
def record (value : Bytes) : Record := ⟨.null,.null,some (Dict.empty.put (.binary (ascii "job")) (.binary value))⟩
def row (value : Bytes) : Row := ⟨none,none,Dict.empty.put (ascii "job") (.text value)⟩
def blank : Segment := ⟨[97],0,0,none,none,none,none,none,none,none⟩
def segment : Segment := summarizeLogs LabelSets.maxBytes sizes blank [record [1],record [2]]
def query (op : MatchOp) (value : Bytes) : Query engine := compileLogMatchers engine false none [job op value]

theorem segmentSummarized : Summarized spell sizes [row [1],row [2]] segment :=
  .appended (by decide +kernel) (by decide +kernel)

end Sample

theorem logPruningSoundJobs : matchersPass Sample.engine [Sample.job .re [2]] (Sample.row [2]) = true ∧
    matchesLogService Sample.segment (Sample.query .re [2]) = true ∧
    logPageMatches Sample.sizes (logPageSummaryWithin 4096 2048 Sample.sizes [Sample.segment]) (Sample.query .re [2]) = true ∧
    matchesLogService Sample.segment (Sample.query .re [3]) = false ∧
    logPageMatches Sample.sizes (logPageSummaryWithin 4096 2048 Sample.sizes [Sample.segment]) (Sample.query .re [3]) = false := by
  have pass : matchersPass Sample.engine [Sample.job .re [2]] (Sample.row [2]) = true := by decide +kernel
  obtain ⟨segments,pages⟩ := logPruningSound Sample.spell Sample.sizes Sample.engine
  have kept : matchesLogService Sample.segment (Sample.query .re [2]) = true :=
    segments _ _ Sample.segmentSummarized [Sample.job .re [2]] ⟨Sample.row [2],by simp,pass⟩
  have page := pages 4096 2048 [Sample.segment] (by simp) (Sample.query .re [2]) ⟨Sample.segment,by simp,kept⟩
  exact ⟨pass,kept,page,by decide +kernel,by decide +kernel⟩

end Pulso.Logs
