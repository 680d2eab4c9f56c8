import Pulso.AttributePruning

/-! The summary of a trace segment, however it was made, describes its spans, and the
summary of a page describes the spans of all its segments. -/
namespace Pulso.Traces
open List

/-! Trace id sets. -/

theorem setAllBit (bits : Nat) (ps : List Nat) (p : Nat) :
    (Bloom.setAll bits ps).testBit p = (bits.testBit p || p ∈ ps) := by
  induction ps generalizing bits with
  | nil => simp [Bloom.setAll]
  | cons q qs ih =>
    have step : Bloom.setAll bits (q::qs) = Bloom.setAll (bits ||| 1 <<< q) qs := rfl
    rw [step,ih]
    simp only [Nat.testBit_or,Nat.one_shiftLeft,Nat.testBit_two_pow,mem_cons,Bool.or_assoc]
    by_cases same : p = q
    · simp [same]
    · simp [same,Ne.symm same]

theorem foldSets {α : Type} (f : α → List Nat) (xs : List α) (bits : Nat) (p : Nat) :
    (xs.foldl (fun bits x => Bloom.setAll bits (f x)) bits).testBit p = true ↔
      bits.testBit p = true ∨ ∃ x ∈ xs, p ∈ f x := by
  induction xs generalizing bits with
  | nil => simp
  | cons x xs ih =>
    simp only [foldl_cons,ih,setAllBit,Bool.or_eq_true,decide_eq_true_eq,mem_cons,exists_eq_or_imp,or_assoc]

theorem foldHasAll {α : Type} (f : α → List Nat) {xs : List α} {x} (mem : x ∈ xs) (bits : Nat) :
    Bloom.hasAll (xs.foldl (fun bits x => Bloom.setAll bits (f x)) bits) (f x) = true := by
  apply all_eq_true.mpr
  intro p inside
  exact (foldSets f xs bits p).mpr (.inr ⟨x,mem,inside⟩)

theorem hasAllMono {small large} (grows : ∀ p, small.testBit p = true → large.testBit p = true) {ps}
    (h : Bloom.hasAll small ps = true) : Bloom.hasAll large ps = true := by
  apply all_eq_true.mpr
  intro p mem
  exact grows p (all_eq_true.mp h p mem)

variable {all : List Bytes}

theorem collectIdsMem {xs ids} (h : collectIds xs ids = some all) : (∀ id ∈ ids, id ∈ all) ∧ ∀ x ∈ xs, x ∈ all := by
  induction xs generalizing ids with
  | nil =>
    cases h
    exact ⟨fun _ mem => mem,by simp⟩
  | cons x xs ih =>
    simp only [collectIds] at h
    split at h
    case isFalse => cases h
    obtain ⟨kept,others⟩ := ih h
    exact ⟨fun id mem => kept id (mem_insert_of_mem mem),forall_mem_cons.mpr ⟨kept x mem_insert_self,others⟩⟩

section Description
variable (hash : Hash)

structure Covers (rows : List Span) (s : TraceSummary) : Prop where
  services : ∀ all, s.services = some all → ∀ r ∈ rows, ∃ v, r.service = some v ∧ v ∈ all
  bits : ∀ b, s.bits = some b → ∀ r ∈ rows, Bloom.hasAll b.bits (positions hash r.traceId b.size) = true
  hashes : ∀ all, s.lookupHashes = some all → ∀ r ∈ rows, lookupHash hash r.traceId ∈ all
  canonical : ∀ b, s.lookupBits = some b → ∀ r ∈ rows, b.hasHash (lookupHash hash r.traceId) = true
  safe : s.pruningSafe = true → ∀ r ∈ rows, r.metadataSafe = true
  statuses : ∀ all, s.statuses = some all → ∀ r ∈ rows, ∃ c, statusClass r.statusCode = some c ∧ c ∈ all
  events : ∀ all, s.statuses = some all → s.events = false → ∀ r ∈ rows, r.hasEvents = false
  attributes : MaybeCover rows s.attributes

variable {hash} {rows : List Span}

theorem rowServicesCover (h : rowServices rows = some all) : ∀ r ∈ rows, ∃ v, r.service = some v ∧ v ∈ all := by
  intro r mem
  obtain ⟨v,same,_,inside⟩ := Services.completeGet h r.service (mem_map_of_mem mem)
  exact ⟨v,same,inside⟩

theorem mapMSomeMem {xs : List (Option Nat)} {all} (h : xs.mapM id = some all) :
    ∀ x ∈ xs, ∃ c, x = some c ∧ c ∈ all := by
  induction xs generalizing all with
  | nil => simp
  | cons x xs ih =>
    simp only [mapM_cons,id,Option.bind_eq_bind] at h
    obtain ⟨c,isSome,h⟩ := Option.bind_eq_some_iff.mp h
    obtain ⟨rest,tail,h⟩ := Option.bind_eq_some_iff.mp h
    cases h
    refine forall_mem_cons.mpr ⟨⟨c,isSome,mem_cons_self⟩,fun y later => ?_⟩
    obtain ⟨d,isD,inside⟩ := ih tail y later
    exact ⟨d,isD,mem_cons_of_mem _ inside⟩

theorem sortStatusesMem {statuses c} : c ∈ TraceSummary.sortStatuses statuses ↔ c ∈ statuses := by
  simp [TraceSummary.sortStatuses]

def ClassesOf (rows : List Span) (classes : Classes) : Prop := classes.statuses = none ∨ classes = rowClasses rows

theorem idSummaryHolds {ids : Option (List Bytes)} {exact id} (mem : ∀ all, ids = some all → id ∈ all) :
    let s := idSummary hash exact ids
    (∀ b, s.bits = some b → Bloom.hasAll b.bits (positions hash id b.size) = true) ∧
      (∀ all, s.lookupHashes = some all → lookupHash hash id ∈ all) ∧
      ∀ b, s.lookupBits = some b → b.hasHash (lookupHash hash id) = true := by
  cases ids with
  | none => simp [idSummary,unknownSummary]
  | some all =>
    have listed := mem all rfl
    simp only [idSummary,lookupHashes]
    refine ⟨fun b isSome => ?_,fun hashes isSome => ?_,fun b isSome => ?_⟩
    all_goals
      split at isSome
      case isFalse => cases isSome
      cases isSome
    · exact foldHasAll (fun id => positions hash id _) listed 0
    · simp only [mem_insertionSort,mem_dedup]
      exact mem_map_of_mem listed
    · exact foldHasAll (fun id => Bloom.lookupPositions (lookupHash hash id) _) listed 0

theorem summaryCovers {safe : Bool} {classes exact attributes}
    (proof : safe = true → ∀ r ∈ rows, r.metadataSafe = true) (classed : ClassesOf rows classes)
    (known : MaybeCover rows attributes) :
    Covers hash rows { summaryOf hash (rowServices rows) (rowIds rows) safe classes exact with attributes := attributes } := by
  have ids : ∀ r ∈ rows, ∀ all, rowIds rows = some all → r.traceId ∈ all := by
    intro r mem all collected
    exact (collectIdsMem collected).2 r.traceId (mem_map_of_mem mem)
  have statuses : ∀ all, (if safe then (classes.statuses.bind (List.mapM id)).map TraceSummary.sortStatuses else none) = some all →
      classes = rowClasses rows ∧ ∀ r ∈ rows, ∃ c, statusClass r.statusCode = some c ∧ c ∈ all := by
    intro all isSome
    split at isSome
    case isFalse => cases isSome
    obtain ⟨found,bound,rfl⟩ := Option.map_eq_some_iff.mp isSome
    obtain ⟨listed,isListed,mapped⟩ := Option.bind_eq_some_iff.mp bound
    cases classed with
    | inl none => simp [none] at isListed
    | inr own =>
      refine ⟨own,?_⟩
      intro r mem
      subst own
      cases isListed
      have inside : statusClass r.statusCode ∈ (rows.map (fun r => statusClass r.statusCode)).dedup :=
        mem_dedup.mpr (mem_map.mpr ⟨r,mem,rfl⟩)
      obtain ⟨c,isC,held⟩ := mapMSomeMem mapped _ inside
      exact ⟨c,isC,sortStatusesMem.mpr held⟩
  constructor
  · exact fun all isSome => rowServicesCover isSome
  · exact fun b isSome r mem => (idSummaryHolds (ids r mem)).1 b isSome
  · exact fun hashes isSome r mem => (idSummaryHolds (ids r mem)).2.1 hashes isSome
  · exact fun b isSome r mem => (idSummaryHolds (ids r mem)).2.2 b isSome
  · exact proof
  · exact fun all isSome => (statuses all isSome).2
  · intro all isSome quiet r mem
    obtain ⟨own,_⟩ := statuses all isSome
    have silent : classes.events = false := by
      simp only [summaryOf,Bool.or_eq_false_iff] at quiet
      exact quiet.2
    subst own
    simp only [rowClasses,any_eq_false] at silent
    simpa using silent r mem
  · exact known

theorem parseServicesKept {services} (h : TraceSummary.parseServices services = some all) : services = some all := by
  unfold TraceSummary.parseServices at h
  split at h
  · simp only at h
    split at h
    · cases h
      rfl
    · cases h
  · cases h

variable {b : Bloom}

theorem parseBitsKept {bits} (h : TraceSummary.parseBits bits = some b) : bits = some b := by
  unfold TraceSummary.parseBits at h
  split at h
  · split at h
    · cases h
      rfl
    · cases h
  · cases h

theorem parseCanonicalKept {bits} (h : TraceSummary.parseCanonical bits = some b) :
    bits = some b ∧ b.bytes = TraceSummary.canonicalBytes := by
  obtain ⟨parsed,size⟩ := Option.filter_eq_some_iff.mp h
  exact ⟨parseBitsKept parsed,of_decide_eq_true size⟩

theorem parseHashesKept {hashes all} (h : TraceSummary.parseHashes hashes = some all) : hashes = some all := by
  unfold TraceSummary.parseHashes at h
  split at h
  · split at h
    · cases h
      rfl
    · cases h
  · cases h

theorem parseStatusesKept {statuses all}
    (h : TraceSummary.parseStatuses statuses = some all) : ∃ own, statuses = some own ∧ ∀ c, c ∈ all ↔ c ∈ own := by
  unfold TraceSummary.parseStatuses at h
  split at h
  case h_2 => cases h
  rename_i s rest
  simp only at h
  split at h
  · cases h
    exact ⟨s::rest,rfl,fun c => sortStatusesMem⟩
  · cases h

theorem persistedCovers {s} (h : Covers hash rows s) : Covers hash rows (TraceSummary.persisted s) := by
  constructor
  · exact fun all isSome => h.services all (parseServicesKept isSome)
  · exact fun b isSome => h.bits b (parseBitsKept isSome)
  · exact fun all isSome => h.hashes all (parseHashesKept isSome)
  · exact fun b isSome => h.canonical b (parseCanonicalKept isSome).1
  · exact h.safe
  · intro all isSome r mem
    obtain ⟨own,isOwn,same⟩ := parseStatusesKept isSome
    obtain ⟨c,isC,inside⟩ := h.statuses own isOwn r mem
    exact ⟨c,isC,(same c).mpr inside⟩
  · intro all isSome quiet
    obtain ⟨own,isOwn,_⟩ := parseStatusesKept isSome
    have parsed : TraceSummary.parseStatuses s.statuses = some all := isSome
    simp only [TraceSummary.persisted,parsed] at quiet
    exact h.events own isOwn quiet
  · exact parseCover h.attributes

def MaybeCovers (hash : Hash) (rows : List Span) (s : Option TraceSummary) : Prop :=
  ∀ known, s = some known → Covers hash rows known

theorem ownerCoversSubset {maps others o} (h : OwnerCovers maps o)
    (subset : ∀ m ∈ others, m ∈ maps) : OwnerCovers others o where
  listed key values found map mem := h.listed key values found map (subset map mem)
  complete known map mem := h.complete known map (subset map mem)

theorem maybeCoverSubset {others s} (h : MaybeCover rows s)
    (subset : ∀ r ∈ others, r ∈ rows) : MaybeCover others s := by
  intro known isSome
  have within (field : Span → Option Projection) : ∀ m ∈ others.map field, m ∈ rows.map field := by
    intro m mem
    obtain ⟨r,inside,rfl⟩ := mem_map.mp mem
    exact mem_map_of_mem (subset r inside)
  exact ⟨ownerCoversSubset (h known isSome).resource (within _),ownerCoversSubset (h known isSome).span (within _)⟩

theorem allSafe (h : rows.all Span.metadataSafe = true) : ∀ r ∈ rows, r.metadataSafe = true :=
  all_eq_true.mp h

theorem partsAttributes {parts : List (List Span × Option TraceSummary)} (each : ∀ p ∈ parts, MaybeCovers hash p.1 p.2)
    (budget : Nat) (sizes : SummarySizes) :
    MaybeCover (parts.flatMap Prod.fst)
      (mergeAttributes budget sizes ((parts.map Prod.snd).map (fun s => s.bind TraceSummary.attributes))) := by
  let described := parts.map (fun p => (p.1,p.2.bind TraceSummary.attributes))
  have covers : MaybeCover (described.flatMap Prod.fst) (mergeAttributes budget sizes (described.map Prod.snd)) := by
    apply mergeAttributesCover
    intro p mem
    obtain ⟨part,inside,rfl⟩ := mem_map.mp mem
    intro known isSome
    obtain ⟨s,isSummary,attributes⟩ := Option.bind_eq_some_iff.mp isSome
    exact (each part inside s isSummary).attributes known attributes
  simpa [described,flatMap_map,map_map,Function.comp_def] using covers

theorem summarizedCovers {sizes rows s} (h : Summarized sizes hash rows s) : MaybeCovers hash rows s := by
  induction h with
  | unknown =>
    intro known isSome
    cases isSome
  | appended =>
    intro known isSome
    cases isSome
    exact summaryCovers allSafe (.inr rfl) (buildAttributesCover _ _ _)
  | unproven =>
    intro known isSome
    cases isSome
    exact summaryCovers (by simp) (.inr rfl) (buildAttributesCover _ _ _)
  | split =>
    intro known isSome
    cases isSome
    exact summaryCovers allSafe (.inr rfl) (buildAttributesCover _ _ _)
  | compacted _ same ih =>
    intro known isSome
    cases isSome
    exact summaryCovers allSafe (.inl rfl) (maybeCoverSubset (partsAttributes ih _ _) (fun r mem => same.subset mem))
  | received _ ih =>
    intro known isSome
    cases isSome
    exact persistedCovers (ih _ rfl)

/-! Pages. -/

variable (hash) in
structure PageCovers (rows : List Span) (p : TracePage) : Prop where
  services : ∀ all, p.services = some all → ∀ r ∈ rows, ∃ v, r.service = some v ∧ v ∈ all
  bits : ∀ b, p.bits = some b → ∀ r ∈ rows, b.hasHash (lookupHash hash r.traceId) = true
  safe : p.pruningSafe = true → ∀ r ∈ rows, r.metadataSafe = true
  statuses : ∀ all, p.statuses = some all → ∀ r ∈ rows, ∃ c, statusClass r.statusCode = some c ∧ c ∈ all
  events : p.noEvents = true → ∀ r ∈ rows, r.hasEvents = false
  attributes : MaybeCover rows p.attributes

abbrev Parts := List (List Span × Option TraceSummary)

def rowsOf (parts : Parts) : List Span := parts.flatMap Prod.fst
def summariesOf (parts : Parts) : List (Option TraceSummary) := parts.map Prod.snd

variable {parts : Parts}

theorem rowsOfPart {r} (h : r ∈ rowsOf parts) : ∃ p ∈ parts, r ∈ p.1 := mem_flatMap.mp h

variable {summaries : List (Option TraceSummary)}

theorem collectPageServices {acc} (h : TraceSummary.collectServices summaries acc = some all) :
    (∀ v ∈ acc, v ∈ all) ∧ ∀ s ∈ summaries, ∃ known own, s = some known ∧ known.services = some own ∧ ∀ v ∈ own, v ∈ all := by
  induction summaries generalizing acc with
  | nil =>
    cases h
    exact ⟨fun _ mem => mem,by simp⟩
  | cons s rest ih =>
    simp only [TraceSummary.collectServices] at h
    split at h
    case h_2 => cases h
    rename_i v vs held
    split at h
    case isFalse => cases h
    obtain ⟨kept,others⟩ := ih h
    obtain ⟨known,isKnown,services⟩ := Option.bind_eq_some_iff.mp held
    refine ⟨fun x mem => kept x (by simp [mem]),forall_mem_cons.mpr ⟨⟨known,v::vs,isKnown,services,fun y inside => ?_⟩,others⟩⟩
    have listed : y ∈ acc ++ (v::vs) := mem_append_right _ inside
    exact kept y (mem_dedup.mpr listed)

theorem pageServicesCover {sizes} (each : ∀ p ∈ parts, MaybeCovers hash p.1 p.2)
    (h : TraceSummary.pageServices sizes (summariesOf parts) = some all) :
    ∀ r ∈ rowsOf parts, ∃ v, r.service = some v ∧ v ∈ all := by
  intro r mem
  obtain ⟨p,inside,held⟩ := rowsOfPart mem
  unfold TraceSummary.pageServices at h
  split at h
  case h_2 => cases h
  rename_i services collected
  simp only at h
  split at h
  case isFalse => cases h
  cases h
  obtain ⟨known,own,isKnown,listed,kept⟩ := (collectPageServices collected).2 p.2 (mem_map_of_mem inside)
  obtain ⟨v,isService,found⟩ := (each p inside known isKnown).services own listed r held
  exact ⟨v,isService,by simpa [Bytes.sort] using kept v found⟩

theorem pageHashesGet {acc all} (h : TraceSummary.pageHashes summaries acc = some all) :
    (∀ v ∈ acc, v ∈ all) ∧ ∀ s ∈ summaries, ∃ known own, s = some known ∧ known.lookupHashes = some own ∧ ∀ v ∈ own, v ∈ all := by
  induction summaries generalizing acc with
  | nil =>
    cases h
    exact ⟨fun _ mem => mem,by simp⟩
  | cons s rest ih =>
    simp only [TraceSummary.pageHashes] at h
    split at h
    case h_2 => cases h
    rename_i hashes held
    obtain ⟨kept,others⟩ := ih h
    obtain ⟨known,isKnown,own⟩ := Option.bind_eq_some_iff.mp held
    exact ⟨fun x mem => kept x (by simp [mem]),
      forall_mem_cons.mpr ⟨⟨known,hashes,isKnown,own,fun y inside => kept y (by simp [inside])⟩,others⟩⟩

theorem pageCanonicalGet {acc : Nat} (h : TraceSummary.pageCanonical summaries acc = some b) :
    b.bytes = TraceSummary.canonicalBytes ∧ (∀ p, acc.testBit p = true → b.bits.testBit p = true) ∧
    ∀ s ∈ summaries, ∃ known, s = some known ∧
      ((∃ own, known.lookupBits = some own ∧ ∀ p, own.bits.testBit p = true → b.bits.testBit p = true) ∨
       (∃ own, known.lookupHashes = some own ∧ ∀ v ∈ own,
          Bloom.hasAll b.bits (Bloom.lookupPositions v (TraceSummary.canonicalBytes * 8)) = true)) := by
  induction summaries generalizing acc with
  | nil =>
    cases h
    exact ⟨rfl,fun _ set => set,by simp⟩
  | cons s rest ih =>
    cases s with
    | none => cases h
    | some known =>
      simp only [TraceSummary.pageCanonical] at h
      split at h
      case h_1 bits held =>
        obtain ⟨size,kept,others⟩ := ih h
        exact ⟨size,fun p set => kept p (by simp [set]),
          forall_mem_cons.mpr ⟨⟨known,rfl,.inl ⟨bits,held,fun p set => kept p (by simp [set])⟩⟩,others⟩⟩
      case h_2 hashes _ held =>
        obtain ⟨size,kept,others⟩ := ih h
        have folded (p : Nat) := foldSets (fun v => Bloom.lookupPositions v (TraceSummary.canonicalBytes * 8)) hashes acc p
        refine ⟨size,fun p set => kept p ((folded p).mpr (.inl set)),
          forall_mem_cons.mpr ⟨⟨known,rfl,.inr ⟨hashes,held,fun v inside => ?_⟩⟩,others⟩⟩
        exact hasAllMono kept (foldHasAll (fun v => Bloom.lookupPositions v _) inside acc)
      case h_3 => cases h

def pageBits (summaries : List (Option TraceSummary)) : Option Bloom :=
  match TraceSummary.pageHashes summaries [] with
  | some hashes => some (TraceSummary.pageBloom hashes)
  | none => TraceSummary.pageCanonical summaries 0

theorem pageBitsCover (each : ∀ p ∈ parts, MaybeCovers hash p.1 p.2)
    (sized : ∀ p ∈ parts, ∀ known b, p.2 = some known → known.lookupBits = some b → b.bytes = TraceSummary.canonicalBytes)
    (h : pageBits (summariesOf parts) = some b) :
    ∀ r ∈ rowsOf parts, b.hasHash (lookupHash hash r.traceId) = true := by
  intro r mem
  obtain ⟨p,inside,held⟩ := rowsOfPart mem
  have listed : p.2 ∈ summariesOf parts := mem_map_of_mem inside
  unfold pageBits at h
  split at h
  case h_1 hashes complete =>
    cases h
    obtain ⟨known,own,isKnown,isOwn,kept⟩ := (pageHashesGet complete).2 p.2 listed
    have found := kept _ ((each p inside known isKnown).hashes own isOwn r held)
    exact foldHasAll (fun v => Bloom.lookupPositions v _) found 0
  obtain ⟨size,_,sources⟩ := pageCanonicalGet h
  obtain ⟨known,isKnown,source⟩ := sources p.2 listed
  have width : b.size = TraceSummary.canonicalBytes * 8 := by simp [Bloom.size,size]
  unfold Bloom.hasHash
  rw [width]
  cases source with
  | inl bloom =>
    obtain ⟨own,isOwn,grows⟩ := bloom
    have present := (each p inside known isKnown).canonical own isOwn r held
    have ownWidth : own.size = TraceSummary.canonicalBytes * 8 := by
      simp [Bloom.size,sized p inside known own isKnown isOwn]
    unfold Bloom.hasHash at present
    rw [ownWidth] at present
    exact hasAllMono grows present
  | inr exact' =>
    obtain ⟨own,isOwn,all⟩ := exact'
    exact all _ ((each p inside known isKnown).hashes own isOwn r held)

theorem safeAll (each : ∀ p ∈ parts, MaybeCovers hash p.1 p.2)
    (h : (summariesOf parts).all TraceSummary.safe = true) : ∀ r ∈ rowsOf parts, r.metadataSafe = true := by
  intro r mem
  obtain ⟨p,inside,held⟩ := rowsOfPart mem
  have safe := all_eq_true.mp h p.2 (mem_map_of_mem inside)
  cases known : p.2 with
  | none => simp [known,TraceSummary.safe] at safe
  | some s =>
    simp only [known,TraceSummary.safe,Option.map_some,Option.getD_some] at safe
    exact (each p inside s known).safe safe r held

theorem classedPart {p} (mem : p ∈ parts) (h : (summariesOf parts).all TraceSummary.classed = true) :
    ∃ s statuses, p.2 = some s ∧ s.statuses = some statuses := by
  have classed := all_eq_true.mp h p.2 (mem_map_of_mem mem)
  cases known : p.2 with
  | none => simp [known,TraceSummary.classed,TraceSummary.safe] at classed
  | some s =>
    cases listed : s.statuses with
    | none => simp [known,TraceSummary.classed,listed] at classed
    | some statuses => exact ⟨s,statuses,rfl,listed⟩

variable (each : ∀ p ∈ parts, MaybeCovers hash p.1 p.2)
include each

theorem pageClassesCover {page} (h : PageCovers hash (rowsOf parts) page) :
    PageCovers hash (rowsOf parts) (TraceSummary.putPageClasses (summariesOf parts) page) := by
  unfold TraceSummary.putPageClasses
  split
  case isFalse => exact h
  rename_i known
  simp only
  split
  · exact h
  constructor
  · exact h.services
  · exact h.bits
  · exact h.safe
  · intro all isSome r mem
    cases isSome
    obtain ⟨p,inside,held⟩ := rowsOfPart mem
    obtain ⟨s,statuses,isKnown,listed⟩ := classedPart inside known.2
    obtain ⟨c,isC,found⟩ := (each p inside s isKnown).statuses statuses listed r held
    refine ⟨c,isC,sortStatusesMem.mpr (mem_flatMap.mpr ⟨p.2,mem_map_of_mem inside,?_⟩)⟩
    simpa [isKnown,listed] using found
  · intro quiet r mem
    obtain ⟨p,inside,held⟩ := rowsOfPart mem
    obtain ⟨s,statuses,isKnown,listed⟩ := classedPart inside known.2
    simp only [Bool.not_eq_true',any_eq_false] at quiet
    have silent := quiet p.2 (mem_map_of_mem inside)
    simp only [isKnown,Option.map_some,Option.getD_some,Bool.not_eq_true] at silent
    exact (each p inside s isKnown).events statuses listed silent r held
  · exact h.attributes

theorem pageAttributesCover {sizes} {page : TracePage} (h : PageCovers hash (rowsOf parts) page) :
    PageCovers hash (rowsOf parts) (TraceSummary.putPageAttributes sizes (summariesOf parts) page) := by
  have merged : MaybeCover (rowsOf parts) (AttributeSummary.merge sizes
      ((summariesOf parts).map (fun s => s.bind TraceSummary.attributes))) := by
    exact partsAttributes each _ _
  cases found : AttributeSummary.merge sizes ((summariesOf parts).map (fun s => s.bind TraceSummary.attributes)) with
  | none =>
    simp only [TraceSummary.putPageAttributes,found,ite_self]
    exact h
  | some a =>
    simp only [TraceSummary.putPageAttributes,found]
    split
    case isFalse => exact h
    constructor
    · exact h.services
    · exact h.bits
    · exact h.safe
    · exact h.statuses
    · exact h.events
    intro known isSome
    cases isSome
    exact merged a found

theorem pageSummaryCovers {sizes} :
    PageCovers hash (rowsOf parts) (TraceSummary.pageSummary sizes (summariesOf parts)) := by
  let stored : Parts := parts.map (fun p => (p.1,p.2.map TraceSummary.persisted))
  have sameRows : rowsOf stored = rowsOf parts := by simp [stored,rowsOf,flatMap_map]
  have sameSummaries : summariesOf stored = (summariesOf parts).map (fun s => s.map TraceSummary.persisted) := by
    simp [stored,summariesOf,map_map,Function.comp_def]
  have kept : ∀ p ∈ stored, MaybeCovers hash p.1 p.2 := by
    intro p mem known isSome
    obtain ⟨part,inside,rfl⟩ := mem_map.mp mem
    obtain ⟨s,isS,rfl⟩ := Option.map_eq_some_iff.mp isSome
    exact persistedCovers (each part inside s isS)
  have sized : ∀ p ∈ stored, ∀ known b, p.2 = some known → known.lookupBits = some b →
      b.bytes = TraceSummary.canonicalBytes := by
    intro p mem known b isSome bits
    obtain ⟨part,inside,rfl⟩ := mem_map.mp mem
    obtain ⟨s,isS,rfl⟩ := Option.map_eq_some_iff.mp isSome
    exact (parseCanonicalKept bits).2
  have page : PageCovers hash (rowsOf stored)
      ⟨TraceSummary.pageServices sizes (summariesOf stored),pageBits (summariesOf stored),
        (TraceSummary.pageServices sizes (summariesOf stored)).isSome && (summariesOf stored).all TraceSummary.safe,
        none,false,none⟩ := by
    constructor
    · exact fun all isSome => pageServicesCover kept isSome
    · exact fun b isSome => pageBitsCover kept sized isSome
    · intro safe
      exact safeAll kept (Bool.and_eq_true_iff.mp safe).2
    · intro all isSome
      cases isSome
    · intro quiet
      cases quiet
    · intro known isSome
      cases isSome
  have whole : PageCovers hash (rowsOf stored) (TraceSummary.putPageAttributes sizes (summariesOf stored) _) :=
    pageAttributesCover kept (pageClassesCover kept page)
  rw [← sameRows]
  rw [sameSummaries] at whole
  exact whole

end Description

end Pulso.Traces
