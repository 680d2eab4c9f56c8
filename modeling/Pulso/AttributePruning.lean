import Pulso.TraceBuild

/-! Attribute summaries describe the string values of the rows they were collected from,
and keep doing so when they are fitted to a budget, parsed and merged. -/
namespace Pulso.Traces
open AttributeSummary (maxKeys validKey validValue)
open List

def HasText (map : Option Projection) (key text : Bytes) : Prop :=
  ∃ p, map = some p ∧ p.get? key = some (.text text)

/- A listed key has all the strings the maps hold for it; a complete owner lists every key. -/
structure OwnerCovers (maps : List (Option Projection)) (o : AttributeOwner) : Prop where
  listed : ∀ key values, o.keys.get? key = some (some values) →
    ∀ map ∈ maps, ∀ text, HasText map key text → text ∈ values
  complete : o.complete = true → ∀ map ∈ maps, ∀ key text, HasText map key text → key ∈ o.keys.keys

/-! Collecting. -/

structure Collected (seen : List (Bytes × Value)) (o : AttributeOwner) : Prop where
  listed : ∀ key values, o.keys.get? key = some (some values) → ∀ text, (key,.text text) ∈ seen → text ∈ values
  dropped : ∀ key text, (key,Value.text text) ∈ seen → key ∈ o.keys.keys ∨
    (o.complete = false ∧ (validKey key = false ∨ maxKeys ≤ o.keys.size))

theorem putValueKeeps {set all value} (h : putValue set value = some all) : value ∈ all ∧ ∀ v ∈ set, v ∈ all := by
  unfold putValue at h
  split at h
  case isFalse => cases h
  simp only at h
  split at h
  · cases h
  · cases h
    exact ⟨mem_insert_self,fun v mem => mem_insert_of_mem mem⟩

variable {seen : List (Bytes × Value)} {o : AttributeOwner} (h : Collected seen o)
include h

theorem collectedPut {key value set} (before : ∀ text, (key,Value.text text) ∈ seen → text ∈ set) :
    Collected (seen ++ [(key,.text value)]) ⟨o.keys.put key (putValue set value),o.complete⟩ := by
  constructor
  · intro k values found text mem
    by_cases same : k = key
    · subst same
      have put := (Dict.getPutSame o.keys k (putValue set value)).symm.trans found
      obtain ⟨added,kept⟩ := putValueKeeps (Option.some.inj put)
      cases mem_append.mp mem with
      | inl old => exact kept text (before text old)
      | inr new =>
        cases mem_singleton.mp new
        exact added
    · have old := (Dict.getPutOther o.keys (putValue set value) same).symm.trans found
      cases mem_append.mp mem with
      | inl earlier => exact h.listed k values old text earlier
      | inr new =>
        cases mem_singleton.mp new
        exact absurd rfl same
  · intro k text mem
    cases mem_append.mp mem with
    | inr new =>
      cases mem_singleton.mp new
      exact .inl (Dict.memKeysPut.mpr (.inl rfl))
    | inl earlier =>
      cases h.dropped k text earlier with
      | inl present => exact .inl (Dict.memKeysPut.mpr (.inr present))
      | inr gone =>
        refine .inr ⟨gone.1,gone.2.imp_right ?_⟩
        intro full
        exact full.trans (Dict.sizePut _ _ _)

theorem collectedSkip {e}
    (skipped : ∀ text, e.2 = .text text → o.keys.get? e.1 = some none) : Collected (seen ++ [e]) o := by
  constructor
  · intro key values found text mem
    cases mem_append.mp mem with
    | inl old => exact h.listed key values found text old
    | inr new =>
      have same := mem_singleton.mp new
      subst same
      have unlisted := (skipped text rfl).symm.trans found
      cases unlisted
  · intro key text mem
    cases mem_append.mp mem with
    | inl old => exact h.dropped key text old
    | inr new =>
      have same := mem_singleton.mp new
      subst same
      exact .inl (Dict.memKeys.mpr ⟨none,skipped text rfl⟩)

theorem collectedStep (e : Bytes × Value) : Collected (seen ++ [e]) (addValue o e) := by
  obtain ⟨key,value⟩ := e
  cases value with
  | text value =>
    cases held : o.keys.get? key with
    | some set =>
      cases set with
      | none =>
        simp only [addValue,held]
        exact collectedSkip h (fun _ _ => held)
      | some set =>
        simp only [addValue,held]
        exact collectedPut h (fun text mem => h.listed key set held text mem)
    | none =>
      have absent : key ∉ o.keys.keys := Dict.getNone.mp held
      simp only [addValue,held]
      split
      case isTrue room =>
        apply collectedPut h
        intro text mem
        cases h.dropped key text mem with
        | inl present => exact absurd present absent
        | inr gone =>
          cases gone.2 with
          | inl invalid => simp [room.1] at invalid
          | inr full => exact absurd room.2 (Nat.not_lt.mpr full)
      case isFalse full =>
        constructor
        · intro k values found text mem
          cases mem_append.mp mem with
          | inl old => exact h.listed k values found text old
          | inr new =>
            cases mem_singleton.mp new
            exact absurd (Dict.memKeys.mpr ⟨_,found⟩) absent
        · intro k text mem
          cases mem_append.mp mem with
          | inl old => exact (h.dropped k text old).imp_right (fun gone => ⟨rfl,gone.2⟩)
          | inr new =>
            cases mem_singleton.mp new
            refine .inr ⟨rfl,?_⟩
            by_cases valid : validKey key = true
            · exact .inr (Nat.not_lt.mp (fun room => full ⟨valid,room⟩))
            · exact .inl (by simpa using valid)
  | _ => exact collectedSkip h (fun _ same => by cases same)

theorem collectedAll {rest} : Collected (seen ++ rest) (rest.foldl addValue o) := by
  induction rest generalizing seen o with
  | nil => simpa using h
  | cons e rest ih => simpa using ih (collectedStep h e)

omit h

theorem collectOwnerCovers (maps : List (Option Projection)) : OwnerCovers maps (collectOwner maps) := by
  unfold collectOwner
  split
  case isFalse => exact ⟨by simp [AttributeSummary.unknownOwner,Dict.get?,Dict.empty],by simp [AttributeSummary.unknownOwner]⟩
  rename_i known
  have start : Collected [] (⟨Dict.empty,true⟩ : AttributeOwner) := ⟨by simp,by simp⟩
  have all : Collected ([] ++ maps.reduceOption.flatMap Dict.entries) _ := collectedAll start
  have inside {map key text} (mem : map ∈ maps) (has : HasText map key text) :
      (key,Value.text text) ∈ [] ++ maps.reduceOption.flatMap Dict.entries := by
    obtain ⟨p,rfl,found⟩ := has
    exact mem_flatMap.mpr ⟨p,reduceOption_mem_iff.mpr mem,Dict.getIff.mp found⟩
  constructor
  · intro key values found map mem text has
    simp only [sortValues,Dict.getMapValues,Option.map_eq_some_iff] at found
    obtain ⟨set,held,own,rfl,rfl⟩ := found
    simpa [Bytes.sort] using all.listed key own held text (inside mem has)
  · intro complete map mem key text has
    have listed := all.dropped key text (inside mem has)
    simp only [sortValues] at complete ⊢
    simpa [complete] using listed

/-! Weakening: fitting to a budget and parsing only forget. -/

structure OwnerWeaker (strong weak : AttributeOwner) : Prop where
  listed : ∀ key values, weak.keys.get? key = some (some values) →
    ∃ own, strong.keys.get? key = some (some own) ∧ ∀ v ∈ own, v ∈ values
  complete : weak.complete = true → strong.complete = true ∧ ∀ key ∈ strong.keys.keys, key ∈ weak.keys.keys

theorem ownerWeakerRefl (o : AttributeOwner) : OwnerWeaker o o where
  listed _ values found := ⟨values,found,fun _ mem => mem⟩
  complete known := ⟨known,fun _ mem => mem⟩

theorem OwnerWeaker.trans {a b c} (first : OwnerWeaker a b) (second : OwnerWeaker b c) : OwnerWeaker a c := by
  constructor
  · intro key values found
    obtain ⟨between,held,inner⟩ := second.listed key values found
    obtain ⟨own,origin,outer⟩ := first.listed key between held
    exact ⟨own,origin,fun v mem => inner v (outer v mem)⟩
  · intro known
    obtain ⟨half,later⟩ := second.complete known
    obtain ⟨full,earlier⟩ := first.complete half
    exact ⟨full,fun key mem => later key (earlier key mem)⟩

theorem OwnerCovers.weaken {maps a b} (h : OwnerCovers maps a) (weaker : OwnerWeaker a b) : OwnerCovers maps b := by
  constructor
  · intro key values found map mem text has
    obtain ⟨own,held,inside⟩ := weaker.listed key values found
    exact inside text (h.listed key own held map mem text has)
  intro known map mem key text has
  obtain ⟨full,kept⟩ := weaker.complete known
  exact kept key (h.complete full map mem key text has)

theorem unknownWeaker (o : AttributeOwner) : OwnerWeaker o AttributeSummary.unknownOwner :=
  ⟨by simp [AttributeSummary.unknownOwner,Dict.get?,Dict.empty],by simp [AttributeSummary.unknownOwner]⟩

theorem incompleteWeaker (o : AttributeOwner) : OwnerWeaker o (AttributeSummary.incompleteOwner o) := by
  constructor
  · intro key values found
    exact ⟨values,(Dict.getFilter.mp found).1,fun _ mem => mem⟩
  · intro known
    cases known

theorem parseOwnerWeaker (o : AttributeOwner) : OwnerWeaker o (AttributeSummary.parseOwner o) := by
  unfold AttributeSummary.parseOwner
  split
  · exact ownerWeakerRefl o
  · exact unknownWeaker o

def forgetKey (key : Bytes) (complete : Bool) (o : AttributeOwner) : AttributeOwner :=
  if complete then ⟨o.keys.put key none,o.complete⟩ else ⟨o.keys.filter (fun e => e.1 ≠ key),o.complete⟩

theorem forgetKeyWeaker (key : Bytes) (o : AttributeOwner) : OwnerWeaker o (forgetKey key o.complete o) := by
  cases known : o.complete with
  | true =>
    simp only [forgetKey,if_true]
    constructor
    · intro k values found
      by_cases same : k = key
      · subst same
        simp [Dict.getPutSame] at found
      · rw [Dict.getPutOther _ _ same] at found
        exact ⟨values,found,fun _ mem => mem⟩
    · intro _
      exact ⟨known,fun k mem => Dict.memKeysPut.mpr (.inr mem)⟩
  | false =>
    simp only [forgetKey,Bool.false_eq_true,if_false]
    constructor
    · intro k values found
      exact ⟨values,(Dict.getFilter.mp found).1,fun _ mem => mem⟩
    · intro complete
      simp only [known,Bool.false_eq_true] at complete

structure Weaker (strong weak : AttributeSummary) : Prop where
  resource : OwnerWeaker strong.resource weak.resource
  span : OwnerWeaker strong.span weak.span

variable (s : AttributeSummary)

theorem weakerRefl : Weaker s s := ⟨ownerWeakerRefl _,ownerWeakerRefl _⟩

theorem Weaker.trans {a b c} (first : Weaker a b) (second : Weaker b c) : Weaker a c :=
  ⟨first.resource.trans second.resource,first.span.trans second.span⟩

def completeOf (s : AttributeSummary) : AttributeSummary.Owner → Bool
  | .resource => s.resource.complete
  | .span => s.span.complete

theorem forgetWeaker (owner : AttributeSummary.Owner) (key : Bytes) :
    Weaker s (s.forgetValues owner key (completeOf s owner)) := by
  cases owner with
  | resource => exact ⟨forgetKeyWeaker key s.resource,ownerWeakerRefl _⟩
  | span => exact ⟨ownerWeakerRefl _,forgetKeyWeaker key s.span⟩

theorem forgetComplete (owner : AttributeSummary.Owner) (key : Bytes) (flag : Bool)
    (other : AttributeSummary.Owner) : completeOf (s.forgetValues owner key flag) other = completeOf s other := by
  cases owner <;> cases other <;> cases flag <;> rfl

variable {s : AttributeSummary}

theorem shrinkWhileWeaker {sizes budget costly} (flags : ∀ c ∈ costly, c.2.2.1 = completeOf s c.1) :
    Weaker s (AttributeSummary.shrinkWhile sizes budget s costly) := by
  induction costly generalizing s with
  | nil => exact weakerRefl s
  | cons c rest ih =>
    obtain ⟨owner,key,flag,cost⟩ := c
    have own : flag = completeOf s owner := flags _ mem_cons_self
    subst own
    simp only [AttributeSummary.shrinkWhile]
    split
    · exact forgetWeaker s owner key
    apply (forgetWeaker s owner key).trans
    apply ih
    intro c mem
    rw [forgetComplete]
    exact flags c (mem_cons_of_mem _ mem)

theorem costsFlags {sizes owner c}
    (h : c ∈ AttributeSummary.costs sizes owner o) : c.1 = owner ∧ c.2.2.1 = o.complete := by
  obtain ⟨e,_,entry⟩ := mem_filterMap.mp h
  split at entry
  · cases entry
    exact ⟨rfl,rfl⟩
  · cases entry

theorem shrinkWeaker {sizes budget small}
    (h : AttributeSummary.shrink sizes budget s = some small) : Weaker s small := by
  unfold AttributeSummary.shrink at h
  split at h
  case isTrue =>
    cases h
    exact weakerRefl s
  simp only at h
  split at h
  case isFalse => cases h
  cases h
  apply shrinkWhileWeaker
  intro c mem
  have listed := (perm_insertionSort _ _).subset mem
  cases mem_append.mp listed with
  | inl resource =>
    obtain ⟨owner,flag⟩ := costsFlags resource
    rw [owner,flag,completeOf]
  | inr span =>
    obtain ⟨owner,flag⟩ := costsFlags span
    rw [owner,flag,completeOf]

theorem fitWeaker {sizes budget fitted} (h : AttributeSummary.fit sizes budget s = some fitted) : Weaker s fitted := by
  unfold AttributeSummary.fit at h
  simp only at h
  split at h
  case h_2 => cases h
  rename_i found first
  split at h
  case isFalse => cases h
  cases h
  obtain ⟨variant,mem,small⟩ := exists_of_findSome?_eq_some first
  have variants : Weaker s variant := by
    simp only [mem_cons,not_mem_nil,or_false] at mem
    rcases mem with rfl | rfl | rfl
    · exact weakerRefl _
    · exact ⟨ownerWeakerRefl _,incompleteWeaker _⟩
    · exact ⟨incompleteWeaker _,incompleteWeaker _⟩
  exact variants.trans (shrinkWeaker small)

theorem parseWeaker {parsed} (h : AttributeSummary.parse s = some parsed) : Weaker s parsed := by
  unfold AttributeSummary.parse at h
  simp only at h
  split at h
  · cases h
    exact ⟨parseOwnerWeaker _,parseOwnerWeaker _⟩
  · cases h

/-! Merging. -/

variable {name : Bytes} {parts : List AttributeOwner}

theorem mergeValuesKeeps {acc values} (h : AttributeSummary.mergeValues name parts acc = some values) :
    (∀ v ∈ acc, v ∈ values) ∧ ∀ part ∈ parts,(∃ own, part.keys.get? name = some (some own) ∧ ∀ v ∈ own, v ∈ values) ∨
      (name ∉ part.keys.keys ∧ part.complete = true) := by
  induction parts generalizing acc with
  | nil =>
    simp only [AttributeSummary.mergeValues] at h
    split at h
    · cases h
      exact ⟨fun v mem => by simpa [Bytes.sort] using mem,by simp⟩
    · cases h
  | cons part rest ih =>
    simp only [AttributeSummary.mergeValues] at h
    split at h
    case h_1 v vs held =>
      obtain ⟨kept,others⟩ := ih h
      exact ⟨fun x mem => kept x (mem_append_right _ mem),
        forall_mem_cons.mpr ⟨.inl ⟨v::vs,held,fun x inside => kept x (mem_append_left _ inside)⟩,others⟩⟩
    case h_2 => cases h
    case h_3 absent =>
      split at h
      case isFalse => cases h
      rename_i complete
      obtain ⟨kept,others⟩ := ih h
      exact ⟨kept,forall_mem_cons.mpr ⟨.inr ⟨Dict.getNone.mp absent,complete⟩,others⟩⟩

def mergedKeys (parts : List AttributeOwner) : List (Bytes × Option (List Bytes)) :=
  (parts.flatMap (fun p => p.keys.keys)).dedup.flatMap (fun name =>
    match AttributeSummary.mergeValues name parts [] with
    | some values => [(name,some values)]
    | none => if parts.all AttributeOwner.complete then [(name,none)] else [])

theorem mergedKeysListed {values}
    (h : (name,some values) ∈ mergedKeys parts) : AttributeSummary.mergeValues name parts [] = some values := by
  obtain ⟨n,_,entry⟩ := mem_flatMap.mp h
  split at entry
  case h_1 found merged =>
    simp only [mem_singleton,Prod.mk.injEq,Option.some.injEq] at entry
    obtain ⟨rfl,rfl⟩ := entry
    exact merged
  case h_2 =>
    split at entry
    · simp at entry
    · cases entry

theorem mergedKeysComplete (complete : parts.all AttributeOwner.complete = true)
    {part} (mem : part ∈ parts) (key : name ∈ part.keys.keys) :
    name ∈ (mergedKeys parts).map Prod.fst := by
  have named : name ∈ (parts.flatMap (fun p => p.keys.keys)).dedup := mem_dedup.mpr (mem_flatMap.mpr ⟨part,mem,key⟩)
  cases merged : AttributeSummary.mergeValues name parts [] with
  | some values =>
    exact mem_map.mpr ⟨(name,some values),mem_flatMap.mpr ⟨name,named,by simp [merged]⟩,rfl⟩
  | none =>
    exact mem_map.mpr ⟨(name,none),mem_flatMap.mpr ⟨name,named,by simp [merged,complete]⟩,rfl⟩

theorem mergeOwnerEq (parts : List AttributeOwner) : AttributeSummary.mergeOwner parts =
    if (mergedKeys parts).length ≤ maxKeys then ⟨Dict.ofList (mergedKeys parts),parts.all AttributeOwner.complete⟩
    else ⟨Dict.ofList (((mergedKeys parts).filter (fun e => e.2.isSome)).take maxKeys),false⟩ := rfl

theorem mergeOwnerCovers {parts : List (List (Option Projection) × AttributeOwner)}
    (each : ∀ p ∈ parts, OwnerCovers p.1 p.2) :
    OwnerCovers (parts.flatMap Prod.fst) (AttributeSummary.mergeOwner (parts.map Prod.snd)) := by
  have listed {key values} (entry : (key,some values) ∈ mergedKeys (parts.map Prod.snd)) {map}
      (mem : map ∈ parts.flatMap Prod.fst) {text} (has : HasText map key text) : text ∈ values := by
    obtain ⟨p,inside,held⟩ := mem_flatMap.mp mem
    obtain ⟨_,sources⟩ := mergeValuesKeeps (mergedKeysListed entry)
    cases sources p.2 (mem_map_of_mem inside) with
    | inl own =>
      obtain ⟨all,get,kept⟩ := own
      exact kept text ((each p inside).listed key all get map held text has)
    | inr absent => exact absurd ((each p inside).complete absent.2 map held key text has) absent.1
  rw [mergeOwnerEq]
  split
  · constructor
    · intro key values found map mem text has
      exact listed (Dict.getOfList found) mem has
    intro complete map mem key text has
    obtain ⟨p,inside,held⟩ := mem_flatMap.mp mem
    have part := mem_map_of_mem (f := Prod.snd) inside
    have known := all_eq_true.mp complete p.2 part
    have key' := mergedKeysComplete complete part ((each p inside).complete known map held key text has)
    exact Dict.memKeysPutAll.mpr (.inr key')
  · constructor
    · intro key values found map mem text has
      have entry := mem_of_mem_take (Dict.getOfList found)
      exact listed (mem_filter.mp entry).1 mem has
    · intro complete
      cases complete

/-! Whole summaries. -/

structure AttributesCover (rows : List Span) (s : AttributeSummary) : Prop where
  resource : OwnerCovers (rows.map Span.resource) s.resource
  span : OwnerCovers (rows.map Span.attributes) s.span

def MaybeCover (rows : List Span) (s : Option AttributeSummary) : Prop := ∀ known, s = some known → AttributesCover rows known

theorem AttributesCover.weaken {rows a b} (h : AttributesCover rows a) (weaker : Weaker a b) : AttributesCover rows b :=
  ⟨h.resource.weaken weaker.resource,h.span.weaken weaker.span⟩

theorem buildAttributesCover (budget : Nat) (sizes : SummarySizes) (rows : List Span) :
    MaybeCover rows (buildAttributes budget sizes rows) := by
  intro known fitted
  have collected : AttributesCover rows
      ⟨collectOwner (rows.map Span.resource),collectOwner (rows.map Span.attributes)⟩ :=
    ⟨collectOwnerCovers _,collectOwnerCovers _⟩
  exact collected.weaken (fitWeaker fitted)

theorem parseCover {rows s} (h : MaybeCover rows s) : MaybeCover rows (s.bind AttributeSummary.parse) := by
  intro known parsed
  obtain ⟨own,isOwn,accepted⟩ := Option.bind_eq_some_iff.mp parsed
  exact (h own isOwn).weaken (parseWeaker accepted)

theorem unknownCovers (maps : List (Option Projection)) : OwnerCovers maps AttributeSummary.unknownOwner :=
  ⟨by simp [AttributeSummary.unknownOwner,Dict.get?,Dict.empty],by simp [AttributeSummary.unknownOwner]⟩

variable {parts : List (List Span × Option AttributeSummary)}

theorem mergeOwnerParts (field : Span → Option Projection) (owner : AttributeSummary → AttributeOwner)
    (each : ∀ p ∈ parts, ∀ known, p.2 = some known → OwnerCovers (p.1.map field) (owner known)) :
    OwnerCovers ((parts.flatMap Prod.fst).map field)
      (AttributeSummary.mergeOwner ((parts.map Prod.snd).map (fun s => (s.map owner).getD AttributeSummary.unknownOwner))) := by
  let owners := parts.map (fun p => (p.1.map field,(p.2.map owner).getD AttributeSummary.unknownOwner))
  have covers : OwnerCovers (owners.flatMap Prod.fst) (AttributeSummary.mergeOwner (owners.map Prod.snd)) := by
    apply mergeOwnerCovers
    intro p mem
    obtain ⟨part,inside,rfl⟩ := mem_map.mp mem
    cases known : part.2 with
    | none => exact unknownCovers _
    | some s => exact each part inside s known
  simpa [owners,flatMap_map,map_flatMap,map_map,Function.comp_def] using covers

theorem mergeAttributesCover (budget : Nat) (sizes : SummarySizes) (each : ∀ p ∈ parts, MaybeCover p.1 p.2) :
    MaybeCover (parts.flatMap Prod.fst) (mergeAttributes budget sizes (parts.map Prod.snd)) := by
  intro known fitted
  have merged : AttributesCover (parts.flatMap Prod.fst) ⟨_,_⟩ :=
    ⟨mergeOwnerParts Span.resource AttributeSummary.resource (fun p mem s isSome => (each p mem s isSome).resource),
     mergeOwnerParts Span.attributes AttributeSummary.span (fun p mem s isSome => (each p mem s isSome).span)⟩
  exact merged.weaken (fitWeaker fitted)

end Pulso.Traces
