import Pulso.Segment

/-! Flat manifests: registration (`merge/2`) and atomic replacement (`replace_all/4`).
A listing is read as a catalog of keys, each active or with its retirement. -/
namespace Pulso
open List

structure Item where
  key : Key
  retirement : Option Retirement
  deriving DecidableEq, Repr

namespace Item

def active (key : Key) : Item := ⟨key,none⟩
def retired (e : Key × Retirement) : Item := ⟨e.1,some e.2⟩

/- Registering a key again leaves an active entry alone and re-arms a retired one. -/
def rearm (keys : List Key) (i : Item) : Item := if i.key ∈ keys then ⟨i.key,i.retirement.map Retirement.retried⟩ else i

/- Retiring an active key starts its deletion clock; a retired one keeps its own. -/
def retire (keys : List Key) (deadline : Nat) (i : Item) : Item :=
  if i.retirement = none ∧ i.key ∈ keys then ⟨i.key,some (.new deadline)⟩ else i

@[simp] theorem retireKey (keys : List Key) (deadline : Nat) (i : Item) : (i.retire keys deadline).key = i.key := by
  unfold retire; split <;> rfl

theorem retireFixed {keys deadline} {i : Item} (h : i.key ∉ keys) : i.retire keys deadline = i := by
  simp [retire,h]

@[simp] theorem retireRetired (keys : List Key) (deadline : Nat) (e : Key × Retirement) :
    (retired e).retire keys deadline = retired e := by simp [retire,retired]

@[simp] theorem rearmKey (keys : List Key) (i : Item) : (i.rearm keys).key = i.key := by unfold rearm; split <;> rfl

@[simp] theorem rearmActive (keys : List Key) (k : Key) : (active k).rearm keys = active k := by
  unfold rearm active; split <;> rfl

theorem rearmFixed {keys} {i : Item} (h : i.key ∉ keys) : i.rearm keys = i := by simp [rearm,h]

@[simp] theorem rearmNil : rearm [] = id := by funext i; exact rearmFixed (by simp)

theorem rearmCons {k} {keys : List Key} (once : k ∉ keys) (i : Item) : (i.rearm [k]).rearm keys = i.rearm (k::keys) := by
  by_cases here : i.key = k
  · rw [rearmFixed (i := i.rearm [k]) (by rw [rearmKey,here]; exact once)]
    simp [rearm,here]
  · rw [rearmFixed (i := i) (by simpa using here)]
    simp [rearm,here]

end Item

namespace Listing

def activeKeys (l : Listing) : List Key := l.segments.map Segment.key
def catalog (l : Listing) : List Item := l.activeKeys.map Item.active ++ l.retired.entries.map Item.retired

theorem catalogKeys (l : Listing) : l.catalog.map Item.key = l.activeKeys ++ l.retired.keys := by
  simp [catalog,Item.active,Item.retired,Function.comp_def,Dict.keys]

theorem persistedCatalog (sizes : SummarySizes) (l : Listing) : (l.persisted sizes).catalog.Perm l.catalog := by
  have keys := persistedMap Segment.Identity.key sizes l
  exact (keys.map Item.active).append (.refl _)

end Listing

namespace Manifest

def retryRetired (retired : Dict Key Retirement) (s : Segment) : Dict Key Retirement :=
  match retired.get? s.key with
  | some r => retired.put s.key r.retried
  | none => retired

/- Hash and attribute sets are only a paged-leaf construction aid; flat roots drop them. -/
def thinFlatTraceSummary (s : Segment) : Segment :=
  { s with traceSummary := s.traceSummary.map (fun t => { t with lookupHashes := none, attributes := none }) }

/- One pass over the existing entries for the newest pending segment `n`. -/
def mergeHead (newKeys : List Key) (n : Segment) (rest : List Segment) (next : List Segment → List Segment) :
    List Segment → List Segment
  | [] => n::rest
  | e::older =>
    if e.key ∈ newKeys then mergeHead newKeys n rest next older
    else if e.maxTs ≤ n.maxTs then n::next (e::older)
    else e::mergeHead newKeys n rest next older

def mergeSorted (newKeys : List Key) : List Segment → List Segment → List Segment
  | [],existing => existing.filter (fun e => e.key ∉ newKeys)
  | n::rest,existing => mergeHead newKeys n rest (mergeSorted newKeys rest) existing

def merge (thin : Bool) (m : Listing) (segments : List Segment) : Listing :=
  if segments = [] then m
  else
    let retired := (Lists.uniqBy Segment.key segments).foldl retryRetired m.retired
    let deduped := Lists.uniqBy Segment.key (segments.filter (fun s => !m.retired.has s.key))
    let newest := Lists.sortDesc Segment.maxTs deduped
    let merged := mergeSorted (newest.map Segment.key) newest m.segments
    ⟨if thin then merged.map thinFlatTraceSummary else merged,retired⟩

def retireAll (retired : Dict Key Retirement) (keys : List Key) (deadline : Nat) : Dict Key Retirement :=
  keys.foldl (fun retired key => retired.put key (Retirement.new deadline)) retired

/- `replace_all/4`: the result is a version 2 manifest, whose merge thins trace summaries. -/
def replaceAll (m : Listing) (sources : List Key) (replacements : List Segment) (deleteAfter : Nat) : Option Listing :=
  if 1 ≤ sources.dedup.length ∧ (∀ k ∈ sources, k ∈ m.activeKeys) ∧
      (∀ r ∈ replacements, r.key ∉ m.activeKeys ∧ r.key ∉ m.retired.keys) then
    some (merge true
      ⟨m.segments.filter (fun s => s.key ∉ sources),retireAll m.retired sources deleteAfter⟩ replacements)
  else none

theorem mergeHeadPerm {newKeys n rest next existing}
    (tail : ∀ es, (next es).Perm (rest ++ es.filter (fun e => e.key ∉ newKeys))) :
    (mergeHead newKeys n rest next existing).Perm (n::rest ++ existing.filter (fun e => e.key ∉ newKeys)) := by
  induction existing with
  | nil => simp [mergeHead]
  | cons e older ih =>
    unfold mergeHead
    by_cases old : e.key ∈ newKeys
    · simpa [old] using ih
    simp only [old,if_false]
    split
    · exact (tail (e::older)).cons n
    · have moved := (ih.cons e).trans perm_middle.symm
      simpa [old] using moved

theorem mergeSortedPerm (newKeys : List Key) (new existing : List Segment) :
    (mergeSorted newKeys new existing).Perm (new ++ existing.filter (fun e => e.key ∉ newKeys)) := by
  induction new generalizing existing with
  | nil => simp [mergeSorted]
  | cons n rest ih => exact mergeHeadPerm (fun es => ih es)

theorem retryRetiredEntries (retired : Dict Key Retirement) (s : Segment) :
    (retryRetired retired s).entries.map Item.retired =
      (retired.entries.map Item.retired).map (Item.rearm [s.key]) := by
  unfold retryRetired
  cases found : retired.get? s.key with
  | none =>
    have absent := Dict.getNone.mp found
    rw [map_map]
    refine map_congr_left (fun e mem => ?_)
    have other : e.1 ≠ s.key := fun same => absent (same ▸ mem_map_of_mem mem)
    exact (Item.rearmFixed (by simpa [Item.retired] using other)).symm
  | some r =>
    have present := Dict.memKeys.mpr ⟨r,found⟩
    simp only [Dict.putPresent _ present,Dict.mapValues,map_map]
    refine map_congr_left (fun e mem => ?_)
    by_cases same : e.1 = s.key
    · have value : e.2 = r := by
        have listed : (s.key,e.2) ∈ retired.entries := by rw [← same]; exact mem
        exact Dict.valueUnique listed (Dict.getIff.mp found)
      simp [Item.retired,Item.rearm,same,value]
    · simp [Item.retired,Item.rearm,same]

theorem retryAllEntries (segments : List Segment) (retired : Dict Key Retirement)
    (distinct : (segments.map Segment.key).Nodup) :
    (segments.foldl retryRetired retired).entries.map Item.retired =
      (retired.entries.map Item.retired).map (Item.rearm (segments.map Segment.key)) := by
  induction segments generalizing retired with
  | nil => simp
  | cons s rest ih =>
    obtain ⟨head,tail⟩ := nodup_cons.mp distinct
    rw [foldl_cons,ih _ tail,retryRetiredEntries,map_map]
    exact map_congr_left (fun i _ => Item.rearmCons head i)

theorem mergeActiveKeys (thin : Bool) (m : Listing) {segments} (some : segments ≠ []) :
    let deduped := (Lists.uniqBy Segment.key (segments.filter (fun s => !m.retired.has s.key))).map Segment.key
    (merge thin m segments).activeKeys.Perm (deduped ++ m.activeKeys.filter (· ∉ deduped)) := by
  intro deduped
  let newest := Lists.sortDesc Segment.maxTs
    (Lists.uniqBy Segment.key (segments.filter (fun s => !m.retired.has s.key)))
  have order : (newest.map Segment.key).Perm deduped := (Lists.sortDescPerm _ _).map _
  have keys : (merge thin m segments).activeKeys =
      (mergeSorted (newest.map Segment.key) newest m.segments).map Segment.key := by
    simp only [merge,some,if_false,Listing.activeKeys]
    cases thin <;> simp [thinFlatTraceSummary,Function.comp_def,newest]
  have merged := (mergeSortedPerm (newest.map Segment.key) newest m.segments).map Segment.key
  have kept : (m.segments.filter (fun e => e.key ∉ newest.map Segment.key)).map Segment.key =
      m.activeKeys.filter (· ∉ deduped) := by
    rw [Listing.activeKeys,filter_map]
    refine congrArg _ (filter_congr (fun e _ => ?_))
    simp [order.mem_iff]
  rw [keys]
  rw [map_append,kept] at merged
  exact merged.trans (order.append_right _)

theorem mergeRetired (thin : Bool) (m : Listing) (segments : List Segment) :
    (merge thin m segments).retired.entries.map Item.retired =
      (m.retired.entries.map Item.retired).map (Item.rearm (segments.map Segment.key)) := by
  by_cases empty : segments = []
  · simp [merge,empty]
  simp only [merge,empty,if_false]
  rw [retryAllEntries _ _ (Lists.uniqByNodup segments)]
  refine map_congr_left (fun i _ => ?_)
  have same : i.key ∈ (Lists.uniqBy Segment.key segments).map Segment.key ↔ i.key ∈ segments.map Segment.key :=
    Lists.uniqByKeys
  unfold Item.rearm
  simp only [same]

def freshKeys (m : Listing) (segments : List Segment) : List Key :=
  ((Lists.uniqBy Segment.key segments).map Segment.key).filter (· ∉ m.catalog.map Item.key)

theorem mergeCatalog (thin : Bool) {m} (segments : List Segment) (distinct : (m.catalog.map Item.key).Nodup) :
    (merge thin m segments).catalog.Perm
      (m.catalog.map (Item.rearm (segments.map Segment.key)) ++ (freshKeys m segments).map Item.active) := by
  by_cases empty : segments = []
  · subst empty
    simp [merge,freshKeys,Lists.uniqBy,Lists.uniqFrom]
  rw [Listing.catalogKeys] at distinct
  obtain ⟨activeDistinct,_,apart⟩ := nodup_append.mp distinct
  have actives : (merge thin m segments).activeKeys.Perm (m.activeKeys ++ freshKeys m segments) := by
    refine (mergeActiveKeys thin m empty).trans ((perm_ext_iff_of_nodup ?_ ?_).mpr ?_)
    · refine nodup_append.mpr ⟨Lists.uniqByNodup _,activeDistinct.filter _,?_⟩
      intro a ha b hb same
      subst same
      exact (of_decide_eq_true (mem_filter.mp hb).2) ha
    · refine nodup_append.mpr ⟨activeDistinct,(Lists.uniqByNodup _).filter _,?_⟩
      intro a ha b hb same
      subst same
      have outside := of_decide_eq_true (mem_filter.mp hb).2
      rw [Listing.catalogKeys] at outside
      exact outside (mem_append_left _ ha)
    intro k
    have deduped : k ∈ (Lists.uniqBy Segment.key (segments.filter (fun s => !m.retired.has s.key))).map Segment.key ↔
        k ∈ segments.map Segment.key ∧ k ∉ m.retired.keys := by
      rw [Lists.uniqByKeys]
      simp only [mem_map,mem_filter,Dict.has,Bool.not_eq_true',decide_eq_false_iff_not]
      constructor
      · rintro ⟨s,⟨mem,out⟩,rfl⟩; exact ⟨⟨s,mem,rfl⟩,out⟩
      · rintro ⟨⟨s,mem,rfl⟩,out⟩; exact ⟨s,⟨mem,out⟩,rfl⟩
    have added : k ∈ freshKeys m segments ↔
        k ∈ segments.map Segment.key ∧ k ∉ m.activeKeys ∧ k ∉ m.retired.keys := by
      rw [freshKeys,mem_filter,Lists.uniqByKeys,Listing.catalogKeys]
      simp
    rw [mem_append,mem_append,mem_filter,added]
    simp only [decide_eq_true_eq,deduped]
    tauto
  have activePart := actives.map Item.active
  rw [map_append] at activePart
  have unchanged : m.activeKeys.map Item.active = (m.activeKeys.map Item.active).map
      (Item.rearm (segments.map Segment.key)) := by simp
  unfold Listing.catalog
  rw [mergeRetired,map_append,← unchanged]
  refine (activePart.append_right _).trans ?_
  rw [append_assoc,append_assoc]
  exact perm_append_comm.append_left _

theorem retireAllEntries {retired keys} (deadline : Nat)
    (fresh : ∀ k ∈ keys, k ∉ retired.keys) (distinct : keys.Nodup) :
    (retireAll retired keys deadline).entries = retired.entries ++ keys.map (fun k => (k,Retirement.new deadline)) := by
  have same : retireAll retired keys deadline = retired.putAll (keys.map (fun k => (k,Retirement.new deadline))) := by
    simp [retireAll,Dict.putAll,foldl_map]
  rw [same]
  refine Dict.putAllFresh ?_ (by simpa [Function.comp_def] using distinct)
  intro e mem
  obtain ⟨k,hk,rfl⟩ := mem_map.mp mem
  exact fresh k hk

theorem retireAllSeen {retired seen} (keys : List Key) (deadline : Nat)
    (done : ∀ k ∈ seen, retired.get? k = some (Retirement.new deadline)) :
    retireAll retired keys deadline = retireAll retired (Lists.uniqFrom id seen keys) deadline := by
  induction keys generalizing retired seen with
  | nil => rfl
  | cons k keys ih =>
    unfold Lists.uniqFrom
    by_cases again : id k ∈ seen
    · rw [if_pos again,← ih done,retireAll,foldl_cons,Dict.putSame (done k again)]
      rfl
    rw [if_neg again]
    refine ih (fun x mem => ?_)
    by_cases here : x = k
    · exact here ▸ Dict.getPutSame _ _ _
    · rw [Dict.getPutOther _ _ here]
      exact done x ((mem_cons.mp mem).resolve_left here)

theorem retireAllUniq (retired : Dict Key Retirement) (keys : List Key) (deadline : Nat) :
    retireAll retired keys deadline = retireAll retired (Lists.uniqBy id keys) deadline :=
  retireAllSeen keys deadline (by simp)

theorem retireCatalog {l : Listing} {keys} (deadline : Nat) (distinct : (l.catalog.map Item.key).Nodup)
    (once : keys.Nodup) (inside : ∀ k ∈ keys, k ∈ l.activeKeys) :
    (⟨l.segments.filter (fun s => s.key ∉ keys),retireAll l.retired keys deadline⟩ : Listing).catalog.Perm
      (l.catalog.map (Item.retire keys deadline)) := by
  rw [Listing.catalogKeys] at distinct
  obtain ⟨activeDistinct,_,apart⟩ := nodup_append.mp distinct
  have entries := retireAllEntries deadline (fun k mem old => apart k (inside k mem) k old rfl) once
  have kept : (⟨l.segments.filter (fun s => s.key ∉ keys),retireAll l.retired keys deadline⟩ : Listing).activeKeys =
      l.activeKeys.filter (· ∉ keys) := by
    rw [Listing.activeKeys,Listing.activeKeys,filter_map]; rfl
  have moved : (l.activeKeys.filter (· ∈ keys)).Perm keys := by
    refine (perm_ext_iff_of_nodup (activeDistinct.filter _) once).mpr (fun k => ?_)
    simp only [mem_filter,decide_eq_true_eq]
    exact ⟨And.right,fun mem => ⟨inside k mem,mem⟩⟩
  have stays : (l.activeKeys.filter (· ∉ keys)).map Item.active =
      ((l.activeKeys.filter (· ∉ keys)).map Item.active).map (Item.retire keys deadline) := by
    rw [map_map]
    refine map_congr_left (fun k mem => ?_)
    have out : k ∉ keys := by simpa using (mem_filter.mp mem).2
    exact (Item.retireFixed (i := Item.active k) out).symm
  have goes : (keys.map (fun k => Item.retired (k,Retirement.new deadline))).Perm
      (((l.activeKeys.filter (· ∈ keys)).map Item.active).map (Item.retire keys deadline)) := by
    rw [map_map]
    refine (moved.symm.map _).trans (List.Perm.of_eq (map_congr_left (fun k mem => ?_)))
    have here : k ∈ keys := by simpa using (mem_filter.mp mem).2
    simp [Item.retire,Item.active,Item.retired,here]
  have old : l.retired.entries.map Item.retired =
      (l.retired.entries.map Item.retired).map (Item.retire keys deadline) := by
    simp [Function.comp_def]
  have parts : (l.activeKeys.filter (· ∉ keys) ++ l.activeKeys.filter (· ∈ keys)).Perm l.activeKeys := by
    simpa using filter_append_perm (fun k => decide (k ∉ keys)) l.activeKeys
  have whole := ((parts.map Item.active).map (Item.retire keys deadline))
  rw [Listing.catalog,kept,entries,Listing.catalog,map_append,map_append,← old,map_map (l := keys),stays]
  refine List.Perm.trans ?_ (whole.append_right _)
  rw [map_append,map_append,append_assoc]
  exact (perm_append_comm.trans (goes.append_right _)).append_left _

end Manifest
end Pulso
