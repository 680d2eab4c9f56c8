import Pulso.Manifest

/-! Merging into a flat manifest whose segments may have unknown bounds: an ordered union by key, in which
the new segments win and retired keys stay retired. -/
namespace Pulso.FlatMerge
open List

/- The fields of a segment that a merge reads; the others pass through. -/
structure Entry (ρ : Type) where
  key : Key
  maxTs : Option Int
  traceSummary : Option TraceSummary
  others : ρ

structure Flat (ρ : Type) where
  version : Nat
  segments : List (Entry ρ)
  retired : Dict Key Retirement

variable {ρ : Type}

-- an unknown bound is an atom, and atoms are above numbers
def Before (a b : Entry ρ) : Prop :=
  match a.maxTs,b.maxTs with
  | none,_ => True
  | some _,none => False
  | some x,some y => y ≤ x

instance : DecidableRel (Before (ρ := ρ)) := fun a b => by unfold Before; split <;> infer_instance

def retryRetired (retired : Dict Key Retirement) (s : Entry ρ) : Dict Key Retirement :=
  match retired.get? s.key with
  | some r => retired.put s.key r.retried
  | none => retired

def thinFlatTraceSummary (s : Entry ρ) : Entry ρ :=
  { s with traceSummary := s.traceSummary.map (fun t => { t with lookupHashes := none, attributes := none }) }

def mergeSorted (newKeys : List Key) : List (Entry ρ) → List (Entry ρ) → List (Entry ρ)
  | [],rest => rest.filter (fun e => e.key ∉ newKeys)
  | new,[] => new
  | n::new,e::rest =>
    if e.key ∈ newKeys then mergeSorted newKeys (n::new) rest
    else if Before n e then n::mergeSorted newKeys new (e::rest)
    else e::mergeSorted newKeys (n::new) rest
termination_by new rest => new.length + rest.length

def deduped (m : Flat ρ) (segments : List (Entry ρ)) : List (Entry ρ) :=
  Lists.uniqBy Entry.key (segments.filter (fun s => !m.retired.has s.key))

def merge (m : Flat ρ) : List (Entry ρ) → Flat ρ
  | [] => m
  | segments =>
    let retired := (Lists.uniqBy Entry.key segments).foldl retryRetired m.retired
    let newSorted := (deduped m segments).insertionSort Before
    let merged := mergeSorted (newSorted.map Entry.key) newSorted m.segments
    { m with segments := if m.version < 3 then merged.map thinFlatTraceSummary else merged, retired := retired }

structure Ordered (m : Flat ρ) : Prop where
  sorted : m.segments.Pairwise Before
  distinct : (m.segments.map Entry.key).Nodup
  apart : ∀ s ∈ m.segments, s.key ∉ m.retired.keys

instance : Std.Total (Before (ρ := ρ)) := ⟨fun a b => by grind [Before]⟩
instance : IsTrans (Entry ρ) Before := ⟨fun a b c _ _ => by grind [Before]⟩

theorem mergeSortedMerge (newKeys : List Key) (new rest : List (Entry ρ)) :
    mergeSorted newKeys new rest = new.merge (rest.filter (fun e => e.key ∉ newKeys)) (fun a b => Before a b) := by
  fun_induction mergeSorted newKeys new rest with
  | case1 => simp
  | case2 => simp
  | case3 n new e rest old ih => rw [ih,filter_cons_of_neg (by simpa using old)]
  | case4 n new e rest fresh first ih =>
    rw [ih,filter_cons_of_pos (by simpa using fresh),cons_merge_cons_pos _ _ _ (by simpa using first)]
  | case5 n new e rest fresh later ih =>
    rw [ih,filter_cons_of_pos (by simpa using fresh),cons_merge_cons_neg _ _ _ (by simpa using later)]

theorem mergeFilter {α : Type} {le p} {xs ys : List α} (none : ∀ x ∈ xs, p x = false)
    (all : ∀ y ∈ ys, p y = true) : (xs.merge ys le).filter p = ys := by
  fun_induction List.merge xs ys le with
  | case1 ys => exact filter_eq_self.mpr all
  | case2 xs => exact filter_eq_nil_iff.mpr (fun x mem => by simp [none x mem])
  | case3 x xs y ys first ih =>
    rw [filter_cons_of_neg (by simp [none x mem_cons_self])]
    exact ih (forall_mem_cons.mp none).2 all
  | case4 x xs y ys later ih =>
    rw [filter_cons_of_pos (all y mem_cons_self),ih none (forall_mem_cons.mp all).2]

section Retired
variable {d : Dict Key Retirement} {k : Key}

theorem retryRetiredGet (d : Dict Key Retirement) (s : Entry ρ) (k : Key) :
    (retryRetired d s).get? k = (d.get? k).map (fun r => if k = s.key then r.retried else r) := by
  unfold retryRetired
  by_cases same : k = s.key
  · subst same
    cases found : d.get? s.key with
    | none => simp [found]
    | some r => simp [Dict.getPutSame]
  · split
    · simp [Dict.getPutOther _ _ same,same]
    · simp [same]

theorem retryAllGet {segments : List (Entry ρ)} (distinct : (segments.map Entry.key).Nodup) :
    (segments.foldl retryRetired d).get? k =
      (d.get? k).map (fun r => if k ∈ segments.map Entry.key then r.retried else r) := by
  induction segments generalizing d with
  | nil => simp
  | cons s rest ih =>
    obtain ⟨head,tail⟩ := nodup_cons.mp distinct
    rw [foldl_cons,ih tail,retryRetiredGet,Option.map_map]
    congr 1
    funext r
    by_cases same : k = s.key
    · subst same
      simp [head]
    · simp [same]

theorem mergeRetired (m : Flat ρ) (segments : List (Entry ρ)) (k : Key) : (merge m segments).retired.get? k =
    (m.retired.get? k).map (fun r => if k ∈ segments.map Entry.key then r.retried else r) := by
  cases segments with
  | nil => simp [merge]
  | cons s rest =>
    simp only [merge,retryAllGet (Lists.uniqByNodup (s::rest)),Lists.uniqByKeys]

theorem mergeRetiredKeys (m : Flat ρ) (segments : List (Entry ρ)) : k ∈ (merge m segments).retired.keys ↔ k ∈ m.retired.keys := by
  simp [Dict.memKeys,mergeRetired]

end Retired

/- The merged list before summaries are thinned, which an empty batch does not do. -/
def union (m : Flat ρ) (segments : List (Entry ρ)) : List (Entry ρ) :=
  let new := (deduped m segments).insertionSort Before
  new.merge (m.segments.filter (fun e => e.key ∉ new.map Entry.key)) (fun a b => Before a b)

def shown (m : Flat ρ) (segments : List (Entry ρ)) : Entry ρ → Entry ρ :=
  if m.version < 3 ∧ 0 < segments.length then thinFlatTraceSummary else id

section Union
variable {m : Flat ρ} {segments : List (Entry ρ)}

theorem shownKey (s : Entry ρ) : (shown m segments s).key = s.key := by unfold shown; split <;> rfl

theorem shownBefore (a b : Entry ρ) : Before (shown m segments a) (shown m segments b) ↔ Before a b := by
  unfold shown; split <;> rfl

theorem shownTwice (s : Entry ρ) : shown m segments (shown m segments s) = shown m segments s := by
  unfold shown
  split
  · simp [thinFlatTraceSummary,Function.comp_def]
  · rfl

theorem mergeSegments (m : Flat ρ) (segments : List (Entry ρ)) :
    (merge m segments).segments = (union m segments).map (shown m segments) := by
  cases segments with
  | nil => simp [merge,union,deduped,Lists.uniqBy,Lists.uniqFrom,shown]
  | cons s rest =>
    simp only [merge,mergeSortedMerge,union,shown,length_cons,Nat.succ_pos,and_true]
    split
    · rfl
    · exact (map_id _).symm

theorem dedupedMem {s} : s ∈ deduped m segments ↔
    s.key ∉ m.retired.keys ∧ segments.find? (fun t => t.key = s.key) = some s := by
  rw [deduped,Lists.uniqBy,Lists.uniqFromFilter m.retired.keys (fun x => by simp [Bool.eq_false_iff]),nil_append,
    Lists.uniqFromFirst]

theorem newKeys {k} : k ∈ ((deduped m segments).insertionSort Before).map Entry.key ↔
    k ∉ m.retired.keys ∧ k ∈ segments.map Entry.key := by
  rw [((perm_insertionSort _ _).map _).mem_iff,deduped,Lists.uniqByKeys]
  simp only [mem_map,mem_filter,Bool.not_eq_true',Bool.eq_false_iff,Dict.hasIff,ne_eq]
  constructor
  · rintro ⟨s,⟨listed,live⟩,rfl⟩
    exact ⟨live,s,listed,rfl⟩
  · rintro ⟨live,s,listed,rfl⟩
    exact ⟨s,⟨listed,live⟩,rfl⟩

theorem unionMem (h : Ordered m) {s} : s ∈ union m segments ↔
    s.key ∉ m.retired.keys ∧ segments.find? (fun t => t.key = s.key) = some s ∨ s ∈ m.segments ∧ s.key ∉ segments.map Entry.key := by
  have live := h.apart s
  simp only [union,mem_merge,mem_insertionSort,dedupedMem,mem_filter,decide_eq_true_eq,newKeys]
  tauto

theorem unionOrdered (h : Ordered m) (segments : List (Entry ρ)) :
    (union m segments).Pairwise Before ∧ ((union m segments).map Entry.key).Nodup := by
  refine ⟨(pairwise_insertionSort _ _).merge (h.sorted.filter _),?_⟩
  rw [union,((merge_perm_append _).map _).nodup_iff,map_append,nodup_append']
  refine ⟨?_,(filter_sublist.map _).nodup h.distinct,fun k new old => ?_⟩
  · exact ((perm_insertionSort _ _).map _).nodup_iff.mpr (Lists.uniqByNodup _)
  · obtain ⟨e,kept,rfl⟩ := mem_map.mp old
    exact absurd new (of_decide_eq_true (mem_filter.mp kept).2)

theorem unionAgain (m : Flat ρ) (segments : List (Entry ρ)) :
    union (merge m segments) segments = ((deduped m segments).insertionSort Before).merge ((m.segments.filter
      (fun e => e.key ∉ ((deduped m segments).insertionSort Before).map Entry.key)).map (shown m segments)) (fun a b => Before a b) := by
  have same : deduped (merge m segments) segments = deduped m segments := by
    refine congrArg _ (filter_congr (fun s _ => ?_))
    rw [Bool.eq_iff_iff]
    simp [Bool.eq_false_iff,mergeRetiredKeys]
  rw [union,same,mergeSegments,filter_map]
  simp only [Function.comp_def,shownKey]
  rw [union,mergeFilter]
  · intro s mem
    exact decide_eq_false (not_not.mpr (mem_map_of_mem mem))
  · exact fun s mem => (mem_filter.mp mem).2

theorem mergeTwice (m : Flat ρ) (segments : List (Entry ρ)) :
    (merge (merge m segments) segments).segments = (merge m segments).segments := by
  have version : (merge m segments).version = m.version := by cases segments <;> rfl
  have same : shown (merge m segments) segments = shown m segments := by simp only [shown,version]
  have through : ∀ xs ys : List (Entry ρ), (xs.merge ys (fun a b => Before a b)).map (shown m segments) =
      (xs.map (shown m segments)).merge (ys.map (shown m segments)) (fun a b => Before a b) :=
    fun _ _ => map_merge (fun a _ b _ => by simp only [shownBefore])
  rw [mergeSegments,same,unionAgain,mergeSegments,union,through,through,map_map]
  congr 1
  exact map_congr_left (fun s _ => shownTwice s)

/-- A merge is an ordered union by key: the first new segment of each key that is not retired, and the old
segments of all other keys. Retired keys in the batch are re-armed once, and a second merge changes nothing. -/
theorem mergeOrderedUnion (h : Ordered m) (segments : List (Entry ρ)) : Ordered (merge m segments) ∧
    (∀ x, x ∈ (merge m segments).segments ↔ ∃ s, (s.key ∉ m.retired.keys ∧ segments.find? (fun t => t.key = s.key) = some s ∨
      s ∈ m.segments ∧ s.key ∉ segments.map Entry.key) ∧ shown m segments s = x) ∧
    (∀ k, (merge m segments).retired.get? k =
      (m.retired.get? k).map (fun r => if k ∈ segments.map Entry.key then r.retried else r)) ∧
    (merge (merge m segments) segments).segments = (merge m segments).segments := by
  obtain ⟨sorted,distinct⟩ := unionOrdered h segments
  refine ⟨⟨?_,?_,?_⟩,fun x => ?_,mergeRetired m segments,mergeTwice m segments⟩
  · rw [mergeSegments,pairwise_map]
    simpa only [shownBefore] using sorted
  · rw [mergeSegments,map_map]
    simpa only [Function.comp_def,shownKey] using distinct
  · intro x mem
    rw [mergeSegments] at mem
    obtain ⟨s,inside,rfl⟩ := mem_map.mp mem
    rw [shownKey,mergeRetiredKeys]
    rcases (unionMem h).mp inside with new | old
    · exact new.1
    · exact h.apart s old.1
  · simp only [mergeSegments,mem_map,unionMem h]

theorem mergeOrderedUnionUnknown : Ordered (merge ⟨2,[⟨ascii "a",none,none,()⟩,⟨ascii "b",some 4,none,()⟩],
    Dict.ofList [(ascii "d",⟨8,0,true⟩)]⟩ [⟨ascii "d",some 9,none,()⟩,⟨ascii "b",none,none,()⟩]) :=
  (mergeOrderedUnion ⟨by decide +kernel,by decide +kernel,by decide +kernel⟩ _).1

end Union

end Pulso.FlatMerge
