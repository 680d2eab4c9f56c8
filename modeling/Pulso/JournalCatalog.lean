import Pulso.JournalRoot

/-! A root read as a catalog: the items of its inline tail and of every leaf page below its
references. Page rewrites act on it item by item, provided keys carry the time bounds the
descent selects by. -/
namespace Pulso
open List

def Segment.Keyed (s : Segment) : Prop := s.key.maxTs? = some s.maxTs
def Listing.Keyed (l : Listing) : Prop := ∀ s ∈ l.segments, s.Keyed

theorem Segment.EncodesBounds.keyed {s : Segment} (h : s.EncodesBounds) : s.Keyed := by
  unfold Keyed Key.maxTs?
  rw [h]
  rfl

theorem Listing.Keyed.identities {l l' : Listing} (h : l.Keyed)
    (same : ∀ s' ∈ l'.segments, ∃ s ∈ l.segments, s'.identity = s.identity) : l'.Keyed := by
  intro s' mem
  obtain ⟨s,hs,id⟩ := same s' mem
  have key : s'.key = s.key := congrArg Segment.Identity.key id
  have stamp : s'.maxTs = s.maxTs := congrArg Segment.Identity.maxTs id
  unfold Segment.Keyed
  rw [key,stamp]
  exact h s hs

theorem Listing.Keyed.persisted {l : Listing} (h : l.Keyed) (sizes : SummarySizes) : (l.persisted sizes).Keyed := by
  refine h.identities (fun s' mem => ?_)
  obtain ⟨s,hs,same⟩ := mem_map.mp ((Listing.persistedIdentity sizes l).mem_iff.mp (mem_map_of_mem mem))
  exact ⟨s,hs,same.symm⟩

theorem Listing.Keyed.subset {l l' : Listing} (h : l.Keyed) (sub : ∀ s ∈ l'.segments, s ∈ l.segments) : l'.Keyed :=
  fun s mem => h s (sub s mem)

namespace Journal

def paged (d : Disk) (refs : List Ref) : List Item := (forestLeaves d refs).flatMap Listing.catalog
def catalog (d : Disk) (root : Root) : List Item := root.toListing.catalog ++ paged d root.refs
def names (items : List Item) : List Key := items.map Item.key

@[simp] theorem namesAppend (a b : List Item) : names (a ++ b) = names a ++ names b := map_append

theorem catalogGrow {ctx d d' root} (s : AllSound ctx d root.refs) (g : Grows d d') :
    catalog d' root = catalog d root := by rw [catalog,paged,s.leavesGrow g]; rfl

structure KeyedRoot (d : Disk) (root : Root) : Prop where
  tail : root.toListing.Keyed
  leaves : ∀ l ∈ forestLeaves d root.refs, l.Keyed

def stampOf (k : Key) : Int := k.maxTs?.getD 0

theorem keyedStamp {s : Segment} (keyed : s.Keyed) : stampOf s.key = s.maxTs := by
  have date : s.key.maxTs? = some s.maxTs := keyed
  simp [stampOf,date]

theorem stampMem {l} (keyed : l.Keyed) {i} (mem : i ∈ l.catalog) : stampOf i.key ∈ stamps l := by
  rcases mem_append.mp mem with active | retired
  · simp only [Listing.activeKeys,map_map,mem_map,Function.comp_apply] at active
    obtain ⟨s,hs,rfl⟩ := active
    exact mem_append_left _ (mem_map.mpr ⟨s,hs,(keyedStamp (keyed s hs)).symm⟩)
  · obtain ⟨e,he,rfl⟩ := mem_map.mp retired
    exact mem_append_right _ (mem_map.mpr ⟨e.1,mem_map_of_mem he,rfl⟩)

inductive Updates (ctx : Context) (timestamps : List Int) (update : Listing → Listing) (l : Listing) :
    Option Listing → Prop
  | same (fixed : update l = l) : Updates ctx timestamps update l (some l)
  | skipped (outside : ∀ t ∈ timestamps, t ∉ stamps l) : Updates ctx timestamps update l (some l)
  | changed (valid : ValidLeaf ctx.scope l) :
      Updates ctx timestamps update l (some ((update l).persisted ctx.sizes.toSummarySizes))

theorem uncovered {ctx d h r} (s : Sound ctx d h r) {t} (miss : covers r t = false) :
    ∀ l ∈ leavesAt d h r.k, t ∉ stamps l := by
  intro l mem stamp
  have bounds := s.exact.stampBounds mem t stamp
  simp [covers,bounds] at miss

theorem updateRule (env : Env) (timestamps : List Int) (update : Listing → Listing) :
    UpdateRule env (Updates env.toContext timestamps update) (fun ref => timestamps.any (covers ref)) update := by
  refine ⟨fun l fixed => .same fixed,fun l valid _ => .changed valid,fun d h r s miss l mem => .skipped ?_⟩
  intro t ht
  have one : covers r t = false := by simpa using any_eq_false.mp miss t ht
  exact uncovered s one l mem

section Rewritten
variable {ctx : Context} {timestamps : List Int} {update : Listing → Listing} {f : Item → Item} {l l' : Listing}

theorem Updates.catalog (h : Updates ctx timestamps update l (some l')) (keyed : l.Keyed) (distinct : (names l.catalog).Nodup)
    (mapped : ∀ l : Listing, (names l.catalog).Nodup → (update l).catalog.Perm (l.catalog.map f))
    (selected : ∀ i, f i ≠ i → stampOf i.key ∈ timestamps) : l'.catalog.Perm (l.catalog.map f) := by
  cases h with
  | same fixed => simpa [fixed] using mapped l distinct
  | skipped outside =>
    have fixed : l.catalog.map f = l.catalog := by
      rw [map_congr_left (g := id) (fun i mem => ?_),map_id]
      by_contra changed
      exact outside _ (selected i changed) (stampMem keyed mem)
    rw [fixed]
  | changed => exact (Listing.persistedCatalog _ _).trans (mapped l distinct)

theorem Updates.keyed (h : Updates ctx timestamps update l (some l')) (keyed : l.Keyed)
    (sub : ∀ s ∈ (update l).segments, s ∈ l.segments) : l'.Keyed := by
  cases h with
  | same => exact keyed
  | skipped => exact keyed
  | changed => exact (keyed.subset sub).persisted _

theorem Updates.some {o} (h : Updates ctx timestamps update l o) : ∃ l', o = .some l' := by
  cases h <;> exact ⟨_,rfl⟩

end Rewritten

theorem leafDistinct {ls : List Listing} (distinct : (names (ls.flatMap Listing.catalog)).Nodup) :
    ∀ l ∈ ls, (names l.catalog).Nodup := by
  rw [names,map_flatMap] at distinct
  exact (nodup_flatMap.mp distinct).1

theorem pagedUpdate {ctx timestamps update f ls ls'}
    (h : Carries (Updates ctx timestamps update) ls ls') (keyed : ∀ l ∈ ls, l.Keyed)
    (distinct : (names (ls.flatMap Listing.catalog)).Nodup)
    (mapped : ∀ l : Listing, (names l.catalog).Nodup → (update l).catalog.Perm (l.catalog.map f))
    (selected : ∀ i, f i ≠ i → stampOf i.key ∈ timestamps) :
    (ls'.flatMap Listing.catalog).Perm ((ls.flatMap Listing.catalog).map f) := by
  rw [map_flatMap]
  refine h.flatMapPerm (fun l mem l' u => ?_) (fun l _ u => ?_)
  · exact u.catalog (keyed l mem) (leafDistinct distinct l mem) mapped selected
  · obtain ⟨_,h⟩ := u.some; simp at h

theorem keyedUpdate {ctx timestamps update ls ls'}
    (h : Carries (Updates ctx timestamps update) ls ls') (keyed : ∀ l ∈ ls, l.Keyed)
    (sub : ∀ l : Listing, ∀ s ∈ (update l).segments, s ∈ l.segments) : ∀ l ∈ ls', l.Keyed := by
  intro l' mem
  obtain ⟨l,hl,u⟩ := h.backward mem
  exact u.keyed (keyed l hl) (sub l)

theorem reviveLeafEq (s : Segment) (l : Listing) : reviveLeaf s.key l = ⟨l.segments,Manifest.retryRetired l.retired s⟩ := by
  unfold reviveLeaf Manifest.retryRetired
  cases l.retired.get? s.key <;> rfl

theorem reviveLeafCatalog (s : Segment) (l : Listing) :
    (reviveLeaf s.key l).catalog = l.catalog.map (Item.rearm [s.key]) := by
  rw [reviveLeafEq,Listing.catalog,Manifest.retryRetiredEntries,Listing.catalog,map_append]
  simp [Listing.activeKeys]

theorem reviveLeafSegments (s : Segment) (l : Listing) : (reviveLeaf s.key l).segments = l.segments := by
  rw [reviveLeafEq]

theorem rearmSelected {s : Segment} (keyed : s.Keyed) (i : Item) (changed : i.rearm [s.key] ≠ i) :
    stampOf i.key ∈ [s.maxTs] := by
  have named : i.key = s.key := by
    by_contra other
    exact changed (Item.rearmFixed (by simpa using other))
  simp [named,keyedStamp keyed]

theorem retireLeafCatalog (targets : List Key) (deadline : Nat) {l} (distinct : (names l.catalog).Nodup) :
    (retireLeaf targets deadline l).catalog.Perm (l.catalog.map (Item.retire targets deadline)) := by
  let gone := (l.segments.filter (fun s => s.key ∈ targets)).map Segment.key
  have goneIff : ∀ k, k ∈ gone ↔ k ∈ l.activeKeys ∧ k ∈ targets := by
    intro k
    simp only [gone,mem_map,mem_filter,Listing.activeKeys,decide_eq_true_eq]
    constructor
    · rintro ⟨s,⟨hs,ht⟩,rfl⟩; exact ⟨⟨s,hs,rfl⟩,ht⟩
    · rintro ⟨⟨s,hs,rfl⟩,ht⟩; exact ⟨s,⟨hs,ht⟩,rfl⟩
  have agree : l.catalog.map (Item.retire gone deadline) = l.catalog.map (Item.retire targets deadline) := by
    refine map_congr_left (fun i mem => ?_)
    rcases mem_append.mp mem with active | retired
    · obtain ⟨k,hk,rfl⟩ := mem_map.mp active
      simp [Item.retire,Item.active,goneIff,hk]
    · obtain ⟨e,_,rfl⟩ := mem_map.mp retired
      simp
  have once : gone.Nodup := by
    rw [names,Listing.catalogKeys] at distinct
    exact (nodup_append.mp distinct).1.sublist (filter_sublist.map _)
  have whole := Manifest.retireCatalog deadline distinct once (fun k mem => ((goneIff k).mp mem).1)
  rw [agree] at whole
  have kept : l.segments.filter (fun s => s.key ∉ gone) = l.segments.filter (fun s => s.key ∉ targets) := by
    refine filter_congr (fun s mem => ?_)
    have active : s.key ∈ l.activeKeys := mem_map_of_mem mem
    simp [goneIff,active]
  rw [kept] at whole
  unfold retireLeaf
  dsimp only
  split
  · rename_i none
    have nothing : gone = [] := by simp only [gone,none,map_nil]
    rw [← agree,nothing]
    have same : l.catalog.map (Item.retire [] deadline) = l.catalog := by
      rw [map_congr_left (fun i _ => Item.retireFixed (by simp)),map_id']
    rw [same]
  · exact whole

theorem retireLeafSegments (targets : List Key) (deadline : Nat) (l : Listing) :
    ∀ s ∈ (retireLeaf targets deadline l).segments, s ∈ l.segments := by
  intro s mem
  unfold retireLeaf at mem
  dsimp only at mem
  split at mem
  · exact mem
  · exact (mem_filter.mp mem).1

theorem retireSelected {targets deadline} (i : Item) (changed : i.retire targets deadline ≠ i) :
    stampOf i.key ∈ targets.map (fun k => k.maxTs?.getD 0) := by
  refine mem_map.mpr ⟨i.key,?_,rfl⟩
  by_contra other
  exact changed (Item.retireFixed other)

end Journal

/- A deletion is recorded only for the very retirement a cleanup observed. -/
def Item.mark (observed : Dict Key Retirement) (i : Item) : Item := ⟨i.key,i.retirement.map (Journal.markDeleted observed i.key)⟩

namespace Journal

theorem markListingCatalog (observed : Dict Key Retirement) (l : Listing) :
    (markListing observed l).catalog = l.catalog.map (Item.mark observed) := by
  simp [markListing,Listing.catalog,Listing.activeKeys,Item.mark,Item.active,Item.retired,Dict.mapValues,Function.comp_def]

end Journal
end Pulso
