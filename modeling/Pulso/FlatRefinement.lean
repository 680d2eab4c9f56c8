import Pulso.JournalRegister

/-! Format 4 refines the flat manifest. Converting a flat manifest and registering into the
paged root, spilling and packing at whatever points the budgets ask for, shows the same
active keys and the same retirements as merging into the flat one. -/
namespace Pulso
open Journal List

structure Flat where
  listing : Listing
  distinct : (names listing.catalog).Nodup

theorem registeredNames (items : List Item) (segments : List Segment) :
    names (registered items segments) = names items ++ newNames items segments := by
  rw [registered,namesAppend,namesMap items (Item.rearmKey _)]
  simp [names,Item.active,Function.comp_def]

theorem registeredDistinct {items} (segments : List Segment) (distinct : (names items).Nodup) :
    (names (registered items segments)).Nodup := by
  rw [registeredNames]
  refine nodup_append.mpr ⟨distinct,(Lists.uniqByNodup segments).filter _,?_⟩
  rintro k old k' new rfl
  exact absurd old (by simpa using (mem_filter.mp new).2)

theorem registeredPerm {items items'} (segments : List Segment) (p : items.Perm items') :
    (registered items segments).Perm (registered items' segments) := by
  have same : newNames items segments = newNames items' segments :=
    filter_congr (fun k _ => by simp [names,(p.map Item.key).mem_iff])
  rw [registered,registered,same]
  exact (p.map _).append_right _

theorem mergeRegistered (thin : Bool) (m : Flat) (segments : List Segment) :
    (Manifest.merge thin m.listing segments).catalog.Perm (registered m.listing.catalog segments) :=
  Manifest.mergeCatalog thin segments m.distinct

namespace Flat

def empty : Flat := ⟨Listing.empty,by decide⟩

def merge (m : Flat) (segments : List Segment) : Flat :=
  ⟨Manifest.merge true m.listing segments,
    ((mergeRegistered true m segments).map _).nodup_iff.mpr (registeredDistinct segments m.distinct)⟩

end Flat

theorem sameCatalog {l l' : Listing} (p : l.catalog.Perm l'.catalog) :
    l.activeKeys.Perm l'.activeKeys ∧ ∀ k, l.retired.get? k = l'.retired.get? k := by
  have actives : ∀ l : Listing, l.catalog.filterMap (fun i => if i.retirement = none then some i.key else none) =
      l.activeKeys := by
    intro l
    rw [Listing.catalog,filterMap_append,filterMap_map,filterMap_map]
    simp [Item.active,Item.retired,Function.comp_def]
  have retired : ∀ (l : Listing) (k : Key) (r : Retirement), Item.retired (k,r) ∈ l.catalog ↔ l.retired.get? k = some r := by
    intro l k r
    rw [Dict.getIff,Listing.catalog,mem_append,mem_map,mem_map]
    simp [Item.active,Item.retired]
  refine ⟨by rw [← actives l,← actives l']; exact p.filterMap _,fun k => Option.ext (fun r => ?_)⟩
  rw [← retired l,← retired l',p.mem_iff]

def standing (l : Listing) (key : Key) : Found := (findListed l key).getD .absent

theorem standingShows (l : Listing) (key : Key) : Shows l.catalog key (standing l key) := by
  unfold standing
  cases h : findListed l key with
  | none => exact findListedNone.mp h
  | some found => exact (findListedSome h).2

namespace Journal

inductive Grown (ctx : Context) : Disk → Root → List (List Segment) → Disk → Root → Prop
  | start {d root} : Grown ctx d root [] d root
  | register {env : Env} {d root segments d₁ root₁ batches d' root'} (same : env.toContext = ctx)
      (ok : register env root segments d = (.ok root₁,d₁)) (later : Grown ctx d₁ root₁ batches d' root') :
      Grown ctx d root (segments::batches) d' root'
  | sealed {env : Env} {d root d₁ root₁ batches d' root'} (same : env.toContext = ctx)
      (ok : sealRoot env root d = (.ok root₁,d₁)) (later : Grown ctx d₁ root₁ batches d' root') :
      Grown ctx d root batches d' root'
  -- pages of attempts that failed or lost the race for the root
  | wasted {d root d₁ batches d' root'} (grows : Grows d d₁) (later : Grown ctx d₁ root batches d' root') :
      Grown ctx d root batches d' root'

-- a random key is generated once and never used again
def RandomFresh (known : List Key) : List (List Segment) → Prop
  | [] => True
  | batch::rest => (∀ s ∈ batch, s.key.random = true → s.key ∉ known) ∧ RandomFresh (known ++ batch.map Segment.key) rest

theorem grownStep {ctx batches d d' root root'}
    (run : Grown ctx d root batches d' root') (wf : WellFormed ctx d root.paging) :
    ∃ w, StepSpec ctx d d' root.paging root'.paging w := by
  induction run with
  | start => exact ⟨[],.same wf (.refl _)⟩
  | register context ok later ih =>
    subst context
    obtain ⟨w,step⟩ := (registerSpec wf ok).step
    obtain ⟨v,steps⟩ := ih step.wf
    exact ⟨_,step.trans steps⟩
  | sealed context ok later ih =>
    subst context
    obtain ⟨w,step⟩ := (sealSpec wf ok).step
    obtain ⟨v,steps⟩ := ih step.wf
    exact ⟨_,step.trans steps⟩
  | wasted grows later ih =>
    obtain ⟨v,steps⟩ := ih (wf.grows grows)
    exact ⟨_,(StepSpec.same wf grows).trans steps⟩

theorem grownCatalog {ctx batches d d' root root' known flat} (run : Grown ctx d root batches d' root') (wf : WellFormed ctx d root.paging) (keyed : KeyedRoot d root)
    (same : (catalog d root).Perm flat.listing.catalog) (listed : ∀ k ∈ names (catalog d root), k ∈ known)
    (dates : ∀ batch ∈ batches, ∀ s ∈ batch, s.EncodesBounds) (fresh : RandomFresh known batches) :
    WellFormed ctx d' root'.paging ∧ KeyedRoot d' root' ∧
      (catalog d' root').Perm (batches.foldl Flat.merge flat).listing.catalog := by
  induction run generalizing known flat with
  | start => exact ⟨wf,keyed,same⟩
  | @register env d root segments d₁ root₁ batches d' root' context ok later ih =>
    subst context
    have spec := registerSpec wf ok
    obtain ⟨w,step⟩ := spec.step
    have below : ∀ s ∈ segments, s.key.random = true → s.key ∉ names (paged d root.refs) := fun s mem random inside =>
      fresh.1 s mem random (listed _ (by rw [catalog,namesAppend]; exact mem_append_right _ inside))
    obtain ⟨keyed₁,moved⟩ := spec.catalog keyed (fun s mem => (dates segments mem_cons_self s mem).keyed)
      ((same.map _).nodup_iff.mpr flat.distinct) below
    have merged : (catalog d₁ root₁).Perm (flat.merge segments).listing.catalog :=
      moved.trans ((registeredPerm segments same).trans (mergeRegistered true flat segments).symm)
    refine ih step.wf keyed₁ merged (fun k mem => ?_) (forall_mem_cons.mp dates).2 fresh.2
    have either := (moved.map Item.key).mem_iff.mp mem
    rw [← names,registeredNames] at either
    rcases mem_append.mp either with old | new
    · exact mem_append_left _ (listed k old)
    · exact mem_append_right _ (Lists.uniqByKeys.mp (mem_filter.mp new).1)
  | @sealed env d root d₁ root₁ batches d' root' context ok later ih =>
    subst context
    have spec := sealSpec wf ok
    obtain ⟨w,step⟩ := spec.step
    exact ih step.wf (spec.keyed keyed) (spec.catalog.trans same)
      (fun k mem => listed k ((spec.catalog.map Item.key).mem_iff.mp mem)) dates fresh
  | @wasted d root d₁ batches d' root' grows later ih =>
    have kept := catalogGrow wf.refs grows
    refine ih (wf.grows grows) ⟨keyed.tail,?_⟩ (kept ▸ same) (kept ▸ listed) dates fresh
    rw [wf.refs.leavesGrow grows]
    exact keyed.leaves


namespace Sample

def scope : Scope := ⟨ascii "t",.logs⟩
def env : Env := .calm scope 10 5 (fun root => 100 + 40 * root.size)

def keyOf (stamps : String) : Key := scope.path ++ ascii stamps ++ ascii ".parquet"
def plain (key : Key) (minTs maxTs : Int) : Segment := ⟨key,minTs,maxTs,none,none,none,none,none,none,none⟩

def first : Segment := plain (keyOf "00000000000000000001-00000000000000000002-det-a") 1 2
def second : Segment := plain (keyOf "00000000000000000003-00000000000000000004-rand-b") 3 4

def flat : Flat := ⟨⟨[first],Dict.empty⟩,by decide +kernel⟩

def converted : Root × Disk := ((convert env flat.listing).done Disk.blank).get (by decide +kernel)
def appended : Root × Disk := ((register env converted.1 [second,first]).done converted.2).get (by decide +kernel)

end Sample

end Journal
end Pulso
