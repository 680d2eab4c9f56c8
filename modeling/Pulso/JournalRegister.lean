import Pulso.JournalLookup

/-! Registration and sealing seen on the catalog: a known key is kept or re-armed wherever it
lies, an unknown one becomes active once, and moving the tail into pages changes nothing. -/
namespace Pulso.Journal
open List

variable {root root' : Root} {s : Segment} {d d' : Disk} {l : Listing} {segments : List Segment}

section Each
variable {ctx : Context} {env : Env} {tail : List Key}

-- only keys not in the tail, and not random, are searched in pages
def looksUp (tail : List Key) (l : Listing) (s : Segment) : Bool :=
  !decide (s.key ∈ tail ∨ s.key ∈ l.retired.keys ∨ s.key.random = true)

def admits (tail : List Key) (l : Listing) (below : List Item) (s : Segment) : Bool :=
  !looksUp tail l s || decide (s.key ∉ names below)

structure EachSpec (ctx : Context) (tail : List Key) (segments : List Segment) (d d' : Disk) (root root' : Root)
    (fresh fresh' : List Segment) : Prop where
  step : ∃ w, StepSpec ctx d d' root.paging root'.paging w
  listing : root'.toListing = root.toListing
  frame : Frame root.paging root'.paging
  heights : (root'.refs.map (fun r => r.h)).Sublist (root.refs.map (fun r => r.h))
  catalog : (∀ l ∈ forestLeaves d root.refs, l.Keyed) → (∀ s ∈ segments, s.Keyed) → (segments.map Segment.key).Nodup →
    (names (paged d root.refs)).Nodup →
    (∀ l ∈ forestLeaves d' root'.refs, l.Keyed) ∧
    (paged d' root'.refs).Perm ((paged d root.refs).map
      (Item.rearm ((segments.filter (looksUp tail root.toListing)).map Segment.key))) ∧
    fresh'.reverse = fresh.reverse ++ segments.filter (admits tail root.toListing (paged d root.refs))

theorem Frame.trans {p q r} (x : Frame p q) (y : Frame q r) : Frame p r :=
  ⟨y.nonce.trans x.nonce,y.cc.trans x.cc,y.rc.trans x.rc,y.rf.trans x.rf⟩

theorem reviveSpec (wf : WellFormed env.toContext d root.paging) (ok : revive env root s d = (.ok root',d')) :
    RewriteRootSpec env.toContext (Updates env.toContext [s.maxTs] (reviveLeaf s.key)) d d' root root' :=
  rewriteRootSpec (updateRule env _ _) wf ok

theorem namesMap {f} (items : List Item) (same : ∀ i, (f i).key = i.key) : names (items.map f) = names items := by
  simp [names,Function.comp_def,same]

theorem revivePaged (spec : RewriteRootSpec ctx (Updates ctx [s.maxTs] (reviveLeaf s.key)) d d' root root')
    (keyed : ∀ l ∈ forestLeaves d root.refs, l.Keyed) (date : s.Keyed) (distinct : (names (paged d root.refs)).Nodup) :
    (∀ l ∈ forestLeaves d' root'.refs, l.Keyed) ∧
      (paged d' root'.refs).Perm ((paged d root.refs).map (Item.rearm [s.key])) :=
  ⟨keyedUpdate spec.leaves keyed (fun l x mem => by rwa [reviveLeafSegments] at mem),
    pagedUpdate spec.leaves keyed distinct (fun l _ => .of_eq (reviveLeafCatalog s l)) (rearmSelected date)⟩

theorem rearmPresent {items k} (keys : List Key) (distinct : (names items).Nodup) (active : Item.active k ∈ items) :
    items.map (Item.rearm (k::keys)) = items.map (Item.rearm keys) := by
  refine map_congr_left (fun i mem => ?_)
  by_cases here : i.key = k
  · have same : i = Item.active k := itemUnique distinct mem active here
    rw [same,Item.rearmActive,Item.rearmActive]
  · simp [Item.rearm,here]

theorem rearmAbsent {items k} (keys : List Key) (absent : k ∉ names items) :
    items.map (Item.rearm (k::keys)) = items.map (Item.rearm keys) := by
  refine map_congr_left (fun i mem => ?_)
  have other : i.key ≠ k := fun same => absent (same ▸ mem_map_of_mem mem)
  simp [Item.rearm,other]

theorem admitsCongr {a b} (same : ∀ k, k ∈ names a ↔ k ∈ names b) (segments : List Segment) :
    segments.filter (admits tail l a) = segments.filter (admits tail l b) :=
  filter_congr (fun s _ => by simp [admits,same])

theorem registerEachSpec {fresh out} (wf : WellFormed env.toContext d root.paging)
    (ok : registerEach env tail segments root fresh d = (.ok out,d')) :
    EachSpec env.toContext tail segments d d' root out.1 fresh out.2 := by
  induction segments generalizing root fresh d with
  | nil =>
    obtain ⟨rfl,rfl⟩ := Op.pureOk.mp ok
    refine ⟨⟨[],.same wf (.refl _)⟩,rfl,⟨rfl,rfl,rfl,rfl⟩,List.Sublist.refl _,fun keyed _ _ _ => ⟨keyed,?_,by simp⟩⟩
    simp
  | cons s rest ih =>
    unfold registerEach at ok
    split at ok
    · rename_i direct
      have spec := ih wf ok
      have skips : looksUp tail root.toListing s = false := by simp [looksUp,direct]
      refine ⟨spec.step,spec.listing,spec.frame,spec.heights,fun keyed dates once distinct => ?_⟩
      obtain ⟨kept,moved,added⟩ := spec.catalog keyed (forall_mem_cons.mp dates).2 (nodup_cons.mp once).2 distinct
      refine ⟨kept,by simpa [skips] using moved,?_⟩
      rw [added,filter_cons_of_pos (by simp [admits,skips])]
      simp
    · rename_i looked
      have looks : looksUp tail root.toListing s = true := by simp only [looksUp,looked]; rfl
      simp only [Op.bindOk] at ok
      obtain ⟨⟨mid,pending⟩,d₁,first,later⟩ := ok
      simp only [registerPaged,Op.bindOk,Op.liftOk] at first
      obtain ⟨found,d₂,⟨searched,rfl⟩,rest'⟩ := first
      have date : s.Keyed → stampOf s.key = s.maxTs := keyedStamp
      cases found with
      | absent =>
        obtain ⟨same,rfl⟩ := Op.pureOk.mp rest'
        cases same
        have spec := ih wf later
        refine ⟨spec.step,spec.listing,spec.frame,spec.heights,fun keyed dates once distinct => ?_⟩
        have absent : s.key ∉ names (paged d₁ root.refs) := findOk wf.refs keyed (date (dates s mem_cons_self)) searched
        obtain ⟨kept,moved,added⟩ := spec.catalog keyed (forall_mem_cons.mp dates).2 (nodup_cons.mp once).2 distinct
        refine ⟨kept,?_,?_⟩
        · rw [filter_cons_of_pos looks,map_cons,rearmAbsent _ absent]; exact moved
        · rw [added,filter_cons_of_pos (by simp [admits,absent])]; simp
      | active =>
        obtain ⟨same,rfl⟩ := Op.pureOk.mp rest'
        cases same
        have spec := ih wf later
        refine ⟨spec.step,spec.listing,spec.frame,spec.heights,fun keyed dates once distinct => ?_⟩
        have active : Item.active s.key ∈ paged d₁ root.refs :=
          findOk wf.refs keyed (date (dates s mem_cons_self)) searched
        have present : s.key ∈ names (paged d₁ root.refs) := mem_map.mpr ⟨_,active,rfl⟩
        obtain ⟨kept,moved,added⟩ := spec.catalog keyed (forall_mem_cons.mp dates).2 (nodup_cons.mp once).2 distinct
        refine ⟨kept,?_,?_⟩
        · rw [filter_cons_of_pos looks,map_cons,rearmPresent _ distinct active]; exact moved
        · rw [added,filter_cons_of_neg (by simp [admits,looks,present])]
      | retired r =>
        simp only [Op.bindOk,Op.pureOk,Prod.mk.injEq] at rest'
        obtain ⟨revived,d₃,ran,⟨rfl,rfl⟩,rfl⟩ := rest'
        have one := reviveSpec wf ran
        obtain ⟨w,step⟩ := one.step
        have spec := ih step.wf later
        obtain ⟨v,steps⟩ := spec.step
        refine ⟨⟨_,step.trans steps⟩,spec.listing.trans one.listing,one.frame.trans spec.frame,
          spec.heights.trans one.heights,fun keyed dates once distinct => ?_⟩
        obtain ⟨keyed',moved'⟩ := revivePaged one keyed (dates s mem_cons_self) distinct
        have same : (names (paged d₁ mid.refs)).Perm (names (paged d₂ root.refs)) := by
          rw [← namesMap (paged d₂ root.refs) (Item.rearmKey [s.key])]
          exact moved'.map _
        obtain ⟨kept,moved,added⟩ := spec.catalog keyed' (forall_mem_cons.mp dates).2
          (nodup_cons.mp once).2 (same.nodup_iff.mpr distinct)
        have present : s.key ∈ names (paged d₂ root.refs) := by
          have shown : Shows (paged d₂ root.refs) s.key (.retired r) :=
            findOk wf.refs keyed (date (dates s mem_cons_self)) searched
          exact mem_map.mpr ⟨_,shown,rfl⟩
        rw [one.listing] at moved added
        have unused : s.key ∉ (rest.filter (looksUp tail root.toListing)).map Segment.key := fun mem =>
          (nodup_cons.mp once).1 ((filter_sublist.map _).subset mem)
        refine ⟨kept,?_,?_⟩
        · rw [filter_cons_of_pos looks,map_cons]
          refine moved.trans ((moved'.map _).trans (.of_eq ?_))
          rw [map_map]
          exact map_congr_left (fun i _ => Item.rearmCons unused i)
        · rw [added,admitsCongr (fun k => same.mem_iff),filter_cons_of_neg (by simp [admits,looks,present])]

end Each

def newNames (items : List Item) (segments : List Segment) : List Key :=
  ((Lists.uniqBy Segment.key segments).map Segment.key).filter (· ∉ names items)

def registered (items : List Item) (segments : List Segment) : List Item :=
  items.map (Item.rearm (segments.map Segment.key)) ++ (newNames items segments).map Item.active

theorem admitsIff {below} : admits l.activeKeys l below s = true ↔
    s.key ∈ names l.catalog ∨ s.key.random = true ∨ s.key ∉ names below := by
  rw [names,Listing.catalogKeys,mem_append]
  simp only [admits,looksUp,Bool.or_eq_true,Bool.not_not,decide_eq_true_eq]
  tauto

theorem looksUpIff : looksUp l.activeKeys l s = true ↔ s.key ∉ names l.catalog ∧ s.key.random = false := by
  rw [names,Listing.catalogKeys,mem_append]
  simp only [looksUp,Bool.not_eq_true',decide_eq_false_iff_not,not_or,Bool.not_eq_true]
  tauto

section Merge
variable {l : Listing} {below below' : List Item} {segments : List Segment}

theorem rearmSplit (distinct : (names (l.catalog ++ below)).Nodup)
    (fresh : ∀ s ∈ segments, s.key.random = true → s.key ∉ names below) :
    l.catalog.map (Item.rearm ((segments.filter (admits l.activeKeys l below)).map Segment.key)) =
        l.catalog.map (Item.rearm (segments.map Segment.key)) ∧
      below.map (Item.rearm ((segments.filter (looksUp l.activeKeys l)).map Segment.key)) =
        below.map (Item.rearm (segments.map Segment.key)) := by
  rw [namesAppend] at distinct
  have apart := (nodup_append.mp distinct).2.2
  constructor
  · refine map_congr_left (fun i mem => ?_)
    have listed : i.key ∈ names l.catalog := mem_map_of_mem mem
    have same : i.key ∈ (segments.filter (admits l.activeKeys l below)).map Segment.key ↔ i.key ∈ segments.map Segment.key := by
      refine ⟨fun h => (filter_sublist.map _).subset h,fun h => ?_⟩
      obtain ⟨s,hs,key⟩ := mem_map.mp h
      exact mem_map.mpr ⟨s,mem_filter.mpr ⟨hs,admitsIff.mpr (.inl (key ▸ listed))⟩,key⟩
    simp only [Item.rearm,same]
  · refine map_congr_left (fun i mem => ?_)
    have listed : i.key ∈ names below := mem_map_of_mem mem
    have same : i.key ∈ (segments.filter (looksUp l.activeKeys l)).map Segment.key ↔ i.key ∈ segments.map Segment.key := by
      refine ⟨fun h => (filter_sublist.map _).subset h,fun h => ?_⟩
      obtain ⟨s,hs,key⟩ := mem_map.mp h
      have deterministic : s.key.random = false := by
        by_contra random
        exact fresh s hs (by simpa using random) (key ▸ listed)
      have outside : s.key ∉ names l.catalog := fun inside => apart _ inside _ (key ▸ listed) rfl
      exact mem_map.mpr ⟨s,mem_filter.mpr ⟨hs,looksUpIff.mpr ⟨outside,deterministic⟩⟩,key⟩
    simp only [Item.rearm,same]

theorem admittedFresh (once : (segments.map Segment.key).Nodup)
    (fresh : ∀ s ∈ segments, s.key.random = true → s.key ∉ names below) :
    Manifest.freshKeys l (segments.filter (admits l.activeKeys l below)) = newNames (l.catalog ++ below) segments := by
  have once' := once.sublist ((filter_sublist (p := admits l.activeKeys l below)).map Segment.key)
  rw [Manifest.freshKeys,newNames,Lists.uniqBySelf once,Lists.uniqBySelf once',filter_map,filter_map,filter_filter]
  refine congrArg _ (filter_congr (fun s mem => ?_))
  rw [Bool.eq_iff_iff]
  simp only [Function.comp_apply,Bool.and_eq_true,decide_eq_true_eq,admitsIff,namesAppend,mem_append,not_or]
  have random := fresh s mem
  unfold names at random ⊢
  tauto

theorem registerCatalog (distinct : (names (l.catalog ++ below)).Nodup) (once : (segments.map Segment.key).Nodup)
    (fresh : ∀ s ∈ segments, s.key.random = true → s.key ∉ names below)
    (moved : below'.Perm (below.map (Item.rearm ((segments.filter (looksUp l.activeKeys l)).map Segment.key)))) :
    ((Manifest.merge false l (segments.filter (admits l.activeKeys l below))).catalog ++ below').Perm
      (registered (l.catalog ++ below) segments) := by
  obtain ⟨tail,pages⟩ := rearmSplit distinct fresh
  have own : (l.catalog.map Item.key).Nodup := by
    rw [namesAppend] at distinct; exact (nodup_append.mp distinct).1
  have merged := Manifest.mergeCatalog false (segments.filter (admits l.activeKeys l below)) own
  rw [tail,admittedFresh once fresh] at merged
  rw [pages] at moved
  rw [registered,map_append]
  refine (merged.append moved).trans ?_
  simp only [append_assoc]
  exact perm_append_comm.append_left _

end Merge
theorem registeredUniq (items : List Item) (segments : List Segment) :
    registered items (Lists.uniqBy Segment.key segments) = registered items segments := by
  have rearmed : Item.rearm ((Lists.uniqBy Segment.key segments).map Segment.key) = Item.rearm (segments.map Segment.key) := by
    funext i
    simp only [Item.rearm,Lists.uniqByKeys]
  rw [registered,registered,rearmed,newNames,newNames,Lists.uniqBySelf (Lists.uniqByNodup segments)]

theorem mergeKeyed (thin : Bool) (old : l.Keyed) (new : ∀ s ∈ segments, s.Keyed) :
    (Manifest.merge thin l segments).Keyed := by
  unfold Manifest.merge
  split
  · exact old
  have inside : ∀ {ks : List Key} {ns : List Segment} {s : Segment}, (∀ n ∈ ns, n ∈ segments) →
      s ∈ Manifest.mergeSorted ks ns l.segments → s.Keyed := by
    intro ks ns s sub mem
    rcases mem_append.mp ((Manifest.mergeSortedPerm ks ns l.segments).mem_iff.mp mem) with fresh | kept
    · exact new s (sub s fresh)
    · exact old s (mem_filter.mp kept).1
  have part : ∀ n ∈ Lists.sortDesc Segment.maxTs
      (Lists.uniqBy Segment.key (segments.filter (fun s => !l.retired.has s.key))), n ∈ segments := by
    intro n mem
    have listed := (Lists.sortDescPerm Segment.maxTs _).mem_iff.mp mem
    exact (mem_filter.mp ((Lists.uniqBySublist _).subset listed)).1
  split
  · intro s mem
    obtain ⟨t,ht,rfl⟩ := mem_map.mp mem
    have date : t.Keyed := inside part ht
    exact date
  · intro s mem
    exact inside part mem

structure RegisterSpec (ctx : Context) (segments : List Segment) (d d' : Disk) (root root' : Root) : Prop where
  step : ∃ w, StepSpec ctx d d' root.paging root'.paging w
  heights : (root'.refs.map (fun r => r.h)).Sublist (root.refs.map (fun r => r.h))
  marks : root'.paging.cc = root.paging.cc ∧ root'.paging.rc = root.paging.rc ∧ root'.paging.rf = root.paging.rf
  nonce : d.next ≤ root'.paging.nonce ∧ root'.paging.nonce < d'.next
  valid : ∀ s ∈ segments, ∃ t ∈ Lists.uniqBy Segment.key segments, t.key = s.key ∧ t.Valid ctx.scope
  catalog : KeyedRoot d root → (∀ s ∈ segments, s.Keyed) → (names (catalog d root)).Nodup →
    (∀ s ∈ segments, s.key.random = true → s.key ∉ names (paged d root.refs)) →
    KeyedRoot d' root' ∧ (catalog d' root').Perm (registered (catalog d root) segments)

theorem registerSpec {env}
    (wf : WellFormed env.toContext d root.paging) (ok : register env root segments d = (.ok root',d')) :
    RegisterSpec env.toContext segments d d' root root' := by
  simp only [register,validateSegments,Op.bindOk,Op.requireOk] at ok
  obtain ⟨_,d₁,⟨valid,rfl⟩,⟨mid,fresh⟩,d₂,ran,touched⟩ := ok
  have spec := registerEachSpec wf ran
  obtain ⟨w,step⟩ := spec.step
  obtain ⟨grows,rfl,next⟩ := touchSpec touched
  refine ⟨⟨_,step.trans (.renamed step.wf grows _)⟩,spec.heights,⟨spec.frame.cc,spec.frame.rc,spec.frame.rf⟩,
    ⟨step.grows.next,by rw [next]; exact Nat.lt_succ_self _⟩,?_,?_⟩
  · intro s mem
    have listed : s.key ∈ (Lists.uniqBy Segment.key segments).map Segment.key :=
      Lists.uniqByKeys.mpr (mem_map_of_mem mem)
    obtain ⟨t,ht,same⟩ := mem_map.mp listed
    exact ⟨t,ht,same,valid t ht⟩
  intro keyed dates distinct random
  have sub := (Lists.uniqBySublist (f := Segment.key) segments).subset
  have pagesDistinct : (names (paged d₁ root.refs)).Nodup := by
    rw [catalog,namesAppend] at distinct; exact (nodup_append.mp distinct).2.1
  obtain ⟨kept,moved,added⟩ := spec.catalog keyed.leaves (fun s mem => dates s (sub mem)) (Lists.uniqByNodup segments)
    pagesDistinct
  rw [reverse_nil,nil_append] at added
  have leaves := step.wf.refs.leavesGrow grows
  refine ⟨⟨?_,?_⟩,?_⟩
  · refine mergeKeyed false (spec.listing ▸ keyed.tail) (fun s mem => ?_)
    rw [added] at mem
    exact dates s (sub (mem_filter.mp mem).1)
  · intro l mem
    exact kept l (leaves ▸ mem)
  have whole := registerCatalog distinct (Lists.uniqByNodup segments) (fun s mem => random s (sub mem)) moved
  rw [registeredUniq] at whole
  have below : paged d' mid.refs = paged d₂ mid.refs := congrArg (List.flatMap Listing.catalog) leaves
  rw [catalog,Root.withListing,spec.listing,added]
  exact below ▸ whole

theorem spilledCatalog (sizes : Sizes) (l : Listing) :
    (((chunk sizes (entries l)).map (Listing.persisted sizes.toSummarySizes)).flatMap Listing.catalog).Perm l.catalog := by
  rw [flatMap_map]
  exact (List.Perm.flatMap_left _ (fun c _ => Listing.persistedCatalog _ c)).trans (chunkCatalog sizes l)

theorem spilledKeyed (sizes : Sizes) (keyed : l.Keyed) :
    ∀ x ∈ (chunk sizes (entries l)).map (Listing.persisted sizes.toSummarySizes), x.Keyed := by
  intro x mem
  obtain ⟨leaf,hl,rfl⟩ := mem_map.mp mem
  obtain ⟨cs,same,-,each⟩ := chunkSpec sizes l
  rw [same] at hl
  obtain ⟨c,hc,rfl⟩ := mem_map.mp hl
  refine Listing.Keyed.persisted (keyed.subset (fun s hs => ?_)) _
  obtain ⟨e,he,segment⟩ := mem_filterMap.mp ((Lists.sortDescPerm _ _).mem_iff.mp hs)
  rcases mem_append.mp ((each c hc).inside e he) with active | retired
  · obtain ⟨t,ht,rfl⟩ := mem_map.mp active
    cases segment
    exact ht
  · obtain ⟨t,ht,rfl⟩ := mem_map.mp retired
    simp [Entry.segment?,Entry.ofRetirement] at segment

theorem emptyCatalog : Listing.empty.catalog = [] := rfl

theorem SealSpec.catalog {ctx d d' root root'} (spec : SealSpec ctx d d' root root') :
    (catalog d' root').Perm (catalog d root) := by
  rcases spec.content with ⟨listing,leaves⟩ | ⟨listing,leaves⟩
  · rw [Journal.catalog,Journal.catalog,paged,paged,listing,leaves]
  · rw [Journal.catalog,Journal.catalog,paged,paged,listing,leaves,emptyCatalog,nil_append,flatMap_append]
    exact ((spilledCatalog ctx.sizes root.toListing).append_left _).trans perm_append_comm

theorem SealSpec.keyed {ctx d d' root root'} (spec : SealSpec ctx d d' root root') (keyed : KeyedRoot d root) :
    KeyedRoot d' root' := by
  rcases spec.content with ⟨listing,leaves⟩ | ⟨listing,leaves⟩
  · exact ⟨listing ▸ keyed.tail,leaves ▸ keyed.leaves⟩
  refine ⟨by rw [listing]; intro s mem; simp [Listing.empty] at mem,?_⟩
  rw [leaves]
  intro l mem
  rcases mem_append.mp mem with old | new
  · exact keyed.leaves l old
  · exact spilledKeyed ctx.sizes keyed.tail l new

theorem ConvertSpec.catalog {ctx d d' flat root} (spec : ConvertSpec ctx d d' flat root) :
    (catalog d' root).Perm flat.catalog := by
  rcases spec.content with ⟨listing,none⟩ | ⟨listing,leaves⟩
  · simp [Journal.catalog,paged,listing,none,forestLeaves]
  · rw [Journal.catalog,paged,listing,leaves,emptyCatalog,nil_append]
    exact spilledCatalog ctx.sizes flat

theorem ConvertSpec.keyed {ctx d d' flat root} (spec : ConvertSpec ctx d d' flat root) (keyed : flat.Keyed) :
    KeyedRoot d' root := by
  rcases spec.content with ⟨listing,none⟩ | ⟨listing,leaves⟩
  · exact ⟨listing ▸ keyed,by rw [none]; intro l mem; simp [forestLeaves] at mem⟩
  · exact ⟨by rw [listing]; intro s mem; simp [Listing.empty] at mem,by rw [leaves]; exact spilledKeyed ctx.sizes keyed⟩

end Pulso.Journal
