import Pulso.JournalHistory

/-! Contents along a history: what each step may do to the items a root lists, and that no key
is ever listed twice as long as keys added without a page lookup are new to the pages. -/
namespace Pulso
open List

def Item.expire (floor : Int) (deadline : Nat) (i : Item) : Option Item :=
  match i.retirement with
  | none => some (if Journal.stampOf i.key < floor then ⟨i.key,some (.new deadline)⟩ else i)
  | some r => if r.deleted && Journal.stampOf i.key < floor then none else some i

namespace Journal

variable {i : Item} {l : Listing}

section Expire
variable {floor : Int} {deadline : Nat}

theorem expireKey {j} (h : i.expire floor deadline = some j) : j.key = i.key := by
  unfold Item.expire at h
  split at h
  · split at h <;> · cases h; rfl
  split at h
  · simp at h
  · cases h; rfl

theorem expireCatalog (keyed : l.Keyed) (distinct : (names l.catalog).Nodup) :
    (expireListing floor deadline l).catalog.Perm (l.catalog.filterMap (Item.expire floor deadline)) := by
  have dates : ∀ s ∈ l.segments, stampOf s.key = s.maxTs := fun s mem => keyedStamp (keyed s mem)
  rw [names,Listing.catalogKeys] at distinct
  obtain ⟨activeDistinct,_,apart⟩ := nodup_append.mp distinct
  let old := l.segments.filter (fun s => s.maxTs < floor)
  let young := l.segments.filter (fun s => !decide (s.maxTs < floor))
  have retired : (Manifest.retireAll (forget l.retired floor) (old.map Segment.key) deadline).entries =
      (forget l.retired floor).entries ++ (old.map Segment.key).map (fun k => (k,Retirement.new deadline)) := by
    refine Manifest.retireAllEntries deadline ?_ (activeDistinct.sublist (filter_sublist.map _))
    intro k mem there
    have inside : k ∈ l.retired.keys := (filter_sublist.map _).subset there
    exact apart k ((filter_sublist.map _).subset mem) k inside rfl
  have actives : (l.activeKeys.map Item.active).filterMap (Item.expire floor deadline) =
      l.segments.map (fun s => if s.maxTs < floor then Item.retired (s.key,.new deadline) else Item.active s.key) := by
    rw [Listing.activeKeys,map_map,filterMap_map,← filterMap_eq_map']
    refine filterMap_congr (fun s mem => ?_)
    simp only [Function.comp_apply,Item.expire,Item.active,dates s mem]
    split <;> rfl
  have tombstones : (l.retired.entries.map Item.retired).filterMap (Item.expire floor deadline) =
      (forget l.retired floor).entries.map Item.retired := by
    have kept : (forget l.retired floor).entries = l.retired.entries.filter (fun e => !forgotten floor e) := rfl
    rw [filterMap_map,kept,← filterMap_eq_filter,map_filterMap]
    refine filterMap_congr (fun e _ => ?_)
    simp only [Function.comp_apply,Item.expire,Item.retired,Option.guard,forgotten,stampOf]
    by_cases early : e.1.maxTs?.getD 0 < floor <;> by_cases gone : e.2.deleted = true <;> simp [early,gone,Item.retired]
  have parts : (young.map (fun s => Item.active s.key) ++ old.map (fun s => Item.retired (s.key,.new deadline))).Perm
      (l.segments.map (fun s => if s.maxTs < floor then Item.retired (s.key,.new deadline) else Item.active s.key)) := by
    have split := (filter_append_perm (fun s : Segment => decide (s.maxTs < floor)) l.segments).map
      (fun s => if s.maxTs < floor then Item.retired (s.key,Retirement.new deadline) else Item.active s.key)
    rw [map_append] at split
    refine List.Perm.trans ?_ (perm_append_comm.trans split)
    refine List.Perm.append (.of_eq ?_) (.of_eq ?_)
    · refine map_congr_left (fun s mem => ?_)
      have late : ¬ s.maxTs < floor := by simpa using (mem_filter.mp mem).2
      simp [late]
    refine map_congr_left (fun s mem => ?_)
    have early : s.maxTs < floor := by simpa using (mem_filter.mp mem).2
    simp [early]
  have goal : (expireListing floor deadline l).catalog =
      young.map (fun s => Item.active s.key) ++ ((forget l.retired floor).entries.map Item.retired ++
        old.map (fun s => Item.retired (s.key,.new deadline))) := by
    simp only [expireListing,Listing.catalog,Listing.activeKeys,map_map]
    rw [retired]
    simp [Function.comp_def,young,old]
  rw [goal,Listing.catalog,filterMap_append,actives,tombstones]
  refine List.Perm.trans ?_ (parts.append_right _)
  rw [append_assoc]
  exact perm_append_comm.append_left _

theorem expireSegments (l : Listing) : ∀ s ∈ (expireListing floor deadline l).segments, s ∈ l.segments :=
  fun _ mem => (mem_filter.mp mem).1

end Expire
def Fate (s : State) : Event → Item → Option Item → Prop
  | .registered segments,i,o => o = some (i.rearm (segments.map Segment.key))
  | .replaced plan,i,o => o = some i ∨ (i.retirement = none ∧ o = some ⟨i.key,some (.new plan.deadline)⟩)
  | .cleaned work,i,o => o = some i ∨ o = some (i.mark (Dict.ofList work.deleted))
  | .expired floor deadline _,i,o => o = some i ∨ ∃ f ≤ max (s.root.paging.rf.getD 0) floor, o = i.expire f deadline
  | _,i,o => o = some i

def added (s : State) : Event → List Key
  | .registered segments => newNames (catalog s.disk s.root) segments
  | .replaced plan => newNames (catalog s.disk s.root) plan.replacements
  | _ => []

theorem fateKey {s e i j} (h : Fate s e i (some j)) : j.key = i.key := by
  cases e with
  | registered segments => cases h; simp
  | replaced plan =>
    rcases h with same | ⟨_,gone⟩
    · cases same; rfl
    · cases gone; rfl
  | cleaned work => rcases h with same | marked <;> · cases (by assumption : some j = _); rfl
  | expired floor deadline changes =>
    rcases h with same | ⟨f,_,gone⟩
    · cases same; rfl
    · exact expireKey gone.symm
  | wasted => cases h; rfl
  | sealed => cases h; rfl
  | planned plan => cases h; rfl

theorem addedNew (s : State) (e : Event) : (added s e).Nodup ∧ ∀ k ∈ added s e, k ∉ names (catalog s.disk s.root) := by
  have fresh : ∀ segments, (newNames (catalog s.disk s.root) segments).Nodup ∧
      ∀ k ∈ newNames (catalog s.disk s.root) segments, k ∉ names (catalog s.disk s.root) := fun segments =>
    ⟨(Lists.uniqByNodup segments).filter _,fun k mem => by simpa using (mem_filter.mp mem).2⟩
  cases e with
  | registered segments => exact fresh segments
  | replaced plan => exact fresh plan.replacements
  | _ => exact ⟨nodup_nil,by simp [added]⟩

/- Old items keep their key or go; new keys come in active, and were not listed before. -/
def Proceeds (s : State) (e : Event) (s' : State) : Prop :=
  ∃ kept, Evolves (Fate s e) (catalog s.disk s.root) kept ∧
    (catalog s'.disk s'.root).Perm (kept ++ (added s e).map Item.active)

theorem activeNames (keys : List Key) : names (keys.map Item.active) = keys := by
  simp [names,Item.active,Function.comp_def]

theorem Proceeds.distinct {s e s'} (p : Proceeds s e s') (distinct : (names (catalog s.disk s.root)).Nodup) :
    (names (catalog s'.disk s'.root)).Nodup := by
  obtain ⟨kept,old,whole⟩ := p
  obtain ⟨once,fresh⟩ := addedNew s e
  refine (whole.map Item.key).nodup_iff.mpr ?_
  rw [← names,namesAppend,activeNames]
  refine nodup_append.mpr ⟨old.nodup (fun i _ j h => fateKey h) distinct,once,?_⟩
  rintro k there k' new rfl
  obtain ⟨j,hj,rfl⟩ := mem_map.mp there
  obtain ⟨i,hi,h⟩ := old.backward hj
  exact fresh _ new (by rw [fateKey h]; exact mem_map_of_mem hi)

/- Keys carry their bounds, and one added without a page lookup is in no page. -/
def Honest (s : State) : Event → Prop
  | .registered segments => (∀ x ∈ segments, x.EncodesBounds) ∧
      ∀ x ∈ segments, x.key.random = true → x.key ∉ names (paged s.disk s.root.refs)
  | .replaced plan => (∀ x ∈ plan.replacements, x.EncodesBounds) ∧
      ∀ x ∈ plan.replacements, x.key ∉ names (paged s.disk s.root.refs)
  | _ => True

structure Proper (ctx : Context) (d : Disk) (root : Root) : Prop where
  wf : WellFormed ctx d root.paging
  keyed : KeyedRoot d root
  distinct : (names (catalog d root)).Nodup

theorem Proper.grows {ctx d d' root} (p : Proper ctx d root) (g : Grows d d') : Proper ctx d' root := by
  refine ⟨p.wf.grows g,⟨p.keyed.tail,?_⟩,?_⟩
  · rw [p.wf.refs.leavesGrow g]; exact p.keyed.leaves
  · rw [catalogGrow p.wf.refs g]; exact p.distinct

structure Healthy (ctx : Context) (s : State) : Prop where
  owned : Owned ctx s
  roots : ∀ r ∈ s.past, Proper ctx s.disk r

theorem Healthy.proper {ctx s} (h : Healthy ctx s) : Proper ctx s.disk s.root := h.roots _ h.owned.current

theorem Proper.pagesDistinct {ctx d root} (p : Proper ctx d root) : (names (paged d root.refs)).Nodup := by
  have distinct := p.distinct
  rw [catalog,namesAppend] at distinct
  exact (nodup_append.mp distinct).2.1

theorem Proper.tailDistinct {ctx d root} (p : Proper ctx d root) : (names root.toListing.catalog).Nodup := by
  have distinct := p.distinct
  rw [catalog,namesAppend] at distinct
  exact (nodup_append.mp distinct).1

theorem CommitSpec.carries {ctx R d d' p p' changes} (c : CommitSpec ctx R d d' p p' changes) :
    Carries (fun l o => R l o ∨ o = some l) (forestLeaves d p.refs) (forestLeaves d' p'.refs) :=
  c.leaves _ (fun _ _ h => .inl h) (fun _ _ _ => Carries.same (fun _ _ => .inr rfl))

variable {stamps : List Int} {floor : Int} {deadline : Nat}

section Pages
variable {ctx : Context} {F : Item → Option Item → Prop} {ls ls' : List Listing}

theorem updatedPages {update f} (h : Carries (fun l o => Updates ctx stamps update l o ∨ o = some l) ls ls')
    (distinct : (names (ls.flatMap Listing.catalog)).Nodup)
    (mapped : ∀ l : Listing, (names l.catalog).Nodup → (update l).catalog.Perm (l.catalog.map f))
    (stay : ∀ i, F i (some i)) (turn : ∀ i, F i (some (f i))) :
    Evolves F (ls.flatMap Listing.catalog) (ls'.flatMap Listing.catalog) := by
  refine Evolves.ofFlatMap h (fun l mem l' u => ?_) (fun l mem u => ?_)
  · rcases u with u | same
    · cases u with
      | same => exact .same (fun i _ => stay i)
      | skipped => exact .same (fun i _ => stay i)
      | changed =>
        refine (Evolves.ofMap ((Listing.persistedCatalog _ _).trans (mapped l (leafDistinct distinct l mem)))).mono ?_
        rintro i _ o rfl
        exact turn i
    · cases same; exact .same (fun i _ => stay i)
  · rcases u with u | same
    · obtain ⟨_,none⟩ := u.some; simp at none
    · simp at same

theorem updatedKeyed {update}
    (h : Carries (fun l o => Updates ctx stamps update l o ∨ o = some l) ls ls') (keyed : ∀ l ∈ ls, l.Keyed)
    (sub : ∀ l : Listing, ∀ s ∈ (update l).segments, s ∈ l.segments) : ∀ l ∈ ls', l.Keyed := by
  intro l' mem
  obtain ⟨l,hl,u⟩ := h.backward mem
  rcases u with u | same
  · exact u.keyed (keyed l hl) (sub l)
  · cases same; exact keyed _ hl

variable (h : Carries (fun l o => Expires ctx floor deadline l o ∨ o = some l) ls ls')
include h

theorem expiredPages (keyed : ∀ l ∈ ls, l.Keyed)
    (distinct : (names (ls.flatMap Listing.catalog)).Nodup) (stay : ∀ i, F i (some i))
    (turn : ∀ i, F i (i.expire floor deadline)) :
    Evolves F (ls.flatMap Listing.catalog) (ls'.flatMap Listing.catalog) := by
  have expire : ∀ l ∈ ls, ∀ items : List Item, items.Perm (expireListing floor deadline l).catalog →
      Evolves F l.catalog items := by
    intro l mem items same
    refine (Evolves.ofFilterMap (same.trans (expireCatalog (keyed l mem) (leafDistinct distinct l mem)))).mono ?_
    rintro i _ o rfl
    exact turn i
  refine Evolves.ofFlatMap h (fun l mem l' u => ?_) (fun l mem u => ?_)
  · rcases u with u | same
    · cases u with
      | kept => exact .same (fun i _ => stay i)
      | updated => exact expire l mem _ (Listing.persistedCatalog _ _)
    · cases same; exact .same (fun i _ => stay i)
  · rcases u with u | same
    · cases u with
      | dropped segments retired =>
        refine expire l mem [] (.of_eq ?_)
        rw [Listing.catalog,Listing.activeKeys,segments,retired]
        rfl
    · simp at same

theorem expiredKeyed (keyed : ∀ l ∈ ls, l.Keyed) : ∀ l ∈ ls', l.Keyed := by
  intro l' mem
  obtain ⟨l,hl,u⟩ := h.backward mem
  rcases u with u | same
  · cases u with
    | kept => exact keyed _ hl
    | updated => exact ((keyed l hl).subset (expireSegments l)).persisted _
  · cases same; exact keyed _ hl

end Pages

theorem newNamesCongr {a b} (segments : List Segment)
    (same : ∀ s ∈ segments, s.key ∈ names a ↔ s.key ∈ names b) : newNames a segments = newNames b segments := by
  refine filter_congr (fun k mem => ?_)
  obtain ⟨s,hs,rfl⟩ := mem_map.mp mem
  simp [same s ((Lists.uniqBySublist segments).subset hs)]

theorem replaceCatalog (thin : Bool) {keys replacements} (deadline : Nat)
    (distinct : (names l.catalog).Nodup) (once : keys.Nodup) (inside : ∀ k ∈ keys, k ∈ l.activeKeys)
    (unknown : ∀ r ∈ replacements, r.key ∉ names l.catalog) :
    (Manifest.merge thin ⟨l.segments.filter (fun s => s.key ∉ keys),Manifest.retireAll l.retired keys deadline⟩
      replacements).catalog.Perm
      (l.catalog.map (Item.retire keys deadline) ++ (newNames l.catalog replacements).map Item.active) := by
  have retired := Manifest.retireCatalog deadline distinct once inside
  have sameNames := retired.map Item.key
  rw [← names,← names,namesMap _ (Item.retireKey keys deadline)] at sameNames
  have merged := Manifest.mergeCatalog thin replacements (sameNames.nodup_iff.mpr distinct)
  refine merged.trans ?_
  have fresh : Manifest.freshKeys _ replacements = newNames l.catalog replacements :=
    newNamesCongr replacements (fun s _ => sameNames.mem_iff)
  rw [fresh]
  refine List.Perm.append_right _ ?_
  refine (retired.map _).trans (.of_eq ?_)
  rw [map_map]
  refine map_congr_left (fun i mem => Item.rearmFixed ?_)
  rw [Item.retireKey]
  intro replaced
  obtain ⟨r,hr,same⟩ := mem_map.mp replaced
  exact unknown r hr (same ▸ mem_map_of_mem mem)

theorem unlisted {replacements : List Segment}
    (unknown : ∀ r ∈ replacements, r.key ∉ l.activeKeys ∧ r.key ∉ l.retired.keys) :
    ∀ r ∈ replacements, r.key ∉ names l.catalog := by
  intro r mem listed
  rw [names,Listing.catalogKeys,mem_append] at listed
  exact listed.elim (unknown r mem).1 (unknown r mem).2

theorem Healthy.published {ctx s e root' d' plans} (h : Healthy ctx s) (grows : Grows s.disk d')
    (owned : Owned ctx (s.publish root' d' plans)) (keyed : KeyedRoot d' root')
    (p : Proceeds s e (s.publish root' d' plans)) : Healthy ctx (s.publish root' d' plans) :=
  ⟨owned,forall_mem_cons.mpr ⟨⟨owned.wf,keyed,p.distinct h.proper.distinct⟩,fun r old => (h.roots r old).grows grows⟩⟩

variable {s : State}

theorem proceedsSame {s' e} (stay : ∀ i, Fate s e i (some i)) (none : added s e = [])
    (same : (catalog s'.disk s'.root).Perm (catalog s.disk s.root)) : Proceeds s e s' :=
  ⟨_,.same (fun i _ => stay i),by rw [none]; simpa using same⟩

variable {ctx : Context} {root' : Root} {d' : Disk} {rest : List Plan} (proper : Proper ctx s.disk s.root)
include proper

theorem replacedProceeds {plan keys} (once : plan.inline.Nodup) (honest : Honest s (.replaced plan))
    (spec : ReplacedSpec ctx (Updates ctx (retireStamps keys) (retireLeaf keys plan.deadline)) s.disk d' s.root root' plan) :
    KeyedRoot d' root' ∧ Proceeds s (.replaced plan) (s.publish root' d' rest) := by
  have carried := spec.commit.carries
  have turn : ∀ keys i, Fate s (.replaced plan) i (some (i.retire keys plan.deadline)) := by
    intro keys i
    unfold Item.retire
    split
    · rename_i here; exact .inr ⟨here.1,rfl⟩
    · exact .inl rfl
  have pages := updatedPages (F := Fate s (.replaced plan)) carried proper.pagesDistinct
    (fun l d => retireLeafCatalog keys plan.deadline d) (fun i => .inl rfl) (turn keys)
  have tail := replaceCatalog false plan.deadline proper.tailDistinct once spec.inline (unlisted spec.unknown)
  rw [← spec.listing] at tail
  have fresh : newNames s.root.toListing.catalog plan.replacements = newNames (catalog s.disk s.root) plan.replacements := by
    refine newNamesCongr _ (fun x mem => ?_)
    rw [catalog,namesAppend,mem_append]
    exact ⟨.inl,fun h => h.resolve_right (honest.2 x mem)⟩
  refine ⟨⟨?_,updatedKeyed carried proper.keyed.leaves (retireLeafSegments keys plan.deadline)⟩,?_⟩
  · rw [spec.listing]
    exact mergeKeyed false (proper.keyed.tail.subset (fun x mem => (mem_filter.mp mem).1))
      (fun x mem => (honest.1 x mem).keyed)
  have tailFate : Evolves (Fate s (.replaced plan)) s.root.toListing.catalog
      (s.root.toListing.catalog.map (Item.retire plan.inline plan.deadline)) := by
    refine (Evolves.ofMap (List.Perm.refl _)).mono ?_
    rintro i _ o rfl
    exact turn plan.inline i
  refine ⟨_,tailFate.append pages,?_⟩
  have whole : (catalog d' root').Perm _ := tail.append_right (paged d' root'.refs)
  rw [fresh] at whole
  refine whole.trans ?_
  rw [append_assoc,append_assoc]
  exact perm_append_comm.append_left _

theorem cleanedProceeds {work}
    (spec : CleanedSpec ctx (Updates ctx stamps (markListing (Dict.ofList work.deleted))) s.disk d' s.root root' work) :
    KeyedRoot d' root' ∧ Proceeds s (.cleaned work) (s.publish root' d' rest) := by
  have carried := spec.commit.carries
  have pages := updatedPages (F := Fate s (.cleaned work)) carried proper.pagesDistinct
    (fun l _ => .of_eq (markListingCatalog _ l)) (fun i => .inl rfl) (fun i => .inr rfl)
  refine ⟨⟨by rw [spec.listing]; exact proper.keyed.tail,
    updatedKeyed carried proper.keyed.leaves (fun l x mem => mem)⟩,?_⟩
  have tail : Evolves (Fate s (.cleaned work)) s.root.toListing.catalog root'.toListing.catalog := by
    refine (Evolves.ofMap (.of_eq ?_)).mono (fun i _ o h => .inr h)
    rw [spec.listing,markListingCatalog]
  exact ⟨_,tail.append pages,by simp [added,State.publish,catalog,paged]⟩

theorem expiredProceeds {changes}
    (spec : ExpiredSpec ctx (Expires ctx floor deadline) s.disk d' s.root root' floor deadline changes) :
    KeyedRoot d' root' ∧ Proceeds s (.expired floor deadline changes) (s.publish root' d' rest) := by
  have carried := spec.commit.carries
  have pages := expiredPages (F := Fate s (.expired floor deadline changes)) carried proper.keyed.leaves proper.pagesDistinct
    (fun i => .inl rfl) (fun i => .inr ⟨floor,le_max_right _ _,rfl⟩)
  refine ⟨⟨by rw [spec.listing]; exact proper.keyed.tail.subset (expireSegments _),expiredKeyed carried proper.keyed.leaves⟩,?_⟩
  have tail : Evolves (Fate s (.expired floor deadline changes)) s.root.toListing.catalog root'.toListing.catalog := by
    refine (Evolves.ofFilterMap ?_).mono (fun i _ o h => .inr ⟨_,le_refl _,h⟩)
    rw [spec.listing]
    exact expireCatalog proper.keyed.tail proper.tailDistinct
  exact ⟨_,tail.append pages,by simp [added,State.publish,catalog,paged]⟩

omit proper

theorem stepHealthy {ctx s e s'} (h : Healthy ctx s) (honest : Honest s e) (step : Step ctx s e s') :
    Healthy ctx s' ∧ Proceeds s e s' := by
  have owned := stepOwned h.owned step
  have proper := h.proper
  have planned : ∀ {d' plan}, Grows s.disk d' → Owned ctx ⟨d',s.root,s.past,plan::s.plans⟩ →
      Healthy ctx ⟨d',s.root,s.past,plan::s.plans⟩ ∧ Proceeds s (.planned plan) ⟨d',s.root,s.past,plan::s.plans⟩ :=
    fun grows owned => ⟨⟨owned,fun r mem => (h.roots r mem).grows grows⟩,
      proceedsSame (fun _ => rfl) rfl (.of_eq (catalogGrow proper.wf.refs grows))⟩
  cases step with
  | wasted grows =>
    exact ⟨⟨owned,fun r mem => (h.roots r mem).grows grows⟩,
      proceedsSame (fun _ => rfl) rfl (.of_eq (catalogGrow proper.wf.refs grows))⟩
  | register same ok =>
    subst same
    have spec := registerSpec proper.wf ok
    obtain ⟨w,one⟩ := spec.step
    obtain ⟨keyed,moved⟩ := spec.catalog proper.keyed (fun x mem => (honest.1 x mem).keyed) proper.distinct honest.2
    have p : Proceeds s (.registered _) (s.publish _ _ s.plans) := ⟨_,Evolves.ofMap (.refl _),moved⟩
    exact ⟨h.published one.grows owned keyed p,p⟩
  | sealed same ok =>
    subst same
    have spec := sealSpec proper.wf ok
    obtain ⟨w,one⟩ := spec.step
    have p : Proceeds s .sealed (s.publish _ _ s.plans) := proceedsSame (fun _ => rfl) rfl spec.catalog
    exact ⟨h.published one.grows owned (spec.keyed proper.keyed) p,p⟩
  | planReplace same earlier ok =>
    subst same
    obtain ⟨paged,spec⟩ := planReplaceSpec (h.roots _ earlier).wf ok
    exact planned spec.changes.grows owned
  | commitReplace same taken ok =>
    subst same
    obtain ⟨once,keys,plan⟩ := h.owned.plans _ (taken.mem_iff.mpr mem_cons_self)
    have spec := commitReplaceSpec proper.wf plan (h.owned.ownPlan taken) ok
    obtain ⟨keyed,p⟩ := replacedProceeds proper once honest spec
    exact ⟨h.published spec.commit.grows owned keyed p,p⟩
  | planCleanup same earlier ok =>
    subst same
    exact planned (planCleanupSpec (h.roots _ earlier).wf ok).grows owned
  | applyCleanup same taken ok =>
    subst same
    obtain ⟨stamps,plan⟩ := h.owned.plans _ (taken.mem_iff.mpr mem_cons_self)
    have spec := applyCleanupSpec proper.wf plan (h.owned.ownPlan taken) ok
    obtain ⟨keyed,p⟩ := cleanedProceeds proper spec
    exact ⟨h.published spec.commit.grows owned keyed p,p⟩
  | expirePlan same earlier ok =>
    subst same
    have base := (h.roots _ earlier).wf
    exact planned (expirePlanSpec base.allocated base.refs base.distinct ok).grows owned
  | applyExpiry same taken ok =>
    subst same
    have plan := h.owned.plans _ (taken.mem_iff.mpr mem_cons_self)
    have spec := applyExpirySpec proper.wf plan (h.owned.ownPlan taken) ok
    obtain ⟨keyed,p⟩ := expiredProceeds proper spec
    exact ⟨h.published spec.commit.grows owned keyed p,p⟩

variable {k : Key}

theorem Proceeds.names {s e s'} (p : Proceeds s e s') (mem : k ∈ Journal.names (catalog s'.disk s'.root)) :
    k ∈ Journal.names (catalog s.disk s.root) ∨ k ∈ added s e := by
  obtain ⟨kept,old,whole⟩ := p
  have either := (whole.map Item.key).mem_iff.mp mem
  rw [← Journal.names,namesAppend,activeNames] at either
  refine (mem_append.mp either).imp_left (fun here => ?_)
  obtain ⟨j,hj,rfl⟩ := mem_map.mp here
  obtain ⟨i,hi,fate⟩ := old.backward hj
  rw [fateKey fate]
  exact mem_map_of_mem hi

theorem Proceeds.settled {s e s'} (p : Proceeds s e s') (distinct : (Journal.names (catalog s.disk s.root)).Nodup)
    (mem : i ∈ catalog s.disk s.root) :
    (Fate s e i none ∧ i.key ∉ Journal.names (catalog s'.disk s'.root)) ∨
      ∃ j ∈ catalog s'.disk s'.root, Fate s e i (some j) := by
  obtain ⟨kept,old,whole⟩ := p
  rcases old.settled (fun i _ j h => fateKey h) distinct mem with ⟨dropped,gone⟩ | ⟨j,hj,fate⟩
  · refine .inl ⟨dropped,fun listed => ?_⟩
    have either := (whole.map Item.key).mem_iff.mp listed
    rw [← Journal.names,namesAppend,activeNames] at either
    rcases mem_append.mp either with here | new
    · exact gone here
    · exact (addedNew s e).2 _ new (mem_map_of_mem mem)
  · exact .inr ⟨j,whole.mem_iff.mpr (mem_append_left _ hj),fate⟩

theorem expireNone {f} (h : i.expire f deadline = none) :
    ∃ r, i.retirement = some r ∧ r.deleted = true ∧ stampOf i.key < f := by
  unfold Item.expire at h
  split at h
  · simp at h
  rename_i r here
  split at h
  · rename_i both
    simp only [Bool.and_eq_true,decide_eq_true_eq] at both
    exact ⟨r,here,both.1,both.2⟩
  · simp at h

theorem fateNone {s e i} (h : Fate s e i none) : ∃ floor deadline changes, e = .expired floor deadline changes ∧
    ∃ r, i.retirement = some r ∧ r.deleted = true ∧ stampOf i.key < max (s.root.paging.rf.getD 0) floor := by
  cases e with
  | expired floor deadline changes =>
    rcases h with same | ⟨f,le,gone⟩
    · simp at same
    · obtain ⟨r,retired,deleted,early⟩ := expireNone gone.symm
      exact ⟨floor,deadline,changes,rfl,r,retired,deleted,early.trans_le le⟩
  | registered segments => simp [Fate] at h
  | replaced plan => simp [Fate] at h
  | cleaned work => simp [Fate] at h
  | wasted => simp [Fate] at h
  | sealed => simp [Fate] at h
  | planned plan => simp [Fate] at h

theorem fateRetired {s e j} (h : Fate s e i (some j)) {r} (retired : i.retirement = some r) :
    ∃ r', j.retirement = some r' ∧ r.revision ≤ r'.revision := by
  cases e with
  | registered segments =>
    cases h
    unfold Item.rearm
    split
    · exact ⟨r.retried,by simp [retired],Nat.le_succ _⟩
    · exact ⟨r,retired,le_refl _⟩
  | replaced plan =>
    rcases h with same | ⟨active,_⟩
    · cases same; exact ⟨r,retired,le_refl _⟩
    · simp [active] at retired
  | cleaned work =>
    rcases h with same | marked
    · cases same; exact ⟨r,retired,le_refl _⟩
    cases marked
    refine ⟨markDeleted (Dict.ofList work.deleted) i.key r,by simp [Item.mark,retired],?_⟩
    unfold markDeleted
    split <;> exact le_refl _
  | expired floor deadline changes =>
    rcases h with same | ⟨f,_,gone⟩
    · cases same; exact ⟨r,retired,le_refl _⟩
    simp only [Item.expire,retired] at gone
    split at gone
    · simp at gone
    · cases gone; exact ⟨r,retired,le_refl _⟩
  | wasted => cases h; exact ⟨r,retired,le_refl _⟩
  | sealed => cases h; exact ⟨r,retired,le_refl _⟩
  | planned plan => cases h; exact ⟨r,retired,le_refl _⟩

theorem expiredFloor {ctx s floor deadline changes s'} (o : Owned ctx s) (step : Step ctx s (.expired floor deadline changes) s') :
    s'.root.paging.rf = some (max (s.root.paging.rf.getD 0) floor) := by
  cases step with
  | applyExpiry same taken ok =>
    subst same
    have planned := o.plans _ (taken.mem_iff.mpr mem_cons_self)
    exact (applyExpirySpec o.wf planned (o.ownPlan taken) ok).floor

theorem newNamesFrom {items segments} (mem : k ∈ newNames items segments) :
    ∃ x ∈ segments, x.key = k := mem_map.mp (Lists.uniqByKeys.mp (mem_filter.mp mem).1)

def Reserved (k : Key) (s : State) (e : Event) : Prop :=
  Honest s e ∧ match e with
    | .registered segments => ∀ x ∈ segments, ∀ f ∈ s.root.paging.rf, f ≤ x.maxTs
    | .replaced plan => k ∉ plan.replacements.map Segment.key
    | _ => True

/- A key retired for good: listed as retired, or forgotten below the floor. -/
def Buried (k : Key) (s : State) : Prop :=
  (∃ r, Item.retired (k,r) ∈ catalog s.disk s.root) ∨
    (k ∉ names (catalog s.disk s.root) ∧ ∃ f ∈ s.root.paging.rf, stampOf k < f)

theorem forgottenStep {ctx s e s' f} (absent : k ∉ names (catalog s.disk s.root)) (floor : f ∈ s.root.paging.rf)
    (early : stampOf k < f) (healthy : Healthy ctx s) (kept : Reserved k s e) (step : Step ctx s e s') :
    k ∉ names (catalog s'.disk s'.root) ∧ ∃ f' ∈ s'.root.paging.rf, stampOf k < f' := by
  refine ⟨fun listed => ?_,?_⟩
  · have new := ((stepHealthy healthy kept.1 step).2.names listed).resolve_left absent
    cases e with
    | registered segments =>
      obtain ⟨x,hx,rfl⟩ := newNamesFrom new
      have stamp := keyedStamp (kept.1.1 x hx).keyed
      exact absurd (kept.2 x hx f floor) (by omega)
    | replaced plan =>
      obtain ⟨x,hx,rfl⟩ := newNamesFrom new
      exact kept.2 (mem_map_of_mem hx)
    | _ => simp [added] at new
  · obtain ⟨f',hf,le⟩ := (stepMoves healthy.owned step).floor f floor
    exact ⟨f',hf,early.trans_le le⟩

theorem Buried.step {ctx s e s' k} (h : Buried k s) (healthy : Healthy ctx s) (kept : Reserved k s e)
    (step : Step ctx s e s') : Buried k s' := by
  rcases h with ⟨r,listed⟩ | ⟨absent,f,floor,early⟩
  · rcases (stepHealthy healthy kept.1 step).2.settled healthy.proper.distinct listed with ⟨dropped,gone⟩ | ⟨j,hj,fate⟩
    · obtain ⟨floor,deadline,changes,rfl,_,_,_,early⟩ := fateNone dropped
      exact .inr ⟨gone,_,expiredFloor healthy.owned step,early⟩
    obtain ⟨r',retired,_⟩ := fateRetired fate (r := r) rfl
    have key : j.key = k := fateKey fate
    cases j
    cases key; cases retired
    exact .inl ⟨r',hj⟩
  · exact .inr (forgottenStep absent floor early healthy kept step)

theorem Buried.inactive {ctx s k} (h : Buried k s) (p : Proper ctx s.disk s.root) : k ∉ s.root.activeKeys := by
  intro active
  have listed : Item.active k ∈ catalog s.disk s.root := mem_append_left _ (mem_append_left _ (mem_map_of_mem active))
  rcases h with ⟨r,retired⟩ | ⟨absent,_⟩
  · have same := itemUnique p.distinct listed retired rfl
    simp [Item.active,Item.retired] at same
  · exact absent (mem_map_of_mem listed)

inductive Begins (ctx : Context) : State → Prop
  | fresh {d d' root} (allocated : d.Allocated) (ok : newRoot d = (.ok root,d')) : Begins ctx ⟨d',root,[root],[]⟩
  | converted {env : Env} {flat : Flat} {d d' root} (same : env.toContext = ctx) (allocated : d.Allocated)
      (dated : ∀ x ∈ flat.listing.segments, x.EncodesBounds) (ok : convert env flat.listing d = (.ok root,d')) :
      Begins ctx ⟨d',root,[root],[]⟩

theorem beginsHealthy {ctx s} (begins : Begins ctx s) : Healthy ctx s := by
  have alone : ∀ {d root}, Owned ctx ⟨d,root,[root],[]⟩ → KeyedRoot d root → (names (catalog d root)).Nodup →
      Healthy ctx ⟨d,root,[root],[]⟩ := by
    intro d root owned keyed distinct
    refine ⟨owned,fun r mem => ?_⟩
    cases mem_singleton.mp mem
    exact ⟨owned.wf,keyed,distinct⟩
  cases begins with
  | fresh allocated ok =>
    have owned : Owned ctx _ := startOwned (.fresh allocated ok)
    obtain ⟨rfl,-⟩ := newRootSpec ok
    refine alone owned ⟨?_,?_⟩ ?_
    · intro x mem; simp [Listing.empty] at mem
    · intro l mem; simp [forestLeaves,Root.refs] at mem
    · simp [catalog,paged,forestLeaves,Root.refs,emptyCatalog,names]
  | @converted env flat d d' root same allocated dated ok =>
    have owned := startOwned (.converted same allocated ok)
    have spec := convertSpec allocated ok
    exact alone owned (spec.keyed (fun x mem => (dated x mem).keyed)) ((spec.catalog.map Item.key).nodup_iff.mpr flat.distinct)

theorem Reaches.keeps {ctx promise s s'} {I : State → Prop} (run : Reaches ctx promise s s') (h : Healthy ctx s)
    (honest : ∀ s e, promise s e → Honest s e) (start : I s)
    (keep : ∀ s e s', Healthy ctx s → I s → promise s e → Step ctx s e s' → I s') : Healthy ctx s' ∧ I s' := by
  induction run with
  | refl => exact ⟨h,start⟩
  | tail _ last ih =>
    obtain ⟨e,promised,step⟩ := last
    exact ⟨(stepHealthy ih.1 (honest _ _ promised) step).1,keep _ _ _ ih.1 ih.2 promised step⟩

theorem reachHealthy {ctx promise s s'} (h : Healthy ctx s) (honest : ∀ s e, promise s e → Honest s e)
    (run : Reaches ctx promise s s') : Healthy ctx s' :=
  (run.keeps (I := fun _ => True) h honest trivial (fun _ _ _ _ _ _ _ => trivial)).1

namespace Sample

def tombstone : Flat := ⟨retiredFirst,by decide +kernel⟩

theorem openingBegins : Begins bulky.toContext opening := by
  have dated : ∀ x ∈ tombstone.listing.segments, x.EncodesBounds := by decide +kernel
  exact .converted rfl blankAllocated dated (Op.doneOk _)

end Sample

end Journal
end Pulso
