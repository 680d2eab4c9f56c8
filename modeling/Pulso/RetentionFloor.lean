import Pulso.JournalContents

/-! Expiry below a retention floor: what one committed plan may retire, forget and drop, and
which segments queries still see. -/
namespace Pulso
open List

def Segment.intersects (x : Segment) (start finish : Option Int) : Bool :=
  (start.all (fun t => t ≤ x.maxTs)) && (finish.all (fun t => x.minTs ≤ t))

namespace Journal

def retainedStart : Option Int → Option Int → Option Int
  | start,none => start
  | none,some floor => some floor
  | some start,some floor => some (max start floor)

-- whether the time range of a query on this root can reach a segment
def Root.reaches (root : Root) (start finish : Option Int) (x : Segment) : Bool :=
  x.intersects (retainedStart start root.paging.rf) finish

def segmentsOf (d : Disk) (root : Root) : List Segment := root.segments ++ (forestLeaves d root.refs).flatMap Listing.segments

theorem activeSegments (d : Disk) (root : Root) {x} (mem : x ∈ segmentsOf d root) : Item.active x.key ∈ catalog d root := by
  have listed : ∀ {l : Listing}, x ∈ l.segments → Item.active x.key ∈ l.catalog := fun inside =>
    mem_append_left _ (mem_map_of_mem (mem_map_of_mem inside))
  rcases mem_append.mp mem with tail | below
  · exact mem_append_left _ (listed tail)
  · obtain ⟨l,hl,inside⟩ := mem_flatMap.mp below
    exact mem_append_right _ (mem_flatMap.mpr ⟨l,hl,listed inside⟩)

theorem segmentOfActive {d root k} (mem : Item.active k ∈ catalog d root) : ∃ x ∈ segmentsOf d root, x.key = k := by
  have named : ∀ {l : Listing}, Item.active k ∈ l.catalog → ∃ x ∈ l.segments, x.key = k := by
    intro l listed
    rcases mem_append.mp listed with active | retired
    · obtain ⟨k',hk,same⟩ := mem_map.mp active
      cases same
      exact mem_map.mp hk
    · obtain ⟨e,_,bad⟩ := mem_map.mp retired
      simp [Item.active,Item.retired] at bad
  rcases mem_append.mp mem with tail | below
  · obtain ⟨x,hx,key⟩ := named tail
    exact ⟨x,mem_append_left _ hx,key⟩
  obtain ⟨l,hl,inside⟩ := mem_flatMap.mp below
  obtain ⟨x,hx,key⟩ := named inside
  exact ⟨x,mem_append_right _ (mem_flatMap.mpr ⟨l,hl,hx⟩),key⟩

def Item.Historic (floor : Int) (i : Item) : Prop := ∃ r, i.retirement = some r ∧ r.deleted = true ∧ stampOf i.key < floor

structure KeepsAbove (floor : Int) (s s' : State) : Prop where
  active : ∀ x ∈ segmentsOf s.disk s.root, floor ≤ x.maxTs → ∃ y ∈ segmentsOf s'.disk s'.root, y.key = x.key
  retired : ∀ e, Item.retired e ∈ catalog s.disk s.root →
    Item.retired e ∈ catalog s'.disk s'.root ∨ Item.Historic floor (Item.retired e)
  -- leaves go, alone or with the references above them, only when they list nothing but history
  dropped : Carries (fun l o => o = none → ∀ i ∈ l.catalog, Item.Historic floor i)
    (forestLeaves s.disk s.root.refs) (forestLeaves s'.disk s'.root.refs)
  floors : ∀ f ∈ s.root.paging.rf, ∃ f' ∈ s'.root.paging.rf, f ≤ f'
  hidden : ∀ x : Segment, (∃ f ∈ s.root.paging.rf, x.maxTs < f) → ∀ start finish, s'.root.reaches start finish x = false

theorem fateAbove {s floor deadline changes i o} (fate : Fate s (.expired floor deadline changes) i o) : o = some i ∨
      (stampOf i.key < max (s.root.paging.rf.getD 0) floor ∧ (i.retirement = none ∨ o = none)) := by
  rcases fate with same | ⟨f,le,made⟩
  · exact .inl same
  unfold Item.expire at made
  split at made
  · rename_i active
    split at made
    · rename_i early
      exact .inr ⟨early.trans_le le,.inl active⟩
    · exact .inl made
  · split at made
    · rename_i early
      simp only [Bool.and_eq_true,decide_eq_true_eq] at early
      exact .inr ⟨early.2.trans_le le,.inr made⟩
    · exact .inl made

theorem droppedHistoric {ctx floor bound deadline l} (keyed : l.Keyed)
    (distinct : (names l.catalog).Nodup) (le : floor ≤ bound) (h : Expires ctx floor deadline l none) :
    ∀ i ∈ l.catalog, Item.Historic bound i := by
  cases h with
  | dropped segments retired =>
    have empty : (expireListing floor deadline l).catalog = [] := by
      simp [Listing.catalog,Listing.activeKeys,segments,retired]
    have gone : (expireListing floor deadline l).catalog.Perm (l.catalog.filterMap (Item.expire floor deadline)) :=
      expireCatalog keyed distinct
    rw [empty] at gone
    have none := filterMap_eq_nil_iff.mp gone.symm.eq_nil
    intro i mem
    obtain ⟨r,here,deleted,early⟩ := expireNone (none i mem)
    exact ⟨r,here,deleted,early.trans_le le⟩

theorem hiddenBelow {root : Root} {x f} (floor : f ∈ root.paging.rf) (early : x.maxTs < f)
    (start finish : Option Int) : root.reaches start finish x = false := by
  have here : root.paging.rf = some f := floor
  have late : ∀ t, f ≤ t → decide (t ≤ x.maxTs) = false := fun t le => decide_eq_false (by omega)
  cases start with
  | none => simp [Root.reaches,here,retainedStart,Segment.intersects,late f (le_refl f)]
  | some t => simp only [Root.reaches,here,retainedStart,Segment.intersects,Option.all_some,late (max t f) (le_max_right t f),
      Bool.false_and]

theorem expiryKeepsAbove {ctx : Context} {s₀ s s' : State} {floor : Int} {deadline : Nat} {changes : List Change}
    (begins : Begins ctx s₀) (run : Reaches ctx Honest s₀ s) (step : Step ctx s (.expired floor deadline changes) s') :
    KeepsAbove (max (s.root.paging.rf.getD 0) floor) s s' := by
  have h := reachHealthy (beginsHealthy begins) (fun _ _ honest => honest) run
  have honest : Honest s (.expired floor deadline changes) := trivial
  obtain ⟨h',proceeds⟩ := stepHealthy h honest step
  have moves := stepMoves h.owned step
  have stamped : ∀ x ∈ segmentsOf s.disk s.root, stampOf x.key = x.maxTs := by
    intro x mem
    rcases mem_append.mp mem with tail | below
    · exact keyedStamp (h.proper.keyed.tail x tail)
    · obtain ⟨l,hl,inside⟩ := mem_flatMap.mp below
      exact keyedStamp (h.proper.keyed.leaves l hl x inside)
  constructor
  · intro x mem above
    have stays : Item.active x.key ∈ catalog s'.disk s'.root := by
      rcases proceeds.settled h.proper.distinct (activeSegments _ _ mem) with ⟨gone,_⟩ | ⟨j,hj,fate⟩
      · obtain ⟨_,_,_,_,_,bad,_⟩ := fateNone gone
        cases bad
      rcases fateAbove fate with same | ⟨early,_⟩
      · cases same
        exact hj
      have stamp : stampOf x.key < max (s.root.paging.rf.getD 0) floor := early
      rw [stamped x mem] at stamp
      omega
    exact segmentOfActive stays
  · intro e mem
    rcases proceeds.settled h.proper.distinct mem with ⟨gone,_⟩ | ⟨j,hj,fate⟩
    · obtain ⟨_,_,_,same,r,here,deleted,early⟩ := fateNone gone
      cases same
      exact .inr ⟨r,here,deleted,early⟩
    rcases fateAbove fate with same | ⟨_,active | none⟩
    · cases same
      exact .inl hj
    · cases active
    · cases none
  · cases step with
    | applyExpiry same taken ok =>
      subst same
      have planned := h.owned.plans _ (taken.mem_iff.mpr mem_cons_self)
      have spec := applyExpirySpec h.owned.wf planned (h.owned.ownPlan taken) ok
      apply spec.commit.carries.mono
      intro l mem o change none
      subst none
      rcases change with expired | same
      · exact droppedHistoric (h.proper.keyed.leaves l mem) (leafDistinct h.proper.pagesDistinct l mem) (le_max_right _ _) expired
      · cases same
  · exact moves.floor
  · intro x below start finish
    obtain ⟨f,floor,early⟩ := below
    obtain ⟨f',raised,le⟩ := moves.floor f floor
    exact hiddenBelow raised (early.trans_le le) start finish

namespace Sample

def buriedFirst : Due := (first.key,⟨8,0,false⟩)
def sweep : Work := ⟨[buriedFirst],[],[],none,[]⟩

def lowPlan : List Change × Disk := ((expirePlan bulky listed.1 1 30 8).done listed.2).get (by decide +kernel)
def highPlan : List Change × Disk := ((expirePlan bulky listed.1 10 30 8).done lowPlan.2).get (by decide +kernel)
def raised : (Root × Nat) × Disk := ((applyExpiry bulky listed.1 10 30 highPlan.1).done highPlan.2).get (by decide +kernel)
def sweepPlan : List Change × Disk := ((planCleanup bulky raised.1.1 [buriedFirst]).done raised.2).get (by decide +kernel)
def swept : Root × Disk := ((applyCleanup bulky raised.1.1 sweep).done sweepPlan.2).get (by decide +kernel)
def lowered : (Root × Nat) × Disk := ((applyExpiry bulky swept.1 1 30 lowPlan.1).done swept.2).get (by decide +kernel)

def drafts : State := ⟨highPlan.2,listed.1,[listed.1],[.expiry 10 30 highPlan.1,.expiry 1 30 lowPlan.1]⟩
def aging : State := drafts.publish raised.1.1 raised.2 [.expiry 1 30 lowPlan.1]
def sweeping : State := ⟨sweepPlan.2,aging.root,aging.past,.cleanup [buriedFirst] sweepPlan.1::aging.plans⟩
def aged : State := sweeping.publish swept.1 swept.2 [.expiry 1 30 lowPlan.1]
def forgotten : State := aged.publish lowered.1.1 lowered.2 []

theorem agedReached : Reaches bulky.toContext Honest opening aged := by
  have low : Step bulky.toContext opening (.planned (.expiry 1 30 lowPlan.1)) ⟨lowPlan.2,listed.1,[listed.1],[.expiry 1 30 lowPlan.1]⟩ :=
    .expirePlan rfl mem_cons_self (Op.doneOk _)
  have high : Step bulky.toContext ⟨lowPlan.2,listed.1,[listed.1],[.expiry 1 30 lowPlan.1]⟩ (.planned (.expiry 10 30 highPlan.1)) drafts :=
    .expirePlan rfl mem_cons_self (Op.doneOk _)
  have expiry : Step bulky.toContext drafts (.expired 10 30 highPlan.1) aging := .applyExpiry rfl (List.Perm.refl _) (Op.doneOk _)
  have pass : Step bulky.toContext aging (.planned (.cleanup [buriedFirst] sweepPlan.1)) sweeping :=
    .planCleanup rfl mem_cons_self (Op.doneOk _)
  have none : sweepPlan.1 = [] := by decide +kernel
  have mark : Step bulky.toContext sweeping (.cleaned sweep) aged := by
    refine .applyCleanup rfl ?_ (Op.doneOk _)
    have plans : sweeping.plans = .cleanup [buriedFirst] []::[.expiry 1 30 lowPlan.1] := by rw [← none]; rfl
    rw [plans]
    exact List.Perm.refl _
  have start : Reaches bulky.toContext Honest opening opening := .refl
  exact ((((start.next low trivial).next high trivial).next expiry trivial).next pass trivial).next mark trivial

theorem agedStep : Step bulky.toContext aged (.expired 1 30 lowPlan.1) forgotten := .applyExpiry rfl (List.Perm.refl _) (Op.doneOk _)

end Sample

theorem expiryForgetsAbovePlan : Begins Sample.bulky.toContext Sample.opening ∧
    Reaches Sample.bulky.toContext Honest Sample.opening Sample.aged ∧
    Step Sample.bulky.toContext Sample.aged (.expired 1 30 Sample.lowPlan.1) Sample.forgotten ∧
    ¬ KeepsAbove 1 Sample.aged Sample.forgotten := by
  refine ⟨Sample.openingBegins,Sample.agedReached,Sample.agedStep,fun keeps => ?_⟩
  have listed : Item.retired (Sample.first.key,⟨8,0,true⟩) ∈ catalog Sample.aged.disk Sample.aged.root := by decide +kernel
  have gone : Item.retired (Sample.first.key,⟨8,0,true⟩) ∉ catalog Sample.forgotten.disk Sample.forgotten.root := by decide +kernel
  have late : ¬ stampOf Sample.first.key < 1 := by decide +kernel
  rcases keeps.retired _ listed with stays | ⟨_,_,_,early⟩
  · exact gone stays
  · exact late early

theorem expiryKeepsAboveRaised : KeepsAbove (max (Sample.aged.root.paging.rf.getD 0) 1) Sample.aged Sample.forgotten :=
  expiryKeepsAbove Sample.openingBegins Sample.agedReached Sample.agedStep

end Journal
end Pulso
