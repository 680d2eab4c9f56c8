import Pulso.JournalHistory

/-! Running a landed maintenance transaction a second time, as the owner's retry loop does when
the conditional write was reported as a failed precondition. Every planned reference is gone by
then, so every change is stale and its pages, live since the first run, are listed as garbage. -/
namespace Pulso.Journal
open List

inductive Transaction where
  | cleanup (work : Work)
  | expiry (floor : Int) (deadline : Nat) (changes : List Change)

namespace Transaction

def plan : Transaction → Plan
  | cleanup work => .cleanup work.deleted work.changes
  | expiry floor deadline changes => .expiry floor deadline changes

def apply (env : Env) : Transaction → Root → Op Root
  | cleanup work,root => applyCleanup env root work
  | expiry floor deadline changes,root => do
    let out ← applyExpiry env root floor deadline changes
    pure out.1

def Settled (root : Root) : Transaction → Prop
  | cleanup _ => True
  | expiry floor _ _ => ∀ s ∈ root.segments, max (root.paging.rf.getD 0) floor ≤ s.maxTs

end Transaction

def actives (d : Disk) (root : Root) : List Key := root.activeKeys ++ (forestLeaves d root.refs).flatMap Listing.activeKeys

structure Harmless (d d' : Disk) (root root' : Root) : Prop where
  live : ∀ k ∈ forestKeys d root.refs, k ∉ garbage d' root'.paging
  active : (actives d' root').Perm (actives d root)

structure LandedSpec (ctx : Context) (d d' : Disk) (root root' : Root) (plan : Plan) : Prop where
  reach : ∀ k ∈ forestKeys d' root'.refs, k ∈ forestKeys d root.refs ∨ k ∈ (appliedTo root.refs plan.changes).flatMap Change.written
  tops : ∀ r ∈ root'.refs, (r ∈ root.refs ∧ r.k ∉ plan.changes.map Change.key) ∨ r.k ∈ plan.written
  grows : Grows d d'

theorem landedSpec {ctx env s} {t : Transaction} {rest root' d'}
    (same : env.toContext = ctx) (o : Owned ctx s) (taken : s.plans.Perm (t.plan::rest))
    (ok : t.apply env s.root s.disk = (.ok root',d')) :
    LandedSpec ctx s.disk d' s.root root' t.plan ∧ Owned ctx (s.publish root' d' rest) := by
  subst same
  have planned := o.plans _ (taken.mem_iff.mpr mem_cons_self)
  cases t with
  | cleanup work =>
    obtain ⟨stamps,planned⟩ := planned
    have spec := (applyCleanupSpec o.wf planned (o.ownPlan taken) ok).commit
    exact ⟨{ spec with },o.committed taken spec⟩
  | expiry floor deadline changes =>
    simp only [Transaction.apply,Op.bindOk,Op.pureOk] at ok
    obtain ⟨out,d₁,ran,rfl,rfl⟩ := ok
    have spec := (applyExpirySpec o.wf planned (o.ownPlan taken) ran).commit
    exact ⟨{ spec with },o.committed taken spec⟩

theorem planSinceOf {ctx d plan} (planned : Planned ctx d plan) :
    ∃ n, n ≤ d.next ∧ (∀ c ∈ plan.changes, c.key.sha < n) ∧ ∀ k ∈ plan.written, n ≤ k.sha := by
  cases plan with
  | replace p => obtain ⟨-,keys,ok⟩ := planned; exact ok.since
  | cleanup deleted changes => obtain ⟨stamps,ok⟩ := planned; exact ok.since
  | expiry floor deadline changes => exact PlanOk.since planned

theorem appliedNone {refs changes} (none : ∀ c ∈ changes, c.key ∉ refs.map (fun r => r.k)) :
    appliedTo refs changes = [] ∧ staleFor refs changes = changes := by
  constructor
  · exact filter_eq_nil_iff.mpr (fun c mem => by simpa using none c mem)
  · exact filter_eq_self.mpr (fun c mem => by simpa using none c mem)

theorem substituteNone {refs changes} (none : ∀ c ∈ changes, c.key ∉ refs.map (fun r => r.k)) :
    substitute refs changes = ⟨refs,[],changes⟩ := by
  obtain ⟨applied,stale⟩ := appliedNone none
  have same : refs.flatMap (replacement []) = refs := by
    have each : ∀ r : Ref, replacement [] r = [r] := fun r => rfl
    rw [flatMap_congr (fun r _ => each r),flatMap_singleton']
  simp only [substitute,applied,stale,same]

structure RepeatSpec (d d' : Disk) (root root' : Root) (t : Transaction) : Prop where
  grows : Grows d d'
  refs : root'.refs = root.refs
  listed : ∃ kept : List PageKey, (∀ k ∈ kept, k ∈ garbage d root.paging) ∧
    ∀ k, k ∈ garbage d' root'.paging ↔ k ∈ kept ∨ k ∈ t.plan.written
  tail : root'.activeKeys.Perm root.activeKeys ↔ t.Settled root

theorem expiredActive (floor : Int) (deadline : Nat) (l : Listing) :
    (expireListing floor deadline l).activeKeys.Perm l.activeKeys ↔ ∀ s ∈ l.segments, floor ≤ s.maxTs := by
  simp only [expireListing,Listing.activeKeys]
  constructor
  · intro same
    have all : (l.segments.filter (fun s => !decide (s.maxTs < floor))).length = l.segments.length := by
      simpa using same.length_eq
    intro s mem
    simpa using length_filter_eq_length_iff.mp all s mem
  · intro above
    have all : l.segments.filter (fun s => !decide (s.maxTs < floor)) = l.segments :=
      filter_eq_self.mpr (fun s mem => by simpa using above s mem)
    rw [all]

theorem repeatSpec {ctx env t root root' d d'} (same : env.toContext = ctx)
    (wf : WellFormed ctx d root.paging) (gone : ∀ c ∈ t.plan.changes, c.key ∉ root.refs.map (fun r => r.k))
    (ok : t.apply env root d = (.ok root',d')) : RepeatSpec d d' root root' t := by
  subst same
  cases t with
  | cleanup work =>
    have none : ∀ c ∈ work.changes, c.key ∉ root.refs.map (fun r => r.k) := gone
    simp only [Transaction.apply,applyCleanup,substituteNone none] at ok
    have kept : GcSound env.toContext d (root.paging.gr.filter (fun r => r.k ∉ work.gcRefs)) :=
      fun r mem => wf.gc r (mem_filter.mp mem).1
    have spec := supersedeSpec wf.allocated kept ok
    obtain ⟨forgotten,less⟩ := filterGarbage d root.paging work.pages work.gcRefs
    refine ⟨spec.grows,spec.refs,⟨_,fun k mem => less.mem_iff.mp (mem_append_left _ mem),fun k => ?_⟩,?_⟩
    · have listed := spec.garbage.mem_iff (a := k)
      simp only [flatMap_nil,nil_append,mem_append] at listed
      exact listed
    · simp [Transaction.Settled,spec.listing,Root.withListing,markListing,Listing.activeKeys]
  | expiry floor deadline changes =>
    simp only [Transaction.apply,applyExpiry,Op.bindOk,Op.requireOk,Op.pureOk] at ok
    obtain ⟨out,d₁,⟨_,d₂,⟨-,rfl⟩,mid,d₃,ran,rfl,rfl⟩,rfl,rfl⟩ := ok
    have none : ∀ c ∈ changes, c.key ∉ root.refs.map (fun r => r.k) := gone
    rw [substituteNone none] at ran
    have spec := supersedeSpec wf.allocated (by exact wf.gc) ran
    refine ⟨spec.grows,spec.refs,⟨_,fun k mem => mem,fun k => ?_⟩,?_⟩
    · have listed := spec.garbage.mem_iff (a := k)
      simp only [flatMap_nil,nil_append,mem_append] at listed
      exact listed
    · rw [spec.listing]
      exact expiredActive _ _ _

/- Harmless exactly when nothing the plan put into the tree is still in it. -/
theorem retryHarmlessIff {ctx : Context} {env₁ env₂ : Env} {s₀ s : State} {t : Transaction} {rest : List Plan}
    {batches : List (List Segment)} {root₁ root₂ root₃ : Root} {d₁ d₂ d₃ : Disk} (start : Start ctx s₀) (run : Reaches ctx anything s₀ s)
    (taken : s.plans.Perm (t.plan::rest)) (same₁ : env₁.toContext = ctx) (same₂ : env₂.toContext = ctx)
    (first : t.apply env₁ s.root s.disk = (.ok root₁,d₁)) (appends : Grown ctx d₁ root₁ batches d₂ root₂)
    (second : t.apply env₂ root₂ d₂ = (.ok root₃,d₃)) :
    Harmless d₂ d₃ root₂ root₃ ↔
      (∀ k ∈ (appliedTo s.root.refs t.plan.changes).flatMap Change.written, k ∉ forestKeys d₂ root₂.refs) ∧ t.Settled root₂ := by
  have o := reachOwned (startOwned start) run
  obtain ⟨landed,o₁⟩ := landedSpec same₁ o taken first
  obtain ⟨w,step⟩ := grownStep appends o₁.wf
  have o₂ := o₁.stepped ⟨w,step⟩
  obtain ⟨n,drawn,older,newer⟩ := planSinceOf (o.plans _ (taken.mem_iff.mpr mem_cons_self))
  have gone : ∀ c ∈ t.plan.changes, c.key ∉ root₂.refs.map (fun r => r.k) := by
    intro c mem listed
    have age := older c mem
    have next := drawn.trans landed.grows.next
    obtain ⟨r,hr,key⟩ := mem_map.mp listed
    rcases step.tops r hr with old | new
    · obtain ⟨q,hq,same⟩ := mem_map.mp old
      rcases landed.tops q hq with ⟨_,kept⟩ | written
      · exact kept (by rw [same,key]; exact mem_map_of_mem mem)
      have := newer _ written
      rw [same,key] at this
      omega
    · have late : d₁.next ≤ r.k.sha := new
      rw [key] at late
      omega
  have again : RepeatSpec d₂ d₃ root₂ root₃ t := repeatSpec same₂ o₂.wf gone second
  obtain ⟨kept,within,listed⟩ := again.listed
  have apart : ∀ k ∈ forestKeys d₂ root₂.refs, k ∉ kept := fun k live dead =>
    (nodup_append.mp (nodup_append.mp o₂.distinct).1).2.2 k live k (within k dead) rfl
  have staleDead : ∀ k ∈ (staleFor s.root.refs t.plan.changes).flatMap Change.written, k ∉ forestKeys d₂ root₂.refs := by
    intro k stale live
    have split := writtenSplit s.root.refs t.plan.changes
    have own := o.ownPlan taken
    have mine : k ∈ t.plan.changes.flatMap Change.written := split.mem_iff.mp (mem_append_right _ stale)
    have owned : k ∈ s.owned := mem_append_right _
      ((taken.flatMap_right Plan.written).mem_iff.mpr (mem_append_left _ mine))
    have young := (o.drawn k owned).trans_le landed.grows.next
    rcases step.fresher k live with before | fresh
    · rcases landed.reach k before with old | applied
      · exact (nodup_append.mp own).2.2 k old k mine rfl
      · have once := split.nodup_iff.mpr (nodup_append.mp own).2.1
        exact (nodup_append.mp once).2.2 k applied k stale rfl
    · have late : d₁.next ≤ k.sha := fresh
      omega
  have leaves : (forestLeaves d₃ root₃.refs) = forestLeaves d₂ root₂.refs := by
    rw [again.refs]; exact o₂.wf.refs.leavesGrow again.grows
  have activeIff : (actives d₃ root₃).Perm (actives d₂ root₂) ↔ t.Settled root₂ := by
    rw [← again.tail,actives,actives,leaves]
    exact perm_append_right_iff _
  constructor
  · intro harmless
    refine ⟨fun k applied live => ?_,activeIff.mp harmless.active⟩
    have mine : k ∈ t.plan.written := (writtenSplit s.root.refs t.plan.changes).mem_iff.mp (mem_append_left _ applied)
    exact harmless.live k live ((listed k).mpr (.inr mine))
  · rintro ⟨clear,settled⟩
    refine ⟨fun k live dead => ?_,activeIff.mpr settled⟩
    rcases (listed k).mp dead with old | mine
    · exact apart k live old
    rcases mem_append.mp ((writtenSplit s.root.refs t.plan.changes).mem_iff.mpr mine) with applied | stale
    · exact clear k applied live
    · exact staleDead k stale live

namespace Sample

def observed : List Due := [(first.key,⟨8,0,false⟩)]
def rewritten : List Change × Disk := ((planCleanup bulky spilled.1 observed).done spilled.2).get (by decide +kernel)
def pass : Transaction := .cleanup ⟨observed,[],[],none,rewritten.1⟩
def planning : State := ⟨rewritten.2,spilled.1,[spilled.1,listed.1],[pass.plan]⟩
def landed : Root × Disk := ((pass.apply bulky spilled.1).done rewritten.2).get (by decide +kernel)
def repeated : Root × Disk := ((pass.apply bulky landed.1).done landed.2).get (by decide +kernel)

theorem planningReached : Reaches bulky.toContext anything opening planning :=
  .tail (.single ⟨_,trivial,.sealed rfl (Op.doneOk _)⟩) ⟨_,trivial,.planCleanup rfl mem_cons_self (Op.doneOk _)⟩

end Sample

theorem retryBuriesLivePages : Start Sample.bulky.toContext Sample.opening ∧
    Reaches Sample.bulky.toContext anything Sample.opening Sample.planning ∧
    Sample.pass.apply Sample.bulky Sample.planning.root Sample.planning.disk = (.ok Sample.landed.1,Sample.landed.2) ∧
    Sample.pass.apply Sample.bulky Sample.landed.1 Sample.landed.2 = (.ok Sample.repeated.1,Sample.repeated.2) ∧
    ¬ Harmless Sample.landed.2 Sample.repeated.2 Sample.landed.1 Sample.repeated.1 := by
  refine ⟨Sample.openingStarts,Sample.planningReached,Op.doneOk _,Op.doneOk _,fun harmless => ?_⟩
  have buried : ∃ k ∈ forestKeys Sample.landed.2 Sample.landed.1.refs, k ∈ garbage Sample.repeated.2 Sample.repeated.1.paging := by
    decide +kernel
  obtain ⟨k,live,dead⟩ := buried
  exact harmless.live k live dead

theorem retryHarmlessIffRepeated : Harmless Sample.landed.2 Sample.repeated.2 Sample.landed.1 Sample.repeated.1 ↔
    (∀ k ∈ (appliedTo Sample.planning.root.refs Sample.pass.plan.changes).flatMap Change.written,
      k ∉ forestKeys Sample.landed.2 Sample.landed.1.refs) ∧ Sample.pass.Settled Sample.landed.1 :=
  retryHarmlessIff Sample.openingStarts Sample.planningReached (List.Perm.refl _) rfl rfl (Op.doneOk _) .start (Op.doneOk _)

end Pulso.Journal
