import Pulso.FlatRefinement

/-! Histories of one root: registrations, seals, and maintenance plans made on any published
root and committed later on the current one. A plan's commit is published at most once, so
publication consumes it. -/
namespace Pulso.Journal
open PageTree (Exchange)
open List

structure ReplacedSpec (ctx : Context) (R : Listing → Option Listing → Prop) (d d' : Disk) (root root' : Root)
    (plan : ReplacePlan) : Prop where
  commit : CommitSpec ctx R d d' root.paging root'.paging plan.changes
  inline : ∀ k ∈ plan.inline, k ∈ root.activeKeys
  unknown : ∀ r ∈ plan.replacements, r.key ∉ root.activeKeys ∧ r.key ∉ root.retired.keys
  current : staleFor root.refs plan.changes = []
  listing : root'.toListing = Manifest.merge false ⟨root.segments.filter (fun s => s.key ∉ plan.inline),
    Manifest.retireAll root.retired plan.inline plan.deadline⟩ plan.replacements
  marks : root'.paging.cc = root.paging.cc ∧ root'.paging.rc = root.paging.rc ∧ root'.paging.rf = root.paging.rf

theorem CommitSpec.renamed {ctx R d d₁ d' p p' changes} (x : CommitSpec ctx R d d₁ p p' changes) (g : Grows d₁ d') (n : Nat) :
    CommitSpec ctx R d d' p { p' with nonce := n } changes := by
  have kept := StepSpec.same x.wf g
  refine ⟨x.grows.trans g,{ kept.wf with },?_,?_,x.heights,x.tops,?_⟩
  · have total : Trades d d' p p' _ := x.trades.trans kept.trades
    rw [append_nil] at total
    exact total
  · intro S le quiet
    have leaves := x.wf.refs.leavesGrow g
    rw [leaves]
    exact x.leaves S le quiet
  · have keys := x.wf.refs.keysGrow g
    intro k mem
    exact x.reach k (keys ▸ mem)

variable {R : Listing → Option Listing → Prop} {env : Env}

theorem commitReplaceSpec {root root' plan d d'}
    (wf : WellFormed env.toContext d root.paging) (planned : PlanOk env.toContext R d plan.changes)
    (own : (forestKeys d root.refs ++ plan.changes.flatMap Change.written).Nodup)
    (ok : commitReplace env root plan d = (.ok root',d')) : ReplacedSpec env.toContext R d d' root root' plan := by
  simp only [commitReplace,Op.bindOk,Op.requireOk] at ok
  obtain ⟨_,d₁,⟨inline,rfl⟩,_,d₂,⟨unknown,rfl⟩,_,d₃,⟨fresh,rfl⟩,mid,d₄,superseded,touched⟩ := ok
  have current : staleFor root.refs plan.changes = [] := length_eq_zero_iff.mp fresh
  have keys : (substitute root.refs plan.changes).applied.flatMap Change.superseded =
      (appliedTo root.refs plan.changes).flatMap Change.superseded ++
        (staleFor root.refs plan.changes).flatMap Change.written := by
    rw [current]; simp [substitute]
  rw [keys] at superseded
  obtain ⟨spec,listing,frame⟩ := commitChanges wf superseded planned own rfl (withinGarbage d₃ root.paging)
    (fun r mem => mem)
  obtain ⟨grows,rfl,-⟩ := touchSpec touched
  refine ⟨spec.renamed grows _,inline,unknown,current,?_,⟨frame.cc,frame.rc,frame.rf⟩⟩
  rw [Root.withListing,listing]
  rfl

theorem filterGarbage (d : Disk) (p : Paging) (pages gcRefs : List PageKey) : ∃ forgotten, (garbage d { p with
      g := p.g.filter (fun e => e.key ∉ pages), gr := p.gr.filter (fun r => r.k ∉ gcRefs) } ++ forgotten).Perm (garbage d p) := by
  refine ⟨(p.g.filter (fun e => e.key ∈ pages)).map GcEntry.key ++ (p.gr.filter (fun r => r.k ∈ gcRefs)).flatMap (listed d),?_⟩
  have entries := (filter_append_perm (fun e : GcEntry => decide (e.key ∉ pages)) p.g).map GcEntry.key
  have refs := (filter_append_perm (fun r : GcRef => decide (r.k ∉ gcRefs)) p.gr).flatMap_right (listed d)
  simp only [decide_not,Bool.not_not] at entries refs
  refine perm_iff_count.mpr (fun k => ?_)
  have a := entries.count_eq k
  have b := refs.count_eq k
  simp only [garbage,decide_not,map_append,flatMap_append,count_append] at a b ⊢
  omega

structure CleanedSpec (ctx : Context) (R : Listing → Option Listing → Prop) (d d' : Disk) (root root' : Root)
    (work : Work) : Prop where
  commit : CommitSpec ctx R d d' root.paging root'.paging work.changes
  listing : root'.toListing = markListing (Dict.ofList work.deleted) root.toListing
  floor : root'.paging.rf = root.paging.rf
  nonce : root'.paging.nonce = root.paging.nonce

theorem applyCleanupSpec {root root' work d d'}
    (wf : WellFormed env.toContext d root.paging) (planned : PlanOk env.toContext R d work.changes)
    (own : (forestKeys d root.refs ++ work.changes.flatMap Change.written).Nodup)
    (ok : applyCleanup env root work d = (.ok root',d')) : CleanedSpec env.toContext R d d' root root' work := by
  unfold applyCleanup at ok
  obtain ⟨spec,listing,frame⟩ := commitChanges wf ok planned own rfl
    (filterGarbage d root.paging work.pages work.gcRefs) (fun r mem => (mem_filter.mp mem).1)
  exact ⟨spec,listing,frame.rf,frame.nonce⟩

structure ExpiredSpec (ctx : Context) (R : Listing → Option Listing → Prop) (d d' : Disk) (root root' : Root)
    (floor : Int) (deadline : Nat) (changes : List Change) : Prop where
  commit : CommitSpec ctx R d d' root.paging root'.paging changes
  listing : root'.toListing = expireListing (max (root.paging.rf.getD 0) floor) deadline root.toListing
  floor : root'.paging.rf = some (max (root.paging.rf.getD 0) floor)
  marks : root'.paging.nonce = root.paging.nonce ∧ root'.paging.rc = root.paging.rc
  dated : ∀ e ∈ root.retired.entries, e.2.deleted → e.1.maxTs?.isSome

variable {root : Root}

theorem applyExpirySpec {floor deadline changes out d d'}
    (wf : WellFormed env.toContext d root.paging) (planned : PlanOk env.toContext R d changes)
    (own : (forestKeys d root.refs ++ changes.flatMap Change.written).Nodup)
    (ok : applyExpiry env root floor deadline changes d = (.ok out,d')) :
    ExpiredSpec env.toContext R d d' root out.1 floor deadline changes := by
  simp only [applyExpiry,Op.bindOk,Op.requireOk,Op.pureOk] at ok
  obtain ⟨_,d₁,⟨dated,rfl⟩,mid,d₂,superseded,rfl,rfl⟩ := ok
  obtain ⟨spec,listing,frame⟩ := commitChanges wf superseded planned own rfl (withinGarbage d₁ root.paging) (fun r mem => mem)
  exact ⟨spec,listing,frame.rf,⟨frame.nonce,frame.rc⟩,dated⟩

def retireStamps (keys : List Key) : List Int := keys.map (fun k => k.maxTs?.getD 0)

theorem PlanSpec.idle {ctx d refs} (kept : ∀ l, R l (some l)) : PlanSpec ctx R d d refs [] :=
  ⟨.refl _,⟨by simp,nodup_nil,0,by simp⟩,.none _ _,nil_sublist _,fun r _ _ => Carries.same (fun l _ => kept l)⟩

theorem checkSourcesOk {keys u d d'} (ok : checkSources env root keys d = (.ok u,d')) :
    d' = d ∧ ∀ k ∈ keys, ∃ ts, k.maxTs? = some ts ∧ find env root.refs k ts d = .ok .active := by
  induction keys with
  | nil => exact ⟨(Op.pureOk.mp ok).2,by simp⟩
  | cons k rest ih =>
    simp only [checkSources,Op.bindOk,Op.liftOk,Op.requireOk] at ok
    obtain ⟨ts,d₁,⟨date,rfl⟩,found,d₂,⟨searched,rfl⟩,_,d₃,⟨active,rfl⟩,later⟩ := ok
    obtain ⟨rfl,each⟩ := ih later
    subst active
    refine ⟨rfl,forall_mem_cons.mpr ⟨⟨ts,?_,searched⟩,each⟩⟩
    unfold keyMaxTs at date
    split at date
    · cases date; assumption
    · simp at date

theorem checkReplacementsOk {replacements u d d'} (ok : checkReplacements env root replacements d = (.ok u,d')) :
    d' = d ∧ ∀ r ∈ replacements, lookup env root r.key r.maxTs d = .ok .absent := by
  induction replacements with
  | nil => exact ⟨(Op.pureOk.mp ok).2,by simp⟩
  | cons r rest ih =>
    simp only [checkReplacements,Op.bindOk,Op.liftOk,Op.requireOk] at ok
    obtain ⟨found,d₁,⟨searched,rfl⟩,_,d₂,⟨absent,rfl⟩,later⟩ := ok
    obtain ⟨rfl,each⟩ := ih later
    subst absent
    exact ⟨rfl,forall_mem_cons.mpr ⟨searched,each⟩⟩

structure ReplacePlanSpec (env : Env) (root : Root) (sources : List Key) (replacements : List Segment) (minimum deadline : Nat)
    (d d' : Disk) (plan : ReplacePlan) (paged : List Key) : Prop where
  changes : PlanSpec env.toContext (Updates env.toContext (retireStamps paged) (retireLeaf paged deadline)) d d' root.refs plan.changes
  inline : plan.inline = (Lists.uniqBy id sources).filter (· ∈ root.activeKeys)
  rest : paged = (Lists.uniqBy id sources).filter (· ∉ root.activeKeys)
  fields : plan.replacements = replacements ∧ plan.deadline = deadline
  enough : minimum ≤ (Lists.uniqBy id sources).length
  valid : ∀ r ∈ replacements, r.Valid env.scope
  active : ∀ k ∈ paged, ∃ ts, k.maxTs? = some ts ∧ find env root.refs k ts d = .ok .active
  absent : ∀ r ∈ replacements, lookup env root r.key r.maxTs d = .ok .absent

theorem planReplaceSpec {sources replacements minimum deadline plan d d'} (wf : WellFormed env.toContext d root.paging)
    (ok : planReplace env root sources replacements minimum deadline d = (.ok plan,d')) :
    ∃ paged, ReplacePlanSpec env root sources replacements minimum deadline d d' plan paged := by
  simp only [planReplace,validateSegments,Op.bindOk,Op.requireOk,Op.pureOk] at ok
  obtain ⟨_,d₁,⟨valid,rfl⟩,_,d₂,⟨enough,rfl⟩,_,d₃,replaced,_,d₄,searched,changes,d₅,planned,rfl,rfl⟩ := ok
  obtain ⟨rfl,absent⟩ := checkReplacementsOk replaced
  obtain ⟨rfl,active⟩ := checkSourcesOk searched
  refine ⟨_,?_,rfl,rfl,⟨rfl,rfl⟩,enough,valid,active,absent⟩
  unfold planRetirePaged at planned
  split at planned
  · rename_i none
    obtain ⟨rfl,rfl⟩ := Op.pureOk.mp planned
    rw [none]
    exact .idle (fun l => .skipped (by simp [retireStamps]))
  · exact planRewriteSpec (updateRule env _ _) wf.allocated wf.refs wf.distinct planned

def cleanupStamps (root : Root) (deleted : List Due) : List Int :=
  (deleted.filter (fun e => e.1 ∉ root.retired.keys)).map (fun e => e.1.maxTs?.getD 0)

theorem planCleanupSpec {deleted changes d d'}
    (wf : WellFormed env.toContext d root.paging) (ok : planCleanup env root deleted d = (.ok changes,d')) :
    PlanSpec env.toContext (Updates env.toContext (cleanupStamps root deleted) (markListing (Dict.ofList deleted))) d d'
      root.refs changes := by
  unfold planCleanup at ok
  split at ok
  · rename_i none
    obtain ⟨rfl,rfl⟩ := Op.pureOk.mp ok
    exact .idle (fun l => .skipped (by rw [cleanupStamps,none]; simp))
  simp only [Op.bindOk,Op.requireOk] at ok
  obtain ⟨_,d₁,⟨-,rfl⟩,planned⟩ := ok
  exact planRewriteSpec (updateRule env _ _) wf.allocated wf.refs wf.distinct planned

inductive Plan where
  | replace (p : ReplacePlan)
  | cleanup (deleted : List Due) (changes : List Change)
  | expiry (floor : Int) (deadline : Nat) (changes : List Change)

def Plan.changes : Plan → List Change
  | .replace p => p.changes
  | .cleanup _ changes => changes
  | .expiry _ _ changes => changes

def Plan.written (p : Plan) : List PageKey := p.changes.flatMap Change.written

def Planned (ctx : Context) (d : Disk) : Plan → Prop
  | .replace p => p.inline.Nodup ∧
      ∃ keys, PlanOk ctx (Updates ctx (retireStamps keys) (retireLeaf keys p.deadline)) d p.changes
  | .cleanup deleted changes => ∃ stamps, PlanOk ctx (Updates ctx stamps (markListing (Dict.ofList deleted))) d changes
  | .expiry floor deadline changes => PlanOk ctx (Expires ctx floor deadline) d changes

theorem Planned.grows {ctx d d' p} (x : Planned ctx d p) (g : Grows d d') : Planned ctx d' p := by
  cases p with
  | replace p => obtain ⟨once,keys,ok⟩ := x; exact ⟨once,keys,ok.grows g⟩
  | cleanup deleted changes => obtain ⟨stamps,ok⟩ := x; exact ⟨stamps,ok.grows g⟩
  | expiry floor deadline changes => exact PlanOk.grows x g

structure State where
  disk : Disk
  root : Root
  -- every published root, for plans made against an older one
  past : List Root
  plans : List Plan

def State.publish (s : State) (root : Root) (d : Disk) (plans : List Plan) : State := ⟨d,root,root::s.past,plans⟩

inductive Event where
  | wasted
  | registered (segments : List Segment)
  | sealed
  | planned (plan : Plan)
  | replaced (plan : ReplacePlan)
  | cleaned (work : Work)
  | expired (floor : Int) (deadline : Nat) (changes : List Change)

inductive Step (ctx : Context) (s : State) : Event → State → Prop
  -- pages of operations that fail or lose the race for the root
  | wasted {d'} (grows : Grows s.disk d') : Step ctx s .wasted { s with disk := d' }
  | register {env : Env} {segments root' d'} (same : env.toContext = ctx)
      (ok : register env s.root segments s.disk = (.ok root',d')) :
      Step ctx s (.registered segments) (s.publish root' d' s.plans)
  | sealed {env : Env} {root' d'} (same : env.toContext = ctx) (ok : sealRoot env s.root s.disk = (.ok root',d')) :
      Step ctx s .sealed (s.publish root' d' s.plans)
  | planReplace {env : Env} {base sources replacements minimum deadline plan d'} (same : env.toContext = ctx)
      (earlier : base ∈ s.past) (ok : planReplace env base sources replacements minimum deadline s.disk = (.ok plan,d')) :
      Step ctx s (.planned (.replace plan)) ⟨d',s.root,s.past,.replace plan::s.plans⟩
  | commitReplace {env : Env} {plan rest root' d'} (same : env.toContext = ctx) (taken : s.plans.Perm (.replace plan::rest))
      (ok : commitReplace env s.root plan s.disk = (.ok root',d')) : Step ctx s (.replaced plan) (s.publish root' d' rest)
  | planCleanup {env : Env} {base deleted changes d'} (same : env.toContext = ctx) (earlier : base ∈ s.past)
      (ok : planCleanup env base deleted s.disk = (.ok changes,d')) :
      Step ctx s (.planned (.cleanup deleted changes)) ⟨d',s.root,s.past,.cleanup deleted changes::s.plans⟩
  | applyCleanup {env : Env} {work rest root' d'} (same : env.toContext = ctx)
      (taken : s.plans.Perm (.cleanup work.deleted work.changes::rest))
      (ok : applyCleanup env s.root work s.disk = (.ok root',d')) : Step ctx s (.cleaned work) (s.publish root' d' rest)
  | expirePlan {env : Env} {base floor deadline maxLeaves changes d'} (same : env.toContext = ctx) (earlier : base ∈ s.past)
      (ok : expirePlan env base floor deadline maxLeaves s.disk = (.ok changes,d')) :
      Step ctx s (.planned (.expiry floor deadline changes)) ⟨d',s.root,s.past,.expiry floor deadline changes::s.plans⟩
  | applyExpiry {env : Env} {floor deadline changes rest out d'} (same : env.toContext = ctx)
      (taken : s.plans.Perm (.expiry floor deadline changes::rest))
      (ok : applyExpiry env s.root floor deadline changes s.disk = (.ok out,d')) :
      Step ctx s (.expired floor deadline changes) (s.publish out.1 d' rest)

abbrev Reaches (ctx : Context) (promise : State → Event → Prop) : State → State → Prop :=
  Relation.ReflTransGen (fun s s' => ∃ e, promise s e ∧ Step ctx s e s')

theorem Reaches.next {ctx promise s s' s'' e} (run : Reaches ctx promise s s') (step : Step ctx s' e s'') (kept : promise s' e) :
    Reaches ctx promise s s'' := run.tail ⟨e,kept,step⟩

def anything (_ : State) (_ : Event) : Prop := True

inductive Start (ctx : Context) : State → Prop
  | fresh {d d' root} (allocated : d.Allocated) (ok : newRoot d = (.ok root,d')) : Start ctx ⟨d',root,[root],[]⟩
  | converted {env : Env} {flat d d' root} (same : env.toContext = ctx) (allocated : d.Allocated)
      (ok : convert env flat d = (.ok root,d')) : Start ctx ⟨d',root,[root],[]⟩

/- Every page belongs to at most one of: the current tree, its garbage lists, an outstanding plan. -/
def State.owned (s : State) : List PageKey :=
  forestKeys s.disk s.root.refs ++ garbage s.disk s.root.paging ++ s.plans.flatMap Plan.written

structure Owned (ctx : Context) (s : State) : Prop where
  roots : ∀ r ∈ s.past, WellFormed ctx s.disk r.paging
  current : s.root ∈ s.past
  plans : ∀ p ∈ s.plans, Planned ctx s.disk p
  distinct : s.owned.Nodup
  drawn : ∀ k ∈ s.owned, k.sha < s.disk.next

theorem Owned.wf {ctx s} (o : Owned ctx s) : WellFormed ctx s.disk s.root.paging := o.roots s.root o.current

theorem Owned.grown {ctx s d'} (o : Owned ctx s) (g : Grows s.disk d') : ({ s with disk := d' } : State).owned = s.owned := by
  simp only [State.owned]
  rw [o.wf.refs.keysGrow g,garbageGrow o.wf.gc g]

variable {rest : List Plan}

theorem Owned.published {ctx s root' d' w} (o : Owned ctx s) (used : List Plan) (taken : s.plans.Perm (used ++ rest))
    (grows : Grows s.disk d') (wf : WellFormed ctx d' root'.paging)
    (trades : Trades s.disk d' s.root.paging root'.paging (used.flatMap Plan.written ++ w)) (wrote : Wrote s.disk d' w) :
    Owned ctx (s.publish root' d' rest) := by
  obtain ⟨forgotten,moved⟩ := trades
  have plans := taken.flatMap_right Plan.written
  have counted : ∀ k, (s.publish root' d' rest).owned.count k ≤ s.owned.count k + w.count k := by
    intro k
    have a := moved.count_eq k
    have b := plans.count_eq k
    simp only [State.owned,State.publish,Root.refs,flatMap_append,count_append] at a b ⊢
    omega
  have fresh : ∀ k ∈ w, s.owned.count k = 0 := fun k mem =>
    count_eq_zero.mpr (fun old => wrote.outside o.drawn k mem old)
  refine ⟨forall_mem_cons.mpr ⟨wf,fun r old => (o.roots r old).grows grows⟩,mem_cons_self,?_,?_,?_⟩
  · intro p mem
    exact (o.plans p (taken.mem_iff.mpr (mem_append_right _ mem))).grows grows
  · refine nodup_iff_count_le_one.mpr (fun k => ?_)
    have bound := counted k
    by_cases new : k ∈ w
    · have old := fresh k new
      have once := nodup_iff_count_le_one.mp wrote.distinct k
      omega
    have none := count_eq_zero.mpr new
    have once := nodup_iff_count_le_one.mp o.distinct k
    omega
  · intro k mem
    have bound := counted k
    have some := count_pos_iff.mpr mem
    by_cases new : k ∈ w
    · exact (wrote.fresh k new).2
    have none := count_eq_zero.mpr new
    have old : k ∈ s.owned := count_pos_iff.mp (by omega)
    exact (o.drawn k old).trans_le grows.next

variable {plan : Plan}

theorem Owned.planned {ctx s d'} (o : Owned ctx s) (grows : Grows s.disk d') (ok : Planned ctx d' plan)
    (wrote : Wrote s.disk d' plan.written) : Owned ctx ⟨d',s.root,s.past,plan::s.plans⟩ := by
  have same : (⟨d',s.root,s.past,plan::s.plans⟩ : State).owned.Perm (s.owned ++ plan.written) := by
    have base := o.grown grows
    refine perm_iff_count.mpr (fun k => ?_)
    have count := congrArg (List.count k) base
    simp only [State.owned,flatMap_cons,count_append] at count ⊢
    omega
  refine ⟨fun r mem => (o.roots r mem).grows grows,o.current,
    forall_mem_cons.mpr ⟨ok,fun p old => (o.plans p old).grows grows⟩,?_,?_⟩
  · refine same.nodup_iff.mpr (nodup_append.mpr ⟨o.distinct,wrote.distinct,?_⟩)
    rintro k old k' new rfl
    exact wrote.outside o.drawn k new old
  · intro k mem
    rcases mem_append.mp (same.mem_iff.mp mem) with old | new
    · exact (o.drawn k old).trans_le grows.next
    · exact (wrote.fresh k new).2

theorem Owned.ownPlan {ctx s} (o : Owned ctx s) (taken : s.plans.Perm (plan::rest)) :
    (forestKeys s.disk s.root.refs ++ plan.changes.flatMap Change.written).Nodup := by
  have plans := taken.flatMap_right Plan.written
  refine nodup_iff_count_le_one.mpr (fun k => ?_)
  have once := nodup_iff_count_le_one.mp o.distinct k
  have b := plans.count_eq k
  simp only [State.owned,flatMap_cons,count_append,Plan.written] at once b ⊢
  omega

theorem Owned.stepped {ctx s root' d'} (o : Owned ctx s) (step : ∃ w, StepSpec ctx s.disk d' s.root.paging root'.paging w) :
    Owned ctx (s.publish root' d' s.plans) := by
  obtain ⟨w,spec⟩ := step
  exact o.published [] (by simp) spec.grows spec.wf (by simpa using spec.trades) spec.wrote

theorem Owned.committed {ctx s root' d'} (o : Owned ctx s)
    (taken : s.plans.Perm (plan::rest)) (spec : CommitSpec ctx R s.disk d' s.root.paging root'.paging plan.changes) :
    Owned ctx (s.publish root' d' rest) := by
  refine o.published [plan] taken spec.grows spec.wf ?_ (.none _ _)
  simpa [Plan.written] using spec.trades

theorem startOwned {ctx s} (start : Start ctx s) : Owned ctx s := by
  cases start with
  | @fresh d d' root allocated ok =>
    obtain ⟨rfl,grows⟩ := newRootSpec ok
    refine ⟨?_,mem_singleton.mpr rfl,by simp,?_,?_⟩
    · intro r mem
      cases mem_singleton.mp mem
      exact emptyWellFormed (grows.allocated allocated) _
    · simp [State.owned,forestKeys,garbage,Root.refs]
    · simp [State.owned,forestKeys,garbage,Root.refs]
  | @converted env flat d d' root same allocated ok =>
    subst same
    have spec := convertSpec allocated ok
    have none : garbage d' root.paging = [] := by simp [garbage,spec.lists]
    refine ⟨?_,mem_singleton.mpr rfl,by simp,?_,?_⟩
    · intro r mem
      cases mem_singleton.mp mem
      exact spec.wf
    · simpa [State.owned,none] using spec.wf.distinct
    intro k mem
    simp only [State.owned,none,append_nil,flatMap_nil] at mem
    exact spec.wf.refs.allocated spec.wf.allocated k mem

theorem stepOwned {ctx s e s'} (o : Owned ctx s) (step : Step ctx s e s') : Owned ctx s' := by
  cases step with
  | @wasted d' grows =>
    refine ⟨fun r mem => (o.roots r mem).grows grows,o.current,fun p mem => (o.plans p mem).grows grows,?_,?_⟩
    · rw [o.grown grows]; exact o.distinct
    · rw [o.grown grows]; exact fun k mem => (o.drawn k mem).trans_le grows.next
  | register same ok => subst same; exact o.stepped (registerSpec o.wf ok).step
  | sealed same ok => subst same; exact o.stepped (sealSpec o.wf ok).step
  | @planReplace env base sources replacements minimum deadline plan d' same earlier ok =>
    subst same
    obtain ⟨paged,spec⟩ := planReplaceSpec (o.roots _ earlier) ok
    refine o.planned spec.changes.grows ⟨?_,paged,?_⟩ spec.changes.wrote
    · rw [spec.inline]
      exact (Lists.uniqNodup sources).filter _
    · rw [spec.fields.2]
      exact spec.changes.plan
  | commitReplace same taken ok =>
    subst same
    obtain ⟨-,keys,planned⟩ := o.plans _ (taken.mem_iff.mpr mem_cons_self)
    exact o.committed taken (commitReplaceSpec o.wf planned (o.ownPlan taken) ok).commit
  | planCleanup same earlier ok =>
    subst same
    have spec := planCleanupSpec (o.roots _ earlier) ok
    exact o.planned spec.grows ⟨_,spec.plan⟩ spec.wrote
  | applyCleanup same taken ok =>
    subst same
    obtain ⟨stamps,planned⟩ := o.plans _ (taken.mem_iff.mpr mem_cons_self)
    exact o.committed taken (applyCleanupSpec o.wf planned (o.ownPlan taken) ok).commit
  | expirePlan same earlier ok =>
    subst same
    have base := o.roots _ earlier
    have spec := expirePlanSpec base.allocated base.refs base.distinct ok
    exact o.planned spec.grows spec.plan spec.wrote
  | applyExpiry same taken ok =>
    subst same
    have planned := o.plans _ (taken.mem_iff.mpr mem_cons_self)
    exact o.committed taken (applyExpirySpec o.wf planned (o.ownPlan taken) ok).commit

theorem reachOwned {ctx promise s s'} (o : Owned ctx s) (run : Reaches ctx promise s s') : Owned ctx s' := by
  induction run with
  | refl => exact o
  | tail _ step ih =>
    obtain ⟨_,_,step⟩ := step
    exact stepOwned ih step

/- What every step does outside the entries it lists: pages and published roots stay, a top-level
page is old, new or taken from an outstanding plan, and the floor only rises. -/
structure Moves (s s' : State) : Prop where
  grows : Grows s.disk s'.disk
  past : ∀ r ∈ s.past, r ∈ s'.past
  recent : ∀ r ∈ s'.past, r ∈ s.past ∨ r = s'.root
  plans : ∀ k ∈ s'.plans.flatMap Plan.written, k ∈ s.plans.flatMap Plan.written ∨ s.disk.next ≤ k.sha
  tops : ∀ r ∈ s'.root.refs, r.k ∈ s.root.refs.map (fun r => r.k) ∨ r.k ∈ s.plans.flatMap Plan.written ∨ s.disk.next ≤ r.k.sha
  floor : ∀ f ∈ s.root.paging.rf, ∃ f' ∈ s'.root.paging.rf, f ≤ f'

theorem movesPlanned {s d'} (grows : Grows s.disk d') (wrote : Wrote s.disk d' plan.written) :
    Moves s ⟨d',s.root,s.past,plan::s.plans⟩ := by
  refine ⟨grows,fun _ mem => mem,fun _ mem => .inl mem,fun k mem => ?_,fun r mem => .inl (mem_map_of_mem mem),fun f mem => ⟨f,mem,le_refl _⟩⟩
  rcases mem_append.mp mem with new | old
  · exact .inr (wrote.fresh k new).1
  · exact .inl old

theorem movesCommitted {ctx s root' d'}
    (taken : s.plans.Perm (plan::rest)) (spec : CommitSpec ctx R s.disk d' s.root.paging root'.paging plan.changes)
    (floor : ∀ f ∈ s.root.paging.rf, ∃ f' ∈ root'.paging.rf, f ≤ f') : Moves s (s.publish root' d' rest) := by
  have written : ∀ k, k ∈ s.plans.flatMap Plan.written ↔ k ∈ plan.written ∨ k ∈ rest.flatMap Plan.written := fun k => by
    rw [(taken.flatMap_right Plan.written).mem_iff,flatMap_cons,mem_append]
  refine ⟨spec.grows,fun _ mem => mem_cons_of_mem _ mem,fun r mem => (mem_cons.mp mem).symm,
    fun k mem => .inl ((written k).mpr (.inr mem)),fun r mem => ?_,floor⟩
  rcases spec.tops r mem with ⟨old,_⟩ | new
  · exact .inl (mem_map_of_mem old)
  · exact .inr (.inl ((written _).mpr (.inl new)))

theorem movesStepped {ctx s root' d'} (step : ∃ w, StepSpec ctx s.disk d' s.root.paging root'.paging w)
    (floor : root'.paging.rf = s.root.paging.rf) : Moves s (s.publish root' d' s.plans) := by
  obtain ⟨w,step⟩ := step
  exact ⟨step.grows,fun _ mem => mem_cons_of_mem _ mem,fun r mem => (mem_cons.mp mem).symm,fun k mem => .inl mem,
    fun r mem => (step.tops r mem).imp_right .inr,fun f mem => ⟨f,by rw [State.publish,floor]; exact mem,le_refl _⟩⟩

theorem stepMoves {ctx s e s'} (o : Owned ctx s) (step : Step ctx s e s') : Moves s s' := by
  cases step with
  | wasted grows =>
    exact ⟨grows,fun _ mem => mem,fun _ mem => .inl mem,fun _ mem => .inl mem,fun r mem => .inl (mem_map_of_mem mem),
      fun f mem => ⟨f,mem,le_refl _⟩⟩
  | register same ok =>
    subst same
    have spec := registerSpec o.wf ok
    exact movesStepped spec.step spec.marks.2.2
  | sealed same ok =>
    subst same
    have spec := sealSpec o.wf ok
    exact movesStepped spec.step spec.marks.2.2
  | planReplace same earlier ok =>
    subst same
    obtain ⟨paged,spec⟩ := planReplaceSpec (o.roots _ earlier) ok
    exact movesPlanned spec.changes.grows spec.changes.wrote
  | commitReplace same taken ok =>
    subst same
    obtain ⟨-,keys,planned⟩ := o.plans _ (taken.mem_iff.mpr mem_cons_self)
    have spec := commitReplaceSpec o.wf planned (o.ownPlan taken) ok
    exact movesCommitted taken spec.commit (fun f mem => ⟨f,by rw [spec.marks.2.2]; exact mem,le_refl _⟩)
  | planCleanup same earlier ok =>
    subst same
    have spec := planCleanupSpec (o.roots _ earlier) ok
    exact movesPlanned spec.grows spec.wrote
  | applyCleanup same taken ok =>
    subst same
    obtain ⟨stamps,planned⟩ := o.plans _ (taken.mem_iff.mpr mem_cons_self)
    have spec := applyCleanupSpec o.wf planned (o.ownPlan taken) ok
    exact movesCommitted taken spec.commit (fun f mem => ⟨f,by rw [spec.floor]; exact mem,le_refl _⟩)
  | expirePlan same earlier ok =>
    subst same
    have base := o.roots _ earlier
    have spec := expirePlanSpec base.allocated base.refs base.distinct ok
    exact movesPlanned spec.grows spec.wrote
  | applyExpiry same taken ok =>
    subst same
    have planned := o.plans _ (taken.mem_iff.mpr mem_cons_self)
    have spec := applyExpirySpec o.wf planned (o.ownPlan taken) ok
    refine movesCommitted taken spec.commit (fun f mem => ⟨_,spec.floor,?_⟩)
    have now : s.root.paging.rf = some f := mem
    rw [now]
    exact le_max_left _ _

theorem garbageNeverLive {ctx : Context} {s s' : State} (start : Start ctx s) (run : Reaches ctx anything s s') :
    ∀ k ∈ garbage s'.disk s'.root.paging, k ∉ forestKeys s'.disk s'.root.refs := by
  have owned := reachOwned (startOwned start) run
  intro k dead live
  have apart := (nodup_append.mp (nodup_append.mp owned.distinct).1).2.2
  exact apart k live k dead rfl

namespace Sample

-- every entry is larger than a tail may be, so each seal spills
def bulky : Env := .calm scope 10 5 (fun root => 100 + 140000 * root.size)

def retiredFirst : Listing := ⟨[second],Dict.ofList [(first.key,⟨8,0,false⟩)]⟩
def listed : Root × Disk := ((convert bulky retiredFirst).done Disk.blank).get (by decide +kernel)
def spilled : Root × Disk := ((sealRoot bulky listed.1).done listed.2).get (by decide +kernel)
def revived : Root × Disk := ((register bulky spilled.1 [first]).done spilled.2).get (by decide +kernel)

def opening : State := ⟨listed.2,listed.1,[listed.1],[]⟩
def retried : State := (opening.publish spilled.1 spilled.2 []).publish revived.1 revived.2 []

theorem blankAllocated : Disk.blank.Allocated := by intro k stored h; simp [Disk.blank] at h

theorem openingStarts : Start bulky.toContext opening := .converted rfl blankAllocated (Op.doneOk _)

theorem retriedReached : Reaches bulky.toContext anything opening retried :=
  .tail (.single ⟨_,trivial,.sealed rfl (Op.doneOk _)⟩) ⟨_,trivial,.register rfl (Op.doneOk _)⟩

end Sample

theorem garbageNeverLiveRetried : ∃ k ∈ garbage Sample.retried.disk Sample.retried.root.paging,
    k ∉ forestKeys Sample.retried.disk Sample.retried.root.refs := by
  have listed : garbage Sample.retried.disk Sample.retried.root.paging ≠ [] := by decide +kernel
  obtain ⟨k,mem⟩ := exists_mem_of_ne_nil _ listed
  exact ⟨k,mem,garbageNeverLive Sample.openingStarts Sample.retriedReached k mem⟩

end Pulso.Journal
