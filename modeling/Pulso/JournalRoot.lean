import Pulso.JournalExpiry

/-! One step of a root: every operation keeps the page structure well formed and accounts for
every page: what becomes reachable or garbage was so before or was just written. -/
namespace Pulso.Journal
open PageTree (Exchange)
open List

structure WellFormed (ctx : Context) (d : Disk) (p : Paging) : Prop where
  allocated : d.Allocated
  refs : AllSound ctx d p.refs
  gc : GcSound ctx d p.gr
  distinct : (forestKeys d p.refs).Nodup

def Trades (d d' : Disk) (p p' : Paging) (written : List PageKey) : Prop :=
  ∃ forgotten, (forestKeys d' p'.refs ++ garbage d' p' ++ forgotten).Perm (forestKeys d p.refs ++ garbage d p ++ written)

theorem Trades.trans {a b c p q r v w} (x : Trades a b p q v) (y : Trades b c q r w) : Trades a c p r (v ++ w) := by
  obtain ⟨f,hf⟩ := x
  obtain ⟨g,hg⟩ := y
  refine ⟨g ++ f,?_⟩
  have first := hg.append_right f
  have second : (forestKeys b q.refs ++ garbage b q ++ w ++ f).Perm (forestKeys b q.refs ++ garbage b q ++ f ++ w) := by
    simp only [append_assoc]
    exact (perm_append_comm.append_left _).append_left _
  have third := hf.append_right w
  simpa [append_assoc] using first.trans (second.trans third)

theorem Trades.same {ctx d d' p} (wf : WellFormed ctx d p) (g : Grows d d') : Trades d d' p p [] :=
  ⟨[],by rw [wf.refs.keysGrow g,garbageGrow wf.gc g]⟩

theorem WellFormed.grows {ctx d d' p} (wf : WellFormed ctx d p) (g : Grows d d') : WellFormed ctx d' p :=
  ⟨g.allocated wf.allocated,wf.refs.grows g,wf.gc.grows g,by rw [wf.refs.keysGrow g]; exact wf.distinct⟩

structure CommitSpec (ctx : Context) (R : Listing → Option Listing → Prop) (d d' : Disk) (p p' : Paging)
    (changes : List Change) : Prop where
  grows : Grows d d'
  wf : WellFormed ctx d' p'
  trades : Trades d d' p p' (changes.flatMap Change.written)
  leaves : ∀ S : Listing → Option Listing → Prop, (∀ l o, R l o → S l o) →
    (∀ r ∈ p.refs, r.k ∉ changes.map Change.key → Carries S (leavesAt d r.h r.k) (leavesAt d r.h r.k)) →
    Carries S (forestLeaves d p.refs) (forestLeaves d' p'.refs)
  heights : (p'.refs.map (fun r => r.h)).Sublist (p.refs.map (fun r => r.h))
  tops : ∀ r ∈ p'.refs, (r ∈ p.refs ∧ r.k ∉ changes.map Change.key) ∨ r.k ∈ changes.flatMap Change.written
  reach : ∀ k ∈ forestKeys d' p'.refs, k ∈ forestKeys d p.refs ∨ k ∈ (appliedTo p.refs changes).flatMap Change.written

theorem writtenSplit (refs : List Ref) (changes : List Change) :
    ((appliedTo refs changes).flatMap Change.written ++ (staleFor refs changes).flatMap Change.written).Perm
      (changes.flatMap Change.written) := by
  rw [← flatMap_append]
  exact (splitChanges refs changes).flatMap_right _

variable {env : Env} {root' root : Root} {d d' : Disk}

/- Any root whose references are the substituted ones, and whose garbage lists only shrank,
records what the plan superseded and what it wrote in vain. -/
theorem commitChanges {R p mid changes deadline} (wf : WellFormed env.toContext d p)
    (ok : supersede env mid ((appliedTo p.refs changes).flatMap Change.superseded ++
      (staleFor p.refs changes).flatMap Change.written) deadline d = (.ok root',d'))
    (plan : PlanOk env.toContext R d changes)
    (own : (forestKeys d p.refs ++ changes.flatMap Change.written).Nodup)
    (refs : mid.paging.refs = (substitute p.refs changes).refs)
    (shrunk : ∃ forgotten, (garbage d mid.paging ++ forgotten).Perm (garbage d p)) (kept : ∀ r ∈ mid.paging.gr, r ∈ p.gr) :
    CommitSpec env.toContext R d d' p root'.paging changes ∧ root'.toListing = mid.toListing ∧
      Frame mid.paging root'.paging := by
  have sub := substituteSpec wf.refs (refKeysNodup wf.distinct) plan
  have gc : GcSound env.toContext d mid.paging.gr := fun r mem => wf.gc r (kept r mem)
  have spec := supersedeSpec wf.allocated gc ok
  have refs' : root'.paging.refs = p.refs.flatMap (replacement (appliedTo p.refs changes)) := spec.refs.trans refs
  have split := writtenSplit p.refs changes
  have owned : (forestKeys d (p.refs.flatMap (replacement (appliedTo p.refs changes))) ++
      (appliedTo p.refs changes).flatMap Change.superseded ++ (staleFor p.refs changes).flatMap Change.written).Nodup := by
    refine sub.exchange.nodup ?_
    rw [append_assoc]
    exact (split.append_left _).nodup_iff.mpr own
  have reachable : forestKeys d' root'.paging.refs =
      forestKeys d (p.refs.flatMap (replacement (appliedTo p.refs changes))) := by
    rw [refs']; exact sub.sound.keysGrow spec.grows
  refine ⟨⟨spec.grows,⟨spec.grows.allocated wf.allocated,?_,spec.gc,?_⟩,?_,?_,?_,?_,?_⟩,spec.listing,spec.frame⟩
  · rw [refs']; exact sub.sound.grows spec.grows
  · rw [reachable]
    exact (nodup_append.mp (nodup_append.mp owned).1).1
  · obtain ⟨forgotten,less⟩ := shrunk
    refine ⟨forgotten,?_⟩
    rw [reachable]
    refine perm_iff_count.mpr (fun k => ?_)
    have moved := perm_iff_count.mp sub.exchange k
    have recorded := spec.garbage.count_eq k
    have remembered := less.count_eq k
    have planned := split.count_eq k
    simp only [count_append] at moved recorded remembered planned ⊢
    omega
  · intro S le quiet
    rw [refs',sub.sound.leavesGrow spec.grows]
    exact sub.leaves S le quiet
  · rw [refs']; exact sub.heights
  · rw [refs']; exact sub.tops
  · intro k mem
    rw [reachable] at mem
    exact mem_append.mp (sub.exchange.mem_iff.mp (mem_append_right _ mem))

def Fresher (d d' : Disk) (p p' : Paging) : Prop :=
  ∀ k ∈ forestKeys d' p'.refs, k ∈ forestKeys d p.refs ∨ d.next ≤ k.sha

structure StepSpec (ctx : Context) (d d' : Disk) (p p' : Paging) (written : List PageKey) : Prop where
  grows : Grows d d'
  wf : WellFormed ctx d' p'
  trades : Trades d d' p p' written
  wrote : Wrote d d' written
  tops : Tops d p.refs p'.refs
  fresher : Fresher d d' p p'

theorem StepSpec.trans {ctx a b c p q r v w} (x : StepSpec ctx a b p q v) (y : StepSpec ctx b c q r w) :
    StepSpec ctx a c p r (v ++ w) :=
  ⟨x.grows.trans y.grows,y.wf,x.trades.trans y.trades,x.wrote.append y.wrote x.grows.next y.grows.next,
    x.tops.trans y.tops x.grows.next,fun k mem => (y.fresher k mem).elim (x.fresher k) (fun new => .inr (x.grows.next.trans new))⟩

theorem StepSpec.same {ctx d d' p} (wf : WellFormed ctx d p) (g : Grows d d') : StepSpec ctx d d' p p [] :=
  ⟨g,wf.grows g,.same wf g,.none _ _,.same _ _,fun _ mem => .inl (wf.refs.keysGrow g ▸ mem)⟩

theorem StepSpec.renamed {ctx d d' p} (wf : WellFormed ctx d p) (g : Grows d d') (n : Nat) :
    StepSpec ctx d d' p { p with nonce := n } [] := by
  have kept := StepSpec.same wf g
  exact ⟨g,{ kept.wf with },kept.trades,kept.wrote,kept.tops,kept.fresher⟩

theorem freshOwned {ctx d d' p w} (wf : WellFormed ctx d p) (wrote : Wrote d d' w) : (forestKeys d p.refs ++ w).Nodup := by
  refine nodup_append.mpr ⟨wf.distinct,wrote.distinct,?_⟩
  rintro k old k' new rfl
  exact wrote.outside (wf.refs.allocated wf.allocated) k new old

theorem withinGarbage (d : Disk) (p : Paging) : ∃ forgotten, (garbage d p ++ forgotten).Perm (garbage d p) :=
  ⟨[],by simp⟩

theorem staleNone {refs changes} (none : (staleFor refs changes).length = 0) :
    (staleFor refs changes).flatMap Change.written = [] := by
  rw [length_eq_zero_iff.mp none]; rfl

structure RewriteRootSpec (ctx : Context) (R : Listing → Option Listing → Prop) (d d' : Disk) (root root' : Root) : Prop where
  step : ∃ w, StepSpec ctx d d' root.paging root'.paging w
  leaves : Carries R (forestLeaves d root.refs) (forestLeaves d' root'.refs)
  heights : (root'.refs.map (fun r => r.h)).Sublist (root.refs.map (fun r => r.h))
  listing : root'.toListing = root.toListing
  frame : Frame root.paging root'.paging

theorem rewriteRootSpec {R timestamps update} (rule : UpdateRule env R (fun ref => timestamps.any (covers ref)) update)
    (wf : WellFormed env.toContext d root.paging)
    (ok : rewriteRoot env root timestamps update d = (.ok root',d')) :
    RewriteRootSpec env.toContext R d d' root root' := by
  simp only [rewriteRoot,Op.bindOk,Op.requireOk] at ok
  obtain ⟨changes,d₁,planned,_,d₂,⟨fresh,rfl⟩,superseded⟩ := ok
  have plan := planRewriteSpec rule wf.allocated wf.refs wf.distinct planned
  have wf₁ := wf.grows plan.grows
  have own : (forestKeys d₂ root.paging.refs ++ changes.flatMap Change.written).Nodup := by
    rw [wf.refs.keysGrow plan.grows]; exact freshOwned wf plan.wrote
  have keys : (substitute root.refs changes).applied.flatMap Change.superseded =
      (appliedTo root.refs changes).flatMap Change.superseded ++ (staleFor root.refs changes).flatMap Change.written := by
    rw [staleNone fresh]; simp [substitute]
  rw [keys] at superseded
  obtain ⟨spec,listing,frame⟩ := commitChanges wf₁ superseded plan.plan own rfl (withinGarbage d₂ root.paging)
    (fun r mem => mem)
  have planStep : StepSpec env.toContext d d₂ root.paging root.paging [] := .same wf plan.grows
  have newer : ∀ k ∈ changes.flatMap Change.written, d.next ≤ k.sha := fun k mem => (plan.wrote.fresh k mem).1
  refine ⟨⟨changes.flatMap Change.written,plan.grows.trans spec.grows,spec.wf,?_,?_,?_,?_⟩,?_,spec.heights,listing,
    { frame with }⟩
  · simpa using planStep.trades.trans spec.trades
  · exact plan.wrote.widen (Nat.le_refl _) spec.grows.next
  · intro r mem
    exact (spec.tops r mem).imp (fun old => mem_map_of_mem old.1) (newer r.k)
  · intro k mem
    rcases spec.reach k mem with old | new
    · exact .inl (wf.refs.keysGrow plan.grows ▸ old)
    · exact .inr (newer k ((writtenSplit _ _).mem_iff.mp (mem_append_left _ new)))
  · rw [← wf.refs.leavesGrow plan.grows]
    refine spec.leaves R (fun _ _ h => h) (fun r mem absent => ?_)
    rw [(wf.refs r mem).leavesGrow plan.grows]
    exact plan.quiet r mem absent

theorem touchSpec (ok : touch root d = (.ok root',d')) :
    Grows d d' ∧ root' = { root with paging := { root.paging with nonce := d.next } } ∧ d'.next = d.next + 1 := by
  simp only [touch,Op.bindOk,Op.pureOk] at ok
  obtain ⟨n,d₁,drawn,rfl,rfl⟩ := ok
  cases drawn
  exact ⟨⟨.refl _,Nat.le_succ _,fun a k stored page => Nat.lt_succ_of_lt (a k stored page)⟩,rfl,rfl⟩

theorem itemsOk {l xs} (ok : items l = .ok xs) : Dated l.retired ∧ xs = entries l := by
  unfold items at ok
  split at ok
  · rename_i dated; cases ok; exact ⟨dated,rfl⟩
  · simp at ok

structure SpillSpec (ctx : Context) (d d' : Disk) (root root' : Root) : Prop where
  step : ∃ w, StepSpec ctx d d' root.paging root'.paging w
  listing : root'.toListing = Listing.empty
  dated : Dated root.retired
  leaves : forestLeaves d' root'.refs = forestLeaves d root.refs ++
    (chunk ctx.sizes (entries root.toListing)).map (Listing.persisted ctx.sizes.toSummarySizes)
  frame : Frame root.paging root'.paging
  lists : root'.paging.g = root.paging.g ∧ root'.paging.gr = root.paging.gr
  pushed : ∃ leaves d₁ env, env.toContext = ctx ∧ (∀ r ∈ leaves, r.h = 0) ∧ pushAll env root.refs leaves d₁ = (.ok root'.refs,d')

theorem spillSpec (wf : WellFormed env.toContext d root.paging)
    (ok : spill env root d = (.ok root',d')) : SpillSpec env.toContext d d' root root' := by
  simp only [spill,Op.bindOk,Op.liftOk,Op.pureOk] at ok
  obtain ⟨xs,d₀,⟨listed,rfl⟩,leaves,d₁,put,refs,d₂,pushed,rfl,rfl⟩ := ok
  obtain ⟨dated,rfl⟩ := itemsOk listed
  have written := putLeavesSpec wf.allocated put
  have level : ∀ r ∈ leaves, r.h = 0 := fun r mem => (written.sound r mem).height
  have sound := (wf.refs.grows written.grows).append (fun r mem => (level r mem).symm ▸ written.sound r mem)
  obtain ⟨w,packs⟩ := pushAllSpec (written.grows.allocated wf.allocated) sound pushed
  have grows := written.grows.trans packs.grows
  have keys : (forestKeys d' refs).Perm (forestKeys d₀ root.refs ++ (leaves.map (fun r => r.k) ++ w)) := by
    refine packs.keys.trans ?_
    rw [forestKeysAppend,wf.refs.keysGrow written.grows,written.keys,append_assoc]
  have wrote := written.wrote.append packs.wrote written.grows.next packs.grows.next
  refine ⟨⟨_,grows,⟨grows.allocated wf.allocated,packs.sound,wf.gc.grows grows,?_⟩,?_,wrote,?_,?_⟩,rfl,dated,?_,⟨rfl,rfl,rfl,rfl⟩,
    ⟨rfl,rfl⟩,leaves,d₁,env,rfl,level,pushed⟩
  · exact keys.nodup_iff.mpr (freshOwned wf wrote)
  · refine ⟨[],?_⟩
    refine perm_iff_count.mpr (fun k => ?_)
    have moved := keys.count_eq k
    have listed : (garbage d' root.paging).count k = (garbage d₀ root.paging).count k := by rw [garbageGrow wf.gc grows]
    simp only [Root.refs,Root.withRefs,Root.withListing,garbage,count_append,count_nil] at moved listed ⊢
    omega
  · have opened : Tops d₀ root.refs (root.refs ++ leaves) := by
      intro r mem
      rcases mem_append.mp mem with old | new
      · exact .inl (mem_map_of_mem old)
      · exact .inr (written.wrote.fresh r.k (mem_map_of_mem new)).1
    exact opened.trans packs.tops written.grows.next
  · intro k mem
    rcases mem_append.mp (keys.mem_iff.mp mem) with old | new
    · exact .inl old
    · exact .inr (wrote.fresh k new).1
  · rw [← written.content,← wf.refs.leavesGrow written.grows,← forestLeavesAppend]
    exact packs.leaves

structure SealSpec (ctx : Context) (d d' : Disk) (root root' : Root) : Prop where
  step : ∃ w, StepSpec ctx d d' root.paging root'.paging w
  content : (root'.toListing = root.toListing ∧ forestLeaves d' root'.refs = forestLeaves d root.refs) ∨
    (root'.toListing = Listing.empty ∧ forestLeaves d' root'.refs = forestLeaves d root.refs ++
      (chunk ctx.sizes (entries root.toListing)).map (Listing.persisted ctx.sizes.toSummarySizes))
  heights : root'.refs = root.refs ∨ ∃ leaves d₁ d₂ env, env.toContext = ctx ∧ (∀ r ∈ leaves, r.h = 0) ∧
    pushAll env root.refs leaves d₁ = (.ok root'.refs,d₂)
  lists : root'.paging.g = root.paging.g ∧ root'.paging.gr = root.paging.gr
  marks : root'.paging.cc = root.paging.cc ∧ root'.paging.rc = root.paging.rc ∧ root'.paging.rf = root.paging.rf

theorem sealSpec (wf : WellFormed env.toContext d root.paging)
    (ok : sealRoot env root d = (.ok root',d')) : SealSpec env.toContext d d' root root' := by
  unfold sealRoot at ok
  split at ok
  · simp only [Op.bindOk,Op.requireOk,Op.pureOk] at ok
    obtain ⟨mid,d₁,spilled,done,d₂,touched,_,d₃,⟨-,rfl⟩,rfl,rfl⟩ := ok
    have spec := spillSpec wf spilled
    obtain ⟨grows,rfl,-⟩ := touchSpec touched
    obtain ⟨w,step⟩ := spec.step
    obtain ⟨leaves,e,env',same,level,pushed⟩ := spec.pushed
    refine ⟨⟨_,step.trans (.renamed step.wf grows _)⟩,.inr ⟨spec.listing,?_⟩,.inr ⟨leaves,e,_,env',same,level,pushed⟩,spec.lists,
      ⟨spec.frame.cc,spec.frame.rc,spec.frame.rf⟩⟩
    exact (step.wf.refs.leavesGrow grows).trans spec.leaves
  · simp only [Op.bindOk,Op.requireOk,Op.pureOk] at ok
    obtain ⟨_,d₁,⟨rfl,rfl⟩,_,d₂,⟨-,rfl⟩,rfl,rfl⟩ := ok
    exact ⟨⟨[],.same wf (.refl _)⟩,.inl ⟨rfl,rfl⟩,.inl rfl,⟨rfl,rfl⟩,⟨rfl,rfl,rfl⟩⟩

theorem emptyWellFormed {ctx} (a : d.Allocated) (n : Nat) : WellFormed ctx d ⟨n,[],[],[],0,none,none⟩ := by
  refine ⟨a,?_,?_,nodup_nil⟩
  · intro r mem; simp at mem
  · intro r mem; simp at mem

structure ConvertSpec (ctx : Context) (d d' : Disk) (flat : Listing) (root : Root) : Prop where
  grows : Grows d d'
  wf : WellFormed ctx d' root.paging
  lists : root.paging.g = [] ∧ root.paging.gr = []
  marks : root.paging.cc = 0 ∧ root.paging.rc = none ∧ root.paging.rf = none
  valid : (∀ s ∈ flat.segments, s.Valid ctx.scope) ∧ ∀ k ∈ flat.retired.keys, ValidRetiredKey ctx.scope k
  content : (root.toListing = flat ∧ root.refs = []) ∨ (root.toListing = Listing.empty ∧
    forestLeaves d' root.refs = (chunk ctx.sizes (entries flat)).map (Listing.persisted ctx.sizes.toSummarySizes))
  heights : root.refs = [] ∨ ∃ leaves d₁ d₂ env, env.toContext = ctx ∧ (∀ r ∈ leaves, r.h = 0) ∧
    build env leaves.length leaves d₁ = (.ok root.refs,d₂)

theorem newRootSpec (ok : newRoot d = (.ok root,d')) :
    root = ⟨Listing.empty,⟨d.next,[],[],[],0,none,none⟩⟩ ∧ Grows d d' := by
  simp only [newRoot,Op.bindOk,Op.pureOk] at ok
  obtain ⟨n,d₁,drawn,rfl,rfl⟩ := ok
  cases drawn
  exact ⟨rfl,.refl _,Nat.le_succ _,fun a k stored page => Nat.lt_succ_of_lt (a k stored page)⟩

theorem convertSpec {flat} (a : d.Allocated)
    (ok : convert env flat d = (.ok root,d')) : ConvertSpec env.toContext d d' flat root := by
  simp only [convert,validateSegments,Op.bindOk,Op.requireOk] at ok
  obtain ⟨_,d₁,⟨segments,rfl⟩,_,d₂,⟨retired,rfl⟩,fresh,d₃,made,rest⟩ := ok
  obtain ⟨rfl,grows⟩ := newRootSpec made
  split at rest
  · obtain ⟨rfl,rfl⟩ := Op.pureOk.mp rest
    exact ⟨grows,emptyWellFormed (grows.allocated a) _,⟨rfl,rfl⟩,⟨rfl,rfl,rfl⟩,⟨segments,retired⟩,.inl ⟨rfl,rfl⟩,.inl rfl⟩
  simp only [Op.bindOk,Op.liftOk,Op.pureOk] at rest
  obtain ⟨xs,d₄,⟨listed,rfl⟩,leaves,d₅,put,refs,d₆,packed,rfl,rfl⟩ := rest
  obtain ⟨-,rfl⟩ := itemsOk listed
  have written := putLeavesSpec (grows.allocated a) put
  obtain ⟨w,packs⟩ := buildSpec ((grows.trans written.grows).allocated a) written.sound packed
  have total := (grows.trans written.grows).trans packs.grows
  have wrote := written.wrote.append packs.wrote written.grows.next packs.grows.next
  refine ⟨total,⟨total.allocated a,packs.sound,by intro r mem; simp [Root.withRefs] at mem,?_⟩,⟨rfl,rfl⟩,⟨rfl,rfl,rfl⟩,
    ⟨segments,retired⟩,.inr ⟨rfl,?_⟩,.inr ⟨leaves,_,_,env,rfl,fun r mem => (written.sound r mem).height,packed⟩⟩
  · refine packs.keys.nodup_iff.mpr ?_
    rw [written.keys]
    exact wrote.distinct
  · rw [← written.content]
    exact packs.leaves

end Pulso.Journal
