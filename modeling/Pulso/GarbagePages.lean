import Mathlib.Data.List.Flatten
import Pulso.JournalGarbage

/-! Garbage pages. Superseding writes every inline key and every new one into a single page, the
decoder takes at most `gcPageKeys` keys, so a page reads back exactly when its keys fit. -/
namespace Pulso.Journal
open List

def Reads (ctx : Context) (d : Disk) (ref : GcRef) (keys : List PageKey) : Prop :=
  ∀ env : Env, env.toContext = ctx → env.get ref.k = none → readGc env ref d = .ok keys

theorem readGcStored {env d ref keys} (stored : d.pages ref.k = some ⟨.gc keys,ref.b⟩)
    (digest : ref.k.sha = ref.sha) (answers : env.get ref.k = none) :
    readGc env ref d = if ValidGcKeys env.scope keys then .ok keys else .error .invalidManifestPage := by
  have fetched : fetch env ref.toStub d = .ok (.gc keys) := by simp [fetch,answers,stored,digest]
  simp [readGc,fetched]

theorem readsIff {ctx d ref keys} (stored : d.pages ref.k = some ⟨.gc keys,ref.b⟩)
    (digest : ref.k.sha = ref.sha) : Reads ctx d ref keys ↔ ValidGcKeys ctx.scope keys := by
  constructor
  · intro reads
    have answer := reads ⟨ctx,0,0,fun _ => 0,fun _ => none,fun _ => none⟩ rfl rfl
    rw [readGcStored stored digest rfl] at answer
    by_contra invalid
    rw [if_neg invalid] at answer
    cases answer
  · rintro valid env rfl answers
    rw [readGcStored stored digest answers,if_pos valid]

abbrev inlineKeys (p : Paging) : List PageKey := p.g.map GcEntry.key

inductive Shelved (d d' : Disk) (p p' : Paging) (keys : List PageKey) : Prop
  | idle (none : keys = []) (same : p' = p)
  | inline (few : p.g.length + keys.length ≤ gcInline) (listed : inlineKeys p' = inlineKeys p ++ keys) (gr : p'.gr = p.gr)
  | page {ref : GcRef} (emptied : p'.g = []) (gr : p'.gr = p.gr ++ [ref]) (fresh : ref.k.sha = d.next)
      (stored : d'.pages ref.k = some ⟨.gc (inlineKeys p ++ keys),ref.b⟩) (digest : ref.k.sha = ref.sha)

theorem supersedeShelved {env root root' keys deadline d d'} (a : d.Allocated)
    (ok : supersede env root keys deadline d = (.ok root',d')) :
    Grows d d' ∧ Shelved d d' root.paging root'.paging keys := by
  unfold supersede at ok
  split at ok
  · rename_i none
    obtain ⟨rfl,rfl⟩ := Op.pureOk.mp ok
    exact ⟨.refl _,.idle none rfl⟩
  dsimp only at ok
  split at ok
  · rename_i few
    obtain ⟨rfl,rfl⟩ := Op.pureOk.mp ok
    exact ⟨.refl _,.inline (by simpa using few) (by simp [inlineKeys,Function.comp_def]) rfl⟩
  simp only [Op.bindOk,Op.requireOk,Op.pureOk] at ok
  obtain ⟨stub,d₁,put,_,d₂,⟨-,rfl⟩,rfl,rfl⟩ := ok
  have spec := putPageSpec a put
  refine ⟨spec.grows,.page rfl rfl (by rw [spec.key]) ?_ (by rw [spec.key,spec.sha])⟩
  simpa [inlineKeys,Function.comp_def] using spec.stored

structure Tidy (ctx : Context) (p : Paging) : Prop where
  few : p.g.length ≤ gcInline
  keys : Local ctx (inlineKeys p)

def Legible (ctx : Context) (d : Disk) (p : Paging) : Prop :=
  ∀ ref ∈ p.gr, ∃ keys, d.pages ref.k = some ⟨.gc keys,ref.b⟩ ∧ ref.k.sha = ref.sha ∧ ValidGcKeys ctx.scope keys

theorem Legible.grows {ctx d d' p} (l : Legible ctx d p) (g : Grows d d') : Legible ctx d' p := by
  intro ref mem
  obtain ⟨keys,stored,rest⟩ := l ref mem
  exact ⟨keys,g.pages _ _ stored,rest⟩

/- An operation that superseded pages on the way from one root to the next: `keys` are the inline
keys it kept and the pages it gave up. -/
structure Handover (env : Env) (d d' : Disk) (p p' : Paging) (keys : List PageKey) : Prop where
  steps : ∃ mid more deadline mid' d₁ d₂, Grows d d₁ ∧ supersede env mid more deadline d₁ = (.ok mid',d₂) ∧ Grows d₂ d' ∧
    keys = inlineKeys mid.paging ++ more ∧ mid.paging.g.length ≤ p.g.length ∧ (∀ r ∈ mid.paging.gr, r ∈ p.gr) ∧
    p'.g = mid'.paging.g ∧ p'.gr = mid'.paging.gr

section Handovers
variable {env : Env} {d d' : Disk} {p p' : Paging} {keys : List PageKey}

theorem Handover.tidy (x : Handover env d d' p p' keys) (a : d.Allocated) (tidy : Tidy env.toContext p)
    (inside : Local env.toContext keys) : Tidy env.toContext p' := by
  obtain ⟨mid,more,deadline,mid',d₁,d₂,before,ok,after,rfl,less,old,g,gr⟩ := x.steps
  have length : p'.g.length = mid'.paging.g.length := congrArg List.length g
  have listed : inlineKeys p' = inlineKeys mid'.paging := congrArg (List.map GcEntry.key) g
  cases (supersedeShelved (before.allocated a) ok).2 with
  | idle none same =>
    rw [same] at length listed
    exact ⟨length ▸ less.trans tidy.few,listed ▸ fun k mem => inside k (mem_append_left _ mem)⟩
  | inline few kept same =>
    refine ⟨?_,by rw [listed,kept]; exact inside⟩
    have count := congrArg List.length kept
    simp only [inlineKeys,length_append,length_map] at count
    omega
  | page emptied _ _ _ _ =>
    rw [emptied] at g
    exact ⟨by rw [g]; exact Nat.zero_le _,by rw [inlineKeys,g]; exact .none⟩

theorem Handover.legible (x : Handover env d d' p p' keys) (a : d.Allocated) (legible : Legible env.toContext d p)
    (inside : Local env.toContext keys) (fits : keys.length ≤ gcPageKeys) : Legible env.toContext d' p' := by
  obtain ⟨mid,more,deadline,mid',d₁,d₂,before,ok,after,rfl,-,old,-,gr⟩ := x.steps
  obtain ⟨grows,shelved⟩ := supersedeShelved (before.allocated a) ok
  have kept : ∀ ref ∈ mid.paging.gr, ∃ keys, d'.pages ref.k = some ⟨.gc keys,ref.b⟩ ∧ ref.k.sha = ref.sha ∧
      ValidGcKeys env.scope keys :=
    fun ref mem => (legible.grows ((before.trans grows).trans after)) ref (old ref mem)
  rw [Legible,gr]
  cases shelved with
  | idle none same => rw [same]; exact kept
  | inline few listed same => rw [same]; exact kept
  | @page ref emptied added fresh stored digest =>
    rw [added]
    intro r mem
    rcases mem_append.mp mem with earlier | new
    · exact kept r earlier
    · cases mem_singleton.mp new
      exact ⟨_,after.pages _ _ stored,digest,fits,inside⟩

/- Every page reference of the new root that the old one lacks reads back as exactly these keys. -/
def Accepted (ctx : Context) (d : Disk) (p p' : Paging) (keys : List PageKey) : Prop :=
  ∀ ref ∈ p'.gr, ref ∉ p.gr → Reads ctx d ref keys

theorem Handover.acceptedIff (x : Handover env d d' p p' keys) (wf : WellFormed env.toContext d p)
    (tidy : Tidy env.toContext p) (inside : Local env.toContext keys) :
    Accepted env.toContext d' p p' keys ↔ keys.length ≤ gcPageKeys := by
  obtain ⟨mid,more,deadline,mid',d₁,d₂,before,ok,after,rfl,less,old,-,gr⟩ := x.steps
  have few := tidy.few
  obtain ⟨-,shelved⟩ := supersedeShelved (before.allocated wf.allocated) ok
  rw [Accepted,gr]
  cases shelved with
  | idle none same =>
    rw [same]
    refine iff_of_true (fun ref mem new => absurd (old ref mem) new) ?_
    simp only [none,append_nil,inlineKeys,length_map,gcPageKeys,gcInline] at few ⊢
    omega
  | inline fit listed same =>
    rw [same]
    refine iff_of_true (fun ref mem new => absurd (old ref mem) new) ?_
    simp only [length_append,inlineKeys,length_map,gcPageKeys,gcInline] at fit ⊢
    omega
  | @page ref emptied added fresh stored digest =>
    have unseen : ref ∉ p.gr := by
      intro mem
      obtain ⟨listed,page⟩ := (wf.gc ref mem).stored
      have drawn := wf.allocated _ _ page
      have later := before.next
      omega
    have iff : Reads env.toContext d' ref _ ↔ ValidGcKeys env.scope _ := readsIff (after.pages _ _ stored) digest
    rw [added]
    constructor
    · intro accepted
      exact (iff.mp (accepted ref (by simp) unseen)).1
    intro fits r mem new
    rcases mem_append.mp mem with earlier | last
    · exact absurd (old r earlier) new
    · cases mem_singleton.mp last
      exact iff.mpr ⟨fits,inside⟩

end Handovers

def discarded (s : State) : Event → List PageKey
  | .replaced plan => inlineKeys s.root.paging ++ (appliedTo s.root.refs plan.changes).flatMap Change.superseded
  | .cleaned work => (s.root.paging.g.filter (fun e => e.key ∉ work.pages)).map GcEntry.key ++
      ((appliedTo s.root.refs work.changes).flatMap Change.superseded ++
        (staleFor s.root.refs work.changes).flatMap Change.written)
  | .expired _ _ changes => inlineKeys s.root.paging ++
      ((appliedTo s.root.refs changes).flatMap Change.superseded ++ (staleFor s.root.refs changes).flatMap Change.written)
  | _ => []

def Fits (s : State) (e : Event) : Prop := (discarded s e).length ≤ gcPageKeys

inductive Discards (env : Env) (s : State) : List PageKey → Root → Disk → Prop
  | commitReplace {plan root' d'} (outstanding : .replace plan ∈ s.plans)
      (ok : commitReplace env s.root plan s.disk = (.ok root',d')) : Discards env s (discarded s (.replaced plan)) root' d'
  | applyCleanup {work : Work} {root' d'} (outstanding : .cleanup work.deleted work.changes ∈ s.plans)
      (ok : applyCleanup env s.root work s.disk = (.ok root',d')) : Discards env s (discarded s (.cleaned work)) root' d'
  | applyExpiry {floor deadline changes out d'} (outstanding : .expiry floor deadline changes ∈ s.plans)
      (ok : applyExpiry env s.root floor deadline changes s.disk = (.ok out,d')) :
      Discards env s (discarded s (.expired floor deadline changes)) out.1 d'
  | revive {x changes root' d₁ d'} (planned : planRewrite env s.root.refs [x.maxTs] (reviveLeaf x.key) s.disk = (.ok changes,d₁))
      (ok : revive env s.root x s.disk = (.ok root',d')) :
      Discards env s (inlineKeys s.root.paging ++ (appliedTo s.root.refs changes).flatMap Change.superseded) root' d'

section Operations
variable {env : Env}

theorem commitReplaceHands {s plan root' d'} (ok : commitReplace env s.root plan s.disk = (.ok root',d')) :
    Handover env s.disk d' s.root.paging root'.paging (discarded s (.replaced plan)) := by
  simp only [commitReplace,Op.bindOk,Op.requireOk] at ok
  obtain ⟨_,d₁,⟨-,rfl⟩,_,d₂,⟨-,rfl⟩,_,d₃,⟨-,rfl⟩,mid,d₄,superseded,touched⟩ := ok
  obtain ⟨grows,rfl,-⟩ := touchSpec touched
  exact ⟨_,_,_,_,_,_,.refl _,superseded,grows,rfl,Nat.le_refl _,fun _ mem => mem,rfl,rfl⟩

theorem applyCleanupHands {s work root' d'} (ok : applyCleanup env s.root work s.disk = (.ok root',d')) :
    Handover env s.disk d' s.root.paging root'.paging (discarded s (.cleaned work)) := by
  unfold applyCleanup at ok
  exact ⟨_,_,_,_,_,_,.refl _,ok,.refl _,rfl,length_filter_le _ _,fun _ mem => (mem_filter.mp mem).1,rfl,rfl⟩

theorem applyExpiryHands {s floor deadline changes out d'}
    (ok : applyExpiry env s.root floor deadline changes s.disk = (.ok out,d')) :
    Handover env s.disk d' s.root.paging out.1.paging (discarded s (.expired floor deadline changes)) := by
  simp only [applyExpiry,Op.bindOk,Op.requireOk,Op.pureOk] at ok
  obtain ⟨_,d₁,⟨-,rfl⟩,mid,d₂,superseded,rfl,rfl⟩ := ok
  exact ⟨_,_,_,_,_,_,.refl _,superseded,.refl _,rfl,Nat.le_refl _,fun _ mem => mem,rfl,rfl⟩

theorem reviveHands {root root' x d d'} (wf : WellFormed env.toContext d root.paging)
    (ok : revive env root x d = (.ok root',d')) :
    ∃ changes d₁, planRewrite env root.refs [x.maxTs] (reviveLeaf x.key) d = (.ok changes,d₁) ∧
      Handover env d d' root.paging root'.paging
        (inlineKeys root.paging ++ (appliedTo root.refs changes).flatMap Change.superseded) := by
  simp only [revive,rewriteRoot,Op.bindOk,Op.requireOk] at ok
  obtain ⟨changes,d₁,planned,_,d₂,⟨-,rfl⟩,superseded⟩ := ok
  have plan := planRewriteSpec (anyRule env _ _) wf.allocated wf.refs wf.distinct planned
  exact ⟨changes,_,planned,_,_,_,_,_,_,plan.grows,superseded,.refl _,rfl,Nat.le_refl _,fun _ mem => mem,rfl,rfl⟩

theorem topsLocal {ctx d p} (wf : WellFormed ctx d p) : ∀ r ∈ p.refs, r.k.In ctx.scope := by
  intro r mem
  have sound := wf.refs r mem
  cases height : r.h with
  | zero =>
    rw [height] at sound
    obtain ⟨_,_,placed,_⟩ := sound
    exact placed.journal
  | succ h =>
    rw [height] at sound
    obtain ⟨_,_,_,placed,_⟩ := sound
    exact placed.journal

theorem supersededLocal {ctx refs changes} (each : ∀ c ∈ changes, Local ctx c.pages) :
    Local ctx ((appliedTo refs changes).flatMap Change.superseded) :=
  .flatMap (fun c mem k hk => each c (mem_filter.mp mem).1 k (mem_append_left _ hk))

theorem unusedLocal {ctx refs changes} (each : ∀ c ∈ changes, Local ctx c.pages) :
    Local ctx ((staleFor refs changes).flatMap Change.written) :=
  .flatMap (fun c mem k hk => each c (mem_filter.mp mem).1 k (mem_append_right _ hk))

theorem revivedOnce (key : Key) {ls : List Listing} (distinct : (names (ls.flatMap Listing.catalog)).Nodup) :
    ls.countP (fun l => decide (reviveLeaf key l ≠ l)) ≤ 1 := by
  have held : ∀ l, reviveLeaf key l ≠ l → key ∈ names l.catalog := by
    intro l changed
    unfold reviveLeaf at changed
    split at changed
    · rename_i r found
      exact mem_map.mpr ⟨.retired (key,r),mem_append_right _ (mem_map_of_mem (Dict.getIff.mp found)),rfl⟩
    · exact absurd rfl changed
  induction ls with
  | nil => simp
  | cons l ls ih =>
    rw [flatMap_cons,namesAppend] at distinct
    obtain ⟨-,rest,apart⟩ := nodup_append.mp distinct
    by_cases changed : reviveLeaf key l ≠ l
    · have none : ls.countP (fun l => decide (reviveLeaf key l ≠ l)) = 0 := by
        refine countP_eq_zero.mpr (fun other mem again => ?_)
        have inside : key ∈ names (ls.flatMap Listing.catalog) := by
          obtain ⟨i,hi,same⟩ := mem_map.mp (held other (of_decide_eq_true again))
          exact mem_map.mpr ⟨i,mem_flatMap.mpr ⟨other,mem,hi⟩,same⟩
        exact apart key (held l changed) key inside rfl
      rw [countP_cons,none]
      split <;> omega
    · rw [countP_cons_of_neg (by simpa using changed)]
      exact ih rest

theorem reviveFits {root : Root} {x : Segment} {changes d d₁} (wf : WellFormed env.toContext d root.paging)
    (tidy : Tidy env.toContext root.paging) (distinct : (names (paged d root.refs)).Nodup)
    (planned : planRewrite env root.refs [x.maxTs] (reviveLeaf x.key) d = (.ok changes,d₁)) :
    (inlineKeys root.paging ++ (appliedTo root.refs changes).flatMap Change.superseded).length ≤ gcPageKeys := by
  have path := planRewriteFew wf.allocated wf.refs wf.distinct planned
  have once : (forestLeaves d root.paging.refs).countP (fun l => decide (reviveLeaf x.key l ≠ l)) ≤ 1 :=
    revivedOnce x.key distinct
  have applied : ((appliedTo root.refs changes).flatMap Change.superseded).length ≤ (changes.flatMap Change.superseded).length :=
    (filter_sublist.flatMap _).length_le
  have few := tidy.few
  simp only [length_append,length_map,maxHeight,gcInline,gcPageKeys] at *
  omega

theorem registerEachGarbage {tail : List Key} {segments : List Segment} {root fresh out d d'} (wf : WellFormed env.toContext d root.paging) (tidy : Tidy env.toContext root.paging)
    (ok : registerEach env tail segments root fresh d = (.ok out,d')) :
    Tidy env.toContext out.1.paging ∧ ((∀ l ∈ forestLeaves d root.refs, l.Keyed) → (∀ s ∈ segments, s.Keyed) →
      (names (paged d root.refs)).Nodup → Legible env.toContext d root.paging → Legible env.toContext d' out.1.paging) := by
  induction segments generalizing root fresh d with
  | nil =>
    obtain ⟨rfl,rfl⟩ := Op.pureOk.mp ok
    exact ⟨tidy,fun _ _ _ legible => legible⟩
  | cons s rest ih =>
    have later : ∀ {P : Segment → Prop}, (∀ x ∈ s::rest, P x) → ∀ x ∈ rest, P x := fun all x mem => all x (mem_cons_of_mem _ mem)
    unfold registerEach at ok
    split at ok
    · obtain ⟨tidy',legible'⟩ := ih wf tidy ok
      exact ⟨tidy',fun keyed dates => legible' keyed (later dates)⟩
    simp only [Op.bindOk] at ok
    obtain ⟨⟨mid,pending⟩,d₁,first,next⟩ := ok
    simp only [registerPaged,Op.bindOk,Op.liftOk] at first
    obtain ⟨found,d₂,⟨-,rfl⟩,rest'⟩ := first
    cases found with
    | absent =>
      obtain ⟨same,rfl⟩ := Op.pureOk.mp rest'
      cases same
      obtain ⟨tidy',legible'⟩ := ih wf tidy next
      exact ⟨tidy',fun keyed dates => legible' keyed (later dates)⟩
    | active =>
      obtain ⟨same,rfl⟩ := Op.pureOk.mp rest'
      cases same
      obtain ⟨tidy',legible'⟩ := ih wf tidy next
      exact ⟨tidy',fun keyed dates => legible' keyed (later dates)⟩
    | retired r =>
      simp only [Op.bindOk,Op.pureOk,Prod.mk.injEq] at rest'
      obtain ⟨revived,d₃,ran,⟨rfl,rfl⟩,rfl⟩ := rest'
      have one := reviveSpec wf ran
      obtain ⟨w,step⟩ := one.step
      obtain ⟨changes,d₄,planned,hands⟩ := reviveHands wf ran
      have inside : Local env.toContext
          (inlineKeys root.paging ++ (appliedTo root.refs changes).flatMap Change.superseded) :=
        tidy.keys.append (supersededLocal (planRewriteLocal (topsLocal wf) planned))
      obtain ⟨tidy',legible'⟩ := ih step.wf (hands.tidy wf.allocated tidy inside) next
      refine ⟨tidy',fun keyed dates distinct legible => ?_⟩
      obtain ⟨keyed',moved⟩ := revivePaged one keyed (dates s mem_cons_self) distinct
      have same : (names (paged d₁ mid.refs)).Perm (names (paged d₂ root.refs)) := by
        rw [← namesMap (paged d₂ root.refs) (Item.rearmKey [s.key])]
        exact moved.map _
      exact legible' keyed' (later dates) (same.nodup_iff.mpr distinct)
        (hands.legible wf.allocated legible inside (reviveFits wf tidy distinct planned))

end Operations

structure Neat (ctx : Context) (s : State) : Prop where
  roots : ∀ r ∈ s.past, Tidy ctx r.paging
  plans : ∀ p ∈ s.plans, ∀ c ∈ p.changes, Local ctx c.pages

theorem Neat.published {ctx s root' d' rest} (n : Neat ctx s) (tidy : Tidy ctx root'.paging)
    (fewer : ∀ p ∈ rest, p ∈ s.plans) : Neat ctx (s.publish root' d' rest) :=
  ⟨forall_mem_cons.mpr ⟨tidy,n.roots⟩,fun p mem => n.plans p (fewer p mem)⟩

theorem Neat.planned {ctx s d' plan} (n : Neat ctx s) (inside : ∀ c ∈ plan.changes, Local ctx c.pages) :
    Neat ctx ⟨d',s.root,s.past,plan::s.plans⟩ := ⟨n.roots,forall_mem_cons.mpr ⟨inside,n.plans⟩⟩

theorem discardsHands {env s keys root' d'} (o : Owned env.toContext s) (n : Neat env.toContext s)
    (op : Discards env s keys root' d') :
    Handover env s.disk d' s.root.paging root'.paging keys ∧ Local env.toContext keys := by
  have inline := (n.roots _ o.current).keys
  cases op with
  | commitReplace outstanding ok => exact ⟨commitReplaceHands ok,inline.append (supersededLocal (n.plans _ outstanding))⟩
  | applyCleanup outstanding ok =>
    refine ⟨applyCleanupHands ok,.append (fun k mem => inline k ?_)
      ((supersededLocal (n.plans _ outstanding)).append (unusedLocal (n.plans _ outstanding)))⟩
    exact (filter_sublist.map _).subset mem
  | applyExpiry outstanding ok =>
    exact ⟨applyExpiryHands ok,inline.append
      ((supersededLocal (n.plans _ outstanding)).append (unusedLocal (n.plans _ outstanding)))⟩
  | revive planned ok =>
    obtain ⟨changes,d₁,same,hands⟩ := reviveHands o.wf ok
    rw [planned] at same
    cases same
    exact ⟨hands,inline.append (supersededLocal (planRewriteLocal (topsLocal o.wf) planned))⟩

theorem planReplaceLocal {env root sources replacements minimum deadline plan d d'}
    (tops : ∀ r ∈ root.refs, r.k.In env.scope)
    (ok : planReplace env root sources replacements minimum deadline d = (.ok plan,d')) :
    ∀ c ∈ plan.changes, Local env.toContext c.pages := by
  simp only [planReplace,validateSegments,Op.bindOk,Op.requireOk,Op.pureOk] at ok
  obtain ⟨_,_,-,_,_,-,_,_,-,_,_,-,changes,_,planned,rfl,-⟩ := ok
  unfold planRetirePaged at planned
  split at planned
  · obtain ⟨rfl,-⟩ := Op.pureOk.mp planned
    simp
  · exact planRewriteLocal tops planned

theorem planCleanupLocal {env root deleted changes d d'} (tops : ∀ r ∈ root.refs, r.k.In env.scope)
    (ok : planCleanup env root deleted d = (.ok changes,d')) : ∀ c ∈ changes, Local env.toContext c.pages := by
  unfold planCleanup at ok
  split at ok
  · obtain ⟨rfl,-⟩ := Op.pureOk.mp ok
    simp
  simp only [Op.bindOk,Op.requireOk] at ok
  obtain ⟨_,_,-,planned⟩ := ok
  exact planRewriteLocal tops planned

theorem startNeat {ctx s} (start : Start ctx s) : Neat ctx s := by
  have alone : ∀ {d root}, root.paging.g = [] → Neat ctx ⟨d,root,[root],[]⟩ := by
    intro d root none
    refine ⟨fun r mem => ?_,by simp⟩
    cases mem_singleton.mp mem
    exact ⟨by rw [none]; exact Nat.zero_le _,by rw [inlineKeys,none]; exact .none⟩
  cases start with
  | fresh allocated ok =>
    obtain ⟨rfl,-⟩ := newRootSpec ok
    exact alone rfl
  | converted same allocated ok =>
    exact alone (convertSpec allocated ok).lists.1

theorem stepNeat {ctx s e s'} (o : Owned ctx s) (n : Neat ctx s) (step : Step ctx s e s') : Neat ctx s' := by
  have current := n.roots _ o.current
  have commit : ∀ {env : Env} {keys root' d' rest} {plan : Plan}, env.toContext = ctx → s.plans.Perm (plan::rest) →
      Discards env s keys root' d' → Neat ctx (s.publish root' d' rest) := by
    rintro env keys root' d' rest plan rfl taken op
    obtain ⟨hands,inside⟩ := discardsHands o n op
    exact n.published (hands.tidy o.wf.allocated current inside) (fun p mem => taken.mem_iff.mpr (mem_cons_of_mem _ mem))
  cases step with
  | wasted grows => exact { n with }
  | register same ok =>
    subst same
    simp only [register,validateSegments,Op.bindOk,Op.requireOk] at ok
    obtain ⟨_,d₁,⟨-,rfl⟩,⟨mid,fresh⟩,d₂,ran,touched⟩ := ok
    obtain ⟨-,rfl,-⟩ := touchSpec touched
    have tidy := (registerEachGarbage o.wf current ran).1
    exact n.published { tidy with } (fun p mem => mem)
  | sealed same ok =>
    subst same
    obtain ⟨g,-⟩ := (sealSpec o.wf ok).lists
    exact n.published ⟨by rw [g]; exact current.few,by rw [inlineKeys,g]; exact current.keys⟩ (fun p mem => mem)
  | planReplace same earlier ok => subst same; exact n.planned (planReplaceLocal (topsLocal (o.roots _ earlier)) ok)
  | commitReplace same taken ok =>
    exact commit same taken (.commitReplace (taken.mem_iff.mpr mem_cons_self) ok)
  | planCleanup same earlier ok => subst same; exact n.planned (planCleanupLocal (topsLocal (o.roots _ earlier)) ok)
  | applyCleanup same taken ok =>
    exact commit same taken (.applyCleanup (taken.mem_iff.mpr mem_cons_self) ok)
  | expirePlan same earlier ok => subst same; exact n.planned (expirePlanLocal (topsLocal (o.roots _ earlier)) ok)
  | applyExpiry same taken ok =>
    exact commit same taken (.applyExpiry (taken.mem_iff.mpr mem_cons_self) ok)

theorem reachNeat {ctx promise s s'} (o : Owned ctx s) (n : Neat ctx s) (run : Reaches ctx promise s s') :
    Owned ctx s' ∧ Neat ctx s' := by
  induction run with
  | refl => exact ⟨o,n⟩
  | tail _ last ih =>
    obtain ⟨e,-,step⟩ := last
    exact ⟨stepOwned ih.1 step,stepNeat ih.1 ih.2 step⟩

theorem stepLegible {ctx s e s'} (h : Healthy ctx s) (n : Neat ctx s) (legible : ∀ r ∈ s.past, Legible ctx s.disk r.paging)
    (honest : Honest s e) (fits : Fits s e) (step : Step ctx s e s') : ∀ r ∈ s'.past, Legible ctx s'.disk r.paging := by
  have o := h.owned
  have current := n.roots _ o.current
  have publish : ∀ {root' d' rest}, Grows s.disk d' → Legible ctx d' root'.paging →
      ∀ r ∈ (s.publish root' d' rest).past, Legible ctx d' r.paging := by
    intro root' d' rest grows new
    exact forall_mem_cons.mpr ⟨new,fun r old => (legible r old).grows grows⟩
  have commit : ∀ {env : Env} {keys root' d' rest}, env.toContext = ctx → Discards env s keys root' d' →
      keys.length ≤ gcPageKeys → Grows s.disk d' → ∀ r ∈ (s.publish root' d' rest).past, Legible ctx d' r.paging := by
    rintro env keys root' d' rest rfl op few grows
    obtain ⟨hands,inside⟩ := discardsHands o n op
    exact publish grows (hands.legible o.wf.allocated (legible _ o.current) inside few)
  have moved := stepMoves o step
  have grows := moved.grows
  cases step with
  | wasted g => exact fun r mem => (legible r mem).grows g
  | register same ok =>
    subst same
    simp only [register,validateSegments,Op.bindOk,Op.requireOk] at ok
    obtain ⟨_,d₁,⟨-,rfl⟩,⟨mid,fresh⟩,d₂,ran,touched⟩ := ok
    obtain ⟨last,rfl,-⟩ := touchSpec touched
    have dates : ∀ x ∈ Lists.uniqBy Segment.key _, x.Keyed := fun x mem =>
      (honest.1 x ((Lists.uniqBySublist (f := Segment.key) _).subset mem)).keyed
    have kept := (registerEachGarbage o.wf current ran).2 h.proper.keyed.leaves dates h.proper.pagesDistinct (legible _ o.current)
    exact publish grows (fun ref mem => (kept.grows last) ref mem)
  | sealed same ok =>
    subst same
    obtain ⟨-,gr⟩ := (sealSpec o.wf ok).lists
    exact publish grows (fun ref mem => ((legible _ o.current).grows grows) ref (gr ▸ mem))
  | planReplace same earlier ok => exact fun r mem => (legible r mem).grows grows
  | commitReplace same taken ok =>
    exact commit same (.commitReplace (taken.mem_iff.mpr mem_cons_self) ok) fits grows
  | planCleanup same earlier ok => exact fun r mem => (legible r mem).grows grows
  | applyCleanup same taken ok =>
    exact commit same (.applyCleanup (taken.mem_iff.mpr mem_cons_self) ok) fits grows
  | expirePlan same earlier ok => exact fun r mem => (legible r mem).grows grows
  | applyExpiry same taken ok =>
    exact commit same (.applyExpiry (taken.mem_iff.mpr mem_cons_self) ok) fits grows

theorem discardsAccepted {env s s' keys root' d'} (start : Start env.toContext s) (run : Reaches env.toContext anything s s')
    (op : Discards env s' keys root' d') :
    Accepted env.toContext d' s'.root.paging root'.paging keys ↔ keys.length ≤ gcPageKeys := by
  obtain ⟨owned,neat⟩ := reachNeat (startOwned start) (startNeat start) run
  obtain ⟨hands,inside⟩ := discardsHands owned neat op
  exact hands.acceptedIff owned.wf (neat.roots _ owned.current) inside

theorem Legible.reads {ctx d p} (l : Legible ctx d p) : ∀ ref ∈ p.gr, ∃ keys, Reads ctx d ref keys := by
  intro ref mem
  obtain ⟨keys,stored,digest,valid⟩ := l ref mem
  exact ⟨keys,(readsIff stored digest).mpr valid⟩

def CleansUp (ctx : Context) (d : Disk) (root : Root) : Prop :=
  ∀ env : Env, env.toContext = ctx → (∀ k, env.get k = none) → ∀ now maximum due,
    dueRetired env now root.refs (4 * maximum - ((dueIn now root.retired).take (4 * maximum)).length) d = .ok due →
    ∃ plan, cleanupPlan env root now maximum d = .ok plan

theorem Legible.cleansUp {ctx d root} (l : Legible ctx d root.paging) : CleansUp ctx d root := by
  intro env same answers now maximum due swept
  have listed : ∀ refs : List GcRef, (∀ r ∈ refs, r ∈ root.paging.gr) →
      ∃ pages, refs.mapM (fun r => do let keys ← gcKeys env r d; pure (r,keys)) = .ok pages := by
    intro refs inside
    induction refs with
    | nil => exact ⟨[],rfl⟩
    | cons r rest ih =>
      obtain ⟨keys,reads⟩ := l.reads r (inside r mem_cons_self)
      obtain ⟨pages,later⟩ := ih (forall_mem_cons.mp inside).2
      have read : gcKeys env r d = .ok keys := by rw [gcKeys,reads env same (answers _)]
      exact ⟨(r,keys)::pages,by rw [mapM_cons,later,read]; rfl⟩
  obtain ⟨pages,read⟩ := listed ((root.paging.gr.filter (fun r => r.d ≤ now)).take 2)
    (fun r mem => (mem_filter.mp (mem_of_mem_take mem)).1)
  simp only [bind,Except.bind] at read
  unfold cleanupPlan
  simp only [swept,bind,Except.bind,read]
  exact ⟨_,rfl⟩

/- A page supersede writes is accepted exactly when the kept inline keys and the pages given up fit
into one page; while they do, every listed page stays readable and cleanup gets its plan. -/
theorem gcPagesReadBack {ctx : Context} {s : State} (start : Start ctx s) :
    (∀ s' env keys root' d', Reaches ctx anything s s' → env.toContext = ctx → Discards env s' keys root' d' →
      (Accepted ctx d' s'.root.paging root'.paging keys ↔ keys.length ≤ gcPageKeys)) ∧
    (Begins ctx s → ∀ s', Reaches ctx (fun s e => Honest s e ∧ Fits s e) s s' → ∀ root ∈ s'.past,
      (∀ ref ∈ root.paging.gr, ∃ keys, Reads ctx s'.disk ref keys) ∧ CleansUp ctx s'.disk root) := by
  constructor
  · rintro s' env keys root' d' run rfl op
    exact discardsAccepted start run op
  intro begins s' run
  have none : ∀ r ∈ s.past, Legible ctx s.disk r.paging := by
    intro r mem ref listed
    have empty : r.paging.gr = [] := by
      cases start with
      | fresh allocated ok =>
        obtain ⟨rfl,-⟩ := newRootSpec ok
        cases mem_singleton.mp mem; rfl
      | converted same allocated ok =>
        cases mem_singleton.mp mem
        exact (convertSpec allocated ok).lists.2
    rw [empty] at listed
    simp at listed
  have kept := run.keeps (I := fun s => Neat ctx s ∧ ∀ r ∈ s.past, Legible ctx s.disk r.paging) (beginsHealthy begins)
    (fun _ _ promised => promised.1) ⟨startNeat start,none⟩
    (fun s e s' healthy inv promised step => ⟨stepNeat healthy.owned inv.1 step,
      stepLegible healthy inv.1 inv.2 promised.1 promised.2 step⟩)
  intro root mem
  have legible := kept.2.2 root mem
  exact ⟨legible.reads,legible.cleansUp⟩

namespace Sample

def sealedState : State := opening.publish spilled.1 spilled.2 []
def reclaimed : Root × Disk := ((revive bulky spilled.1 first).done spilled.2).get (by decide +kernel)
def reclaiming : List Change × Disk :=
  ((planRewrite bulky spilled.1.refs [first.maxTs] (reviveLeaf first.key)).done spilled.2).get (by decide +kernel)

theorem sealedReached : Reaches bulky.toContext anything opening sealedState := .single ⟨_,trivial,.sealed rfl (Op.doneOk _)⟩

theorem reclaims : Discards bulky sealedState
    (inlineKeys spilled.1.paging ++ (appliedTo spilled.1.refs reclaiming.1).flatMap Change.superseded) reclaimed.1 reclaimed.2 :=
  .revive (Op.doneOk _) (Op.doneOk _)

end Sample

theorem gcPagesReadBackRevived :
    (inlineKeys Sample.spilled.1.paging ++ (appliedTo Sample.spilled.1.refs Sample.reclaiming.1).flatMap Change.superseded).length ≤
        gcPageKeys ∧
      Accepted Sample.bulky.toContext Sample.reclaimed.2 Sample.spilled.1.paging Sample.reclaimed.1.paging
        (inlineKeys Sample.spilled.1.paging ++ (appliedTo Sample.spilled.1.refs Sample.reclaiming.1).flatMap Change.superseded) := by
  have few : (inlineKeys Sample.spilled.1.paging ++
      (appliedTo Sample.spilled.1.refs Sample.reclaiming.1).flatMap Change.superseded).length ≤ gcPageKeys := by decide +kernel
  exact ⟨few,((gcPagesReadBack Sample.openingStarts).1 _ _ _ _ _ Sample.sealedReached rfl Sample.reclaims).mpr few⟩

end Pulso.Journal
