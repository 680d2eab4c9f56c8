import Pulso.Carries
import Pulso.JournalTree

/-! Copy-on-write rewrites: the path from every touched leaf to its top-level reference is
written anew, untouched siblings are shared. A plan lists the changes per top-level
reference; it is applied later, to whatever references are current then. -/
namespace Pulso.Journal
open PageTree (Exchange)
open List

structure Rewritten where
  ref : Ref
  superseded : List PageKey
  written : List PageKey

def Rewritten.unchanged (ref : Ref) : Rewritten := ⟨ref,[],[]⟩

structure Change where
  key : PageKey
  ref : Option Ref
  superseded : List PageKey
  written : List PageKey
  retired : Nat

def covers (ref : Ref) (timestamp : Int) : Bool := ref.kn ≤ timestamp && timestamp ≤ ref.kx

def part (changes : Dict PageKey Rewritten) (ref : Ref) : Rewritten := (changes.get? ref.k).getD (.unchanged ref)

/- One level: the selected references are rewritten, results are matched back by page key. -/
def rewrite (pred : Ref → Bool) (rewriteRef : Ref → Op Rewritten) (refs : List Ref) : Op (List Rewritten) := do
  let results ← Op.each (fun r => do let out ← rewriteRef r; pure (r.k,out)) (refs.filter pred)
  pure (refs.map (part (Dict.ofList results)))

def rewriteRef (env : Env) (pred : Ref → Bool) (update : Listing → Listing) : Nat → Ref → Op Rewritten
  | 0,ref => do
    let leaf ← Op.lift (readLeaf env ref)
    if update leaf = leaf then pure (.unchanged ref)
    else do
      let new ← leafRef env (update leaf)
      pure ⟨new,[ref.k],[new.k]⟩
  | h+1,ref => do
    let children ← Op.lift (readIndex env ref)
    let parts ← rewrite pred (rewriteRef env pred update h) children
    if parts.flatMap Rewritten.superseded = [] then pure (.unchanged ref)
    else do
      let new ← indexRef env (parts.map Rewritten.ref)
      pure ⟨new,ref.k::parts.flatMap Rewritten.superseded,new.k::parts.flatMap Rewritten.written⟩

def changeOf (pair : Ref × Rewritten) : Option Change :=
  if pair.2.superseded = [] then none
  else some ⟨pair.1.k,some pair.2.ref,pair.2.superseded,pair.2.written,0⟩

def planRewrite (env : Env) (refs : List Ref) (timestamps : List Int) (update : Listing → Listing) : Op (List Change) := do
  let pred := fun ref => timestamps.any (covers ref)
  let parts ← rewrite pred (fun r => rewriteRef env pred update r.h r) refs
  pure ((refs.zip parts).filterMap changeOf)

structure Substituted where
  refs : List Ref
  applied : List Change
  stale : List Change

def replacement (applied : List Change) (ref : Ref) : List Ref :=
  match (Dict.ofList (applied.map (fun c => (c.key,c.ref)))).get? ref.k with
  | some new => new.toList
  | none => [ref]

def appliedTo (refs : List Ref) (changes : List Change) : List Change :=
  changes.filter (fun c => decide (c.key ∈ refs.map (fun r => r.k)))
def staleFor (refs : List Ref) (changes : List Change) : List Change :=
  changes.filter (fun c => !decide (c.key ∈ refs.map (fun r => r.k)))

/- A stale change's reference was replaced since planning; its written pages are unreferenced. -/
def substitute (refs : List Ref) (changes : List Change) : Substituted :=
  ⟨refs.flatMap (replacement (appliedTo refs changes)),appliedTo refs changes,staleFor refs changes⟩

def Root.withRefs (r : Root) (refs : List Ref) : Root := { r with paging := { r.paging with refs := refs } }

/- Superseded pages wait inline; a full inline list moves to an immutable gc page. -/
def supersede (env : Env) (root : Root) (keys : List PageKey) (deadline : Nat) : Op Root :=
  if keys = [] then pure root
  else
    let g := root.paging.g ++ keys.map (fun k => ⟨k,deadline⟩)
    if g.length ≤ gcInline then pure { root with paging := { root.paging with g := g } }
    else do
      let listed := g.map GcEntry.key
      let stub ← putPage env (.gc listed) .gc (env.sizes.gc listed)
      let ref : GcRef := ⟨stub,((g.map GcEntry.deadline).max?).getD 0,g.length⟩
      Op.require (root.paging.gr.length < gcRefs) .manifestGcBacklog
      pure { root with paging := { root.paging with g := [], gr := root.paging.gr ++ [ref] } }

theorem fetchOk {env ref d page} (ok : fetch env ref d = .ok page) : d.pages ref.k = some ⟨page,ref.b⟩ := by
  unfold fetch at ok
  split at ok
  · simp at ok
  split at ok
  · simp at ok
  rename_i stored found
  split at ok
  · simp at ok
  rename_i valid
  cases ok
  rw [found,← not_not.mp (not_or.mp valid).1]

theorem readLeafOk {env ref d l} (ok : readLeaf env ref d = .ok l) :
    d.pages ref.k = some ⟨.leaf l,ref.b⟩ ∧ ValidLeaf env.scope l := by
  unfold readLeaf at ok
  split at ok
  · simp at ok
  · rename_i l' fetched
    split at ok
    · rename_i valid; cases ok; exact ⟨fetchOk fetched,valid.1⟩
    · simp at ok
  · simp at ok

theorem readIndexOk {env ref d cs} (ok : readIndex env ref d = .ok cs) :
    d.pages ref.k = some ⟨.index cs,ref.b⟩ ∧ ValidChildren env.scope ref.h cs := by
  unfold readIndex at ok
  split at ok
  · simp at ok
  · rename_i cs' fetched
    split at ok
    · rename_i valid; cases ok; exact ⟨fetchOk fetched,valid⟩
    · simp at ok
  · simp at ok

structure RewriteSpec (ctx : Context) (R : Listing → Option Listing → Prop) (d d' : Disk) (h : Nat) (old : Ref)
    (out : Rewritten) : Prop where
  sound : Sound ctx d' h out.ref
  exchange : Exchange (keysAt d h old.k) (keysAt d' h out.ref.k) out.superseded out.written
  leaves : Carries R (leavesAt d h old.k) (leavesAt d' h out.ref.k)
  idle : out.superseded = [] → out = .unchanged old
  top : out.superseded ≠ [] → out.ref.k ∈ out.written

theorem RewriteSpec.grows {ctx R d d₁ d₂ h old out} (x : RewriteSpec ctx R d d₁ h old out) (g : Grows d₁ d₂) :
    RewriteSpec ctx R d d₂ h old out :=
  ⟨x.sound.grows g,by rw [x.sound.keysGrow g]; exact x.exchange,by rw [x.sound.leavesGrow g]; exact x.leaves,x.idle,x.top⟩

theorem RewriteSpec.rebase {ctx R d d₁ d₂ h old out} (s : Sound ctx d h old) (g : Grows d d₁)
    (x : RewriteSpec ctx R d₁ d₂ h old out) : RewriteSpec ctx R d d₂ h old out :=
  ⟨x.sound,by rw [← s.keysGrow g]; exact x.exchange,by rw [← s.leavesGrow g]; exact x.leaves,x.idle,x.top⟩

variable {R : Listing → Option Listing → Prop}

theorem RewriteSpec.unchanged {ctx d h old} (s : Sound ctx d h old)
    (stay : ∀ l ∈ leavesAt d h old.k, R l (some l)) : RewriteSpec ctx R d d h old (.unchanged old) :=
  ⟨s,.refl _,.same stay,fun _ => rfl,fun busy => absurd rfl busy⟩

variable {refs : List Ref}

theorem partsSpec {Q : Ref → Rewritten → Prop} {pred results} (distinct : (refs.map (fun r => r.k)).Nodup)
    (pairs : List.Forall₂ (fun r x => x.1 = r.k ∧ Q r x.2) (refs.filter pred) results)
    (skip : ∀ r ∈ refs, pred r = false → Q r (.unchanged r)) :
    (∀ r ∈ refs, Q r (part (Dict.ofList results) r)) ∧
      (refs.map (part (Dict.ofList results))).flatMap Rewritten.written = results.flatMap (fun x => x.2.written) := by
  have keys : results.map Prod.fst = (refs.filter pred).map (fun r => r.k) := by
    rw [map_eq_flatMap,map_eq_flatMap]
    exact forall₂FlatMap pairs (fun r x h => by rw [h.1])
  have entries : (Dict.ofList results).entries = results := by
    have fresh : ∀ e ∈ results, e.1 ∉ (Dict.empty : Dict PageKey Rewritten).keys := by simp [Dict.keys,Dict.empty]
    have unique : (results.map Prod.fst).Nodup := keys ▸ distinct.sublist (filter_sublist.map _)
    simpa [Dict.ofList,Dict.empty] using Dict.putAllFresh fresh unique
  have found : List.Forall₂ (fun r x => part (Dict.ofList results) r = x.2 ∧ Q r x.2) (refs.filter pred) results := by
    refine forall₂_iff_get.mpr ⟨pairs.length_eq,fun i hi hj => ?_⟩
    have here := pairs.get hi hj
    have value : (Dict.ofList results).get? ((refs.filter pred).get ⟨i,hi⟩).k = some (results.get ⟨i,hj⟩).2 := by
      rw [Dict.getIff,entries,← here.1]
      exact get_mem _ _
    exact ⟨by rw [part,value]; rfl,here.2⟩
  have missed : ∀ r ∈ refs, pred r = false → part (Dict.ofList results) r = .unchanged r := by
    intro r mem rejected
    have absent : (Dict.ofList results).get? r.k = none := by
      rw [Dict.getNone,Dict.keys,entries,keys]
      intro listed
      obtain ⟨r',mem',same⟩ := mem_map.mp listed
      have equal := inj_on_of_nodup_map distinct (mem_filter.mp mem').1 mem same
      rw [equal] at mem'
      simp [rejected] at mem'
    rw [part,absent]; rfl
  refine ⟨?_,?_⟩
  · intro r mem
    cases chosen : pred r with
    | false => rw [missed r mem chosen]; exact skip r mem chosen
    | true =>
      obtain ⟨i,hi,rfl⟩ := mem_iff_getElem.mp (mem_filter.mpr ⟨mem,chosen⟩)
      have here := found.get hi (by rw [← found.length_eq]; exact hi)
      have same : part (Dict.ofList results) (refs.filter pred)[i] = _ := here.1
      rw [same]
      exact here.2
  · have selected : refs.flatMap (fun r => (part (Dict.ofList results) r).written) =
        (refs.filter pred).flatMap (fun r => (part (Dict.ofList results) r).written) := by
      clear found pairs keys
      induction refs with
      | nil => rfl
      | cons r rest ih =>
        have tail := ih (nodup_cons.mp distinct).2 (forall_mem_cons.mp skip).2 (forall_mem_cons.mp missed).2
        cases chosen : pred r with
        | false => simp [chosen,missed r mem_cons_self chosen,Rewritten.unchanged,tail]
        | true => simp [chosen,tail]
    rw [flatMap_map,selected]
    exact (forall₂FlatMap found (fun r x h => by rw [h.1])).symm

theorem headsNodup {α κ : Type} {f} {g : α → κ} {xs : List α} (distinct : (xs.flatMap f).Nodup)
    (head : ∀ x ∈ xs, g x ∈ f x) : (xs.map g).Nodup := by
  have apart := (nodup_flatMap.mp distinct).2
  refine pairwise_map.mpr (apart.imp_of_mem ?_)
  intro a b ma mb disjoint same
  exact disjoint (head a ma) (same ▸ head b mb)

theorem rewriteLevelSpec {ctx : Context} {pred f} {height : Ref → Nat} {parts d d'} (a : d.Allocated)
    (sound : ∀ r ∈ refs, Sound ctx d (height r) r) (distinct : (refs.map (fun r => r.k)).Nodup)
    (step : ∀ r ∈ refs, ∀ d₁ out d₂, Grows d d₁ → d₁.Allocated → f r d₁ = (.ok out,d₂) →
      Grows d₁ d₂ ∧ Wrote d₁ d₂ out.written ∧ RewriteSpec ctx R d₁ d₂ (height r) r out)
    (skip : ∀ r ∈ refs, pred r = false → ∀ l ∈ leavesAt d (height r) r.k, R l (some l))
    (ok : rewrite pred f refs d = (.ok parts,d')) :
    Grows d d' ∧ Wrote d d' (parts.flatMap Rewritten.written) ∧
      ∃ g : Ref → Rewritten, parts = refs.map g ∧ ∀ r ∈ refs, RewriteSpec ctx R d d' (height r) r (g r) := by
  simp only [rewrite,Op.bindOk,Op.pureOk] at ok
  obtain ⟨results,d₁,ran,rfl,rfl⟩ := ok
  have chosen : ∀ r ∈ refs.filter pred, r ∈ refs := fun r mem => (mem_filter.mp mem).1
  obtain ⟨grows,wrote,pairs⟩ := Op.eachSpec (fun x : PageKey × Rewritten => x.2.written)
    (fun (r : Ref) x e => x.1 = r.k ∧ RewriteSpec ctx R d e (height r) r x.2) a
    (fun r mem e x e' grown alloc made => by
      simp only [Op.bindOk,Op.pureOk] at made
      obtain ⟨out,e₁,ran,rfl,rfl⟩ := made
      obtain ⟨g,w,spec⟩ := step r (chosen r mem) e out _ grown alloc ran
      exact ⟨g,w,rfl,spec.rebase (sound r (chosen r mem)) grown⟩)
    (fun r _ x e e' h g => ⟨h.1,h.2.grows g⟩) ran
  obtain ⟨each,written⟩ := partsSpec distinct pairs (fun r mem rejected =>
    (RewriteSpec.unchanged (sound r mem) (skip r mem rejected)).grows grows)
  exact ⟨grows,written ▸ wrote,_,rfl,each⟩

section Rewrites
variable {env : Env} {R : Listing → Option Listing → Prop} {pred : Ref → Bool} {update : Listing → Listing}

structure UpdateRule (env : Env) (R : Listing → Option Listing → Prop) (pred : Ref → Bool) (update : Listing → Listing) :
    Prop where
  same : ∀ l, update l = l → R l (some l)
  changed : ∀ l, ValidLeaf env.scope l → update l ≠ l → R l (some ((update l).persisted env.sizes.toSummarySizes))
  skip : ∀ d h r, Sound env.toContext d h r → pred r = false → ∀ l ∈ leavesAt d h r.k, R l (some l)

theorem rewriteRefSpec (rule : UpdateRule env R pred update) {h ref d out d'} (a : d.Allocated)
    (s : Sound env.toContext d h ref) (distinct : (keysAt d h ref.k).Nodup)
    (ok : rewriteRef env pred update h ref d = (.ok out,d')) :
    Grows d d' ∧ Wrote d d' out.written ∧ RewriteSpec env.toContext R d d' h ref out := by
  induction h generalizing ref d out d' with
  | zero =>
    simp only [rewriteRef,Op.bindOk,Op.liftOk] at ok
    obtain ⟨leaf,d₁,⟨read,rfl⟩,rest⟩ := ok
    obtain ⟨page,valid⟩ := readLeafOk read
    have content : leavesAt d₁ 0 ref.k = [leaf] := PageTree.leavesAtLeaf (by simp [Disk.view,page])
    split at rest
    · rename_i same
      obtain ⟨rfl,rfl⟩ := Op.pureOk.mp rest
      refine ⟨.refl _,.none _ _,.unchanged s ?_⟩
      intro l hl
      rw [content,mem_singleton] at hl
      exact hl ▸ rule.same leaf same
    · rename_i changed
      simp only [Op.bindOk,Op.pureOk] at rest
      obtain ⟨new,d₂,made,rfl,rfl⟩ := rest
      have spec := leafRefSpec a made
      refine ⟨spec.grows,spec.wrote,spec.sound,?_,?_,by simp,by simp⟩
      · exact (Exchange.refl []).cons _ _
      · rw [content,spec.leaves]
        exact .keep (rule.changed leaf valid changed) .nil
  | succ h ih =>
    obtain ⟨_,_,children,placed,_,few,below⟩ := id s
    simp only [rewriteRef,Op.bindOk,Op.liftOk] at ok
    obtain ⟨listed,d₁,⟨read,rfl⟩,parts,d₂,level,rest⟩ := ok
    have page := (readIndexOk read).1
    rw [placed.stored] at page
    cases page
    have keys : keysAt d₁ (h+1) ref.k = ref.k::children.flatMap (fun c => keysAt d₁ h c.k) :=
      PageTree.keysAtIndex placed.indexView
    have leaves : leavesAt d₁ (h+1) ref.k = children.flatMap (fun c => leavesAt d₁ h c.k) :=
      PageTree.leavesAtIndex placed.indexView
    have inner : (children.flatMap (fun c => keysAt d₁ h c.k)).Nodup := by
      rw [keys] at distinct; exact (nodup_cons.mp distinct).2
    obtain ⟨grows,wrote,g,rfl,each⟩ := rewriteLevelSpec a below
      (headsNodup inner (fun c _ => PageTree.headMem h c.k))
      (fun c mem e out e' grown alloc ran => ih alloc ((below c mem).grows grown)
        (by rw [(below c mem).keysGrow grown]; exact (nodup_flatMap.mp inner).1 c mem) ran)
      (fun c mem rejected => rule.skip d₁ h c (below c mem) rejected) level
    split at rest
    · rename_i nothing
      obtain ⟨rfl,rfl⟩ := Op.pureOk.mp rest
      refine ⟨grows,.none _ _,?_⟩
      have idle : ∀ c ∈ children, g c = .unchanged c := by
        intro c mem
        refine (each c mem).idle (eq_nil_of_subset_nil ?_)
        intro k hk
        rw [← nothing,flatMap_map]
        exact mem_flatMap.mpr ⟨c,mem,hk⟩
      refine ⟨s.grows grows,?_,?_,fun _ => rfl,fun busy => absurd rfl busy⟩
      · rw [Rewritten.unchanged,s.keysGrow grows]; exact .refl _
      rw [Rewritten.unchanged,s.leavesGrow grows,leaves]
      refine Carries.flatMap (fun c mem => ?_)
      have kept := (each c mem).leaves
      rw [idle c mem] at kept
      simpa [Rewritten.unchanged,(below c mem).leavesGrow grows] using kept
    · simp only [Op.bindOk,Op.pureOk] at rest
      obtain ⟨new,d₃,made,rfl,rfl⟩ := rest
      have sound : ∀ c ∈ (children.map g).map Rewritten.ref, Sound env.toContext d₂ h c := by
        intro c mem
        simp only [map_map,mem_map,Function.comp_apply] at mem
        obtain ⟨old,hold,rfl⟩ := mem
        exact (each old hold).sound
      have spec := indexRefSpec (grows.allocated a) sound (by simpa using few) made
      refine ⟨grows.trans spec.grows,?_,spec.sound,?_,?_,by simp,by simp⟩
      · exact (wrote.append spec.wrote grows.next spec.grows.next).perm (perm_append_singleton _ _)
      · rw [spec.keys,keys]
        refine Exchange.cons ?_ _ _
        simp only [flatMap_map]
        exact Exchange.flatMap (fun c mem => (each c mem).exchange)
      · rw [spec.leaves,leaves]
        simp only [flatMap_map]
        exact Carries.flatMap (fun c mem => (each c mem).leaves)

end Rewrites
structure ChangeSpec (ctx : Context) (R : Listing → Option Listing → Prop) (d : Disk) (old : Ref) (c : Change) : Prop where
  key : c.key = old.k
  height : ∀ new ∈ c.ref.toList, new.h = old.h
  top : ∀ new ∈ c.ref.toList, new.k ∈ c.written
  sound : AllSound ctx d c.ref.toList
  exchange : Exchange (keysAt d old.h old.k) (forestKeys d c.ref.toList) c.superseded c.written
  leaves : Carries R (leavesAt d old.h old.k) (forestLeaves d c.ref.toList)

def ChangeOk (ctx : Context) (R : Listing → Option Listing → Prop) (d : Disk) (c : Change) : Prop :=
  ∃ old, Sound ctx d old.h old ∧ ChangeSpec ctx R d old c

structure PlanOk (ctx : Context) (R : Listing → Option Listing → Prop) (d : Disk) (changes : List Change) : Prop where
  each : ∀ c ∈ changes, ChangeOk ctx R d c
  keys : (changes.map Change.key).Nodup
  since : ∃ n, n ≤ d.next ∧ (∀ c ∈ changes, c.key.sha < n) ∧ ∀ k ∈ changes.flatMap Change.written, n ≤ k.sha

theorem ChangeSpec.grows {ctx R d d' old c} (x : ChangeSpec ctx R d old c) (s : Sound ctx d old.h old) (g : Grows d d') :
    ChangeSpec ctx R d' old c :=
  ⟨x.key,x.height,x.top,x.sound.grows g,by rw [s.keysGrow g,x.sound.keysGrow g]; exact x.exchange,
    by rw [s.leavesGrow g,x.sound.leavesGrow g]; exact x.leaves⟩

theorem ChangeOk.grows {ctx R d d' c} (x : ChangeOk ctx R d c) (g : Grows d d') : ChangeOk ctx R d' c := by
  obtain ⟨old,sound,spec⟩ := x
  exact ⟨old,sound.grows g,spec.grows sound g⟩

theorem PlanOk.grows {ctx R d d' changes} (x : PlanOk ctx R d changes) (g : Grows d d') : PlanOk ctx R d' changes := by
  obtain ⟨n,drawn,older,newer⟩ := x.since
  exact ⟨fun c mem => (x.each c mem).grows g,x.keys,n,drawn.trans g.next,older,newer⟩

theorem planSince {ctx d d'} {changes : List Change} (a : d.Allocated) (s : AllSound ctx d refs) (g : Grows d d')
    (inside : (changes.map Change.key).Sublist (refs.map (fun r => r.k))) (wrote : Wrote d d' (changes.flatMap Change.written)) :
    ∃ n, n ≤ d'.next ∧ (∀ c ∈ changes, c.key.sha < n) ∧ ∀ k ∈ changes.flatMap Change.written, n ≤ k.sha := by
  refine ⟨d.next,g.next,fun c mem => ?_,fun k mem => (wrote.fresh k mem).1⟩
  obtain ⟨r,hr,same⟩ := mem_map.mp (inside.subset (mem_map_of_mem mem))
  rw [← same]
  exact s.allocated a r.k (refKeyMem hr)

theorem ChangeOk.at {ctx R d c ref} (x : ChangeOk ctx R d c) (s : Sound ctx d ref.h ref) (same : c.key = ref.k) :
    ChangeSpec ctx R d ref c := by
  obtain ⟨old,sound,spec⟩ := x
  have key : old.k = ref.k := spec.key.symm.trans same
  have height : old.h = ref.h := PageTree.heightUnique sound.complete (key ▸ s.complete)
  exact ⟨same,fun new mem => (spec.height new mem).trans height,spec.top,spec.sound,by rw [← key,← height]; exact spec.exchange,
    by rw [← key,← height]; exact spec.leaves⟩

theorem rewriteChange {ctx R d d' old out c} (s : Sound ctx d old.h old) (g : Grows d d')
    (x : RewriteSpec ctx R d d' old.h old out) (made : changeOf (old,out) = some c) : ChangeSpec ctx R d' old c := by
  unfold changeOf at made
  split at made
  · simp at made
  rename_i busy
  cases made
  have height := x.sound.height
  refine ⟨rfl,by simpa using height,by simpa using x.top busy,?_,?_,?_⟩
  · intro r mem
    rw [Option.toList_some,mem_singleton] at mem
    subst mem
    rw [height]
    exact x.sound
  · rw [s.keysGrow g]
    simpa [forestKeys,height] using x.exchange
  · rw [s.leavesGrow g]
    simpa [forestLeaves,height] using x.leaves

structure PlanSpec (ctx : Context) (R : Listing → Option Listing → Prop) (d d' : Disk) (refs : List Ref)
    (changes : List Change) : Prop where
  grows : Grows d d'
  plan : PlanOk ctx R d' changes
  wrote : Wrote d d' (changes.flatMap Change.written)
  inside : (changes.map Change.key).Sublist (refs.map (fun r => r.k))
  quiet : ∀ r ∈ refs, r.k ∉ changes.map Change.key → Carries R (leavesAt d r.h r.k) (leavesAt d r.h r.k)

theorem refKeysNodup {d : Disk} (distinct : (forestKeys d refs).Nodup) :
    (refs.map (fun r => r.k)).Nodup := headsNodup distinct (fun r _ => PageTree.headMem r.h r.k)

theorem planRewriteSpec {env R refs timestamps update changes d d'}
    (rule : UpdateRule env R (fun ref => timestamps.any (covers ref)) update) (a : d.Allocated)
    (s : AllSound env.toContext d refs) (distinct : (forestKeys d refs).Nodup)
    (ok : planRewrite env refs timestamps update d = (.ok changes,d')) :
    PlanSpec env.toContext R d d' refs changes := by
  simp only [planRewrite,Op.bindOk,Op.pureOk] at ok
  obtain ⟨parts,d₁,level,rfl,rfl⟩ := ok
  obtain ⟨grows,wrote,g,rfl,each⟩ := rewriteLevelSpec a s (refKeysNodup distinct)
    (fun r mem e out e' grown alloc ran => rewriteRefSpec rule alloc ((s r mem).grows grown)
      (by rw [(s r mem).keysGrow grown]; exact (nodup_flatMap.mp distinct).1 r mem) ran)
    (fun r mem rejected => rule.skip d r.h r (s r mem) rejected) level
  have paired : refs.zip (refs.map g) = refs.map (fun r => (r,g r)) := by
    simpa using zip_map' (f := id) (g := g) (l := refs)
  rw [paired,filterMap_map]
  have made := Carries.filterMap (changeOf ∘ fun r => (r,g r)) refs
  have inside : ((refs.filterMap (changeOf ∘ fun r => (r,g r))).map Change.key).Sublist (refs.map (fun r => r.k)) := by
    refine made.sublist (fun r mem c h => ?_)
    exact (rewriteChange (s r mem) grows (each r mem) h.symm).key
  have written : Wrote d d' ((refs.filterMap (changeOf ∘ fun r => (r,g r))).flatMap Change.written) := by
    have same : (refs.filterMap (changeOf ∘ fun r => (r,g r))).flatMap Change.written =
        (refs.map g).flatMap Rewritten.written := by
      rw [flatMap_map]
      refine made.flatMapEq (fun r _ c h => ?_) (fun r mem h => ?_)
      · simp only [Function.comp_apply,changeOf] at h
        split at h
        · simp at h
        · cases h; rfl
      · have idle : (g r).superseded = [] := by
          by_contra busy
          simp [changeOf,busy] at h
        rw [(each r mem).idle idle]
        rfl
    rw [same]
    exact wrote
  refine ⟨grows,⟨?_,(refKeysNodup distinct).sublist inside,planSince a s grows inside written⟩,written,inside,?_⟩
  · intro c mem
    obtain ⟨r,hr,h⟩ := made.backward mem
    exact ⟨r,(s r hr).grows grows,rewriteChange (s r hr) grows (each r hr) h.symm⟩
  intro r mem absent
  have idle : (g r).superseded = [] := by
    by_contra busy
    refine absent (mem_map.mpr ⟨⟨r.k,some (g r).ref,(g r).superseded,(g r).written,0⟩,?_,rfl⟩)
    exact mem_filterMap.mpr ⟨r,mem,by simp [changeOf,busy]⟩
  have kept := (each r mem).leaves
  rw [(each r mem).idle idle] at kept
  simpa [Rewritten.unchanged,(s r mem).leavesGrow grows] using kept

end Pulso.Journal
