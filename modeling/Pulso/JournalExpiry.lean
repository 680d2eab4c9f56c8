import Pulso.JournalMaintenance
import Pulso.JournalStats

/-! Expiry below a retention floor: active segments are retired, deleted tombstones
forgotten, and subtrees of nothing but forgotten history dropped whole. -/
namespace Pulso.Journal
open PageTree (Exchange)
open List

structure Expired where
  ref : Option Ref
  superseded : List PageKey
  written : List PageKey
  retired : Nat

def Expired.unchanged (ref : Ref) : Expired := ⟨some ref,[],[],0⟩

def collectPageKeys (env : Env) : Nat → Ref → Disk → Except Fail (List PageKey)
  | 0,ref,_ => .ok [ref.k]
  | h+1,ref,d =>
    match readIndex env ref d with
    | .error e => .error e
    | .ok children =>
      match children.mapM (fun c => collectPageKeys env h c d) with
      | .error e => .error e
      | .ok below => .ok (ref.k::below.flatten)

def forgotten (floor : Int) (e : Key × Retirement) : Bool := e.2.deleted && e.1.maxTs?.getD 0 < floor
def forget (retired : Dict Key Retirement) (floor : Int) : Dict Key Retirement :=
  retired.filter (fun e => !forgotten floor e)

def expireListing (floor : Int) (deadline : Nat) (l : Listing) : Listing :=
  let expired := l.segments.filter (fun s => s.maxTs < floor)
  ⟨l.segments.filter (fun s => !decide (s.maxTs < floor)),
    Manifest.retireAll (forget l.retired floor) (expired.map Segment.key) deadline⟩

def expiredCount (floor : Int) (l : Listing) : Nat := (l.segments.filter (fun s => s.maxTs < floor)).length

def mayExpire (floor : Int) (ref : Ref) : Bool :=
  match ref.mn with
  | some mn => 0 < ref.n && mn < floor
  | none => false

/- Only a leaf with an active segment that may end below the floor is read. -/
def expireLeaf (env : Env) (floor : Int) (deadline : Nat) (ref : Ref) (budget : Nat) : Op (Expired × Nat) :=
  if mayExpire floor ref then do
    let leaf ← Op.lift (readLeaf env ref)
    let updated := expireListing floor deadline leaf
    if updated = leaf then pure (.unchanged ref,budget - 1)
    else if updated.segments = [] ∧ updated.retired.entries = [] then
      pure (⟨none,[ref.k],[],expiredCount floor leaf⟩,budget - 1)
    else do
      let new ← leafRef env updated
      pure (⟨some new,[ref.k],[new.k],expiredCount floor leaf⟩,budget - 1)
  else pure (.unchanged ref,budget)

def expireEach (visit : Ref → Nat → Op (Expired × Nat)) : List Ref → Nat → Op (List Expired × Nat)
  | [],budget => pure ([],budget)
  | ref::rest,budget => do
    let out ← visit ref budget
    let outs ← expireEach visit rest out.2
    pure (out.1::outs.1,outs.2)

def expireIndex (env : Env) (visit : Ref → Nat → Op (Expired × Nat)) (ref : Ref) (budget : Nat) : Op (Expired × Nat) := do
  let children ← Op.lift (readIndex env ref)
  let outs ← expireEach visit children budget
  let updated := outs.1.flatMap (fun o => o.ref.toList)
  let superseded := outs.1.reverse.flatMap Expired.superseded
  let written := outs.1.reverse.flatMap Expired.written
  let retired := (outs.1.map Expired.retired).sum
  if updated = children then pure (.unchanged ref,outs.2)
  else if updated = [] then pure (⟨none,ref.k::superseded,written,retired⟩,outs.2)
  else do
    let new ← indexRef env updated
    pure (⟨some new,ref.k::superseded,new.k::written,retired⟩,outs.2)

def droppable (floor : Int) (ref : Ref) : Bool := ref.n = 0 && ref.rd.isNone && ref.kx < floor

def expireRef (env : Env) (floor : Int) (deadline : Nat) : Nat → Ref → Nat → Op (Expired × Nat)
  | h,ref,budget =>
    if budget = 0 ∨ floor ≤ ref.kn then pure (.unchanged ref,budget)
    else if droppable floor ref then do
      let keys ← Op.lift (collectPageKeys env h ref)
      pure (⟨none,keys,[],0⟩,budget - 1)
    else match h with
      | 0 => expireLeaf env floor deadline ref budget
      | h+1 => expireIndex env (expireRef env floor deadline h) ref budget

def expireChange (pair : Ref × Expired) : Option Change :=
  if pair.2.ref = some pair.1 then none
  else some ⟨pair.1.k,pair.2.ref,pair.2.superseded,pair.2.written,pair.2.retired⟩

def expirePlan (env : Env) (root : Root) (floor : Int) (deadline maxLeaves : Nat) : Op (List Change) := do
  let outs ← expireEach (fun r => expireRef env floor deadline r.h r) root.refs maxLeaves
  pure ((root.refs.zip outs.1).filterMap expireChange)

def applyExpiry (env : Env) (root : Root) (floor : Int) (deadline : Nat) (changes : List Change) : Op (Root × Nat) := do
  let floor := max (root.paging.rf.getD 0) floor
  let out := substitute root.refs changes
  -- `forget/2` needs the time bound of every deleted tombstone of the tail
  Op.require (∀ e ∈ root.retired.entries, e.2.deleted → e.1.maxTs?.isSome) .invalidSegmentKey
  let listing := expireListing floor deadline root.toListing
  let root' ← supersede env
    ⟨listing,{ root.paging with refs := out.refs,rf := some floor }⟩
    (out.applied.flatMap Change.superseded ++ out.stale.flatMap Change.written) (env.now + env.graceMs)
  pure (root',expiredCount floor root.toListing + (out.applied.map Change.retired).sum)

inductive Expires (ctx : Context) (floor : Int) (deadline : Nat) (l : Listing) : Option Listing → Prop
  | kept : Expires ctx floor deadline l (some l)
  | updated (valid : ValidLeaf ctx.scope l) :
      Expires ctx floor deadline l (some ((expireListing floor deadline l).persisted ctx.sizes.toSummarySizes))
  | dropped (segments : (expireListing floor deadline l).segments = [])
      (retired : (expireListing floor deadline l).retired.entries = []) : Expires ctx floor deadline l none

structure ExpireSpec (ctx : Context) (floor : Int) (deadline : Nat) (d d' : Disk) (h : Nat) (old : Ref) (out : Expired) :
    Prop where
  sound : ∀ new ∈ out.ref.toList, Sound ctx d' h new
  exchange : Exchange (keysAt d h old.k) (out.ref.toList.flatMap (fun r => keysAt d' h r.k)) out.superseded out.written
  leaves : Carries (Expires ctx floor deadline) (leavesAt d h old.k) (out.ref.toList.flatMap (fun r => leavesAt d' h r.k))
  top : ∀ new ∈ out.ref.toList, new = old ∨ new.k ∈ out.written

section Expiry
variable {ctx : Context} {floor : Int} {deadline : Nat}

theorem ExpireSpec.grows {d d₁ d₂ h old out} (x : ExpireSpec ctx floor deadline d d₁ h old out) (g : Grows d₁ d₂) :
    ExpireSpec ctx floor deadline d d₂ h old out := by
  refine ⟨fun new mem => (x.sound new mem).grows g,?_,?_,x.top⟩
  · rw [flatMap_congr (fun r mem => (x.sound r mem).keysGrow g)]; exact x.exchange
  · rw [flatMap_congr (fun r mem => (x.sound r mem).leavesGrow g)]; exact x.leaves

theorem ExpireSpec.rebase {d d₁ d₂ h old out} (s : Sound ctx d h old) (g : Grows d d₁)
    (x : ExpireSpec ctx floor deadline d₁ d₂ h old out) : ExpireSpec ctx floor deadline d d₂ h old out :=
  ⟨x.sound,by rw [← s.keysGrow g]; exact x.exchange,by rw [← s.leavesGrow g]; exact x.leaves,x.top⟩

theorem ExpireSpec.unchanged {d h old} (s : Sound ctx d h old) : ExpireSpec ctx floor deadline d d h old (.unchanged old) := by
  refine ⟨by simpa [Expired.unchanged] using s,?_,?_,by simp [Expired.unchanged]⟩
  · simpa [Expired.unchanged] using Exchange.refl (keysAt d h old.k)
  · simpa [Expired.unchanged] using Carries.same (fun l _ => Expires.kept)

theorem collectPageKeysOk {env h ref d keys} (s : Sound env.toContext d h ref)
    (ok : collectPageKeys env h ref d = .ok keys) : keys = keysAt d h ref.k := by
  induction h generalizing ref keys with
  | zero => cases ok; rfl
  | succ h ih =>
    obtain ⟨-,-,children,placed,-,-,below⟩ := s
    unfold collectPageKeys at ok
    split at ok
    · simp at ok
    rename_i listed read
    have page := (readIndexOk read).1
    rw [placed.stored] at page
    cases page
    split at ok
    · simp at ok
    rename_i parts collected
    cases ok
    have each := Lists.mapMOk collected
    rw [keysAt,PageTree.keysAtIndex placed.indexView,← flatMap_id']
    have flat : parts.flatMap (fun x => x) = children.flatMap (fun c => keysAt d h c.k) := by
      clear collected placed read
      induction each with
      | nil => rfl
      | cons head _ rest =>
        simp only [flatMap_cons]
        rw [ih (below _ mem_cons_self) head,rest (forall_mem_cons.mp below).2]
    rw [flat]

theorem droppedLeaf {l} (idle : l.segments = []) (settled : pending l = []) (old : ∀ t ∈ stamps l, t < floor) :
    Expires ctx floor deadline l none := by
  have none : l.segments.filter (fun s => decide (s.maxTs < floor)) = [] := by simp [idle]
  refine .dropped (by simp [expireListing,idle]) ?_
  simp only [expireListing,none,map_nil,Manifest.retireAll,foldl_nil,forget,Dict.filter]
  refine filter_eq_nil_iff.mpr (fun e mem => ?_)
  have deleted : e.2.deleted = true := by
    by_contra alive
    have waiting : e.2.deleteAfter ∈ pending l := mem_map_of_mem (mem_filter.mpr ⟨mem,by simpa using alive⟩)
    simp [settled] at waiting
  have stamp : e.1.maxTs?.getD 0 ∈ stamps l := by
    refine mem_append_right _ (mem_map.mpr ⟨e.1,mem_map_of_mem mem,rfl⟩)
  simp [forgotten,deleted,old _ stamp]

theorem expireEachSpec {visit} {height : Ref → Nat} {refs budget result d d'} (a : d.Allocated) (sound : ∀ r ∈ refs, Sound ctx d (height r) r)
    (step : ∀ r ∈ refs, ∀ b d₁ out d₂, Grows d d₁ → d₁.Allocated → visit r b d₁ = (.ok out,d₂) →
      Grows d₁ d₂ ∧ Wrote d₁ d₂ out.1.written ∧ ExpireSpec ctx floor deadline d₁ d₂ (height r) r out.1)
    (ok : expireEach visit refs budget d = (.ok result,d')) :
    Grows d d' ∧ Wrote d d' (result.1.flatMap Expired.written) ∧
      ∃ ps : List (Ref × Expired), refs = ps.map Prod.fst ∧ result.1 = ps.map Prod.snd ∧
        ∀ p ∈ ps, ExpireSpec ctx floor deadline d d' (height p.1) p.1 p.2 := by
  induction refs generalizing budget result d with
  | nil =>
    obtain ⟨rfl,rfl⟩ := Op.pureOk.mp ok
    exact ⟨.refl _,.none _ _,[],rfl,rfl,by simp⟩
  | cons r rest ih =>
    simp only [expireEach,Op.bindOk,Op.pureOk] at ok
    obtain ⟨out,d₁,head,outs,d₂,tail,rfl,rfl⟩ := ok
    obtain ⟨grown,wrote,spec⟩ := step r mem_cons_self budget d out d₁ (.refl _) a head
    have later : ∀ x ∈ rest, Sound ctx d₁ (height x) x := fun x mem => (sound x (mem_cons_of_mem _ mem)).grows grown
    obtain ⟨grown',wrote',ps,names,values,each⟩ := ih (grown.allocated a) later
      (fun x mem b e o e' g => step x (mem_cons_of_mem _ mem) b e o e' (grown.trans g)) tail
    refine ⟨grown.trans grown',?_,(r,out.1)::ps,by simp [names],by simp [values],?_⟩
    · rw [flatMap_cons]; exact wrote.append wrote' grown.next grown'.next
    refine forall_mem_cons.mpr ⟨spec.grows grown',fun p old => ?_⟩
    have inside : p.1 ∈ rest := names ▸ mem_map_of_mem old
    exact (each p old).rebase (sound p.1 (mem_cons_of_mem _ inside)) grown

end Expiry

theorem expireLeafSpec {env floor deadline ref budget out d d'} (a : d.Allocated) (s : Sound env.toContext d 0 ref)
    (ok : expireLeaf env floor deadline ref budget d = (.ok out,d')) :
    Grows d d' ∧ Wrote d d' out.1.written ∧ ExpireSpec env.toContext floor deadline d d' 0 ref out.1 := by
  unfold expireLeaf at ok
  split at ok
  · simp only [Op.bindOk,Op.liftOk] at ok
    obtain ⟨leaf,d₁,⟨read,rfl⟩,rest⟩ := ok
    obtain ⟨page,valid⟩ := readLeafOk read
    have content : leavesAt d₁ 0 ref.k = [leaf] := PageTree.leavesAtLeaf (by simp [Disk.view,page])
    split at rest
    · obtain ⟨rfl,rfl⟩ := Op.pureOk.mp rest
      exact ⟨.refl _,.none _ _,.unchanged s⟩
    split at rest
    · rename_i empty
      obtain ⟨rfl,rfl⟩ := Op.pureOk.mp rest
      refine ⟨.refl _,.none _ _,by simp,?_,?_,by simp⟩
      · simp [Exchange,keysAt,PageTree.keysAt]
      · rw [content]; exact .drop (.dropped empty.1 empty.2) .nil
    · simp only [Op.bindOk,Op.pureOk] at rest
      obtain ⟨new,d₂,made,rfl,rfl⟩ := rest
      have spec := leafRefSpec a made
      refine ⟨spec.grows,spec.wrote,by simpa using spec.sound,?_,?_,by simp⟩
      · simpa [keysAt,PageTree.keysAt] using (Exchange.refl []).cons ref.k new.k
      rw [content]
      simp only [Option.toList_some,flatMap_cons,flatMap_nil,append_nil,spec.leaves]
      exact .keep (.updated valid) .nil
  · obtain ⟨rfl,rfl⟩ := Op.pureOk.mp ok
    exact ⟨.refl _,.none _ _,.unchanged s⟩

theorem dropSpec {env floor deadline h ref budget out d d'} (s : Sound env.toContext d h ref) (drop : droppable floor ref = true)
    (ok : (do let keys ← Op.lift (collectPageKeys env h ref); pure (⟨none,keys,[],0⟩,budget - 1) : Op (Expired × Nat)) d =
      (.ok out,d')) :
    Grows d d' ∧ Wrote d d' out.1.written ∧ ExpireSpec env.toContext floor deadline d d' h ref out.1 := by
  simp only [Op.bindOk,Op.liftOk,Op.pureOk] at ok
  obtain ⟨keys,d₁,⟨collected,rfl⟩,rfl,rfl⟩ := ok
  simp only [droppable,Bool.and_eq_true,decide_eq_true_eq,Option.isNone_iff_eq_none] at drop
  have exact_ := s.exact
  refine ⟨.refl _,.none _ _,by simp,?_,?_,by simp⟩
  · rw [collectPageKeysOk s collected]
    simp [Exchange]
  have gone : ∀ l ∈ leavesAt d' h ref.k, Expires env.toContext floor deadline l none := fun l mem =>
    droppedLeaf (exact_.noActive drop.1.1 mem) (exact_.noPending drop.1.2 mem)
      (fun t ht => lt_of_le_of_lt (exact_.stampBounds mem t ht).2 drop.2)
  exact Carries.allDropped gone

theorem expireIndexSpec {env floor deadline h visit ref budget out d d'} (a : d.Allocated)
    (s : Sound env.toContext d (h+1) ref)
    (step : ∀ r b d₁ out d₂, Sound env.toContext d₁ h r → d₁.Allocated → visit r b d₁ = (.ok out,d₂) →
      Grows d₁ d₂ ∧ Wrote d₁ d₂ out.1.written ∧ ExpireSpec env.toContext floor deadline d₁ d₂ h r out.1)
    (ok : expireIndex env visit ref budget d = (.ok out,d')) :
    Grows d d' ∧ Wrote d d' out.1.written ∧ ExpireSpec env.toContext floor deadline d d' (h+1) ref out.1 := by
  obtain ⟨-,-,children,placed,-,few,below⟩ := id s
  simp only [expireIndex,Op.bindOk,Op.liftOk] at ok
  obtain ⟨listed,d₁,⟨read,rfl⟩,result,d₂,ran,rest⟩ := ok
  have page := (readIndexOk read).1
  rw [placed.stored] at page
  cases page
  obtain ⟨grows,wrote,ps,names,values,each⟩ := expireEachSpec a below
    (fun r mem b e o e' g alloc made => step r b e o e' ((below r mem).grows g) alloc made) ran
  have keys : keysAt d₁ (h+1) ref.k = ref.k::ps.flatMap (fun p => keysAt d₁ h p.1.k) := by
    rw [keysAt,PageTree.keysAtIndex placed.indexView,names,flatMap_map]
  have leaves : leavesAt d₁ (h+1) ref.k = ps.flatMap (fun p => leavesAt d₁ h p.1.k) := by
    rw [leavesAt,PageTree.leavesAtIndex placed.indexView,names,flatMap_map]
  have exchanged : Exchange (ps.flatMap (fun p => keysAt d₁ h p.1.k))
      (ps.flatMap (fun p => p.2.ref.toList.flatMap (fun r => keysAt d₂ h r.k)))
      (result.1.reverse.flatMap Expired.superseded) (result.1.reverse.flatMap Expired.written) := by
    have total := Exchange.flatMap (fun p mem => (each p mem).exchange)
    refine total.perm ?_ ?_
    · rw [values]
      exact (flatMap_map ..) ▸ ((reverse_perm (ps.map Prod.snd)).flatMap_right _).symm
    · rw [values]
      exact (flatMap_map ..) ▸ ((reverse_perm (ps.map Prod.snd)).flatMap_right _).symm
  have carried : Carries (Expires env.toContext floor deadline) (ps.flatMap (fun p => leavesAt d₁ h p.1.k))
      (ps.flatMap (fun p => p.2.ref.toList.flatMap (fun r => leavesAt d₂ h r.k))) :=
    Carries.flatMap (fun p mem => (each p mem).leaves)
  have unfolded : ∀ {γ : Type} (f : Ref → List γ), (result.1.flatMap (fun o => o.ref.toList)).flatMap f =
      ps.flatMap (fun p => p.2.ref.toList.flatMap f) := by
    intro γ f
    rw [values,flatMap_map,flatMap_assoc]
  have wroteReversed : Wrote d₁ d₂ (result.1.reverse.flatMap Expired.written) :=
    wrote.perm ((reverse_perm result.1).flatMap_right _).symm
  split at rest
  · obtain ⟨rfl,rfl⟩ := Op.pureOk.mp rest
    exact ⟨grows,.none _ _,(ExpireSpec.unchanged s).grows grows⟩
  split at rest
  · rename_i empty
    obtain ⟨rfl,rfl⟩ := Op.pureOk.mp rest
    have noKeys := unfolded (fun r => keysAt d' h r.k)
    have noLeaves := unfolded (fun r => leavesAt d' h r.k)
    rw [empty,flatMap_nil] at noKeys noLeaves
    refine ⟨grows,wroteReversed,by simp,?_,?_,by simp⟩
    · rw [keys]
      rw [← noKeys] at exchanged
      simpa [Exchange] using exchanged
    rw [leaves]
    rw [← noLeaves] at carried
    exact carried
  · simp only [Op.bindOk,Op.pureOk] at rest
    obtain ⟨new,d₃,made,rfl,rfl⟩ := rest
    have sound : ∀ c ∈ result.1.flatMap (fun o => o.ref.toList), Sound env.toContext d₂ h c := by
      intro c mem
      rw [values,flatMap_map] at mem
      obtain ⟨p,hp,hc⟩ := mem_flatMap.mp mem
      exact (each p hp).sound c hc
    have short : (result.1.flatMap (fun o => o.ref.toList)).length ≤ fanout := by
      have most : (result.1.flatMap (fun o => o.ref.toList)).length ≤ result.1.length := by
        rw [← filterMap_eq_flatMap_toList]
        exact length_filterMap_le _ _
      have same : result.1.length = children.length := by rw [values,names]; simp
      omega
    have spec := indexRefSpec (grows.allocated a) sound short made
    refine ⟨grows.trans spec.grows,?_,by simpa using spec.sound,?_,?_,by simp⟩
    · exact (wroteReversed.append spec.wrote grows.next spec.grows.next).perm (perm_append_singleton _ _)
    · rw [keys]
      simp only [Option.toList_some,flatMap_cons,flatMap_nil,append_nil,spec.keys,unfolded]
      exact exchanged.cons _ _
    rw [leaves]
    simp only [Option.toList_some,flatMap_cons,flatMap_nil,append_nil,spec.leaves,unfolded]
    exact carried

theorem expireRefSpec {env floor deadline h ref budget out d d'} (a : d.Allocated) (s : Sound env.toContext d h ref)
    (ok : expireRef env floor deadline h ref budget d = (.ok out,d')) :
    Grows d d' ∧ Wrote d d' out.1.written ∧ ExpireSpec env.toContext floor deadline d d' h ref out.1 := by
  induction h generalizing ref budget out d d' with
  | zero =>
    unfold expireRef at ok
    split at ok
    · obtain ⟨rfl,rfl⟩ := Op.pureOk.mp ok
      exact ⟨.refl _,.none _ _,.unchanged s⟩
    split at ok
    · exact dropSpec s (by assumption) ok
    · exact expireLeafSpec a s ok
  | succ h ih =>
    unfold expireRef at ok
    split at ok
    · obtain ⟨rfl,rfl⟩ := Op.pureOk.mp ok
      exact ⟨.refl _,.none _ _,.unchanged s⟩
    split at ok
    · exact dropSpec s (by assumption) ok
    · exact expireIndexSpec a s (fun r b e o e' sound alloc made => ih alloc sound made) ok

theorem expireChangeSpec {ctx floor deadline d d' old out c} (s : Sound ctx d old.h old) (g : Grows d d')
    (x : ExpireSpec ctx floor deadline d d' old.h old out) (made : expireChange (old,out) = some c) :
    ChangeSpec ctx (Expires ctx floor deadline) d' old c := by
  unfold expireChange at made
  split at made
  · simp at made
  rename_i moved
  cases made
  have height : ∀ new ∈ out.ref.toList, new.h = old.h := fun new mem => (x.sound new mem).height
  have top : ∀ new ∈ out.ref.toList, new.k ∈ out.written := fun new mem =>
    (x.top new mem).resolve_left (fun same => moved (same ▸ Option.mem_toList.mp mem))
  refine ⟨rfl,height,top,fun new mem => (height new mem).symm ▸ x.sound new mem,?_,?_⟩
  · rw [s.keysGrow g,forestKeys,flatMap_congr (fun new mem => by rw [height new mem])]
    exact x.exchange
  · rw [s.leavesGrow g,forestLeaves,flatMap_congr (fun new mem => by rw [height new mem])]
    exact x.leaves

theorem expirePlanSpec {env} {root : Root} {floor deadline maxLeaves changes d d'} (a : d.Allocated)
    (s : AllSound env.toContext d root.refs) (distinct : (forestKeys d root.refs).Nodup)
    (ok : expirePlan env root floor deadline maxLeaves d = (.ok changes,d')) :
    PlanSpec env.toContext (Expires env.toContext floor deadline) d d' root.refs changes := by
  simp only [expirePlan,Op.bindOk,Op.pureOk] at ok
  obtain ⟨result,d₁,ran,rfl,rfl⟩ := ok
  obtain ⟨grows,wrote,ps,names,values,each⟩ := expireEachSpec a s
    (fun r mem b e o e' g alloc made => expireRefSpec alloc ((s r mem).grows g) made) ran
  have paired : root.refs.zip result.1 = ps := by
    rw [names,values]
    simpa using zip_map' (f := Prod.fst) (g := Prod.snd) (l := ps)
  rw [paired]
  have made := Carries.filterMap expireChange ps
  have listed : ∀ p ∈ ps, p.1 ∈ root.refs := fun p mem => by rw [names]; exact mem_map_of_mem mem
  have spec : ∀ p ∈ ps, ∀ c, some c = expireChange p →
      ChangeSpec env.toContext (Expires env.toContext floor deadline) d' p.1 c := fun p mem c h =>
    expireChangeSpec (s p.1 (listed p mem)) grows (each p mem) h.symm
  have inside : ((ps.filterMap expireChange).map Change.key).Sublist (root.refs.map (fun r => r.k)) := by
    rw [names,map_map]
    exact made.sublist (fun p mem c h => (spec p mem c h).key)
  have written : Wrote d d' ((ps.filterMap expireChange).flatMap Change.written) := by
    have part : ((ps.filterMap expireChange).flatMap Change.written).Sublist (result.1.flatMap Expired.written) := by
      rw [values,flatMap_map,flatMapFilterMap]
      refine flatMapSublist (fun p _ => ?_)
      unfold expireChange
      split <;> simp
    exact ⟨wrote.distinct.sublist part,fun k mem => wrote.fresh k (part.subset mem)⟩
  refine ⟨grows,⟨?_,(refKeysNodup distinct).sublist inside,planSince a s grows inside written⟩,written,inside,
    fun r _ _ => Carries.same (fun l _ => .kept)⟩
  intro c mem
  obtain ⟨p,hp,h⟩ := made.backward mem
  exact ⟨p.1,(s p.1 (listed p hp)).grows grows,spec p hp c h⟩

end Pulso.Journal
