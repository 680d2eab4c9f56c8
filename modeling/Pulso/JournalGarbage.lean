import Pulso.JournalContents

/-! The pages a plan hands over. Everything it supersedes or writes lies in the journal of its own
tenant and signal, and reviving one key supersedes one path of the tree. -/
namespace Pulso.Journal
open List

def Local (ctx : Context) (keys : List PageKey) : Prop := ∀ k ∈ keys, k.In ctx.scope

section Keys
variable {ctx : Context} {env : Env}

theorem Local.append {a b} (left : Local ctx a) (right : Local ctx b) : Local ctx (a ++ b) := by
  intro k mem
  rcases mem_append.mp mem with h | h
  · exact left k h
  · exact right k h

theorem Local.cons {k keys} (head : k.In ctx.scope) (rest : Local ctx keys) : Local ctx (k::keys) :=
  forall_mem_cons.mpr ⟨head,rest⟩

theorem Local.flatMap {α : Type} {f} {xs : List α} (each : ∀ x ∈ xs, Local ctx (f x)) : Local ctx (xs.flatMap f) := by
  intro k mem
  obtain ⟨x,hx,hk⟩ := mem_flatMap.mp mem
  exact each x hx k hk

theorem Local.none : Local ctx [] := by simp [Local]

theorem putPageLocal {page kind payload d d' stub} (ok : putPage env page kind payload d = (.ok stub,d')) :
    stub.k.In env.scope := by
  unfold putPage at ok
  dsimp only at ok
  split at ok
  · simp at ok
  split at ok
  · simp at ok
  · cases ok; rfl

theorem leafRefLocal {l d d' ref} (ok : leafRef env l d = (.ok ref,d')) : ref.k.In env.scope := by
  simp only [leafRef,Op.bindOk,Op.liftOk] at ok
  obtain ⟨stats,d₁,⟨-,rfl⟩,stub,d₂,put,bounded⟩ := ok
  have key := putPageLocal put
  obtain ⟨-,rfl | rfl⟩ := boundedReferenceOk bounded
  · exact key
  · exact key

theorem indexRefLocal {children d d' ref} (ok : indexRef env children d = (.ok ref,d')) : ref.k.In env.scope := by
  simp only [indexRef,Op.bindOk,Op.liftOk,Op.pureOk] at ok
  obtain ⟨stub,d₁,put,stats,d₂,⟨-,rfl⟩,rfl,rfl⟩ := ok
  exact putPageLocal put

theorem childrenLocal {ref d children} (ok : readIndex env ref d = .ok children) :
    ∀ c ∈ children, c.k.In env.scope := fun c mem => ((readIndexOk ok).2.2.2 c mem).2.2

theorem collectPageKeysLocal {h ref d keys} (top : ref.k.In env.scope) (ok : collectPageKeys env h ref d = .ok keys) :
    Local env.toContext keys := by
  induction h generalizing ref keys with
  | zero =>
    cases ok
    exact .cons top .none
  | succ h ih =>
    unfold collectPageKeys at ok
    split at ok
    · simp at ok
    rename_i children read
    split at ok
    · simp at ok
    rename_i parts collected
    cases ok
    have each := Lists.mapMOk collected
    refine .cons top (fun k mem => ?_)
    obtain ⟨part,hp,hk⟩ := mem_flatten.mp mem
    obtain ⟨i,hi,rfl⟩ := mem_iff_getElem.mp hp
    have bound : i < children.length := by rw [each.length_eq]; exact hi
    exact ih (childrenLocal read _ (getElem_mem bound)) (each.get bound hi) k hk

def Expired.pages (x : Expired) : List PageKey := x.superseded ++ x.written
def Rewritten.pages (x : Rewritten) : List PageKey := x.superseded ++ x.written
def Change.pages (c : Change) : List PageKey := c.superseded ++ c.written

theorem expireLeafLocal {floor deadline ref budget out d d'} (top : ref.k.In env.scope)
    (ok : expireLeaf env floor deadline ref budget d = (.ok out,d')) : Local env.toContext out.1.pages := by
  unfold expireLeaf at ok
  split at ok
  · simp only [Op.bindOk,Op.liftOk] at ok
    obtain ⟨leaf,d₁,⟨-,rfl⟩,rest⟩ := ok
    split at rest
    · obtain ⟨rfl,-⟩ := Op.pureOk.mp rest
      exact .none
    split at rest
    · obtain ⟨rfl,-⟩ := Op.pureOk.mp rest
      exact .cons top .none
    simp only [Op.bindOk,Op.pureOk] at rest
    obtain ⟨new,d₂,made,rfl,rfl⟩ := rest
    exact .cons top (.cons (leafRefLocal made) .none)
  · obtain ⟨rfl,-⟩ := Op.pureOk.mp ok
    exact .none

variable {refs : List Ref}

theorem expireEachLocal {visit budget result d d'} (tops : ∀ r ∈ refs, r.k.In env.scope)
    (step : ∀ r b out e e', r.k.In env.scope → visit r b e = (.ok out,e') → Local env.toContext out.1.pages)
    (ok : expireEach visit refs budget d = (.ok result,d')) : ∀ x ∈ result.1, Local env.toContext x.pages := by
  induction refs generalizing budget result d with
  | nil =>
    obtain ⟨rfl,-⟩ := Op.pureOk.mp ok
    simp
  | cons r rest ih =>
    simp only [expireEach,Op.bindOk,Op.pureOk] at ok
    obtain ⟨out,d₁,head,outs,d₂,tail,rfl,rfl⟩ := ok
    obtain ⟨top,others⟩ := forall_mem_cons.mp tops
    exact forall_mem_cons.mpr ⟨step r budget out _ _ top head,ih others tail⟩

theorem expireRefLocal {floor deadline h ref budget out d d'} (top : ref.k.In env.scope)
    (ok : expireRef env floor deadline h ref budget d = (.ok out,d')) : Local env.toContext out.1.pages := by
  induction h generalizing ref budget out d d' with
  | zero =>
    unfold expireRef at ok
    split at ok
    · obtain ⟨rfl,-⟩ := Op.pureOk.mp ok
      exact .none
    split at ok
    · simp only [Op.bindOk,Op.liftOk,Op.pureOk] at ok
      obtain ⟨keys,d₁,⟨collected,rfl⟩,rfl,rfl⟩ := ok
      exact (collectPageKeysLocal top collected).append .none
    · exact expireLeafLocal top ok
  | succ h ih =>
    unfold expireRef at ok
    split at ok
    · obtain ⟨rfl,-⟩ := Op.pureOk.mp ok
      exact .none
    split at ok
    · simp only [Op.bindOk,Op.liftOk,Op.pureOk] at ok
      obtain ⟨keys,d₁,⟨collected,rfl⟩,rfl,rfl⟩ := ok
      exact (collectPageKeysLocal top collected).append .none
    simp only [expireIndex,Op.bindOk,Op.liftOk] at ok
    obtain ⟨children,d₁,⟨read,rfl⟩,outs,d₂,level,rest⟩ := ok
    have each := expireEachLocal (childrenLocal read) (fun r b out e e' inside ran => ih inside ran) level
    have superseded : Local env.toContext (outs.1.reverse.flatMap Expired.superseded) :=
      .flatMap (fun x mem k hk => each x (mem_reverse.mp mem) k (mem_append_left _ hk))
    have written : Local env.toContext (outs.1.reverse.flatMap Expired.written) :=
      .flatMap (fun x mem k hk => each x (mem_reverse.mp mem) k (mem_append_right _ hk))
    split at rest
    · obtain ⟨rfl,-⟩ := Op.pureOk.mp rest
      exact .none
    split at rest
    · obtain ⟨rfl,-⟩ := Op.pureOk.mp rest
      exact (Local.cons top superseded).append written
    simp only [Op.bindOk,Op.pureOk] at rest
    obtain ⟨new,d₃,made,rfl,rfl⟩ := rest
    exact (Local.cons top superseded).append (.cons (indexRefLocal made) written)

theorem expirePlanLocal {root floor deadline maxLeaves changes d d'} (tops : ∀ r ∈ root.refs, r.k.In env.scope)
    (ok : expirePlan env root floor deadline maxLeaves d = (.ok changes,d')) : ∀ c ∈ changes, Local env.toContext c.pages := by
  simp only [expirePlan,Op.bindOk,Op.pureOk] at ok
  obtain ⟨outs,d₁,level,rfl,rfl⟩ := ok
  have each := expireEachLocal tops (fun r b out e e' inside ran => expireRefLocal inside ran) level
  intro c mem
  obtain ⟨⟨ref,x⟩,pair,made⟩ := mem_filterMap.mp mem
  have inside := each x (of_mem_zip pair).2
  unfold expireChange at made
  split at made
  · simp at made
  · cases made; exact inside

variable {pred : Ref → Bool}

theorem rewriteLocal {f parts d d'} (tops : ∀ r ∈ refs, r.k.In env.scope)
    (step : ∀ r out e e', r.k.In env.scope → f r e = (.ok out,e') → Local env.toContext out.pages)
    (ok : rewrite pred f refs d = (.ok parts,d')) : ∀ x ∈ parts, Local env.toContext x.pages := by
  simp only [rewrite,Op.bindOk,Op.pureOk] at ok
  obtain ⟨results,d₁,ran,rfl,rfl⟩ := ok
  have each : ∀ xs e e' ys, (∀ r ∈ xs, r.k.In env.scope) →
      Op.each (fun r => do let out ← f r; pure (r.k,out)) xs e = (.ok ys,e') → ∀ y ∈ ys, Local env.toContext y.2.pages := by
    intro xs
    induction xs with
    | nil =>
      intro e e' ys _ done
      obtain ⟨rfl,-⟩ := Op.pureOk.mp done
      simp
    | cons r rest ih =>
      intro e e' ys inside done
      simp only [Op.each,Op.bindOk,Op.pureOk] at done
      obtain ⟨y,e₁,⟨out,e₂,head,rfl,rfl⟩,later,e₃,tail,rfl,rfl⟩ := done
      obtain ⟨here,others⟩ := forall_mem_cons.mp inside
      exact forall_mem_cons.mpr ⟨step r out _ _ here head,ih _ _ _ others tail⟩
  intro x mem
  obtain ⟨r,hr,rfl⟩ := mem_map.mp mem
  unfold part
  cases found : (Dict.ofList results).get? r.k with
  | none => exact Local.none
  | some out => exact each _ _ _ _ (fun r mem => tops r (mem_filter.mp mem).1) ran _ (Dict.getOfList found)

variable {update : Listing → Listing}

theorem rewriteRefLocal {h ref out d d'} (top : ref.k.In env.scope)
    (ok : rewriteRef env pred update h ref d = (.ok out,d')) : Local env.toContext out.pages := by
  induction h generalizing ref out d d' with
  | zero =>
    simp only [rewriteRef,Op.bindOk,Op.liftOk] at ok
    obtain ⟨leaf,d₁,⟨-,rfl⟩,rest⟩ := ok
    split at rest
    · obtain ⟨rfl,-⟩ := Op.pureOk.mp rest
      exact .none
    simp only [Op.bindOk,Op.pureOk] at rest
    obtain ⟨new,d₂,made,rfl,rfl⟩ := rest
    exact .cons top (.cons (leafRefLocal made) .none)
  | succ h ih =>
    simp only [rewriteRef,Op.bindOk,Op.liftOk] at ok
    obtain ⟨children,d₁,⟨read,rfl⟩,parts,d₂,level,rest⟩ := ok
    have each := rewriteLocal (childrenLocal read) (fun r out e e' inside ran => ih inside ran) level
    split at rest
    · obtain ⟨rfl,-⟩ := Op.pureOk.mp rest
      exact .none
    simp only [Op.bindOk,Op.pureOk] at rest
    obtain ⟨new,d₃,made,rfl,rfl⟩ := rest
    refine .append (.cons top (.flatMap fun x mem k hk => ?_)) (.cons (indexRefLocal made) (.flatMap fun x mem k hk => ?_))
    · exact each x mem k (mem_append_left _ hk)
    · exact each x mem k (mem_append_right _ hk)

theorem planRewriteLocal {refs timestamps update changes d d'} (tops : ∀ r ∈ refs, r.k.In env.scope)
    (ok : planRewrite env refs timestamps update d = (.ok changes,d')) : ∀ c ∈ changes, Local env.toContext c.pages := by
  simp only [planRewrite,Op.bindOk,Op.pureOk] at ok
  obtain ⟨parts,d₁,level,rfl,rfl⟩ := ok
  have each := rewriteLocal tops (fun r out e e' inside ran => rewriteRefLocal inside ran) level
  intro c mem
  obtain ⟨⟨ref,x⟩,pair,made⟩ := mem_filterMap.mp mem
  have inside := each x (of_mem_zip pair).2
  unfold changeOf at made
  split at made
  · simp at made
  · cases made; exact inside

structure Trail (d : Disk) (update : Listing → Listing) (h : Nat) (ref : Ref) (out : Rewritten) : Prop where
  few : out.superseded.length ≤ (h + 1) * (leavesAt d h ref.k).countP (fun l => decide (update l ≠ l))
  height : out.superseded ≠ [] → h ≤ maxHeight + 1

theorem Trail.unchanged (d : Disk) (update : Listing → Listing) (h : Nat) (ref : Ref) :
    Trail d update h ref (.unchanged ref) := ⟨by simp [Rewritten.unchanged],fun busy => absurd rfl busy⟩

theorem anyRule (env : Env) (pred : Ref → Bool) (update : Listing → Listing) :
    UpdateRule env (fun _ _ => True) pred update :=
  ⟨fun _ _ => trivial,fun _ _ _ => trivial,fun _ _ _ _ _ _ _ => trivial⟩

theorem sumBound {α : Type} {f g} {n : Nat} {xs : List α} (each : ∀ x ∈ xs, f x ≤ n * g x) :
    (xs.map f).sum ≤ n * (xs.map g).sum := by
  induction xs with
  | nil => simp
  | cons x xs ih =>
    have head := each x mem_cons_self
    have rest := ih (forall_mem_cons.mp each).2
    simp only [map_cons,sum_cons,Nat.mul_add]
    omega

theorem rewriteTrail {parts d d'} (height : Ref → Nat)
    (a : d.Allocated) (s : ∀ r ∈ refs, Sound env.toContext d (height r) r)
    (distinct : (refs.flatMap (fun r => keysAt d (height r) r.k)).Nodup)
    (step : ∀ r ∈ refs, ∀ out e e', e.Allocated → Sound env.toContext e (height r) r → (keysAt e (height r) r.k).Nodup →
      rewriteRef env pred update (height r) r e = (.ok out,e') → Trail e update (height r) r out)
    (ok : rewrite pred (fun r => rewriteRef env pred update (height r) r) refs d = (.ok parts,d')) :
    ∃ g : Ref → Rewritten, parts = refs.map g ∧ ∀ r ∈ refs, Trail d update (height r) r (g r) := by
  simp only [rewrite,Op.bindOk,Op.pureOk] at ok
  obtain ⟨results,d₁,ran,rfl,rfl⟩ := ok
  have keys := headsNodup distinct (fun r _ => PageTree.headMem (height r) r.k)
  obtain ⟨-,-,pairs⟩ := Op.eachSpec (fun x : PageKey × Rewritten => x.2.written)
    (fun (r : Ref) x _ => x.1 = r.k ∧ Trail d update (height r) r x.2) a
    (fun r mem e x e' grown alloc made => by
      simp only [Op.bindOk,Op.pureOk] at made
      obtain ⟨out,e₁,ran,rfl,rfl⟩ := made
      have inside := (mem_filter.mp mem).1
      have sound := (s r inside).grows grown
      have once : (keysAt e (height r) r.k).Nodup := by
        rw [(s r inside).keysGrow grown]; exact (nodup_flatMap.mp distinct).1 r inside
      obtain ⟨grows,wrote,-⟩ := rewriteRefSpec (anyRule env pred update) alloc sound once ran
      have trail := step r inside out e _ alloc sound once ran
      refine ⟨grows,wrote,rfl,?_,trail.height⟩
      rw [← (s r inside).leavesGrow grown]
      exact trail.few)
    (fun _ _ _ _ _ h _ => h) ran
  exact ⟨_,rfl,(partsSpec keys pairs (fun r _ _ => .unchanged d update (height r) r)).1⟩

theorem rewriteRefTrail {h ref out d d'} (a : d.Allocated)
    (s : Sound env.toContext d h ref) (distinct : (keysAt d h ref.k).Nodup)
    (ok : rewriteRef env pred update h ref d = (.ok out,d')) : Trail d update h ref out := by
  induction h generalizing ref out d d' with
  | zero =>
    simp only [rewriteRef,Op.bindOk,Op.liftOk] at ok
    obtain ⟨leaf,d₁,⟨read,rfl⟩,rest⟩ := ok
    have content : leavesAt d₁ 0 ref.k = [leaf] := PageTree.leavesAtLeaf (by simp [Disk.view,(readLeafOk read).1])
    split at rest
    · obtain ⟨rfl,-⟩ := Op.pureOk.mp rest
      exact .unchanged ..
    rename_i changed
    simp only [Op.bindOk,Op.pureOk] at rest
    obtain ⟨new,d₂,made,rfl,rfl⟩ := rest
    exact ⟨by simp [content,changed],fun _ => Nat.zero_le _⟩
  | succ h ih =>
    obtain ⟨_,_,children,placed,_,_,below⟩ := id s
    simp only [rewriteRef,Op.bindOk,Op.liftOk] at ok
    obtain ⟨listed,d₁,⟨read,rfl⟩,parts,d₂,level,rest⟩ := ok
    obtain ⟨page,valid⟩ := readIndexOk read
    rw [placed.stored] at page
    cases page
    have inner : (children.flatMap (fun c => keysAt d₁ h c.k)).Nodup := by
      rw [keysAt,PageTree.keysAtIndex placed.indexView] at distinct; exact (nodup_cons.mp distinct).2
    obtain ⟨g,rfl,each⟩ := rewriteTrail (fun _ => h) a below inner
      (fun c mem out e e' alloc sound once ran => ih alloc sound once ran) level
    split at rest
    · obtain ⟨rfl,-⟩ := Op.pureOk.mp rest
      exact .unchanged ..
    rename_i busy
    simp only [Op.bindOk,Op.pureOk] at rest
    obtain ⟨new,d₃,made,rfl,rfl⟩ := rest
    have count : (leavesAt d₁ (h+1) ref.k).countP (fun l => decide (update l ≠ l)) =
        (children.map (fun c => (leavesAt d₁ h c.k).countP (fun l => decide (update l ≠ l)))).sum := by
      rw [leavesAt,PageTree.leavesAtIndex placed.indexView,countP_flatMap]
      rfl
    have sum : ((children.map g).flatMap Rewritten.superseded).length ≤ (h + 1) * (leavesAt d₁ (h+1) ref.k).countP (fun l => decide (update l ≠ l)) := by
      rw [count,flatMap_map,length_flatMap]
      exact sumBound (fun c mem => (each c mem).few)
    have some := length_pos_iff.mpr busy
    refine ⟨?_,fun _ => ?_⟩
    · have leaf : 0 < (leavesAt d₁ (h+1) ref.k).countP (fun l => decide (update l ≠ l)) := by
        by_contra none
        rw [Nat.eq_zero_of_not_pos none] at sum
        omega
      rw [length_cons,Nat.succ_mul (h + 1)]
      omega
    · obtain ⟨c,mem⟩ := exists_mem_of_ne_nil children (by rintro rfl; simp at some)
      have top := (valid.2.2 c mem).1.1
      have level := (below c mem).height
      omega

theorem planRewriteFew {refs timestamps update changes d d'} (a : d.Allocated) (s : AllSound env.toContext d refs)
    (distinct : (forestKeys d refs).Nodup) (ok : planRewrite env refs timestamps update d = (.ok changes,d')) :
    (changes.flatMap Change.superseded).length ≤
      (maxHeight + 2) * (forestLeaves d refs).countP (fun l => decide (update l ≠ l)) := by
  simp only [planRewrite,Op.bindOk,Op.pureOk] at ok
  obtain ⟨parts,d₁,level,rfl,rfl⟩ := ok
  obtain ⟨g,rfl,each⟩ := rewriteTrail (fun r => r.h) a s distinct
    (fun r mem out e e' alloc sound once ran => rewriteRefTrail alloc sound once ran) level
  have paired : refs.zip (refs.map g) = refs.map (fun r => (r,g r)) := by
    simpa using zip_map' (f := id) (g := g) (l := refs)
  have listed : ((refs.zip (refs.map g)).filterMap changeOf).flatMap Change.superseded =
      refs.flatMap (fun r => (g r).superseded) := by
    rw [paired,filterMap_map]
    refine (Carries.filterMap (changeOf ∘ fun r => (r,g r)) refs).flatMapEq (fun r _ c h => ?_) (fun r _ h => ?_)
    · simp only [Function.comp_apply,changeOf] at h
      split at h
      · simp at h
      · cases h; rfl
    · by_contra busy
      simp [changeOf,busy] at h
  rw [listed,length_flatMap,forestLeaves,countP_flatMap]
  refine sumBound (fun r mem => ?_)
  by_cases idle : (g r).superseded = []
  · simp [idle]
  refine (each r mem).few.trans (Nat.mul_le_mul_right _ ?_)
  have top := (each r mem).height idle
  omega

end Keys
end Pulso.Journal
