import Pulso.JournalPage

/-! Page writes and reads. `Sound` says what a reference to a written page guarantees:
the page is there, one height per level, and every recorded aggregate is exact. -/
namespace Pulso.Journal
open List

def stamps (l : Listing) : List Int := l.segments.map Segment.maxTs ++ l.retired.keys.map (fun k => k.maxTs?.getD 0)
def pending (l : Listing) : List Nat := (l.retired.entries.filter (fun e => !e.2.deleted)).map (fun e => e.2.deleteAfter)
def Dated (retired : Dict Key Retirement) : Prop := ∀ k ∈ retired.keys, k.maxTs?.isSome
instance (retired : Dict Key Retirement) : Decidable (Dated retired) := by unfold Dated; infer_instance

def sumKnown (sizes : List (Option Nat)) : Option Nat :=
  if sizes.all Option.isSome then some sizes.reduceOption.sum else none

def leafStats (l : Listing) : Except Fail Stats :=
  if Dated l.retired then
    match (stamps l).min?,(stamps l).max? with
    | some kn,some kx => .ok {
        n := l.segments.length
        e := (stamps l).length
        l := 1
        mn := (l.segments.map Segment.minTs).min?
        mx := (l.segments.map Segment.maxTs).max?
        kn := kn
        kx := kx
        rd := (pending l).min?
        sb := sumKnown (l.segments.map Segment.byteSize) }
    | _,_ => .error .raised
  else .error .invalidSegmentKey

def indexStats (children : List Ref) : Except Fail Stats :=
  match (children.map (fun c => c.kn)).min?,(children.map (fun c => c.kx)).max? with
  | some kn,some kx => .ok {
      n := (children.map (fun c => c.n)).sum
      e := (children.map (fun c => c.e)).sum
      l := (children.map (fun c => c.l)).sum
      mn := (children.filterMap (fun c => c.mn)).min?
      mx := (children.filterMap (fun c => c.mx)).max?
      kn := kn
      kx := kx
      rd := (children.filterMap (fun c => c.rd)).min?
      sb := sumKnown (children.map (fun c => c.sb)) }
  | _,_ => .error .raised

def leafSummary (ctx : Context) (l : Listing) : Option PageSummary :=
  if l.segments = [] then none
  else match ctx.scope.signal with
  | .traces => some (.traces (TraceSummary.pageSummary ctx.sizes.toSummarySizes (l.segments.map Segment.traceSummary)))
  | .logs => (Segment.logPageSummary ctx.sizes.toSummarySizes l.segments).map .logs
  | .metrics => none

-- `{"n":"<32 hex>","<tag>":<payload>}`
def pageOverhead : Nat := 45

def putPage (env : Env) (page : Page) (kind : PageKind) (payload : Nat) : Op Stub := fun d =>
  let b := pageOverhead + payload
  if pageLimit < b then (.error .manifestCapacity,d)
  else
    let key : PageKey := ⟨env.scope.journal,d.next,kind⟩
    match env.put key with
    | some reason => (.error reason,⟨d.pages,d.next + 1⟩)
    | none => (.ok ⟨key,b,d.next⟩,⟨fun k => if k = key then some ⟨page,b⟩ else d.pages k,d.next + 1⟩)

def boundedReference (ctx : Context) (ref : Ref) : Op Ref :=
  let ref := if refBytes < ctx.sizes.ref ref then { ref with q := none } else ref
  if refBytes < ctx.sizes.ref ref then Op.fail .manifestCapacity else pure ref

def leafRef (env : Env) (l : Listing) : Op Ref := do
  let stats ← Op.lift (fun _ => leafStats l)
  let stub ← putPage env (.leaf (l.persisted env.sizes.toSummarySizes)) .leaf (env.sizes.leaf l)
  boundedReference env.toContext ⟨stub,stats,0,leafSummary env.toContext l⟩

def indexRef (env : Env) (children : List Ref) : Op Ref := do
  let stub ← putPage env (.index children) .index (env.sizes.index children)
  let stats ← Op.lift (fun _ => indexStats children)
  pure ⟨stub,stats,(children.head?.map (fun c => c.h + 1)).getD 1,none⟩

def nonce : Op Nat := fun d => (.ok d.next,⟨d.pages,d.next + 1⟩)

def fetch (env : Env) (ref : Stub) (d : Disk) : Except Fail Page :=
  match env.get ref.k with
  | some reason => .error reason
  | none => match d.pages ref.k with
    | none => .error .manifestPageMissing
    | some stored => if stored.bytes ≠ ref.b ∨ ref.k.sha ≠ ref.sha then .error .invalidManifestPage else .ok stored.page

def NonNegative : Option Int → Prop
  | none => True
  | some v => 0 ≤ v
instance (v : Option Int) : Decidable (NonNegative v) := by unfold NonNegative; split <;> infer_instance

def ValidKey (k : PageKey) (sha : Nat) (kind : PageKind) : Prop :=
  k.sha = sha ∧ k.kind = kind ∧ k.bytes ≤ 1024 ∧ (ascii "/journal/").isSuffixOf k.journal

def ValidRange (r : Stats) : Prop :=
  if r.n = 0 then r.mn = none ∧ r.mx = none
  else match r.mn,r.mx with
    | some mn,some mx => mn ≤ mx
    | _,_ => False

instance (r : Stats) : Decidable (ValidRange r) := by unfold ValidRange; split; infer_instance; split <;> infer_instance

/- `valid_ref?/1`; the type already makes counts, sizes and deadlines non-negative. -/
def ValidRef (r : Ref) : Prop :=
  r.h ≤ maxHeight ∧ ValidKey r.k r.sha (.ofHeight r.h) ∧ (1 ≤ r.b ∧ r.b ≤ pageLimit) ∧
  (r.n ≤ r.e ∧ 0 < r.e ∧ 1 ≤ r.l) ∧ r.kn ≤ r.kx ∧ ValidRange r.toStats
instance (r : Ref) : Decidable (ValidRef r) := by unfold ValidRef ValidKey; infer_instance

def PageKey.In (k : PageKey) (scope : Scope) : Prop := k.journal = scope.journal
instance (k : PageKey) (scope : Scope) : Decidable (k.In scope) := by unfold PageKey.In; infer_instance

def ValidRetiredKey (scope : Scope) (k : Key) : Prop := scope.Holds k ∧ k.maxTs?.isSome
instance (scope : Scope) (k : Key) : Decidable (ValidRetiredKey scope k) := by unfold ValidRetiredKey; infer_instance

def ValidLeaf (scope : Scope) (l : Listing) : Prop :=
  l.size ≤ leafReadEntries ∧ (∀ s ∈ l.segments, s.Valid scope) ∧ ∀ k ∈ l.retired.keys, ValidRetiredKey scope k
instance (scope : Scope) (l : Listing) : Decidable (ValidLeaf scope l) := by unfold ValidLeaf; infer_instance

def ValidChildren (scope : Scope) (h : Nat) (children : List Ref) : Prop :=
  1 ≤ children.length ∧ children.length ≤ fanout ∧ ∀ c ∈ children, ValidRef c ∧ c.h + 1 = h ∧ c.k.In scope
instance (scope : Scope) (h : Nat) (children : List Ref) : Decidable (ValidChildren scope h children) := by
  unfold ValidChildren; infer_instance

def ValidGcKeys (scope : Scope) (keys : List PageKey) : Prop := keys.length ≤ gcPageKeys ∧ ∀ k ∈ keys, k.In scope
instance (scope : Scope) (keys : List PageKey) : Decidable (ValidGcKeys scope keys) := by
  unfold ValidGcKeys; infer_instance

def readLeaf (env : Env) (ref : Ref) (d : Disk) : Except Fail Listing :=
  match fetch env ref.toStub d with
  | .error e => .error e
  | .ok (.leaf l) => if ValidLeaf env.scope l ∧ ref.h = 0 then .ok l else .error .invalidManifestPage
  | .ok _ => .error .invalidManifestPage

def readIndex (env : Env) (ref : Ref) (d : Disk) : Except Fail (List Ref) :=
  match fetch env ref.toStub d with
  | .error e => .error e
  | .ok (.index children) =>
    if ValidChildren env.scope ref.h children then .ok children else .error .invalidManifestPage
  | .ok _ => .error .invalidManifestPage

def readGc (env : Env) (ref : GcRef) (d : Disk) : Except Fail (List PageKey) :=
  match fetch env ref.toStub d with
  | .error e => .error e
  | .ok (.gc keys) => if ValidGcKeys env.scope keys then .ok keys else .error .invalidManifestPage
  | .ok _ => .error .invalidManifestPage

def Disk.view (d : Disk) (k : PageKey) : Option (PageTree.Node Ref Listing) :=
  match d.pages k with
  | some ⟨.leaf l,_⟩ => some (.leaf l)
  | some ⟨.index children,_⟩ => some (.index children)
  | _ => none

def Disk.Allocated (d : Disk) : Prop := ∀ k stored, d.pages k = some stored → k.sha < d.next

structure Grows (d d' : Disk) : Prop where
  pages : PageTree.Extends d.pages d'.pages
  next : d.next ≤ d'.next
  allocated : d.Allocated → d'.Allocated

theorem Grows.refl (d : Disk) : Grows d d := ⟨.refl _,Nat.le_refl _,id⟩
theorem Grows.trans {a b c} (ab : Grows a b) (bc : Grows b c) : Grows a c :=
  ⟨ab.pages.trans bc.pages,ab.next.trans bc.next,fun h => bc.allocated (ab.allocated h)⟩

abbrev keysAt (d : Disk) (h : Nat) (k : PageKey) : List PageKey := PageTree.keysAt d.view (fun r : Ref => r.k) h k
abbrev leavesAt (d : Disk) (h : Nat) (k : PageKey) : List Listing := PageTree.leavesAt d.view (fun r : Ref => r.k) h k

structure Placed (ctx : Context) (d : Disk) (ref : Ref) (page : Page) : Prop where
  stored : d.pages ref.k = some ⟨page,ref.b⟩
  digest : ref.k.sha = ref.sha
  kind : ref.k.kind = .ofHeight ref.h
  journal : ref.k.In ctx.scope
  bytes : 1 ≤ ref.b ∧ ref.b ≤ pageLimit

/- `mem` is the leaf as its writer held it; the page decodes to its persisted form. -/
def Sound (ctx : Context) (d : Disk) : Nat → Ref → Prop
  | 0,ref => ref.h = 0 ∧ ∃ mem : Listing, Placed ctx d ref (.leaf (mem.persisted ctx.sizes.toSummarySizes)) ∧
      leafStats mem = .ok ref.toStats ∧ (ref.q = none ∨ ref.q = leafSummary ctx mem)
  | h+1,ref => ref.h = h + 1 ∧ ref.q = none ∧ ∃ children, Placed ctx d ref (.index children) ∧
      indexStats children = .ok ref.toStats ∧ children.length ≤ fanout ∧ ∀ c ∈ children, Sound ctx d h c

theorem Sound.height {ctx d h ref} (s : Sound ctx d h ref) : ref.h = h := by
  cases h with
  | zero => exact s.1
  | succ h => exact s.1

theorem indexStatsNonempty {children stats} (ok : indexStats children = .ok stats) : children ≠ [] := by
  rintro rfl
  simp [indexStats] at ok

variable {d d' : Disk}

theorem Grows.view (g : Grows d d') : PageTree.Extends d.view d'.view := by
  intro k node h
  unfold Disk.view at h ⊢
  cases page : d.pages k with
  | none => simp [page] at h
  | some stored => rw [page] at h; rw [g.pages _ _ page]; exact h

theorem Placed.grows {ctx d d' ref page} (p : Placed ctx d ref page) (g : Grows d d') : Placed ctx d' ref page :=
  ⟨g.pages _ _ p.stored,p.digest,p.kind,p.journal,p.bytes⟩

theorem Placed.leafView {ctx d ref l} (p : Placed ctx d ref (.leaf l)) : d.view ref.k = some (.leaf l) := by
  simp [Disk.view,p.stored]

theorem Placed.indexView {ctx d ref cs} (p : Placed ctx d ref (.index cs)) : d.view ref.k = some (.index cs) := by
  simp [Disk.view,p.stored]

theorem Sound.grows {ctx d d' h ref} (s : Sound ctx d h ref) (g : Grows d d') : Sound ctx d' h ref := by
  induction h generalizing ref with
  | zero =>
    obtain ⟨height,mem,placed,rest⟩ := s
    exact ⟨height,mem,placed.grows g,rest⟩
  | succ h ih =>
    obtain ⟨height,q,children,placed,stats,few,below⟩ := s
    exact ⟨height,q,children,placed.grows g,stats,few,fun c mem => ih (below c mem)⟩

theorem Sound.complete {ctx d h ref} (s : Sound ctx d h ref) : PageTree.Complete d.view (fun r : Ref => r.k) h ref.k := by
  induction h generalizing ref with
  | zero => obtain ⟨_,mem,placed,_⟩ := s; exact ⟨_,placed.leafView⟩
  | succ h ih =>
    obtain ⟨_,_,children,placed,stats,_,below⟩ := s
    exact ⟨children,placed.indexView,indexStatsNonempty stats,fun c mem => ih (below c mem)⟩

theorem Sound.keysGrow {ctx d d' h ref} (s : Sound ctx d h ref) (g : Grows d d') :
    keysAt d' h ref.k = keysAt d h ref.k := PageTree.keysAtExtends g.view s.complete

theorem Sound.leavesGrow {ctx d d' h ref} (s : Sound ctx d h ref) (g : Grows d d') :
    leavesAt d' h ref.k = leavesAt d h ref.k := PageTree.leavesAtExtends g.view s.complete

theorem Sound.allocated {ctx d h ref} (s : Sound ctx d h ref) (a : d.Allocated) :
    ∀ k ∈ keysAt d h ref.k, k.sha < d.next := by
  induction h generalizing ref with
  | zero =>
    obtain ⟨_,mem,placed,_⟩ := s
    intro k mem
    rw [keysAt,PageTree.keysAt,mem_singleton] at mem
    exact a _ _ (mem ▸ placed.stored)
  | succ h ih =>
    obtain ⟨_,_,children,placed,_,_,below⟩ := s
    intro k mem
    rw [keysAt,PageTree.keysAtIndex placed.indexView,mem_cons,mem_flatMap] at mem
    rcases mem with rfl | ⟨c,hc,hk⟩
    · exact a _ _ placed.stored
    · exact ih (below c hc) k hk

structure Wrote (d d' : Disk) (keys : List PageKey) : Prop where
  distinct : keys.Nodup
  fresh : ∀ k ∈ keys, d.next ≤ k.sha ∧ k.sha < d'.next

theorem Wrote.none (d d' : Disk) : Wrote d d' [] := ⟨nodup_nil,by simp⟩

theorem Wrote.append {a b c x y} (left : Wrote a b x) (right : Wrote b c y)
    (ab : a.next ≤ b.next) (bc : b.next ≤ c.next) : Wrote a c (x ++ y) := by
  refine ⟨nodup_append.mpr ⟨left.distinct,right.distinct,?_⟩,?_⟩
  · intro k hk k' hk' same
    subst same
    have := (left.fresh k hk).2
    have := (right.fresh k hk').1
    omega
  · intro k hk
    rcases mem_append.mp hk with old | new
    · have := left.fresh k old; omega
    · have := right.fresh k new; omega

theorem Wrote.perm {x y} (w : Wrote d d' x) (p : x.Perm y) : Wrote d d' y :=
  ⟨p.nodup_iff.mp w.distinct,fun k hk => w.fresh k (p.mem_iff.mpr hk)⟩

theorem Wrote.widen {a b c d x} (w : Wrote b c x) (ab : a.next ≤ b.next) (cd : c.next ≤ d.next) :
    Wrote a d x := ⟨w.distinct,fun k hk => ⟨ab.trans (w.fresh k hk).1,(w.fresh k hk).2.trans_le cd⟩⟩

theorem Wrote.outside {keys old : List PageKey} (w : Wrote d d' keys)
    (allocated : ∀ k ∈ old, k.sha < d.next) : ∀ k ∈ keys, k ∉ old := by
  intro k hk mem
  have := (w.fresh k hk).1
  have := allocated k mem
  omega

structure PutSpec (env : Env) (d d' : Disk) (page : Page) (kind : PageKind) (stub : Stub) : Prop where
  grows : Grows d d'
  stored : d'.pages stub.k = some ⟨page,stub.b⟩
  key : stub.k = ⟨env.scope.journal,d.next,kind⟩
  sha : stub.sha = d.next
  bytes : 1 ≤ stub.b ∧ stub.b ≤ pageLimit
  next : d'.next = d.next + 1

theorem putPageSpec {env page kind payload d d' stub} (a : d.Allocated)
    (ok : putPage env page kind payload d = (.ok stub,d')) : PutSpec env d d' page kind stub := by
  unfold putPage at ok
  dsimp only at ok
  split at ok
  · simp at ok
  rename_i small
  split at ok
  · simp at ok
  cases ok
  refine ⟨⟨?_,Nat.le_succ _,?_⟩,by simp,rfl,rfl,⟨by simp [pageOverhead]; omega,by simpa using Nat.le_of_not_lt small⟩,rfl⟩
  · intro k stored old
    have other : k ≠ ⟨env.scope.journal,d.next,kind⟩ := by
      rintro rfl
      exact absurd (a _ _ old) (by simp)
    simpa [other] using old
  · intro _ k stored new
    dsimp only at new ⊢
    split at new
    · rename_i same; subst same; simp
    · exact Nat.lt_succ_of_lt (a _ _ new)

theorem PutSpec.placed {env d d' page kind stub} (p : PutSpec env d d' page kind stub) {stats h q}
    (same : kind = .ofHeight h) : Placed env.toContext d' ⟨stub,stats,h,q⟩ page :=
  ⟨p.stored,by rw [p.key,p.sha],by rw [p.key]; exact same,by rw [PageKey.In,p.key],p.bytes⟩

structure LeafSpec (env : Env) (d d' : Disk) (l : Listing) (ref : Ref) : Prop where
  grows : Grows d d'
  sound : Sound env.toContext d' 0 ref
  leaves : leavesAt d' 0 ref.k = [l.persisted env.sizes.toSummarySizes]
  wrote : Wrote d d' [ref.k]

theorem boundedReferenceOk {ctx ref out d d'} (ok : boundedReference ctx ref d = (.ok out,d')) :
    d' = d ∧ (out = ref ∨ out = { ref with q := none }) := by
  unfold boundedReference at ok
  by_cases large : refBytes < ctx.sizes.ref ref
  · simp only [large,if_true] at ok
    split at ok
    · simp at ok
    · obtain ⟨rfl,rfl⟩ := Op.pureOk.mp ok; exact ⟨rfl,.inr rfl⟩
  · simp only [large,if_false] at ok
    obtain ⟨rfl,rfl⟩ := Op.pureOk.mp ok; exact ⟨rfl,.inl rfl⟩

theorem leafRefSpec {env l d d' ref} (a : d.Allocated) (ok : leafRef env l d = (.ok ref,d')) :
    LeafSpec env d d' l ref := by
  simp only [leafRef,Op.bindOk,Op.liftOk] at ok
  obtain ⟨stats,d₁,⟨hs,rfl⟩,stub,d₂,put,bounded⟩ := ok
  have spec := putPageSpec a put
  obtain ⟨rfl,out⟩ := boundedReferenceOk bounded
  -- the summary is the only field the reference budget can drop
  obtain ⟨q,rfl,hq⟩ : ∃ q, ref = ⟨stub,stats,0,q⟩ ∧ (q = none ∨ q = leafSummary env.toContext l) := by
    rcases out with rfl | rfl
    · exact ⟨_,rfl,.inr rfl⟩
    · exact ⟨_,rfl,.inl rfl⟩
  have placed : Placed env.toContext d' ⟨stub,stats,0,q⟩ _ := spec.placed rfl
  refine ⟨spec.grows,⟨rfl,l,placed,hs,hq⟩,PageTree.leavesAtLeaf placed.leafView,by simp,?_⟩
  intro k hk
  rw [mem_singleton] at hk
  rw [hk,spec.next,spec.key]
  simp

structure IndexSpec (env : Env) (d d' : Disk) (h : Nat) (children : List Ref) (ref : Ref) : Prop where
  grows : Grows d d'
  sound : Sound env.toContext d' (h+1) ref
  keys : keysAt d' (h+1) ref.k = ref.k::children.flatMap (fun c => keysAt d h c.k)
  leaves : leavesAt d' (h+1) ref.k = children.flatMap (fun c => leavesAt d h c.k)
  wrote : Wrote d d' [ref.k]

theorem indexRefSpec {env children d d' ref h} (a : d.Allocated)
    (below : ∀ c ∈ children, Sound env.toContext d h c) (few : children.length ≤ fanout)
    (ok : indexRef env children d = (.ok ref,d')) : IndexSpec env d d' h children ref := by
  simp only [indexRef,Op.bindOk,Op.liftOk,Op.pureOk] at ok
  obtain ⟨stub,d₁,put,stats,d₂,⟨hs,rfl⟩,rfl,rfl⟩ := ok
  have spec := putPageSpec a put
  have height : (children.head?.map (fun c => c.h + 1)).getD 1 = h + 1 := by
    cases children with
    | nil => exact absurd rfl (indexStatsNonempty hs)
    | cons c rest => simp [(below c mem_cons_self).height]
  rw [height]
  have placed : Placed env.toContext d' ⟨stub,stats,h+1,none⟩ (.index children) := spec.placed rfl
  refine ⟨spec.grows,⟨rfl,rfl,children,placed,hs,few,fun c mem => (below c mem).grows spec.grows⟩,?_,?_,by simp,?_⟩
  · rw [keysAt,PageTree.keysAtIndex placed.indexView]
    exact congrArg _ (flatMap_congr (fun c mem => (below c mem).keysGrow spec.grows))
  · rw [leavesAt,PageTree.leavesAtIndex placed.indexView]
    exact flatMap_congr (fun c mem => (below c mem).leavesGrow spec.grows)
  intro k hk
  rw [mem_singleton] at hk
  rw [hk,spec.next,spec.key]
  simp

theorem Op.eachSpec {α β : Type} {f} (written : β → List PageKey) (P : α → β → Disk → Prop) {xs ys} (a : d.Allocated)
    (step : ∀ x ∈ xs, ∀ d₁ y d₂, Grows d d₁ → d₁.Allocated → f x d₁ = (.ok y,d₂) →
      Grows d₁ d₂ ∧ Wrote d₁ d₂ (written y) ∧ P x y d₂)
    (stable : ∀ x ∈ xs, ∀ y d₁ d₂, P x y d₁ → Grows d₁ d₂ → P x y d₂)
    (ok : Op.each f xs d = (.ok ys,d')) :
    Grows d d' ∧ Wrote d d' (ys.flatMap written) ∧ List.Forall₂ (fun x y => P x y d') xs ys := by
  induction xs generalizing ys d with
  | nil =>
    obtain ⟨rfl,rfl⟩ := Op.pureOk.mp ok
    exact ⟨.refl _,.none _ _,.nil⟩
  | cons x xs ih =>
    simp only [Op.each,Op.bindOk,Op.pureOk] at ok
    obtain ⟨y,d₁,head,rest,d₂,tail,rfl,rfl⟩ := ok
    obtain ⟨grown,wrote,spec⟩ := step x mem_cons_self d y d₁ (.refl _) a head
    obtain ⟨grown',wrote',specs⟩ := ih (grown.allocated a)
      (fun z mem e y' e' g => step z (mem_cons_of_mem _ mem) e y' e' (grown.trans g))
      (forall_mem_cons.mp stable).2 tail
    refine ⟨grown.trans grown',?_,.cons (stable x mem_cons_self y _ _ spec grown') specs⟩
    exact wrote.append wrote' grown.next grown'.next

def AllSound (ctx : Context) (d : Disk) (refs : List Ref) : Prop := ∀ r ∈ refs, Sound ctx d r.h r
def forestKeys (d : Disk) (refs : List Ref) : List PageKey := refs.flatMap (fun r => keysAt d r.h r.k)
def forestLeaves (d : Disk) (refs : List Ref) : List Listing := refs.flatMap (fun r => leavesAt d r.h r.k)

@[simp] theorem forestKeysAppend (d : Disk) (a b : List Ref) : forestKeys d (a ++ b) = forestKeys d a ++ forestKeys d b :=
  flatMap_append

@[simp] theorem forestLeavesAppend (d : Disk) (a b : List Ref) :
    forestLeaves d (a ++ b) = forestLeaves d a ++ forestLeaves d b := flatMap_append

theorem AllSound.append {ctx d a b} (left : AllSound ctx d a) (right : AllSound ctx d b) : AllSound ctx d (a ++ b) := by
  intro r mem
  rcases mem_append.mp mem with h | h
  · exact left r h
  · exact right r h

theorem AllSound.grows {ctx d d' refs} (s : AllSound ctx d refs) (g : Grows d d') : AllSound ctx d' refs :=
  fun r mem => (s r mem).grows g

theorem AllSound.keysGrow {ctx d d' refs} (s : AllSound ctx d refs) (g : Grows d d') :
    forestKeys d' refs = forestKeys d refs := flatMap_congr (fun r mem => (s r mem).keysGrow g)

theorem AllSound.leavesGrow {ctx d d' refs} (s : AllSound ctx d refs) (g : Grows d d') :
    forestLeaves d' refs = forestLeaves d refs := flatMap_congr (fun r mem => (s r mem).leavesGrow g)

theorem AllSound.allocated {ctx d refs} (s : AllSound ctx d refs) (a : d.Allocated) :
    ∀ k ∈ forestKeys d refs, k.sha < d.next := by
  intro k mem
  obtain ⟨r,hr,hk⟩ := mem_flatMap.mp mem
  exact (s r hr).allocated a k hk

theorem refKeyMem {d refs r} (mem : r ∈ refs) : r.k ∈ forestKeys d refs :=
  mem_flatMap.mpr ⟨r,mem,PageTree.headMem _ _⟩

end Pulso.Journal
