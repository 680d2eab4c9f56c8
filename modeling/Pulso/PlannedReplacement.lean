import Mathlib.Data.List.Dedup
import Mathlib.Data.List.Pairwise
import Pulso.JournalContents

/-! Planned replacement is serializable: a plan made on one root and committed on a later one
either leaves that root alone or does to its contents what the flat replacement does. -/
namespace Pulso.Journal
open List

theorem retireUniq (keys : List Key) (deadline : Nat) : Item.retire (Lists.uniqBy id keys) deadline = Item.retire keys deadline := by
  funext i
  simp only [Item.retire,Lists.uniqMem]

variable {sources : List Key} {replacements : List Segment}

theorem replaceAllCatalog {m items} (deadline : Nat)
    (same : m.catalog.Perm items) (distinct : (names items).Nodup) (some : sources ≠ [])
    (active : ∀ k ∈ sources, Item.active k ∈ items) (absent : ∀ r ∈ replacements, r.key ∉ names items) :
    ∃ m', Manifest.replaceAll m sources replacements deadline = .some m' ∧
      m'.catalog.Perm (items.map (Item.retire sources deadline) ++ (newNames items replacements).map Item.active) := by
  have sameNames : (names m.catalog).Perm (names items) := same.map Item.key
  have inside : ∀ k ∈ sources, k ∈ m.activeKeys := by
    intro k mem
    have listed := same.mem_iff.mpr (active k mem)
    rw [Listing.catalog,mem_append] at listed
    rcases listed with here | there
    · obtain ⟨k',hk,e⟩ := mem_map.mp here
      cases e; exact hk
    · obtain ⟨e,_,bad⟩ := mem_map.mp there
      simp [Item.active,Item.retired] at bad
  have unknown : ∀ r ∈ replacements, r.key ∉ names m.catalog := fun r mem listed =>
    absent r mem (sameNames.mem_iff.mp listed)
  have unknown' : ∀ r ∈ replacements, r.key ∉ m.activeKeys ∧ r.key ∉ m.retired.keys := by
    intro r mem
    have out := unknown r mem
    rw [names,Listing.catalogKeys,mem_append,not_or] at out
    exact out
  have enough : 1 ≤ sources.dedup.length := by
    obtain ⟨k,hk⟩ := exists_mem_of_ne_nil _ some
    exact length_pos_of_mem (mem_dedup.mpr hk)
  refine ⟨_,if_pos ⟨enough,inside,unknown'⟩,?_⟩
  have replaced := replaceCatalog true deadline (sameNames.nodup_iff.mpr distinct) (Lists.uniqNodup sources)
    (fun k mem => inside k (Lists.uniqMem.mp mem)) unknown
  rw [retireUniq,← Manifest.retireAllUniq,newNamesCongr replacements (fun s _ => sameNames.mem_iff)] at replaced
  simp only [Lists.uniqMem] at replaced
  exact replaced.trans ((same.map _).append_right _)

def Under (ctx : Context) (d : Disk) (changes : List Change) (k : Key) : Prop :=
  ∃ c ∈ changes, ∃ r, Sound ctx d r.h r ∧ c.key = r.k ∧ Item.active k ∈ (leavesAt d r.h r.k).flatMap Listing.catalog

theorem Under.grows {ctx d d' changes k} (h : Under ctx d changes k) (g : Grows d d') : Under ctx d' changes k := by
  obtain ⟨c,hc,r,sound,key,active⟩ := h
  exact ⟨c,hc,r,sound.grows g,key,by rw [sound.leavesGrow g]; exact active⟩

theorem currentTop {refs changes} (current : staleFor refs changes = []) {c}
    (mem : c ∈ changes) : c.key ∈ refs.map (fun r => r.k) := by
  by_contra gone
  have stale : c ∈ staleFor refs changes := mem_filter.mpr ⟨mem,by simpa using gone⟩
  rw [current] at stale
  simp at stale

theorem Under.at {ctx d changes refs k} (h : Under ctx d changes k) (s : AllSound ctx d refs)
    (current : staleFor refs changes = []) :
    ∃ r ∈ refs, r.k ∈ changes.map Change.key ∧ Item.active k ∈ (leavesAt d r.h r.k).flatMap Listing.catalog := by
  obtain ⟨c,hc,r,sound,key,active⟩ := h
  obtain ⟨q,hq,same⟩ := mem_map.mp (currentTop current hc)
  have page : q.k = r.k := same.trans key
  have height : q.h = r.h := PageTree.heightUnique (s q hq).complete (page ▸ sound.complete)
  exact ⟨q,hq,same ▸ mem_map_of_mem hc,by rw [page,height]; exact active⟩

variable {deadline minimum : Nat} {k : Key}

theorem updatedSelf {ctx keys l l'} (keyed : l.Keyed)
    (distinct : (names l.catalog).Nodup) (h : Updates ctx (retireStamps keys) (retireLeaf keys deadline) l (some l'))
    (mem : k ∈ keys) : Item.active k ∉ l'.catalog := by
  have moved := h.catalog keyed distinct (fun l once => retireLeafCatalog keys deadline once) retireSelected
  intro listed
  obtain ⟨i,_,same⟩ := mem_map.mp (moved.mem_iff.mp listed)
  have key : i.key = k := by simpa [Item.active] using congrArg Item.key same
  cases i with
  | mk key' retirement =>
    cases key
    cases retirement <;> simp [Item.retire,Item.active,mem] at same

variable {env : Env} {base root : Root} {d d' : Disk} {plan : ReplacePlan}

theorem sourceUnder {paged} (proper : Proper env.toContext d base)
    (spec : ReplacePlanSpec env base sources replacements minimum deadline d d' plan paged) (mem : k ∈ paged) :
    Under env.toContext d plan.changes k := by
  obtain ⟨ts,date,found⟩ := spec.active k mem
  have stamp : stampOf k = ts := by simp [stampOf,date]
  have active : Item.active k ∈ (forestLeaves d base.refs).flatMap Listing.catalog :=
    findOk proper.wf.refs proper.keyed.leaves stamp found
  rw [forestLeaves,flatMap_assoc] at active
  obtain ⟨r,hr,here⟩ := mem_flatMap.mp active
  have inside : ∀ l ∈ leavesAt d r.h r.k, l ∈ forestLeaves d base.refs := fun l hl => mem_flatMap.mpr ⟨r,hr,hl⟩
  by_cases planned : r.k ∈ plan.changes.map Change.key
  · obtain ⟨c,hc,key⟩ := mem_map.mp planned
    exact ⟨c,hc,r,proper.wf.refs r hr,key,here⟩
  exfalso
  obtain ⟨l',hl',listed⟩ := mem_flatMap.mp here
  obtain ⟨l,hl,update⟩ := (spec.changes.quiet r hr planned).backward hl'
  exact updatedSelf (proper.keyed.leaves l (inside l hl)) (leafDistinct proper.pagesDistinct l (inside l hl)) update mem listed

theorem listedOnce {α β γ : Type} {key : β → γ} {f} {xs : List α} (distinct : ((xs.flatMap f).map key).Nodup)
    {x y} (hx : x ∈ xs) (hy : y ∈ xs) {a b} (ha : a ∈ f x) (hb : b ∈ f y) (same : key a = key b) : x = y := by
  rw [map_flatMap,nodup_flatMap] at distinct
  by_contra other
  have symmetric : Std.Symm (Function.onFun List.Disjoint (fun a => (f a).map key)) := ⟨fun _ _ h => h.symm⟩
  have apart := distinct.2.forall hx hy other
  exact apart (mem_map_of_mem ha) (same ▸ mem_map_of_mem hb)

section Commit
variable {ctx : Context} {d d' : Disk} {root root' : Root} {plan : ReplacePlan} {paged : List Key}

theorem committedPages (proper : Proper ctx d root)
    (spec : ReplacedSpec ctx (Updates ctx (retireStamps paged) (retireLeaf paged plan.deadline)) d d' root root' plan)
    (under : ∀ k ∈ paged, Under ctx d plan.changes k) :
    (Journal.paged d' root'.refs).Perm ((Journal.paged d root.refs).map (Item.retire paged plan.deadline)) := by
  let Quiet (l : Listing) : Prop := ∀ k ∈ paged, Item.active k ∉ l.catalog
  have carried : Carries (fun l o => Updates ctx (retireStamps paged) (retireLeaf paged plan.deadline) l o ∨ (o = some l ∧ Quiet l))
      (forestLeaves d root.refs) (forestLeaves d' root'.refs) := by
    refine spec.commit.leaves _ (fun _ _ h => .inl h) (fun r hr unplanned => Carries.same (fun l hl => .inr ⟨rfl,?_⟩))
    intro k mem listed
    obtain ⟨q,hq,planned,active⟩ := (under k mem).at proper.wf.refs spec.current
    have distinct := proper.pagesDistinct
    rw [Journal.paged,forestLeaves,flatMap_assoc] at distinct
    have same : q = r := listedOnce distinct hq hr active (mem_flatMap.mpr ⟨l,hl,listed⟩) rfl
    exact unplanned (same ▸ planned)
  rw [Journal.paged,Journal.paged,map_flatMap]
  refine carried.flatMapPerm (fun l mem l' step => ?_) (fun l mem step => ?_)
  · have once := leafDistinct proper.pagesDistinct l mem
    rcases step with update | ⟨same,quiet⟩
    · exact update.catalog (proper.keyed.leaves l mem) once (fun l once => retireLeafCatalog paged plan.deadline once) retireSelected
    cases same
    refine .of_eq ((map_id _).symm.trans (map_congr_left (fun i hi => ?_)))
    obtain ⟨key,retirement⟩ := i
    cases retirement with
    | some r => exact (Item.retireRetired paged plan.deadline (key,r)).symm
    | none => exact (Item.retireFixed (fun mem => quiet key mem hi)).symm
  · rcases step with update | ⟨same,_⟩
    · obtain ⟨_,none⟩ := update.some
      simp at none
    · simp at same

structure Serial (d d' : Disk) (root root' : Root) (sources : List Key) (replacements : List Segment) (deadline : Nat) : Prop where
  active : ∀ k ∈ sources, Item.active k ∈ catalog d root
  absent : ∀ r ∈ replacements, r.key ∉ names (catalog d root)
  result : (catalog d' root').Perm ((catalog d root).map (Item.retire sources deadline) ++
    (newNames (catalog d root) replacements).map Item.active)

theorem committedSerial (proper : Proper ctx d root) (once : plan.inline.Nodup)
    (spec : ReplacedSpec ctx (Updates ctx (retireStamps paged) (retireLeaf paged plan.deadline)) d d' root root' plan)
    (under : ∀ k ∈ paged, Under ctx d plan.changes k) (absent : ∀ r ∈ plan.replacements, r.key ∉ names (catalog d root)) :
    Serial d d' root root' (plan.inline ++ paged) plan.replacements plan.deadline := by
  have inTail : ∀ k ∈ plan.inline, Item.active k ∈ root.toListing.catalog := fun k mem =>
    mem_append_left _ (mem_map_of_mem (spec.inline k mem))
  have inPages : ∀ k ∈ paged, Item.active k ∈ Journal.paged d root.refs := by
    intro k mem
    obtain ⟨q,hq,_,active⟩ := (under k mem).at proper.wf.refs spec.current
    rw [Journal.paged,forestLeaves,flatMap_assoc]
    exact mem_flatMap.mpr ⟨q,hq,active⟩
  have apart : ∀ i ∈ root.toListing.catalog, ∀ j ∈ Journal.paged d root.refs, i.key ≠ j.key := by
    intro i hi j hj same
    have distinct := proper.distinct
    rw [catalog,namesAppend] at distinct
    exact (nodup_append.mp distinct).2.2 _ (mem_map_of_mem hi) _ (mem_map_of_mem hj) same
  have tail : root.toListing.catalog.map (Item.retire plan.inline plan.deadline) =
      root.toListing.catalog.map (Item.retire (plan.inline ++ paged) plan.deadline) := by
    refine map_congr_left (fun i hi => ?_)
    have out : i.key ∉ paged := fun mem => apart i hi _ (inPages _ mem) rfl
    simp [Item.retire,out]
  have pages : (Journal.paged d root.refs).map (Item.retire paged plan.deadline) =
      (Journal.paged d root.refs).map (Item.retire (plan.inline ++ paged) plan.deadline) := by
    refine map_congr_left (fun j hj => ?_)
    have out : j.key ∉ plan.inline := fun mem => apart _ (inTail _ mem) j hj rfl
    simp [Item.retire,out]
  refine ⟨fun k mem => ?_,absent,?_⟩
  · rcases mem_append.mp mem with inline | below
    · exact mem_append_left _ (inTail k inline)
    · exact mem_append_right _ (inPages k below)
  have listed := replaceCatalog false plan.deadline proper.tailDistinct once spec.inline (unlisted spec.unknown)
  have fresh : newNames root.toListing.catalog plan.replacements = newNames (catalog d root) plan.replacements := by
    refine newNamesCongr _ (fun x mem => ⟨fun here => ?_,fun here => absurd here (absent x mem)⟩)
    rw [catalog,namesAppend]
    exact mem_append_left _ here
  rw [← spec.listing,tail,fresh] at listed
  have below := committedPages proper spec under
  rw [pages] at below
  refine (listed.append below).trans ?_
  rw [catalog,map_append,append_assoc,append_assoc]
  exact perm_append_comm.append_left _

end Commit

/- Segment keys are generated once: no one else uses the plan's replacement keys, and no other
replacement takes the name of a source. Ingest rejects records below the retention floor. -/
def Fair (sources : List Key) (plan : ReplacePlan) (s : State) (e : Event) : Prop :=
  Honest s e ∧ match e with
    | .registered segments => ∀ x ∈ segments, x.key ∉ plan.replacements.map Segment.key ∧ ∀ f ∈ s.root.paging.rf, f ≤ x.maxTs
    | .replaced other => other ≠ plan → ∀ x ∈ other.replacements, x.key ∉ sources ∧ x.key ∉ plan.replacements.map Segment.key
    | _ => True

theorem Fair.reserved {sources s e} (fair : Fair sources plan s e)
    (own : ∀ x ∈ plan.replacements, x.key ∉ sources) (source : k ∈ sources) : Reserved k s e := by
  refine ⟨fair.1,?_⟩
  cases e with
  | registered segments => exact fun x mem => (fair.2 x mem).2
  | replaced other =>
    intro listed
    obtain ⟨x,hx,rfl⟩ := mem_map.mp listed
    by_cases same : other = plan
    · exact own x (same ▸ hx) source
    · exact (fair.2 same x hx).1 source
  | _ => trivial

structure Gone (k : PageKey) (s : State) : Prop where
  drawn : k.sha < s.disk.next
  unlisted : k ∉ s.root.refs.map (fun r => r.k)
  unplanned : k ∉ s.plans.flatMap Plan.written

theorem Gone.moves {k s s'} (h : Gone k s) (m : Moves s s') : Gone k s' := by
  have old : ¬ s.disk.next ≤ k.sha := Nat.not_le.mpr h.drawn
  refine ⟨h.drawn.trans_le m.grows.next,fun listed => ?_,fun planned => ?_⟩
  · obtain ⟨r,hr,rfl⟩ := mem_map.mp listed
    exact (m.tops r hr).elim h.unlisted (fun rest => rest.elim h.unplanned old)
  · exact (m.plans k planned).elim h.unplanned old

structure Landed (sources : List Key) (plan : ReplacePlan) (s : State) : Prop where
  pages : ∀ c ∈ plan.changes, Gone c.key s
  sources : ∀ k ∈ sources, Buried k s

structure Checked (root : Root) (plan : ReplacePlan) : Prop where
  inline : ∀ k ∈ plan.inline, k ∈ root.activeKeys
  unknown : ∀ r ∈ plan.replacements, r.key ∉ root.activeKeys ∧ r.key ∉ root.retired.keys
  current : staleFor root.refs plan.changes = []

/- The superseded pages overflow the inline garbage list and its gc page is refused. -/
def GcRefused (env : Env) (root : Root) (plan : ReplacePlan) (e : Fail) : Prop :=
  gcInline < root.paging.g.length + ((appliedTo root.refs plan.changes).flatMap Change.superseded).length ∧
    ((e = .manifestGcBacklog ∧ gcRefs ≤ root.paging.gr.length) ∨ e = .manifestCapacity ∨ ∃ key, env.put key = some e)

variable {e : Fail}

theorem putPageError {page kind payload} (failed : putPage env page kind payload d = (.error e,d')) :
    (e = .manifestCapacity ∨ ∃ key, env.put key = some e) ∧ Grows d d' := by
  unfold putPage at failed
  dsimp only at failed
  split at failed
  · cases failed; exact ⟨.inl rfl,.refl _⟩
  split at failed
  · rename_i reason refused
    cases failed
    exact ⟨.inr ⟨_,refused⟩,.refl _,Nat.le_succ _,fun a k stored page => Nat.lt_succ_of_lt (a k stored page)⟩
  · simp at failed

theorem supersedeError {keys} (a : d.Allocated) (failed : supersede env root keys deadline d = (.error e,d')) :
    gcInline < root.paging.g.length + keys.length ∧
      ((e = .manifestGcBacklog ∧ gcRefs ≤ root.paging.gr.length) ∨ e = .manifestCapacity ∨ ∃ key, env.put key = some e) ∧
      Grows d d' := by
  unfold supersede at failed
  split at failed
  · exact (Op.pureError.mp failed).elim
  dsimp only at failed
  split at failed
  · exact (Op.pureError.mp failed).elim
  rename_i exceeds
  rw [length_append,length_map,Nat.not_le] at exceeds
  refine ⟨exceeds,?_⟩
  simp only [Op.bindError,Op.requireError,Op.pureError,and_false,exists_false,or_false] at failed
  rcases failed with refused | ⟨stub,d₁,put,full,rfl,rfl⟩
  · obtain ⟨reason,grows⟩ := putPageError refused
    exact ⟨.inr reason,grows⟩
  · exact ⟨.inl ⟨rfl,Nat.le_of_not_lt full⟩,(putPageSpec a put).grows⟩

theorem commitReplaceError (a : d.Allocated) (failed : commitReplace env root plan d = (.error e,d')) :
    (e = .compactionConflict ∨ (Checked root plan ∧ GcRefused env root plan e)) ∧ Grows d d' := by
  simp only [commitReplace,Op.bindError,Op.requireError,Op.requireOk] at failed
  rcases failed with ⟨-,rfl,rfl⟩ | ⟨-,d₁,⟨inline,rfl⟩,⟨-,rfl,rfl⟩ | ⟨-,d₂,⟨unknown,rfl⟩,⟨-,rfl,rfl⟩ | ⟨-,d₃,⟨current,rfl⟩,refused |
    ⟨mid,d₄,-,touched⟩⟩⟩⟩
  · exact ⟨.inl rfl,.refl _⟩
  · exact ⟨.inl rfl,.refl _⟩
  · exact ⟨.inl rfl,.refl _⟩
  · obtain ⟨exceeds,reason,grows⟩ := supersedeError a refused
    exact ⟨.inr ⟨⟨inline,unknown,length_eq_zero_iff.mp current⟩,exceeds,reason⟩,grows⟩
  · simp [touch,Op.bindError,nonce,Op.pureError] at touched

theorem commitReplaceChecked {root'} (ok : commitReplace env root plan d = (.ok root',d')) : Checked root plan := by
  simp only [commitReplace,Op.bindOk,Op.requireOk] at ok
  obtain ⟨_,d₁,⟨inline,rfl⟩,_,d₂,⟨unknown,rfl⟩,_,d₃,⟨current,rfl⟩,_⟩ := ok
  exact ⟨inline,unknown,length_eq_zero_iff.mp current⟩

theorem uncheckedRefused (env : Env) (a : d.Allocated) (unchecked : ¬ Checked root plan) :
    ∃ d', commitReplace env root plan d = (.error .compactionConflict,d') := by
  cases tried : commitReplace env root plan d with
  | mk out d' =>
    cases out with
    | ok root' => exact absurd (commitReplaceChecked tried) unchecked
    | error e =>
      rcases (commitReplaceError a tried).1 with rfl | ⟨checked,_⟩
      · exact ⟨d',rfl⟩
      · exact absurd checked unchecked

theorem landedUnchecked {ctx s sources} {paged : List Key} (landed : Landed sources plan s)
    (proper : Proper ctx s.disk s.root) (some : sources ≠ []) (split : ∀ k ∈ sources, k ∈ plan.inline ∨ k ∈ paged)
    (under : ∀ k ∈ paged, Under ctx s.disk plan.changes k) : ¬ Checked s.root plan := by
  intro checked
  obtain ⟨k,hk⟩ := exists_mem_of_ne_nil _ some
  rcases split k hk with tail | below
  · exact (landed.sources k hk).inactive proper (checked.inline k tail)
  · obtain ⟨c,hc,_⟩ := under k below
    exact (landed.pages c hc).unlisted (currentTop checked.current hc)

variable {s s' : State}

section Watch
variable {ctx : Context} {sources paged : List Key} {plan : ReplacePlan}

structure Watched (plan : ReplacePlan) (s : State) : Prop where
  outstanding : .replace plan ∈ s.plans
  absent : ∀ r ∈ plan.replacements, r.key ∉ names (catalog s.disk s.root)

structure Prepared (ctx : Context) (sources paged : List Key) (plan : ReplacePlan) (d : Disk) : Prop where
  changes : PlanOk ctx (Updates ctx (retireStamps paged) (retireLeaf paged plan.deadline)) d plan.changes
  under : ∀ k ∈ paged, Under ctx d plan.changes k
  split : ∀ k, k ∈ sources ↔ k ∈ plan.inline ++ paged
  once : plan.inline.Nodup
  some : sources ≠ []
  own : ∀ r ∈ plan.replacements, r.key ∉ sources

theorem Prepared.grows {d d'} (p : Prepared ctx sources paged plan d) (g : Grows d d') : Prepared ctx sources paged plan d' :=
  ⟨p.changes.grows g,fun k mem => (p.under k mem).grows g,p.split,p.once,p.some,p.own⟩

theorem Serial.renamed {d d' root root' replacements deadline a b}
    (h : Serial d d' root root' a replacements deadline) (same : ∀ k, k ∈ b ↔ k ∈ a) :
    Serial d d' root root' b replacements deadline := by
  have retire : Item.retire b deadline = Item.retire a deadline := by
    funext i
    simp only [Item.retire,same]
  exact ⟨fun k mem => h.active k ((same k).mp mem),h.absent,by rw [retire]; exact h.result⟩

theorem commitSerial {root'} (same : env.toContext = ctx) (h : Healthy ctx s)
    (p : Prepared ctx sources paged plan s.disk) (w : Watched plan s)
    (ok : commitReplace env s.root plan s.disk = (.ok root',d')) :
    Serial s.disk d' s.root root' sources plan.replacements plan.deadline ∧
      ∀ rest, s.plans.Perm (.replace plan::rest) → Landed sources plan (s.publish root' d' rest) := by
  subst same
  obtain ⟨front,back,place⟩ := append_of_mem w.outstanding
  have mine : s.plans.Perm (.replace plan::(front ++ back)) := by rw [place]; exact perm_middle
  have spec := commitReplaceSpec h.owned.wf p.changes (h.owned.ownPlan mine) ok
  have serial := (committedSerial h.proper p.once spec p.under w.absent).renamed p.split
  refine ⟨serial,fun rest taken => ⟨fun c mem => ?_,fun k mem => ?_⟩⟩
  · obtain ⟨n,drawn,older,newer⟩ := p.changes.since
    have age := older c mem
    have top := currentTop spec.current mem
    refine ⟨(age.trans_le drawn).trans_le spec.commit.grows.next,fun listed => ?_,fun planned => ?_⟩
    · obtain ⟨r,hr,key⟩ := mem_map.mp listed
      rcases spec.commit.tops r hr with ⟨_,kept⟩ | written
      · exact kept (key ▸ mem_map_of_mem mem)
      have := newer _ written
      rw [key] at this
      omega
    · obtain ⟨r,hr,key⟩ := mem_map.mp top
      have live : c.key ∈ forestKeys s.disk s.root.refs := mem_flatMap.mpr ⟨r,hr,key ▸ PageTree.headMem r.h r.k⟩
      have elsewhere : c.key ∈ s.plans.flatMap Plan.written := by
        rw [(taken.flatMap_right Plan.written).mem_iff,flatMap_cons]
        exact mem_append_right _ planned
      exact (nodup_append.mp h.owned.distinct).2.2 _ (mem_append_left _ live) _ elsewhere rfl
  · refine .inl ⟨.new plan.deadline,serial.result.mem_iff.mpr (mem_append_left _ ?_)⟩
    refine mem_map.mpr ⟨_,serial.active k mem,?_⟩
    simp [Item.retire,Item.active,Item.retired,mem]

theorem stepPlans {e p} (step : Step ctx s e s') (mem : p ∈ s.plans) :
    p ∈ s'.plans ∨ ∀ q, p = .replace q → e = .replaced q := by
  have taken : ∀ {q : Plan} {rest : List Plan}, s.plans.Perm (q::rest) → p = q ∨ p ∈ rest := fun perm =>
    mem_cons.mp (perm.mem_iff.mp mem)
  cases step with
  | wasted => exact .inl mem
  | register => exact .inl mem
  | sealed => exact .inl mem
  | planReplace => exact .inl (mem_cons_of_mem _ mem)
  | planCleanup => exact .inl (mem_cons_of_mem _ mem)
  | expirePlan => exact .inl (mem_cons_of_mem _ mem)
  | commitReplace same perm ok =>
    rcases taken perm with rfl | rest
    · exact .inr (fun q same => by cases same; rfl)
    · exact .inl rest
  | applyCleanup same perm ok =>
    rcases taken perm with rfl | rest
    · exact .inr (fun q same => by cases same)
    · exact .inl rest
  | applyExpiry same perm ok =>
    rcases taken perm with rfl | rest
    · exact .inr (fun q same => by cases same)
    · exact .inl rest

variable (h : Healthy ctx s)
include h

theorem landedStep {e} (landed : Landed sources plan s)
    (fair : Fair sources plan s e) (own : ∀ r ∈ plan.replacements, r.key ∉ sources) (step : Step ctx s e s') :
    Landed sources plan s' :=
  ⟨fun c mem => (landed.pages c mem).moves (stepMoves h.owned step),
    fun k mem => (landed.sources k mem).step h (fair.reserved own mem) step⟩

variable (p : Prepared ctx sources paged plan s.disk)
include p

theorem watchedStep {e}
    (w : Watched plan s) (fair : Fair sources plan s e) (step : Step ctx s e s') : Watched plan s' ∨ Landed sources plan s' := by
  by_cases mine : e = .replaced plan
  · subst mine
    cases step with
    | commitReplace same taken ok => exact .inr ((commitSerial same h p w ok).2 _ taken)
  refine .inl ⟨(stepPlans step w.outstanding).resolve_right (fun taken => mine (taken plan rfl)),fun r mem listed => ?_⟩
  have new := ((stepHealthy h fair.1 step).2.names listed).resolve_left (w.absent r mem)
  cases e with
  | registered segments =>
    obtain ⟨x,hx,same⟩ := newNamesFrom new
    exact (fair.2 x hx).1 (same ▸ mem_map_of_mem mem)
  | replaced other =>
    obtain ⟨x,hx,same⟩ := newNamesFrom new
    have different : other ≠ plan := fun equal => mine (equal ▸ rfl)
    exact (fair.2 different x hx).2 (same ▸ mem_map_of_mem mem)
  | _ => simp [added] at new

theorem planFollowed (now : Watched plan s ∨ Landed sources plan s) (run : Reaches ctx (Fair sources plan) s s') :
    Healthy ctx s' ∧ Prepared ctx sources paged plan s'.disk ∧ (Watched plan s' ∨ Landed sources plan s') := by
  refine run.keeps (I := fun s => Prepared ctx sources paged plan s.disk ∧ (Watched plan s ∨ Landed sources plan s)) h
    (fun _ _ fair => fair.1) ⟨p,now⟩ ?_
  rintro s e s' h ⟨p,now⟩ fair step
  refine ⟨p.grows (stepMoves h.owned step).grows,?_⟩
  rcases now with w | landed
  · exact watchedStep h p w fair step
  · exact .inr (landedStep h landed fair p.own step)

theorem landedFollowed (landed : Landed sources plan s) (run : Reaches ctx (Fair sources plan) s s') :
    Healthy ctx s' ∧ Prepared ctx sources paged plan s'.disk ∧ Landed sources plan s' := by
  refine run.keeps (I := fun s => Prepared ctx sources paged plan s.disk ∧ Landed sources plan s) h
    (fun _ _ fair => fair.1) ⟨p,landed⟩ ?_
  rintro s e s' h ⟨p,landed⟩ fair step
  exact ⟨p.grows (stepMoves h.owned step).grows,landedStep h landed fair p.own step⟩

end Watch

structure Serialized (ctx : Context) (d d' : Disk) (root root' : Root) (sources : List Key) (replacements : List Segment)
    (deadline : Nat) : Prop where
  active : ∀ k ∈ sources, Item.active k ∈ catalog d root
  retired : ∀ k ∈ sources, Item.retired (k,.new deadline) ∈ catalog d' root'
  added : ∀ r ∈ replacements, Item.active r.key ∈ catalog d' root'
  rest : ∀ i : Item, i.key ∉ sources → i.key ∉ replacements.map Segment.key → (i ∈ catalog d' root' ↔ i ∈ catalog d root)
  once : (names (catalog d' root')).Nodup
  flat : ∀ (reader : Env) maxBytes m, reader.toContext = ctx → materialize reader root maxBytes d = .ok m →
    ∃ replaced, Manifest.replaceAll m sources replacements deadline = some replaced ∧
      ∀ (reader' : Env) maxBytes' m', reader'.toContext = ctx → materialize reader' root' maxBytes' d' = .ok m' →
        m'.activeKeys.Perm replaced.activeKeys ∧ ∀ k, m'.retired.get? k = replaced.retired.get? k

theorem serialized {ctx d d' root root' sources replacements deadline} (proper : Proper ctx d root)
    (sound : AllSound ctx d' root'.refs) (some : sources ≠ [])
    (serial : Serial d d' root root' sources replacements deadline) :
    Serialized ctx d d' root root' sources replacements deadline := by
  have new : ∀ k, k ∈ newNames (catalog d root) replacements ↔ k ∈ replacements.map Segment.key := by
    intro k
    constructor
    · intro mem
      obtain ⟨x,hx,rfl⟩ := newNamesFrom mem
      exact mem_map_of_mem hx
    intro mem
    obtain ⟨x,hx,rfl⟩ := mem_map.mp mem
    exact mem_filter.mpr ⟨Lists.uniqByKeys.mpr (mem_map_of_mem hx),by simpa using serial.absent x hx⟩
  have resultNames := serial.result.map Item.key
  rw [← names,← names,namesAppend,activeNames,namesMap _ (Item.retireKey sources deadline)] at resultNames
  have once : (names (catalog d' root')).Nodup := by
    refine resultNames.nodup_iff.mpr (nodup_append.mpr ⟨proper.distinct,(Lists.uniqByNodup replacements).filter _,?_⟩)
    rintro k old k' fresh rfl
    obtain ⟨x,hx,rfl⟩ := newNamesFrom fresh
    exact serial.absent x hx old
  refine ⟨serial.active,fun k mem => ?_,fun r mem => ?_,fun i unsourced unadded => ?_,once,fun reader maxBytes m context ok => ?_⟩
  · refine serial.result.mem_iff.mpr (mem_append_left _ (mem_map.mpr ⟨_,serial.active k mem,?_⟩))
    simp [Item.retire,Item.active,Item.retired,mem]
  · exact serial.result.mem_iff.mpr (mem_append_right _ (mem_map_of_mem ((new _).mpr (mem_map_of_mem mem))))
  · rw [serial.result.mem_iff,mem_append]
    constructor
    · rintro (kept | added)
      · obtain ⟨j,hj,rfl⟩ := mem_map.mp kept
        rw [Item.retireKey] at unsourced
        rw [Item.retireFixed unsourced]
        exact hj
      · obtain ⟨k,hk,rfl⟩ := mem_map.mp added
        exact absurd ((new k).mp hk) unadded
    · exact fun mem => .inl (mem_map.mpr ⟨i,mem,Item.retireFixed unsourced⟩)
  · have here : m.catalog.Perm (catalog d root) := materializeOk (context ▸ proper.wf.refs) proper.distinct ok
    obtain ⟨replaced,done,contents⟩ := replaceAllCatalog deadline here proper.distinct some serial.active serial.absent
    refine ⟨replaced,done,fun reader' maxBytes' m' context' ok' => ?_⟩
    have there : m'.catalog.Perm (catalog d' root') := materializeOk (context' ▸ sound) once ok'
    exact sameCatalog (there.trans (serial.result.trans contents.symm))

theorem planPrepared (proper : Proper env.toContext d base) (least : 1 ≤ minimum)
    (dated : ∀ r ∈ replacements, r.EncodesBounds)
    (ok : planReplace env base sources replacements minimum deadline d = (.ok plan,d')) :
    plan.replacements = replacements ∧ plan.deadline = deadline ∧
      ∃ paged, Prepared env.toContext sources paged plan d' := by
  obtain ⟨paged,spec⟩ := planReplaceSpec proper.wf ok
  have split : ∀ k, k ∈ sources ↔ k ∈ plan.inline ++ paged := by
    intro k
    rw [spec.inline,spec.rest,mem_append,mem_filter,mem_filter,Lists.uniqMem]
    by_cases tail : k ∈ base.activeKeys <;> simp [tail]
  have listed : ∀ k ∈ sources, k ∈ names (catalog d base) := by
    intro k mem
    rcases mem_append.mp ((split k).mp mem) with inline | below
    · rw [spec.inline] at inline
      have tail : k ∈ base.activeKeys := by simpa using (mem_filter.mp inline).2
      rw [catalog,namesAppend,names,Listing.catalogKeys]
      exact mem_append_left _ (mem_append_left _ tail)
    · obtain ⟨ts,date,found⟩ := spec.active k below
      have stamp : stampOf k = ts := by simp [stampOf,date]
      have active := findOk proper.wf.refs proper.keyed.leaves stamp found
      rw [catalog,namesAppend]
      exact mem_append_right _ (mem_map_of_mem active)
  refine ⟨spec.fields.1,spec.fields.2,paged,?_,?_,split,by rw [spec.inline]; exact (Lists.uniqNodup sources).filter _,?_,?_⟩
  · rw [spec.fields.2]; exact spec.changes.plan
  · exact fun k mem => (sourceUnder proper spec mem).grows spec.changes.grows
  · rintro rfl
    have none := spec.enough
    simp [Lists.uniqBy,Lists.uniqFrom] at none
    omega
  · rw [spec.fields.1]
    intro r mem source
    exact lookupOk proper.wf.refs proper.keyed.leaves (keyedStamp (dated r mem).keyed) (spec.absent r mem) (listed _ source)

theorem plannedHealthy {ctx} (h : Healthy ctx s) (known : base ∈ s.past) (same : env.toContext = ctx)
    (planned : planReplace env base sources replacements minimum deadline s.disk = (.ok plan,d')) :
    Healthy ctx ⟨d',s.root,s.past,.replace plan::s.plans⟩ ∧ Grows s.disk d' := by
  have step : Step ctx s (.planned (.replace plan)) _ := .planReplace same known planned
  have honest : Honest s (.planned (.replace plan)) := trivial
  exact ⟨(stepHealthy h honest step).1,(stepMoves h.owned step).grows⟩

namespace Sample

def third : Segment := plain (keyOf "00000000000000000003-00000000000000000004-compact-c") 3 4

def settled : State := opening.publish spilled.1 spilled.2 []
def drafted : ReplacePlan × Disk := ((planReplace bulky spilled.1 [second.key] [third] 1 20).done spilled.2).get (by decide +kernel)
def committed : Root × Disk := ((commitReplace bulky spilled.1 drafted.1).done drafted.2).get (by decide +kernel)

theorem settledReached : Reaches bulky.toContext Honest opening settled := .single ⟨.sealed,trivial,.sealed rfl (Op.doneOk _)⟩

def gcKey (i : Nat) : PageKey := ⟨scope.journal,spilled.2.next + i,.gc⟩
def oldKey (i : Nat) : PageKey := ⟨scope.journal,spilled.2.next + gcRefs + i,.leaf⟩
def gcDisk : Disk :=
  ⟨fun k => if k.kind = .gc ∧ k.journal = scope.journal ∧ spilled.2.next ≤ k.sha ∧ k.sha < spilled.2.next + gcRefs
    then some ⟨.gc [oldKey (gcInline + k.sha)],1⟩ else spilled.2.pages k,spilled.2.next + 2 * gcRefs + gcInline⟩
def fullGr (n : Nat) : List GcRef := (List.range n).map (fun i => ⟨⟨gcKey i,1,spilled.2.next + i⟩,15,1⟩)
def fullG (n : Nat) : List GcEntry := (List.range n).map (fun i => ⟨oldKey i,15⟩)
def crowded : Root := { spilled.1 with paging := { spilled.1.paging with g := fullG gcInline, gr := fullGr gcRefs } }
def blocked : ReplacePlan × Disk := ((planReplace bulky crowded [second.key] [third] 1 20).done gcDisk).get (by decide +kernel)

theorem fullGrPlaced {n} (le : n ≤ gcRefs) : GcSound bulky.toContext gcDisk (fullGr n) := by
  intro r mem
  obtain ⟨i,hi,rfl⟩ := mem_map.mp mem
  have small : i < gcRefs := (mem_range.mp hi).trans_le le
  refine ⟨⟨[oldKey (gcInline + (spilled.2.next + i))],?_⟩,rfl,rfl,rfl,by simp [pageLimit]⟩
  have here : spilled.2.next + i < spilled.2.next + gcRefs := by omega
  simp [gcDisk,gcKey,here]

theorem crowdedProper : Proper bulky.toContext gcDisk crowded := by
  have before := (reachHealthy (beginsHealthy openingBegins) (fun _ _ h => h) settledReached).proper
  have grows : Grows settled.disk gcDisk := by
    refine ⟨fun k stored page => ?_,by simp [settled,State.publish,gcDisk]; omega,fun a k stored page => ?_⟩
    · have old := before.wf.allocated k stored page
      have low : k.sha < spilled.2.next := old
      have out : ¬ (k.kind = .gc ∧ k.journal = scope.journal ∧ spilled.2.next ≤ k.sha ∧ k.sha < spilled.2.next + gcRefs) := by omega
      simp only [gcDisk,if_neg out]
      exact page
    · simp only [gcDisk] at page ⊢
      split at page
      · rename_i here
        omega
      have := a k stored page
      simp only [settled,State.publish] at this
      omega
  have after := before.grows grows
  have full : GcSound bulky.toContext gcDisk crowded.paging.gr := by
    simp only [crowded]
    exact fullGrPlaced (Nat.le_refl gcRefs)
  exact ⟨⟨after.wf.allocated,after.wf.refs,full,after.wf.distinct⟩,{ after.keyed with },after.distinct⟩

end Sample

end Pulso.Journal
