import Pulso.JournalContents

/-! Cleanup against keyed retries: a pass marks a retirement deleted only as it saw it, and a
retry raises the revision, so an object uploaded again stays due for deletion. -/
namespace Pulso.Journal
open List

section Collect
variable {env : Env} {now : Nat} {d : Disk}

theorem dueInMem {retired e} (mem : e ∈ dueIn now retired) : e ∈ retired.entries ∧ e.2.due now = true := by
  have inside := (perm_insertionSort _ _).mem_iff.mp mem
  exact mem_filter.mp inside

theorem dueSweepMem {visit refs left found} (ok : dueSweep now visit refs left d = .ok found) {e} (mem : e ∈ found) :
    ∃ r ∈ refs, ∃ n part, visit r n d = .ok part ∧ e ∈ part := by
  induction refs generalizing left found with
  | nil => cases ok; simp at mem
  | cons r rest ih =>
    unfold dueSweep at ok
    split at ok
    · obtain ⟨part,seen,ok⟩ := Results.bindOk ok
      obtain ⟨others,more,ok⟩ := Results.bindOk ok
      cases ok
      rcases mem_append.mp mem with here | later
      · exact ⟨r,mem_cons_self,left,part,seen,here⟩
      · obtain ⟨q,hq,rest'⟩ := ih more later
        exact ⟨q,mem_cons_of_mem _ hq,rest'⟩
    · obtain ⟨q,hq,rest'⟩ := ih ok mem
      exact ⟨q,mem_cons_of_mem _ hq,rest'⟩

theorem duePagedMem {h ref left found} (s : Sound env.toContext d h ref)
    (ok : duePaged env now h ref left d = .ok found) {e} (mem : e ∈ found) :
    Item.retired e ∈ (leavesAt d h ref.k).flatMap Listing.catalog ∧ e.2.due now = true := by
  induction h generalizing ref left found with
  | zero =>
    unfold duePaged at ok
    split at ok
    · simp at ok
    rename_i leaf read
    cases ok
    obtain ⟨listed,due⟩ := dueInMem (mem_of_mem_take mem)
    have content : leavesAt d 0 ref.k = [leaf] := PageTree.leavesAtLeaf (by simp [Disk.view,(readLeafOk read).1])
    rw [content]
    exact ⟨mem_flatMap.mpr ⟨leaf,mem_singleton.mpr rfl,mem_append_right _ (mem_map_of_mem listed)⟩,due⟩
  | succ h ih =>
    unfold duePaged at ok
    split at ok
    · simp at ok
    rename_i children read
    obtain ⟨c,hc,n,part,seen,here⟩ := dueSweepMem ok mem
    have height : ref.h = h + 1 := s.height
    have s' : Sound env.toContext d ref.h ref := height ▸ s
    obtain ⟨below,leaves⟩ := indexChildren s' (by omega) read
    obtain ⟨sound,step⟩ := below c hc
    have same : c.h = h := by omega
    obtain ⟨inside,due⟩ := ih (same ▸ sound) seen here
    rw [← height,← leaves,forestLeaves,flatMap_assoc]
    exact ⟨mem_flatMap.mpr ⟨c,hc,same ▸ inside⟩,due⟩

theorem cleanupPlanRetired {root maximum c} (s : AllSound env.toContext d root.refs)
    (ok : cleanupPlan env root now maximum d = .ok c) {e} (mem : e ∈ c.retired) :
    Item.retired e ∈ catalog d root ∧ e.2.due now = true := by
  simp only [cleanupPlan,bind,Except.bind] at ok
  split at ok
  · simp at ok
  rename_i paged found
  split at ok
  · simp at ok
  cases ok
  have inDue : e ∈ sortDue ((dueIn now root.retired).take (4 * maximum) ++ paged) := by
    have rotated := mem_of_mem_take mem
    rcases mem_append.mp rotated with late | early
    · exact (dropWhile_sublist _).subset late
    · exact ( takeWhile_prefix _).sublist.subset early
  have either := (perm_insertionSort _ _).mem_iff.mp inDue
  rcases mem_append.mp either with inline | below
  · obtain ⟨listed,due⟩ := dueInMem (mem_of_mem_take inline)
    exact ⟨mem_append_left _ (mem_append_right _ (mem_map_of_mem listed)),due⟩
  obtain ⟨r,hr,n,part,seen,here⟩ := dueSweepMem found below
  obtain ⟨inside,due⟩ := duePagedMem (s r hr) seen here
  refine ⟨mem_append_right _ ?_,due⟩
  rw [Journal.paged,forestLeaves,flatMap_assoc]
  exact mem_flatMap.mpr ⟨r,hr,inside⟩

end Collect

def Newest (k : Key) (s : State) : Prop :=
  ∀ base ∈ s.past, ∀ old, Item.retired (k,old) ∈ catalog s.disk base →
    (∃ r, Item.retired (k,r) ∈ catalog s.disk s.root ∧ old.revision ≤ r.revision) ∨
      (k ∉ names (catalog s.disk s.root) ∧ ∃ f ∈ s.root.paging.rf, stampOf k < f)

theorem retiredItem {j k r} (key : j.key = k) (retired : j.retirement = some r) : j = Item.retired (k,r) := by
  obtain ⟨_,_⟩ := j
  cases key; cases retired
  rfl

theorem Newest.step {ctx s e s' k} (h : Newest k s) (healthy : Healthy ctx s) (kept : Reserved k s e)
    (step : Step ctx s e s') : Newest k s' := by
  have moves := stepMoves healthy.owned step
  intro base published old listed
  rcases moves.recent base published with before | rfl
  · rw [catalogGrow (healthy.roots base before).wf.refs moves.grows] at listed
    rcases h base before old listed with ⟨r,now,le⟩ | ⟨absent,f,floor,early⟩
    · rcases (stepHealthy healthy kept.1 step).2.settled healthy.proper.distinct now with ⟨dropped,gone⟩ | ⟨j,hj,fate⟩
      · obtain ⟨floor,deadline,changes,rfl,_,_,_,early⟩ := fateNone dropped
        exact .inr ⟨gone,_,expiredFloor healthy.owned step,early⟩
      obtain ⟨r',retired,rises⟩ := fateRetired fate (r := r) rfl
      rw [retiredItem (fateKey fate) retired] at hj
      exact .inl ⟨r',hj,le.trans rises⟩
    · exact .inr (forgottenStep absent floor early healthy kept step)
  · exact .inl ⟨old,listed,le_refl _⟩

theorem beginsNewest {ctx s} (begins : Begins ctx s) (k : Key) : Newest k s := by
  intro base published old listed
  cases begins <;> · cases mem_singleton.mp published; exact .inl ⟨old,listed,le_refl _⟩

def Collected (ctx : Context) (s : State) (e : Due) : Prop :=
  ∃ base ∈ s.past, ∃ (env : Env) (now maximum : Nat) (c : Cleanup), env.toContext = ctx ∧
    cleanupPlan env base now maximum s.disk = .ok c ∧ e ∈ c.retired

def Overtaken (ctx : Context) (k : Key) (before s : State) (e : Event) : Prop :=
  Reserved k s e ∧ match e with
    | .cleaned work => ∀ r, (k,r) ∈ work.deleted → Collected ctx before (k,r)
    | _ => True

structure Armed (k : Key) (revision : Nat) (s : State) (r : Retirement) : Prop where
  listed : Item.retired (k,r) ∈ catalog s.disk s.root
  later : revision < r.revision
  pending : r.deleted = false

theorem Armed.step {ctx before s e s' k revision r} (h : Armed k revision s r)
    (healthy : Healthy ctx s) (seen : ∀ r, Collected ctx before (k,r) → r.revision ≤ revision)
    (kept : Overtaken ctx k before s e) (step : Step ctx s e s') : ∃ r', Armed k revision s' r' := by
  rcases (stepHealthy healthy kept.1.1 step).2.settled healthy.proper.distinct h.listed with ⟨dropped,_⟩ | ⟨j,hj,fate⟩
  · obtain ⟨_,_,_,_,r',same,deleted,_⟩ := fateNone dropped
    cases same
    simp [h.pending] at deleted
  obtain ⟨r',retired,rises⟩ := fateRetired fate (r := r) rfl
  have here := retiredItem (fateKey fate) retired
  refine ⟨r',here ▸ hj,h.later.trans_le rises,?_⟩
  subst here
  cases e with
  | registered segments =>
    have made := Option.some.inj fate
    unfold Item.rearm at made
    split at made
    · cases made; rfl
    · cases made; exact h.pending
  | replaced plan =>
    rcases fate with same | ⟨active,_⟩
    · cases same; exact h.pending
    · cases active
  | cleaned work =>
    rcases fate with same | marked
    · cases same; exact h.pending
    have made : r' = markDeleted (Dict.ofList work.deleted) k r := by
      have equal := congrArg Item.retirement (Option.some.inj marked)
      simpa [Item.mark,Item.retired] using equal
    unfold markDeleted at made
    split at made
    · rename_i observed
      have stale := seen r (kept.2 r (Dict.getOfList observed))
      exact absurd h.later (Nat.not_lt.mpr stale)
    · rw [made]; exact h.pending
  | expired floor deadline changes =>
    rcases fate with same | ⟨f,_,gone⟩
    · cases same; exact h.pending
    simp only [Item.expire,Item.retired,h.pending,Bool.false_and] at gone
    cases gone
    exact h.pending
  | wasted => cases fate; exact h.pending
  | sealed => cases fate; exact h.pending
  | planned plan => cases fate; exact h.pending

theorem collectedNewest {ctx s k r₀} (h : Healthy ctx s) (newest : Newest k s)
    (listed : Item.retired (k,r₀) ∈ catalog s.disk s.root) : ∀ r, Collected ctx s (k,r) → r.revision ≤ r₀.revision := by
  rintro r ⟨base,published,env,now,maximum,c,same,ok,mem⟩
  subst same
  have seen := (cleanupPlanRetired (h.roots base published).wf.refs ok mem).1
  rcases newest base published r seen with ⟨r',now,le⟩ | ⟨absent,_⟩
  · have equal := itemUnique h.proper.distinct now listed rfl
    cases equal
    exact le
  · exact absurd (mem_map_of_mem listed) absent

namespace Sample

def sighting : Due := (first.key,⟨8,0,false⟩)
def marking : List Change × Disk := ((planCleanup bulky spilled.1 [sighting]).done spilled.2).get (by decide +kernel)
def uploaded : Root × Disk := ((register bulky spilled.1 [first]).done marking.2).get (by decide +kernel)
def recorded : Root × Disk := ((applyCleanup bulky uploaded.1 ⟨[sighting],[],[],none,marking.1⟩).done uploaded.2).get (by decide +kernel)

def marked : State := ⟨marking.2,spilled.1,[spilled.1,listed.1],[.cleanup [sighting] marking.1]⟩
def rearmed : State := marked.publish uploaded.1 uploaded.2 marked.plans
def overtaken : State := rearmed.publish recorded.1 recorded.2 []

theorem markedReached : Reaches bulky.toContext (Reserved first.key) opening marked :=
  .tail (.single ⟨.sealed,⟨trivial,trivial⟩,.sealed rfl (Op.doneOk _)⟩)
    ⟨.planned (.cleanup [sighting] marking.1),⟨trivial,trivial⟩,.planCleanup rfl mem_cons_self (Op.doneOk _)⟩

theorem sightingCollected : Collected bulky.toContext marked sighting := by
  have seen : ∃ c ∈ (cleanupPlan bulky listed.1 10 4 marked.disk).toOption, sighting ∈ c.retired := by decide +kernel
  obtain ⟨c,ok,mem⟩ := seen
  refine ⟨listed.1,by simp [marked],bulky,10,4,c,rfl,?_,mem⟩
  cases run : cleanupPlan bulky listed.1 10 4 marked.disk with
  | error e => rw [run] at ok; cases ok
  | ok c' => rw [run] at ok; cases ok; rfl

end Sample

end Pulso.Journal
