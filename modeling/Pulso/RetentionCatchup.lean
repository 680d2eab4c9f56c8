import Pulso.Key

/-! Orphan catch-up below the reclaimed watermark: one cursor over the days, one over the index buckets, both
advanced by every stored step. A listing or a delete may fail at any time; a step that fails stores nothing. -/
namespace Pulso.RetentionCatchup
open List

def dayNs : Nat := 86400000000000

structure Job where
  from_ : Nat
  through : Nat
  day : Nat
  after : Option Key
  bucket : Nat
  pageAfter : Option Key
  dataDone : Bool
  metadataDone : Bool
  dirty : Bool
  deriving DecidableEq

def new (from_ through width : Nat) : Job :=
  ⟨from_,through,from_/dayNs,none,from_/width*width,none,false,false,false⟩

namespace Job

def ValidRange (job : Job) (reclaimed : Nat) : Prop := job.from_ < job.through ∧ job.through ≤ reclaimed

def ValidDay (job : Job) : Prop := job.from_/dayNs ≤ job.day ∧ job.day ≤ job.through/dayNs+1

def ValidBucket (job : Job) (width : Nat) : Prop :=
  job.bucket % width = 0 ∧ job.from_/width*width ≤ job.bucket ∧ job.bucket ≤ job.through+width

def Valid (job : Job) (reclaimed width : Nat) : Prop :=
  job.ValidRange reclaimed ∧ job.ValidDay ∧ job.ValidBucket width ∧
    ∀ cursor ∈ [job.after,job.pageAfter], ∀ key, cursor = some key → key.length ≤ 1024

end Job

structure Listed where
  keys : List Key
  next : Option Key

/- The object store during one step, listed by day (`date=`) and by bucket (`index/`). A delete succeeds
when the object is gone afterwards, and fails without admission or after the deadline. -/
structure Store where
  listDay : Nat → Option Key → Option Listed
  listBucket : Nat → Option Key → Option Listed
  delete : Key → Bool

structure Visit where
  place : Nat
  cursor : Option Key
  page : Listed
  asked : List Key
  deleted : Key → Bool

def expiredSegment (through : Nat) (key : Key) : Bool := key.maxTs?.any (· < (through : Int))

def deleteKeys (store : Store) (keys : List Key) (dirty : Bool) : Nat × Bool :=
  keys.foldl (fun s key => if store.delete key then (s.1+1,s.2) else (s.1,true)) (0,dirty)

def data (store : Store) (job : Job) : Option (Job × Nat × List Visit) :=
  if job.dataDone then some (job,0,[])
  else do
    let page ← store.listDay job.day job.after
    let expired := page.keys.filter (expiredSegment job.through)
    let deleted := deleteKeys store expired job.dirty
    let day := if page.next.isSome then job.day else job.day+1
    some ({job with day := day,after := page.next,dirty := deleted.2,dataDone := job.through/dayNs < day},
      deleted.1,[⟨job.day,job.after,page,expired,store.delete⟩])

def metadata (store : Store) (width : Nat) (buckets : List Nat) (job : Job) : Option (Job × Nat × List Visit) :=
  if job.metadataDone then some (job,0,[])
  else if job.through < job.bucket+width then some ({job with metadataDone := true},0,[])
  else if job.bucket ∈ buckets then none
  else do
    let page ← store.listBucket job.bucket job.pageAfter
    let deleted := deleteKeys store page.keys job.dirty
    let following := if page.next.isSome then job.bucket else job.bucket+width
    some ({job with
        bucket := following,pageAfter := page.next,dirty := deleted.2,metadataDone := job.through < following+width},
      deleted.1,[⟨job.bucket,job.pageAfter,page,page.keys,store.delete⟩])

structure Stepped where
  job : Option Job
  count : Nat
  days : List Visit
  pages : List Visit

def step (store : Store) (width : Nat) (buckets : List Nat) (job : Job) : Option Stepped := do
  let (job,dataCount,days) ← data store job
  let (job,pageCount,pages) ← metadata store width buckets job
  let next := if job.dataDone ∧ job.metadataDone then
      if job.dirty then some (new job.from_ job.through width) else none
    else some job
  some ⟨next,dataCount+pageCount,days,pages⟩

/- The stored job, and the listings and the number of the stored steps of its present cycle. -/
structure World where
  job : Option Job
  days : List Visit := []
  pages : List Visit := []
  steps : Nat := 0

/- A step that fails or whose root is not written leaves the stored job for the next one. -/
def World.act (width : Nat) (w : World) (event : Store × List Nat × Bool) : World :=
  match w.job with
  | none => w
  | some job => match step event.1 width event.2.1 job,event.2.2 with
    | some stepped,true =>
      if stepped.job = some (new job.from_ job.through width) then {job := stepped.job}
      else ⟨stepped.job,w.days++stepped.days,w.pages++stepped.pages,w.steps+1⟩
    | _,_ => w

def run (from_ through width : Nat) (events : List (Store × List Nat × Bool)) : World :=
  events.foldl (World.act width) {job := some (new from_ through width)}

inductive Walk (unit first : Nat) : List Visit → Nat → Option Key → Prop where
  | nil : Walk unit first [] first none
  | listed {visits n cursor} (walked : Walk unit first visits n cursor) (v : Visit) (here : v.place = n)
      (next : v.cursor = cursor) :
      Walk unit first (visits++[v]) (if v.page.next.isSome then n else n+unit) v.page.next

variable {store : Store} {from_ through width reclaimed : Nat} {buckets : List Nat} {job : Job} {w : World}

/- Cursors are object keys, of at most 1024 bytes; below an index bucket lie pages and no segments. -/
structure Store.Sound (store : Store) : Prop where
  short : ∀ n cursor page, store.listDay n cursor = some page ∨ store.listBucket n cursor = some page →
    ∀ key, page.next = some key → key.length ≤ 1024
  pages : ∀ n cursor page, store.listBucket n cursor = some page → ∀ key ∈ page.keys, key.maxTs? = none

theorem deleteKeysDirty (store : Store) (keys : List Key) (dirty : Bool) :
    (deleteKeys store keys dirty).2 = false ↔ dirty = false ∧ ∀ k ∈ keys, store.delete k = true := by
  have fold : ∀ s : Nat × Bool, (keys.foldl (fun s key => if store.delete key then (s.1+1,s.2) else (s.1,true)) s).2 =
      false ↔ s.2 = false ∧ ∀ k ∈ keys, store.delete k = true := by
    induction keys with
    | nil => simp
    | cons key rest ih =>
      intro s
      rw [foldl_cons,ih]
      cases gone : store.delete key <;> simp [gone]
  exact fold (0,dirty)

structure Cycle (from_ through width reclaimed : Nat) (job : Job) (days pages : List Visit) : Prop where
  lower : job.from_ = from_
  upper : job.through = through
  valid : job.Valid reclaimed width
  dayWalk : Walk 1 (from_/dayNs) days job.day job.after
  pageWalk : Walk width (from_/width*width) pages job.bucket job.pageAfter
  dataDone : job.dataDone = decide (through/dayNs < job.day)
  dayEnd : through/dayNs < job.day → job.after = none
  metadataDone : job.metadataDone = true → through < job.bucket+width
  bucketEnd : through < job.bucket+width → job.pageAfter = none
  expired : ∀ v ∈ days, v.asked = v.page.keys.filter (expiredSegment through)
  whole : ∀ v ∈ pages, v.asked = v.page.keys
  clean : job.dirty = false → ∀ v ∈ days++pages, ∀ k ∈ v.asked, v.deleted k = true

variable {days pages more : List Visit} {next : Job} {count : Nat}

theorem newCycle (range : from_ < through) (below : through ≤ reclaimed) (wide : 0 < width) :
    Cycle from_ through width reclaimed (new from_ through width) [] [] := by
  have first : from_/dayNs ≤ through/dayNs := Nat.div_le_div_right range.le
  have start := Nat.div_mul_le_self from_ width
  refine ⟨rfl,rfl,⟨⟨range,below⟩,⟨le_rfl,by simp only [new]; omega⟩,⟨by simp [new],le_rfl,by simp only [new]; omega⟩,
    by simp [new]⟩,.nil,.nil,?_,?_,by simp [new],fun _ => rfl,by simp,by simp,by simp⟩
  · simp only [new]
    exact (decide_eq_false (by omega)).symm
  intro late
  simp only [new] at late
  omega

variable (cycle : Cycle from_ through width reclaimed job days pages)
include cycle

theorem dataKeeps (sound : store.Sound) (ok : data store job = some (next,count,more)) :
    Cycle from_ through width reclaimed next (days++more) pages ∧ (job.dataDone = false → more.length = 1) := by
  unfold data at ok
  split at ok
  · rename_i done
    cases ok
    exact ⟨by simpa using cycle,by simp [done]⟩
  rename_i notDone
  obtain ⟨page,listed,ok⟩ := Option.bind_eq_some_iff.mp ok
  cases ok
  obtain ⟨lower,upper,⟨range,⟨early,late⟩,bucket,cursors⟩,walked,rest,dataDone,dayEnd,metadataDone,bucketEnd,expired,
    whole,clean⟩ := cycle
  subst lower upper
  have inside : job.day ≤ job.through/dayNs := by
    rw [dataDone] at notDone
    simpa using notDone
  have ends : job.through/dayNs < (if page.next.isSome then job.day else job.day+1) → page.next = none := by
    cases page.next <;> grind
  refine ⟨⟨rfl,rfl,⟨range,⟨by dsimp only; split <;> omega,by dsimp only; split <;> omega⟩,bucket,?_⟩,
    walked.listed _ rfl rfl,rest,rfl,ends,metadataDone,bucketEnd,?_,whole,?_⟩,fun _ => rfl⟩
  · simp only [mem_cons,not_mem_nil,or_false,forall_eq_or_imp,forall_eq] at cursors ⊢
    exact ⟨sound.short _ _ _ (.inl listed),cursors.2⟩
  · grind
  intro fine
  obtain ⟨before,gone⟩ := (deleteKeysDirty _ _ _).mp fine
  have clean := clean before
  grind

theorem metadataKeeps (sound : store.Sound) (ok : metadata store width buckets job = some (next,count,more)) :
    Cycle from_ through width reclaimed next days (pages++more) ∧ next.dataDone = job.dataDone ∧
      (next.metadataDone = false → more.length = 1) := by
  unfold metadata at ok
  split at ok
  · rename_i done
    cases ok
    exact ⟨by simpa using cycle,rfl,by simp [done]⟩
  split at ok
  · rename_i past
    cases ok
    exact ⟨by simpa using {cycle with metadataDone := fun _ => cycle.upper ▸ past},rfl,by simp⟩
  split at ok
  · cases ok
  rename_i inside _
  obtain ⟨page,listed,ok⟩ := Option.bind_eq_some_iff.mp ok
  cases ok
  obtain ⟨lower,upper,⟨range,day,⟨aligned,early,late⟩,cursors⟩,rest,walked,dataDone,dayEnd,metadataDone,bucketEnd,
    expired,whole,clean⟩ := cycle
  subst lower upper
  have ends : job.through < (if page.next.isSome then job.bucket else job.bucket+width)+width → page.next = none := by
    cases page.next <;> grind
  refine ⟨⟨rfl,rfl,⟨range,day,⟨?_,by dsimp only; split <;> omega,by dsimp only; split <;> omega⟩,?_⟩,rest,
    walked.listed _ rfl rfl,dataDone,dayEnd,by simp,ends,expired,?_,?_⟩,rfl,fun _ => rfl⟩
  · dsimp only
    split <;> simp [aligned]
  · simp only [mem_cons,not_mem_nil,or_false,forall_eq_or_imp,forall_eq] at cursors ⊢
    exact ⟨cursors.1,sound.short _ _ _ (.inr listed)⟩
  · grind
  intro fine
  obtain ⟨before,gone⟩ := (deleteKeysDirty _ _ _).mp fine
  have clean := clean before
  grind

omit cycle

/- The cycle that ends the job: every day and every bucket below `through` was listed to its end. -/
structure Finished (from_ through width : Nat) (days pages : List Visit) : Prop where
  dayWalk : Walk 1 (from_/dayNs) days (through/dayNs+1) none
  pageWalk : ∃ last, through < last+width ∧ Walk width (from_/width*width) pages last none
  expired : ∀ v ∈ days, ∀ k ∈ v.page.keys, expiredSegment through k = true → v.deleted k = true
  whole : ∀ v ∈ pages, ∀ k ∈ v.page.keys, v.deleted k = true

theorem Cycle.finished (cycle : Cycle from_ through width reclaimed job days pages) (data : job.dataDone = true)
    (metadata : job.metadataDone = true) (clean : job.dirty = false) : Finished from_ through width days pages := by
  have late : through/dayNs < job.day := by simpa [cycle.dataDone] using data
  have last : job.day = through/dayNs+1 := by
    have bound := cycle.valid.2.1.2
    rw [cycle.upper] at bound
    omega
  have past := cycle.metadataDone metadata
  have gone := cycle.clean clean
  refine ⟨?_,⟨job.bucket,past,cycle.bucketEnd past ▸ cycle.pageWalk⟩,?_,?_⟩
  · rw [← last,← cycle.dayEnd late]
    exact cycle.dayWalk
  · intro v mem k listed expired
    exact gone v (mem_append_left _ mem) k (by rw [cycle.expired v mem]; exact mem_filter.mpr ⟨listed,expired⟩)
  · intro v mem k listed
    exact gone v (mem_append_right _ mem) k (by rw [cycle.whole v mem]; exact listed)

def Kept (from_ through width reclaimed : Nat) (w : World) : Prop :=
  match w.job with
  | some job => Cycle from_ through width reclaimed job w.days w.pages ∧ w.steps ≤ w.days.length+w.pages.length
  | none => Finished from_ through width w.days w.pages ∧ w.steps ≤ w.days.length+w.pages.length+1

theorem stepKeeps {stepped} (cycle : Cycle from_ through width reclaimed job days pages) (sound : store.Sound)
    (ok : step store width buckets job = some stepped) :
    match stepped.job with
    | none => Finished from_ through width (days++stepped.days) (pages++stepped.pages)
    | some next => next = new from_ through width ∨
        Cycle from_ through width reclaimed next (days++stepped.days) (pages++stepped.pages) ∧
          1 ≤ stepped.days.length+stepped.pages.length := by
  obtain ⟨⟨mid,_,listed⟩,dataOk,ok⟩ := Option.bind_eq_some_iff.mp ok
  obtain ⟨⟨last,_,paged⟩,metadataOk,ok⟩ := Option.bind_eq_some_iff.mp ok
  cases ok
  obtain ⟨first,one⟩ := dataKeeps cycle sound dataOk
  obtain ⟨second,same,two⟩ := metadataKeeps first sound metadataOk
  by_cases done : last.dataDone = true ∧ last.metadataDone = true
  · simp only [if_pos done]
    cases dirty : last.dirty with
    | true => exact .inl (by rw [second.lower,second.upper])
    | false => exact second.finished done.1 done.2 dirty
  simp only [if_neg done]
  refine .inr ⟨second,?_⟩
  by_cases open_ : job.dataDone = false
  · have := one open_
    omega
  have stays : mid = job := by simp_all [data]
  have := two (by simp_all)
  omega

theorem actKept {event} (kept : Kept from_ through width reclaimed w) (sound : event.1.Sound)
    (fresh : Cycle from_ through width reclaimed (new from_ through width) [] []) :
    Kept from_ through width reclaimed (w.act width event) := by
  unfold World.act
  split
  · exact kept
  rename_i job held
  simp only [Kept,held] at kept
  obtain ⟨cycle,steps⟩ := kept
  split
  · rename_i stepped ok _
    have keeps := stepKeeps cycle sound ok
    rw [cycle.lower,cycle.upper]
    split
    · rename_i again
      simp only [Kept,again]
      exact ⟨fresh,Nat.le_refl 0⟩
    rename_i goes
    cases result : stepped.job with
    | none =>
      simp only [result] at keeps
      simp only [Kept,length_append]
      exact ⟨keeps,by omega⟩
    | some next =>
      simp only [result,Option.some.injEq] at keeps goes
      simp only [Kept,length_append]
      obtain ⟨cycle,one⟩ := keeps.resolve_left goes
      exact ⟨cycle,by omega⟩
  · simpa only [Kept,held] using And.intro cycle steps

theorem dataAsks (ok : data store job = some (next,count,more)) {v} (mem : v ∈ more) {k}
    (asked : k ∈ v.asked) : expiredSegment job.through k = true := by
  unfold data at ok
  split at ok
  · cases ok
    cases mem
  obtain ⟨page,listed,ok⟩ := Option.bind_eq_some_iff.mp ok
  cases ok
  cases mem_singleton.mp mem
  exact (mem_filter.mp asked).2

theorem metadataAsks (sound : store.Sound) (ok : metadata store width buckets job = some (next,count,more)) {v}
    (mem : v ∈ more) {k} (asked : k ∈ v.asked) : k.maxTs? = none := by
  unfold metadata at ok
  split at ok
  · cases ok
    cases mem
  split at ok
  · cases ok
    cases mem
  split at ok
  · cases ok
  obtain ⟨page,listed,ok⟩ := Option.bind_eq_some_iff.mp ok
  cases ok
  cases mem_singleton.mp mem
  exact sound.pages _ _ _ listed k asked

/-- The stored job stays valid; it ends only after a cycle that listed every day and every bucket below
`through` to its end and deleted all it found there; a cycle has at most one step more than listings; and no
step, completed or not, asks for an object that ends at or above `through`. -/
theorem catchupEndsClean (from_ through width reclaimed : Nat) (range : from_ < through) (below : through ≤ reclaimed)
    (wide : 0 < width) (events : List (Store × List Nat × Bool)) (sound : ∀ e ∈ events, e.1.Sound) :
    (∀ job, (run from_ through width events).job = some job → job.Valid reclaimed width ∧ job.through = through) ∧
    ((run from_ through width events).job = none →
      Finished from_ through width (run from_ through width events).days (run from_ through width events).pages) ∧
    (run from_ through width events).steps ≤
      (run from_ through width events).days.length+(run from_ through width events).pages.length+1 ∧
    ∀ e ∈ events, ∀ job next count visits,
      data e.1 job = some (next,count,visits) ∨ metadata e.1 width e.2.1 job = some (next,count,visits) →
      ∀ v ∈ visits, ∀ k ∈ v.asked, ∀ maxTs, k.maxTs? = some maxTs → maxTs < job.through := by
  have fresh := newCycle range below wide
  have kept : Kept from_ through width reclaimed (run from_ through width events) := by
    refine List.foldlRecOn events _ (motive := Kept from_ through width reclaimed) ⟨fresh,Nat.le_refl 0⟩ ?_
    exact fun w kept e mem => actKept kept (sound e mem) fresh
  refine ⟨?_,?_,?_,?_⟩
  · intro job held
    simp only [Kept,held] at kept
    exact ⟨kept.1.valid,kept.1.upper⟩
  · intro held
    simp only [Kept,held] at kept
    exact kept.1
  · unfold Kept at kept
    split at kept <;> omega
  intro e mem job next count visits ok v visited k asked maxTs known
  rcases ok with ok | ok
  · simpa [expiredSegment,known] using dataAsks ok visited asked
  · cases known.symm.trans (metadataAsks (sound e mem) ok visited asked)

def orphaned : Store where
  listDay _ _ := some ⟨[ascii "00000000000000000001-00000000000000000003-a.parquet"],none⟩
  listBucket _ _ := some ⟨[],none⟩
  delete _ := true

theorem catchupEndsCleanResumed : let w := run 0 10 5 [(orphaned,[],true),(orphaned,[],false),(orphaned,[],true)]
    w.job = none ∧ w.steps = 2 ∧ Finished 0 10 5 w.days w.pages := by
  refine ⟨by decide +kernel,by decide +kernel,?_⟩
  have sound : orphaned.Sound := by
    constructor
    · rintro _ _ _ (listed | listed) _ next <;> (cases listed; cases next)
    · simp [orphaned]
  exact (catchupEndsClean 0 10 5 10 (by decide) (by decide) (by decide) _ (by simp [sound])).2.1 (by decide +kernel)

end Pulso.RetentionCatchup
