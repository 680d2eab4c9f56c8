import Pulso.LogSummary
import Pulso.Ranked
import Pulso.RetentionFloor
import Pulso.TraceBuild

/-! Planning a query on a paged root: the pages it reads, the candidates it keeps, and the window
of first candidates a limited scan asks for. -/
namespace Pulso.Journal
open List

inductive Direction where
  | backward | forward
  deriving DecidableEq, Repr

/- The options `query/5` reads. The metrics filter is compiled before; any test on segments
stands for it. -/
structure QueryOptions (engine : Logs.RegexEngine) where
  startTs : Option Int
  endTs : Option Int
  metrics : Segment → Bool
  logs : Logs.Query engine
  traces : Traces.Options
  contextHashes : Option (List Nat)
  logWindow : Option (Direction × Nat)
  traceWindow : Option Nat
  tempoSearch : Bool
  traceSearch : Bool
  tempoDiscovery : Bool
  limit : Option Int
  maxScanSegments : Option Nat

def planCatalogLimit : Nat := 8192
def leafReads : Nat := 32

-- only asked about references with `n > 0`, whose ranges are known
def Ref.intersects (ref : Ref) (start finish : Option Int) : Bool :=
  start.all (fun t => ref.mx.all (t ≤ ·)) && finish.all (fun t => ref.mn.all (· ≤ t))

namespace Direction

def position : Direction → Segment → Int
  | backward,s => -s.maxTs
  | forward,s => s.minTs

def bound : Direction → Ref → Int
  | backward,ref => -(ref.mx.getD 0)
  | forward,ref => ref.mn.getD 0

def Ahead (o : Direction) (a b : Segment) : Prop :=
  o.position a < o.position b ∨ (o.position a = o.position b ∧ a.key ≤ b.key)

instance (o : Direction) : DecidableRel o.Ahead := fun a b => by unfold Ahead; infer_instance

instance (o : Direction) : Std.Total o.Ahead := ⟨fun a b => by
  rcases lt_trichotomy (o.position a) (o.position b) with before | same | after
  · exact .inl (.inl before)
  · exact (List.le_total a.key b.key).imp (fun le => .inr ⟨same,le⟩) (fun le => .inr ⟨same.symm,le⟩)
  · exact .inr (.inl after)⟩

instance (o : Direction) : IsTrans Segment o.Ahead := ⟨fun a b c ab bc => by
  rcases ab with ab | ⟨ab,first⟩ <;> rcases bc with bc | ⟨bc,second⟩
  · exact .inl (ab.trans bc)
  · exact .inl (ab.trans_eq bc)
  · exact .inl (ab.trans_lt bc)
  · exact .inr ⟨ab.trans bc,List.le_trans first second⟩⟩

theorem Ahead.position {o : Direction} {a b} (h : o.Ahead a b) : o.position a ≤ o.position b := by
  rcases h with less | ⟨same,-⟩
  · exact less.le
  · exact same.le

theorem sameKey {o : Direction} {a b} (ab : o.Ahead a b) (ba : o.Ahead b a) : a.key = b.key := by
  rcases ab with less | ⟨same,first⟩
  · exact absurd less (not_lt.mpr ba.position)
  rcases ba with less | ⟨-,second⟩
  · exact absurd less (not_lt.mpr same.le)
  · exact List.le_antisymm first second

end Direction

section Reader
variable {engine : Logs.RegexEngine} (regex : Traces.Regex) (hash : Traces.Hash)

-- too many candidate traces read every page rather than spend unbounded probes
def pageContextMatches (bits : Option Bloom) (hashes : Option (List Nat)) : Bool :=
  match bits,hashes with
  | some bits,some hashes => 4096 < hashes.length || hashes.any bits.hasHash
  | _,_ => true

def tracePageMatches (page : TracePage) (o : QueryOptions engine) : Bool :=
  Traces.pageMatches regex hash (some page) o.traces &&
    pageContextMatches (TraceSummary.parseBits page.bits) o.contextHashes

def segmentMatches (signal : Signal) (o : QueryOptions engine) (s : Segment) : Bool :=
  match signal with
  | .metrics => o.metrics s
  | .logs => Logs.matchesLogService s o.logs
  | .traces => Traces.summaryMatches regex hash s.traceSummary o.traces

def leafMatches (ctx : Context) (o : QueryOptions engine) (ref : Ref) : Bool :=
  match ctx.scope.signal,ref.q with
  | .traces,some (.traces page) => tracePageMatches regex hash page o
  | .logs,some (.logs page) => Logs.logPageMatches ctx.sizes.toSummarySizes (some page) o.logs
  | _,_ => true

/- `match` of `do_query`. -/
def accepts (ctx : Context) (o : QueryOptions engine) (root : Root) (s : Segment) : Bool :=
  root.reaches o.startTs o.endTs s && segmentMatches regex hash ctx.scope.signal o s

/- `select` of `do_query`. -/
def selects (ctx : Context) (o : QueryOptions engine) (root : Root) (ref : Ref) : Bool :=
  0 < ref.n && Ref.intersects ref (retainedStart o.startTs root.paging.rf) o.endTs &&
    (0 < ref.h || leafMatches regex hash ctx o ref)

def planWindow (signal : Signal) (o : QueryOptions engine) : Option (Direction × Nat) :=
  match signal with
  | .logs => o.logWindow
  | .traces => o.traceWindow.map (fun n => (.backward,n))
  | .metrics => none

def limitedTraceScan (signal : Signal) (o : QueryOptions engine) : Bool :=
  signal = .traces && !o.traceSearch && !o.tempoSearch && !o.tempoDiscovery && o.limit.any (fun n => 1 ≤ n && n ≤ 5000)

def queryMaximum (signal : Signal) (o : QueryOptions engine) : Option Nat :=
  if signal = .traces ∧ o.tempoSearch then some planCatalogLimit
  else if limitedTraceScan signal o then none
  else o.maxScanSegments

end Reader

section Rounds
variable (read : Ref → Except Fail (List Segment))

-- one leaf at a time: a query over its ceiling fails before the pages behind it are counted
def addLeaf (maximum : Option Nat) (acc : List Segment) (ref : Ref) : Except Fail (List Segment) := do
  let found ← read ref
  if maximum.any (· < acc.length + found.length) then .error .queryScanLimit else pure (found ++ acc)

def allCandidates (maximum : Option Nat) (leaves : List Ref) (found : List Segment) : Except Fail (List Segment) :=
  if maximum.any (· < found.length) then .error .queryScanLimit
  else do
    let all ← leaves.foldlM (addLeaf read maximum) found
    pure (Lists.sortDesc Segment.maxTs all)

variable (o : Direction) (n : Nat)

/- The leaves of a round worth reading: all while fewer than `n` candidates are held, else those
that can still order before the last of them. -/
def worthReading (chunk : List Ref) (held : List Segment) : Except Fail (List Ref) :=
  if held.length < n then pure chunk
  else match held.getLast? with
  | some last => pure (chunk.filter (fun ref => o.bound ref ≤ o.position last))
  | none => .error .raised

/- `window_rounds/7`; every round takes at least one leaf, so their number bounds the rounds. -/
def windowRounds : Nat → List Ref → Nat → List Segment → Except Fail (List Segment)
  | _,[],_,held => pure held
  | 0,_,_,held => pure held
  | fuel+1,leaves,size,held => do
    let chunk ← worthReading o n (leaves.take size) held
    if chunk = [] then pure held
    else do
      let found ← chunk.mapM read
      windowRounds fuel (leaves.drop size) (min (2 * size) leafReads) (Ranked.first o.Ahead n (held ++ found.flatten))

def window (leaves : List Ref) (found : List Segment) : Except Fail (List Segment) :=
  windowRounds read o n leaves.length (leaves.insertionSort (fun a b => o.bound a ≤ o.bound b)) 8
    (Ranked.first o.Ahead n found)

end Rounds

section Query
variable {engine : Logs.RegexEngine} (regex : Traces.Regex) (hash : Traces.Hash)

def readMatching (env : Env) (o : QueryOptions engine) (root : Root) (d : Disk) (ref : Ref) : Except Fail (List Segment) := do
  let leaf ← readLeaf env ref d
  pure (leaf.segments.filter (accepts regex hash env.toContext o root))

def query (env : Env) (o : QueryOptions engine) (root : Root) (d : Disk) : Except Fail (List Segment) := do
  let leaves ← collectLeaves env (selects regex hash env.toContext o root) (rounds root.refs) root.refs d
  let found := root.segments.filter (accepts regex hash env.toContext o root)
  match planWindow env.scope.signal o with
  | none => allCandidates (readMatching regex hash env o root d) (queryMaximum env.scope.signal o) leaves found
  | some (order,n) => window (readMatching regex hash env o root d) order n leaves found

end Query

variable {held result : List Segment} {refs leaves : List Ref} {fuel : Nat}

section Rounds
variable {read : Ref → Except Fail (List Segment)} {content : Ref → List Segment} {o : Direction} {n : Nat}

theorem lastPosition {last : Segment} (sorted : held.Pairwise o.Ahead) (is : held.getLast? = some last) :
    ∀ a ∈ held, o.position a ≤ o.position last := by
  obtain ⟨before,rfl⟩ := getLast?_eq_some_iff.mp is
  intro a mem
  rcases mem_append.mp mem with earlier | self
  · exact ((pairwise_append.mp sorted).2.2 a earlier last (mem_singleton.mpr rfl)).position
  · rw [mem_singleton.mp self]

def Hopeless (o : Direction) (n : Nat) (held : List Segment) (ref : Ref) : Prop :=
  n ≤ held.length ∧ ∀ a ∈ held, o.position a < o.bound ref

theorem worthReadingOk {chunk kept} (sorted : held.Pairwise o.Ahead) (ok : worthReading o n chunk held = .ok kept) :
    ∃ rejected, (kept ++ rejected).Perm chunk ∧ ∀ ref ∈ rejected, Hopeless o n held ref := by
  unfold worthReading at ok
  split at ok
  · cases ok
    exact ⟨[],by simp,by simp⟩
  rename_i full
  split at ok
  · rename_i last is
    cases ok
    refine ⟨chunk.filter (fun ref => !decide (o.bound ref ≤ o.position last)),filter_append_perm _ _,?_⟩
    intro ref mem
    have beyond : o.position last < o.bound ref := by simpa using (mem_filter.mp mem).2
    exact ⟨not_lt.mp full,fun a held => (lastPosition sorted is a held).trans_lt beyond⟩
  · cases ok

theorem Hopeless.after (bounded : ∀ ref ∈ refs, ∀ s ∈ content ref, o.bound ref ≤ o.position s)
    (h : ∀ ref ∈ refs, Hopeless o n held ref) :
    ∀ b ∈ refs.flatMap content, n ≤ held.length ∧ ∀ a ∈ held, ¬o.Ahead b a := by
  intro b mem
  obtain ⟨ref,listed,inside⟩ := mem_flatMap.mp mem
  obtain ⟨full,behind⟩ := h ref listed
  refine ⟨full,fun a here ahead => ?_⟩
  have first := behind a here
  have second := bounded ref listed b inside
  have third := ahead.position
  omega

theorem mapMContents {found}
    (reads : ∀ ref ∈ refs, ∀ s, read ref = .ok s → s = content ref) (ok : refs.mapM read = .ok found) :
    found.flatten = refs.flatMap content := by
  have each := Lists.mapMOk ok
  clear ok
  induction each with
  | nil => rfl
  | @cons ref s refs found here _ ih =>
    rw [flatten_cons,flatMap_cons,reads ref mem_cons_self s here,ih (forall_mem_cons.mp reads).2]

/- Induction on the rounds: `seen` are the candidates of the tail and of every leaf of the earlier
rounds that was read. -/
theorem windowRoundsFirst {size seen} (enough : leaves.length ≤ fuel) (positive : 1 ≤ size)
    (sorted : leaves.Pairwise (fun a b => o.bound a ≤ o.bound b))
    (reads : ∀ ref ∈ leaves, ∀ s, read ref = .ok s → s = content ref)
    (bounded : ∀ ref ∈ leaves, ∀ s ∈ content ref, o.bound ref ≤ o.position s)
    (distinct : Ranked.Distinct o.Ahead (seen ++ leaves.flatMap content)) (is : held = Ranked.first o.Ahead n seen)
    (ok : windowRounds read o n fuel leaves size held = .ok result) :
    result = Ranked.first o.Ahead n (seen ++ leaves.flatMap content) := by
  induction fuel generalizing leaves size seen held with
  | zero =>
    have none : leaves = [] := length_eq_zero_iff.mp (Nat.le_zero.mp enough)
    subst none
    cases ok
    rw [is,flatMap_nil,append_nil]
  | succ fuel ih =>
    cases leaves with
    | nil =>
      cases ok
      rw [is,flatMap_nil,append_nil]
    | cons head tail =>
      simp only [windowRounds,bind,Except.bind] at ok
      split at ok
      · cases ok
      rename_i kept worth
      have inOrder : held.Pairwise o.Ahead := is ▸ Ranked.firstSorted
      obtain ⟨rejected,parts,hopeless⟩ := worthReadingOk inOrder worth
      have whole : (kept ++ rejected ++ (head::tail).drop size).Perm (head::tail) := by
        refine (parts.append_right _).trans ?_
        rw [take_append_drop]
      split at ok
      case isTrue none =>
        have stopped : held = result := Except.ok.inj ok
        have first : head ∈ rejected := by
          have mem : head ∈ (head::tail).take size := mem_take_iff_getElem.mpr ⟨0,by simp; omega,rfl⟩
          simpa [none] using parts.mem_iff.mpr mem
        have all : ∀ ref ∈ head::tail, Hopeless o n held ref := by
          intro ref mem
          obtain ⟨full,behind⟩ := hopeless head first
          refine ⟨full,fun a here => (behind a here).trans_le ?_⟩
          rcases mem_cons.mp mem with rfl | later
          · exact le_rfl
          · exact (pairwise_cons.mp sorted).1 ref later
        have after := Hopeless.after bounded all
        rw [is] at after
        have apart : Ranked.Distinct o.Ahead (seen ++ [] ++ (head::tail).flatMap content) := by simpa using distinct
        have settled := Ranked.firstSettled apart after
        rw [append_nil] at settled
        rw [settled,← stopped,is]
      case isFalse =>
        split at ok
        · cases ok
        rename_i found collected
        have inside : ∀ ref ∈ kept ++ rejected ++ (head::tail).drop size, ref ∈ head::tail := fun ref mem => whole.mem_iff.mp mem
        have content' : found.flatten = kept.flatMap content :=
          mapMContents (fun ref mem => reads ref (inside ref (by simp [mem]))) collected
        have order : (seen ++ (head::tail).flatMap content).Perm
            (seen ++ (kept.flatMap content ++ ((head::tail).drop size).flatMap content) ++ rejected.flatMap content) := by
          rw [append_assoc]
          refine List.Perm.append_left _ ((whole.symm.flatMap_right _).trans ?_)
          rw [flatMap_append,flatMap_append,append_assoc,append_assoc]
          exact List.Perm.append_left _ perm_append_comm
        have apart := distinct.perm order
        have rejectedBounds : ∀ ref ∈ rejected, ∀ s ∈ content ref, o.bound ref ≤ o.position s :=
          fun ref mem => bounded ref (inside ref (by simp [mem]))
        have after := Hopeless.after rejectedBounds hopeless
        rw [is] at after
        have less : Ranked.Distinct o.Ahead (seen ++ kept.flatMap content ++ ((head::tail).drop size).flatMap content) := by
          rw [append_assoc]
          exact List.Pairwise.sublist (sublist_append_left _ _) apart
        rw [Ranked.firstPerm distinct order,Ranked.firstSettled apart after,← append_assoc]
        refine ih ?_ ?_ (sorted.sublist (drop_sublist _ _)) (fun ref mem => reads ref (inside ref (by simp [mem])))
          (fun ref mem => bounded ref (inside ref (by simp [mem]))) less ?_ ok
        · rw [length_drop]
          omega
        · unfold leafReads
          omega
        · rw [is,content']
          exact Ranked.firstKept (List.Pairwise.sublist (sublist_append_left _ _) less)

theorem windowFirst {found} (reads : ∀ ref ∈ leaves, ∀ s, read ref = .ok s → s = content ref)
    (bounded : ∀ ref ∈ leaves, ∀ s ∈ content ref, o.bound ref ≤ o.position s)
    (distinct : Ranked.Distinct o.Ahead (found ++ leaves.flatMap content))
    (ok : window read o n leaves found = .ok result) :
    result = Ranked.first o.Ahead n (found ++ leaves.flatMap content) := by
  let sorted := leaves.insertionSort (fun a b => o.bound a ≤ o.bound b)
  have same : sorted.Perm leaves := perm_insertionSort _ _
  have order : (found ++ leaves.flatMap content).Perm (found ++ sorted.flatMap content) :=
    List.Perm.append_left _ (same.symm.flatMap_right _)
  rw [Ranked.firstPerm distinct order]
  exact windowRoundsFirst (same.length_eq).le (by omega) (pairwise_insertionSort _ _)
    (fun ref mem => reads ref (same.mem_iff.mp mem)) (fun ref mem => bounded ref (same.mem_iff.mp mem))
    (distinct.perm order) rfl ok

theorem worthReadingTotal (some : 1 ≤ n) (chunk : List Ref) (held : List Segment) :
    ∃ kept, worthReading o n chunk held = .ok kept ∧ kept.Sublist chunk := by
  unfold worthReading
  split
  · exact ⟨chunk,rfl,.refl _⟩
  rename_i full
  cases last : held.getLast? with
  | none => rw [getLast?_eq_none_iff.mp last] at full; simp at full; omega
  | some last => exact ⟨_,rfl,filter_sublist⟩

theorem windowRoundsTotal (some : 1 ≤ n) {size} (held : List Segment)
    (reads : ∀ ref ∈ leaves, ∃ s, read ref = .ok s) : ∃ result, windowRounds read o n fuel leaves size held = .ok result := by
  induction fuel generalizing leaves size held with
  | zero => cases leaves <;> exact ⟨held,rfl⟩
  | succ fuel ih =>
    cases leaves with
    | nil => exact ⟨held,rfl⟩
    | cons head tail =>
      obtain ⟨kept,worth,inside⟩ := worthReadingTotal (o := o) some ((head::tail).take size) held
      have readable : ∀ ref ∈ kept, ∃ s, read ref = .ok s :=
        fun ref mem => reads ref (mem_of_mem_take (inside.subset mem))
      obtain ⟨found,collected⟩ := Lists.mapMReturns readable
      simp only [windowRounds,bind,Except.bind,worth]
      split
      · exact ⟨held,rfl⟩
      · rw [collected]
        exact ih _ (fun ref mem => reads ref (mem_of_mem_drop mem))

end Rounds

variable {env : Env} {d : Disk}

def Readable (env : Env) (d : Disk) : Nat → Ref → Prop
  | 0,ref => ∃ l, readLeaf env ref d = .ok l
  | h+1,ref => ∃ children, readIndex env ref d = .ok children ∧ ∀ c ∈ children, Readable env d h c

theorem collectLeavesTotal (select : Ref → Bool) (fuel : Nat)
    (s : AllSound env.toContext d refs) (readable : ∀ r ∈ refs, Readable env d r.h r) :
    ∃ ls, collectLeaves env select fuel refs d = .ok ls ∧ ∀ r ∈ ls, ∃ l, readLeaf env r d = .ok l := by
  induction fuel generalizing refs with
  | zero => exact ⟨[],rfl,by simp⟩
  | succ fuel ih =>
    let chosen := refs.filter select
    let inner := chosen.filter (fun r => r.h ≠ 0)
    have chosenMem : ∀ r ∈ chosen, r ∈ refs := fun r mem => (mem_filter.mp mem).1
    have innerMem : ∀ r ∈ inner, r ∈ refs ∧ r.h ≠ 0 := fun r mem =>
      ⟨chosenMem r (mem_filter.mp mem).1,by simpa using (mem_filter.mp mem).2⟩
    have indexes : ∀ r ∈ inner, ∃ cs, readIndex env r d = .ok cs := by
      intro r mem
      obtain ⟨listed,height⟩ := innerMem r mem
      obtain ⟨h,level⟩ : ∃ h, r.h = h + 1 := ⟨r.h - 1,by omega⟩
      have pages := readable r listed
      rw [level] at pages
      exact ⟨_,pages.choose_spec.1⟩
    obtain ⟨lists,read⟩ := Lists.mapMReturns indexes
    have reads := Lists.mapMOk read
    obtain ⟨sound,-⟩ := childrenSound (fun r mem => s r (innerMem r mem).1) (fun r mem => (innerMem r mem).2) reads
    have deeper : ∀ c ∈ lists.flatten, Readable env d c.h c := by
      intro c mem
      obtain ⟨children,listed,inside⟩ := mem_flatten.mp mem
      obtain ⟨r,here,got⟩ := Lists.forall₂Left reads listed
      obtain ⟨top,height⟩ := innerMem r here
      have level := ((indexChildren (s r top) height got).1 c inside).2
      have pages := readable r top
      rw [← level] at pages
      obtain ⟨same,again,below⟩ := pages
      cases got.symm.trans again
      exact below c inside
    obtain ⟨ls,more,leaves⟩ := ih sound deeper
    refine ⟨chosen.filter (fun r => r.h = 0) ++ ls,?_,?_⟩
    · simp only [collectLeaves,bind,Except.bind,pure,Except.pure]
      rw [read]
      simp only [more]
      rfl
    · intro r mem
      rcases mem_append.mp mem with here | there
      · have height : r.h = 0 := by simpa using (mem_filter.mp here).2
        have pages := readable r (chosenMem r (mem_filter.mp here).1)
        rwa [height] at pages
      · exact leaves r there

def shelves (d : Disk) : Nat → Ref → List (Ref × Listing)
  | 0,ref => match d.view ref.k with
    | some (.leaf l) => [(ref,l)]
    | _ => []
  | h+1,ref => match d.view ref.k with
    | some (.index children) => children.flatMap (shelves d h)
    | _ => []

variable {ref : Ref} {l : Listing}

theorem shelvesLeaf (page : d.view ref.k = some (.leaf l)) : shelves d 0 ref = [(ref,l)] := by
  simp [shelves,page]

theorem shelvesIndex {h children} (page : d.view ref.k = some (.index children)) :
    shelves d (h+1) ref = children.flatMap (shelves d h) := by
  simp [shelves,page]

theorem shelvesListings (d : Disk) (h : Nat) (ref : Ref) : (shelves d h ref).map Prod.snd = leavesAt d h ref.k := by
  induction h generalizing ref with
  | zero =>
    simp only [shelves,leavesAt,PageTree.leavesAt]
    cases d.view ref.k with
    | none => rfl
    | some node => cases node <;> rfl
  | succ h ih =>
    simp only [shelves,leavesAt,PageTree.leavesAt]
    cases d.view ref.k with
    | none => rfl
    | some node =>
      cases node with
      | leaf l => rfl
      | index children =>
        rw [map_flatMap]
        exact flatMap_congr (fun c _ => ih c)

theorem Exact.segmentRange {s ls} (x : Exact s ls) (listed : l ∈ ls) {seg}
    (mem : seg ∈ l.segments) : 0 < s.n ∧ ∃ lo hi, s.mn = some lo ∧ s.mx = some hi ∧ lo ≤ seg.minTs ∧ seg.maxTs ≤ hi := by
  have low : seg.minTs ∈ ls.flatMap (fun l => l.segments.map Segment.minTs) :=
    mem_flatMap.mpr ⟨l,listed,mem_map_of_mem mem⟩
  have high : seg.maxTs ∈ ls.flatMap (fun l => l.segments.map Segment.maxTs) :=
    mem_flatMap.mpr ⟨l,listed,mem_map_of_mem mem⟩
  have count : 0 < s.n := by
    rw [x.n]
    exact List.sum_pos_iff_exists_pos_nat.mpr ⟨_,mem_map_of_mem listed,length_pos_of_mem mem⟩
  obtain ⟨lo,isLow⟩ := Option.isSome_iff_exists.mp (isSome_min?_of_mem low)
  obtain ⟨hi,isHigh⟩ := Option.isSome_iff_exists.mp (isSome_max?_of_mem high)
  exact ⟨count,lo,hi,x.mn.trans isLow,x.mx.trans isHigh,(min?_eq_some_iff.mp isLow).2 _ low,
    (max?_eq_some_iff.mp isHigh).2 _ high⟩

section Candidates
variable {engine : Logs.RegexEngine} (regex : Traces.Regex) (hash : Traces.Hash) (ctx : Context) (o : QueryOptions engine)
  (root : Root)

def shelfMatches (shelf : Ref × Listing) : List Segment :=
  if leafMatches regex hash ctx o shelf.1 then shelf.2.segments.filter (accepts regex hash ctx o root) else []

def matchesBelow (d : Disk) (ref : Ref) : List Segment := (shelves d ref.h ref).flatMap (shelfMatches regex hash ctx o root)

/- The active segments that pass the query's tests: those of the tail their own, those of a leaf
their own and the one on the summary of its page. -/
def matching (d : Disk) : List Segment :=
  root.segments.filter (accepts regex hash ctx o root) ++ root.refs.flatMap (matchesBelow regex hash ctx o root d)

variable {regex hash ctx o root}

theorem matchesBelowLeaf (height : ref.h = 0) (page : d.view ref.k = some (.leaf l)) :
    matchesBelow regex hash ctx o root d ref = shelfMatches regex hash ctx o root (ref,l) := by
  rw [matchesBelow,height,shelvesLeaf page,flatMap_singleton]

theorem matchesBelowMem {s} (mem : s ∈ matchesBelow regex hash ctx o root d ref) :
    ∃ l ∈ leavesAt d ref.h ref.k, s ∈ l.segments ∧ accepts regex hash ctx o root s = true := by
  obtain ⟨⟨leaf,l⟩,listed,inside⟩ := mem_flatMap.mp mem
  unfold shelfMatches at inside
  split at inside
  · obtain ⟨here,passes⟩ := mem_filter.mp inside
    refine ⟨l,?_,here,passes⟩
    rw [← shelvesListings]
    exact mem_map_of_mem listed
  · simp at inside

theorem matchesBelowKeys (d : Disk) (ref : Ref) :
    ((matchesBelow regex hash ctx o root d ref).map Segment.key).Sublist (names ((leavesAt d ref.h ref.k).flatMap Listing.catalog)) := by
  rw [matchesBelow,← shelvesListings,names,map_flatMap,map_flatMap,flatMap_map]
  refine flatMapSublist (fun shelf _ => ?_)
  rw [Listing.catalogKeys]
  refine List.Sublist.trans ?_ (sublist_append_left _ _)
  unfold shelfMatches
  split
  · exact filter_sublist.map _
  · exact nil_sublist _

theorem matchingKeys (d : Disk) :
    ((matching regex hash ctx o root d).map Segment.key).Sublist (names (catalog d root)) := by
  rw [matching,map_append,catalog,namesAppend]
  refine List.Sublist.append ?_ ?_
  · rw [names,Listing.catalogKeys]
    exact (filter_sublist.map _).trans (sublist_append_left _ _)
  · rw [paged,forestLeaves,flatMap_assoc,names,map_flatMap,map_flatMap]
    exact flatMapSublist (fun ref _ => matchesBelowKeys d ref)

theorem matchingDistinct (p : Proper ctx d root) (order : Direction) :
    Ranked.Distinct order.Ahead (matching regex hash ctx o root d) :=
  Ranked.distinctKeys (fun _ _ => Direction.sameKey) (p.distinct.sublist (matchingKeys d))

theorem Ref.intersectsOf {seg : Segment} {lo hi start finish} (mn : ref.mn = some lo)
    (mx : ref.mx = some hi) (low : lo ≤ seg.minTs) (high : seg.maxTs ≤ hi)
    (h : seg.intersects start finish = true) : Ref.intersects ref start finish = true := by
  simp only [Segment.intersects,Bool.and_eq_true,Option.all_eq_true,decide_eq_true_eq] at h
  simp only [Ref.intersects,mn,mx,Option.all_some,Bool.and_eq_true,Option.all_eq_true,decide_eq_true_eq]
  exact ⟨fun t is => (h.1 t is).trans high,fun t is => low.trans (h.2 t is)⟩

theorem unselected (s : Sound ctx d ref.h ref) (out : selects regex hash ctx o root ref = false) :
    matchesBelow regex hash ctx o root d ref = [] := by
  refine eq_nil_iff_forall_not_mem.mpr (fun seg mem => ?_)
  obtain ⟨l,listed,inside,passes⟩ := matchesBelowMem mem
  obtain ⟨count,lo,hi,mn,mx,low,high⟩ := s.exact.segmentRange listed inside
  simp only [accepts,Bool.and_eq_true] at passes
  have range := Ref.intersectsOf mn mx low high passes.1
  have summary : ¬(0 < ref.h) ∧ leafMatches regex hash ctx o ref = false := by
    simpa [selects,count,range] using out
  have height : ref.h = 0 := by omega
  rw [height] at s
  obtain ⟨-,written,placed,-,-⟩ := s
  rw [matchesBelowLeaf height placed.leafView,shelfMatches,if_neg (by simp [summary.2])] at mem
  simp at mem

theorem matchesBelowIndex {children} (s : Sound env.toContext d ref.h ref)
    (inner : ref.h ≠ 0) (read : readIndex env ref d = .ok children) :
    matchesBelow regex hash env.toContext o root d ref = children.flatMap (matchesBelow regex hash env.toContext o root d) := by
  have below := (indexChildren s inner read).1
  have view : d.view ref.k = some (.index children) := by simp [Disk.view,(readIndexOk read).1]
  obtain ⟨h,height⟩ : ∃ h, ref.h = h + 1 := ⟨ref.h - 1,by omega⟩
  rw [matchesBelow,height,shelvesIndex view,flatMap_assoc]
  refine flatMap_congr (fun c mem => ?_)
  have level := (below c mem).2
  rw [matchesBelow,show c.h = h by omega]

theorem readMatchingOk {found} (height : ref.h = 0) (selected : selects regex hash env.toContext o root ref = true)
    (ok : readMatching regex hash env o root d ref = .ok found) :
    found = matchesBelow regex hash env.toContext o root d ref := by
  simp only [readMatching,bind,Except.bind,pure,Except.pure] at ok
  split at ok
  · cases ok
  rename_i l read
  cases ok
  have view : d.view ref.k = some (.leaf l) := by simp [Disk.view,(readLeafOk read).1]
  have summary : leafMatches regex hash env.toContext o ref = true := by
    simp only [selects,height,Bool.and_eq_true] at selected
    simpa using selected.2
  rw [matchesBelowLeaf height view,shelfMatches,if_pos summary]

theorem boundBelow (s : Sound ctx d ref.h ref) (order : Direction) :
    ∀ seg ∈ matchesBelow regex hash ctx o root d ref, order.bound ref ≤ order.position seg := by
  intro seg mem
  obtain ⟨l,listed,inside,-⟩ := matchesBelowMem mem
  obtain ⟨-,lo,hi,mn,mx,low,high⟩ := s.exact.segmentRange listed inside
  cases order with
  | backward =>
    simp only [Direction.bound,Direction.position,mx,Option.getD_some]
    omega
  | forward => simpa only [Direction.bound,Direction.position,mn,Option.getD_some] using low

theorem queryWindow (p : Proper env.toContext d root) {order n}
    (planned : planWindow env.scope.signal o = some (order,n))
    (ok : query regex hash env o root d = .ok result) :
    result = Ranked.first order.Ahead n (matching regex hash env.toContext o root d) := by
  simp only [query,bind,Except.bind,planned] at ok
  split at ok
  · cases ok
  rename_i leaves collected
  obtain ⟨chosen,all⟩ := collectLeavesHold (matchesBelow regex hash env.toContext o root d) p.wf.refs (belowRounds root.refs)
    (fun r cs => matchesBelowIndex) (fun r => unselected) collected
  have whole : (root.segments.filter (accepts regex hash env.toContext o root) ++
      leaves.flatMap (matchesBelow regex hash env.toContext o root d)).Perm (matching regex hash env.toContext o root d) :=
    all.append_left _
  have distinct : Ranked.Distinct order.Ahead (matching regex hash env.toContext o root d) := matchingDistinct p order
  have apart := distinct.perm whole.symm
  rw [← Ranked.firstPerm apart whole]
  refine windowFirst (fun ref mem s => readMatchingOk (chosen ref mem).1.height (chosen ref mem).2) (fun ref mem => ?_) apart ok
  obtain ⟨sound,-⟩ := chosen ref mem
  exact boundBelow (sound.height.symm ▸ sound) order

theorem queryTotal (p : Proper env.toContext d root) {order n} (some : 1 ≤ n)
    (planned : planWindow env.scope.signal o = Option.some (order,n)) (readable : ∀ r ∈ root.refs, Readable env d r.h r) :
    ∃ result, query regex hash env o root d = .ok result := by
  obtain ⟨leaves,collected,read⟩ := collectLeavesTotal (selects regex hash env.toContext o root) (rounds root.refs) p.wf.refs readable
  simp only [query,bind,Except.bind,collected,planned]
  refine windowRoundsTotal some _ (fun ref mem => ?_)
  obtain ⟨l,got⟩ := read ref ((mem_insertionSort _).mp mem)
  exact ⟨_,by simp [readMatching,bind,Except.bind,pure,Except.pure,got]; rfl⟩

end Candidates

end Pulso.Journal
