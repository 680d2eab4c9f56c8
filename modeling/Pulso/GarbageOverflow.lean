import Mathlib.Data.Nat.Cast.Basic
import Mathlib.Algebra.Order.BigOperators.Group.List
import Mathlib.Algebra.Order.Group.Nat
import Pulso.GarbagePages

/-! A journal whose expiry drops more pages at once than one garbage page may list: a converted
history of deleted tombstones, all of them below the retention floor. -/
namespace Pulso.Journal
open List

structure Roomy (env : Env) : Prop where
  put : ∀ k, env.put k = none
  ref : ∀ r, env.sizes.ref r ≤ refBytes
  leaf : ∀ l : Listing, l.size ≤ leafEntries → pageOverhead + env.sizes.leaf l ≤ pageLimit
  index : ∀ children : List Ref, children.length ≤ fanout → pageOverhead + env.sizes.index children ≤ pageLimit

variable {l : Listing}

section Totality
variable {env : Env} (roomy : Roomy env)
include roomy

theorem putPageTotal {payload} (page : Page) (kind : PageKind) (small : pageOverhead + payload ≤ pageLimit) (d : Disk) :
    ∃ stub d', putPage env page kind payload d = (.ok stub,d') := by
  unfold putPage
  dsimp only
  rw [if_neg (by omega),roomy.put]
  exact ⟨_,_,rfl⟩

theorem leafRefTotal (dated : Dated l.retired) (some : 0 < l.size) (few : l.size ≤ leafEntries)
    (d : Disk) : ∃ ref d', leafRef env l d = (.ok ref,d') := by
  have listed : stamps l ≠ [] := by rw [← length_pos_iff,stampsLength]; exact some
  obtain ⟨stats,counted⟩ : ∃ stats, leafStats l = .ok stats := by
    obtain ⟨kn,least⟩ := Option.isSome_iff_exists.mp (isSome_min?_of_ne_nil listed)
    obtain ⟨kx,greatest⟩ := Option.isSome_iff_exists.mp (isSome_max?_of_ne_nil listed)
    exact ⟨_,by rw [leafStats,if_pos dated,least,greatest]⟩
  obtain ⟨stub,d',put⟩ := putPageTotal roomy (.leaf (l.persisted env.sizes.toSummarySizes)) .leaf (roomy.leaf l few) d
  refine ⟨⟨stub,stats,0,leafSummary env.toContext l⟩,d',?_⟩
  simp only [leafRef,Op.bindOk,Op.liftOk]
  refine ⟨stats,d,⟨counted,rfl⟩,stub,d',put,?_⟩
  unfold boundedReference
  simp [Nat.not_lt.mpr (roomy.ref _),pure]

theorem indexRefTotal {children} (some : children ≠ []) (few : children.length ≤ fanout) (d : Disk) :
    ∃ ref d', indexRef env children d = (.ok ref,d') := by
  obtain ⟨stats,counted⟩ : ∃ stats, indexStats children = .ok stats := by
    obtain ⟨kn,least⟩ := Option.isSome_iff_exists.mp
      (isSome_min?_of_ne_nil (fun none => some (map_eq_nil_iff.mp none)) : (children.map (fun c => c.kn)).min?.isSome)
    obtain ⟨kx,greatest⟩ := Option.isSome_iff_exists.mp
      (isSome_max?_of_ne_nil (fun none => some (map_eq_nil_iff.mp none)) : (children.map (fun c => c.kx)).max?.isSome)
    exact ⟨_,by rw [indexStats,least,greatest]⟩
  obtain ⟨stub,d',put⟩ := putPageTotal roomy (.index children) .index (roomy.index children few) d
  refine ⟨⟨stub,stats,(children.head?.map (fun c => c.h + 1)).getD 1,none⟩,d',?_⟩
  simp only [indexRef,Op.bindOk,Op.liftOk,Op.pureOk]
  exact ⟨stub,d',put,stats,d',⟨counted,rfl⟩,rfl,rfl⟩

theorem buildTotal (fuel : Nat) (refs : List Ref) (d : Disk) : ∃ refs' d', build env fuel refs d = (.ok refs',d') := by
  induction fuel generalizing refs d with
  | zero => exact ⟨refs,d,rfl⟩
  | succ fuel ih =>
    unfold build
    dsimp only
    split
    · exact ⟨refs,d,rfl⟩
    have cut := (groupsSpec (Nat.div_mul_le_self refs.length fanout)).2
    obtain ⟨parents,d₁,made⟩ := Op.eachTotal (fun g mem e => indexRefTotal roomy
      (by rintro rfl; have := cut [] mem; simp [fanout] at this) (cut g mem).le e) d
    obtain ⟨packed,d₂,rest⟩ := ih parents d₁
    refine ⟨packed ++ refs.drop (refs.length / fanout * fanout),d₂,?_⟩
    simp only [Op.bindOk,Op.pureOk]
    exact ⟨parents,d₁,made,packed,d₂,rest,rfl,rfl⟩

end Totality

theorem chunkFromFew {sizes xs current count bytes} (small : ∀ x ∈ xs, x.bytes sizes ≤ 256)
    (counted : current.length = count) (few : count ≤ leafEntries) (room : bytes ≤ 256 * count) :
    (chunkFrom sizes xs current count bytes).length * leafEntries < xs.length + count + leafEntries := by
  induction xs generalizing current count bytes with
  | nil =>
    unfold chunkFrom
    split
    · simp [leafEntries]
    rename_i some
    have := length_pos_iff.mpr some
    simp only [length_singleton,length_nil]
    omega
  | cons x rest ih =>
    have later : ∀ y ∈ rest, y.bytes sizes ≤ 256 := fun y mem => small y (mem_cons_of_mem _ mem)
    have here := small x mem_cons_self
    unfold chunkFrom
    dsimp only
    split
    · rename_i cut
      have next : (chunkFrom sizes rest [x] 1 (x.bytes sizes)).length * leafEntries < rest.length + 1 + leafEntries :=
        ih later rfl (by simp [leafEntries]) (by omega)
      have full : leafEntries ≤ count := by
        rcases cut.2 with full | heavy
        · exact full
        · simp only [leafBytes,leafEntries] at heavy ⊢
          omega
      rw [length_cons,Nat.succ_mul,length_cons]
      omega
    · rename_i open_
      have next : (chunkFrom sizes rest (x::current) (count + 1) (bytes + x.bytes sizes)).length * leafEntries <
          rest.length + (count + 1) + leafEntries := ih later (by rw [length_cons,counted]) (by
        by_contra beyond
        refine open_ ⟨?_,.inl (by omega)⟩
        rintro rfl
        simp only [leafEntries,length_nil] at beyond counted
        omega) (Nat.le_trans (Nat.add_le_add room here) (by omega))
      rw [length_cons]
      omega

structure Dead (floor : Int) (l : Listing) : Prop where
  idle : l.segments = []
  old : ∀ e ∈ l.retired.entries, e.2.deleted = true ∧ ∃ t, e.1.maxTs? = some t ∧ t < floor

variable {root : Root}

section Drop
variable {ctx : Context} {floor : Int}

theorem Dead.persisted (dead : Dead floor l) (sizes : SummarySizes) : Dead floor (l.persisted sizes) := by
  refine ⟨eq_nil_of_length_eq_zero ?_,dead.old⟩
  have same := (Listing.persistedIdentity sizes l).length_eq
  simpa [dead.idle] using same

theorem Dead.leaf {c} (dead : Dead floor l) (part : ChunkOf l c) : Dead floor (leafOf c) := by
  have origin : ∀ x ∈ c, ∃ e ∈ l.retired.entries, x = Entry.ofRetirement e := by
    intro x mem
    have listed := part.inside x mem
    rw [entries,dead.idle,map_nil,nil_append] at listed
    obtain ⟨e,he,rfl⟩ := mem_map.mp listed
    exact ⟨e,he,rfl⟩
  constructor
  · have none : c.filterMap Entry.segment? = [] := by
      refine filterMap_eq_nil_iff.mpr (fun x mem => ?_)
      obtain ⟨e,-,rfl⟩ := origin x mem
      rfl
    rw [leafOf,none]
    rfl
  · intro e mem
    rw [leafOf,ofListEntries part.distinct] at mem
    obtain ⟨x,hx,same⟩ := mem_filterMap.mp mem
    obtain ⟨e',he',rfl⟩ := origin x hx
    cases same
    exact dead.old e' he'

theorem Dead.dated (dead : Dead floor l) : Dated l.retired := by
  intro k mem
  obtain ⟨e,he,rfl⟩ := mem_map.mp mem
  obtain ⟨-,t,date,-⟩ := dead.old e he
  rw [date]
  rfl

theorem Dead.stamps (dead : Dead floor l) : ∀ t ∈ stamps l, t < floor := by
  intro t mem
  rw [Journal.stamps,dead.idle,map_nil,nil_append,Dict.keys,map_map] at mem
  obtain ⟨e,he,rfl⟩ := mem_map.mp mem
  obtain ⟨-,t,date,before⟩ := dead.old e he
  simpa [date] using before

theorem Dead.pending {l} (dead : Dead floor l) : pending l = [] := by
  rw [Journal.pending,map_eq_nil_iff,filter_eq_nil_iff]
  intro e mem
  simp [(dead.old e mem).1]

theorem deadDroppable {d h ref} (s : Sound ctx d h ref) (dead : ∀ l ∈ leavesAt d h ref.k, Dead floor l) :
    droppable floor ref = true ∧ ref.kn < floor := by
  have counts := s.exact
  have below : ∀ t ∈ (leavesAt d h ref.k).flatMap stamps, t < floor := by
    intro t mem
    obtain ⟨l,hl,ht⟩ := mem_flatMap.mp mem
    exact (dead l hl).stamps t ht
  have idle : ref.n = 0 := by
    rw [counts.n,map_congr_left (g := fun _ => 0) (fun l hl => by rw [(dead l hl).idle]; rfl)]
    simp
  have settled : ref.rd = none := by
    rw [counts.rd,min?_eq_none_iff,flatMap_eq_nil_iff]
    exact fun l hl => (dead l hl).pending
  have newest : ref.kx < floor := below _ (max?_mem counts.kx.symm)
  exact ⟨by simp [droppable,idle,settled,newest],below _ (min?_mem counts.kn.symm)⟩

theorem journalSuffix (scope : Scope) : (ascii "/journal/").isSuffixOf scope.journal = true := by
  rw [isSuffixOf_iff_suffix]
  refine ⟨ascii "tenants/" ++ scope.tenant ++ ascii "/v4/signal=" ++ scope.signal.name,?_⟩
  have joined : ascii "/journal/" = ascii "/" ++ ascii "journal/" := by decide +kernel
  rw [joined,Scope.journal,Scope.path]
  simp only [append_assoc]

theorem Sound.placed {ctx d h ref} (s : Sound ctx d h ref) : ∃ page, Placed ctx d ref page := by
  cases h with
  | zero => obtain ⟨_,_,placed,_⟩ := s; exact ⟨_,placed⟩
  | succ h => obtain ⟨_,_,_,placed,_⟩ := s; exact ⟨_,placed⟩

theorem idleValid {ctx d h ref} (s : Sound ctx d h ref) (short : ctx.scope.journal.length ≤ 900) (low : h ≤ maxHeight)
    (idle : ∀ l ∈ leavesAt d h ref.k, l.segments = []) : ValidRef ref := by
  obtain ⟨page,placed⟩ := s.placed
  have counts := s.exact
  have none : (leavesAt d h ref.k).flatMap (fun l => l.segments.map Segment.minTs) = [] :=
    flatMap_eq_nil_iff.mpr (fun l hl => by rw [idle l hl]; rfl)
  have none' : (leavesAt d h ref.k).flatMap (fun l => l.segments.map Segment.maxTs) = [] :=
    flatMap_eq_nil_iff.mpr (fun l hl => by rw [idle l hl]; rfl)
  have n : ref.n = 0 := by
    rw [counts.n,map_congr_left (g := fun _ => 0) (fun l hl => by rw [idle l hl]; rfl)]
    simp
  have least := min?_mem counts.kn.symm
  obtain ⟨l,hl,stamp⟩ := mem_flatMap.mp least
  refine ⟨s.height ▸ low,⟨placed.digest,placed.kind,?_,?_⟩,placed.bytes,⟨by omega,?_,?_⟩,?_,?_⟩
  · have name : ref.k.kind.name.length ≤ 5 := by
      cases ref.k.kind <;> decide +kernel
    rw [PageKey.bytes,placed.journal]
    omega
  · rw [placed.journal]; exact journalSuffix ctx.scope
  · have part : l.size ≤ ref.e := by
      rw [counts.e]
      exact single_le_sum (fun _ _ => Nat.zero_le _) _ (mem_map_of_mem hl)
    have some : 0 < l.size := by
      rw [← stampsLength]
      exact length_pos_of_mem stamp
    omega
  · rw [counts.l]
    exact length_pos_of_mem hl
  · exact (max?_eq_some_iff.mp counts.kx.symm).2 _ least
  · rw [ValidRange,if_pos n,counts.mn,counts.mx,none,none']
    exact ⟨rfl,rfl⟩

variable {env : Env}

theorem collectPageKeysTotal {d h ref} (s : Sound env.toContext d h ref) (short : env.scope.journal.length ≤ 900)
    (low : h ≤ maxHeight) (answers : ∀ k, env.get k = none) (idle : ∀ l ∈ leavesAt d h ref.k, l.segments = []) :
    collectPageKeys env h ref d = .ok (keysAt d h ref.k) := by
  induction h generalizing ref with
  | zero => rfl
  | succ h ih =>
    have height := s.height
    obtain ⟨_,_,children,placed,stats,few,below⟩ := s
    have inside : ∀ c ∈ children, ∀ l ∈ leavesAt d h c.k, l.segments = [] := by
      intro c mem l hl
      refine idle l ?_
      rw [leavesAt,PageTree.leavesAtIndex placed.indexView]
      exact mem_flatMap.mpr ⟨c,mem,hl⟩
    have valid : ValidChildren env.scope ref.h children := by
      refine ⟨length_pos_iff.mpr (indexStatsNonempty stats),few,fun c mem => ?_⟩
      obtain ⟨page,at_⟩ := (below c mem).placed
      exact ⟨idleValid (below c mem) short (by omega) (inside c mem),by rw [(below c mem).height,height],at_.journal⟩
    have fetched : fetch env ref.toStub d = .ok (.index children) := by
      simp [fetch,answers,placed.stored,placed.digest]
    have read : readIndex env ref d = .ok children := by simp [readIndex,fetched,valid]
    have each : ∀ cs : List Ref, (∀ c ∈ cs, c ∈ children) →
        cs.mapM (fun c => collectPageKeys env h c d) = .ok (cs.map (fun c => keysAt d h c.k)) := by
      intro cs part
      induction cs with
      | nil => rfl
      | cons c rest step =>
        have mem := part c mem_cons_self
        rw [mapM_cons,ih (below c mem) (by omega) (inside c mem),step (forall_mem_cons.mp part).2]
        rfl
    simp only [collectPageKeys,read,each children (fun c mem => mem)]
    rw [keysAt,PageTree.keysAtIndex placed.indexView,flatMap_def]

def dropped (d : Disk) (r : Ref) : Expired := ⟨none,keysAt d r.h r.k,[],0⟩

theorem expireEachDead {deadline budget d refs} (s : AllSound env.toContext d refs)
    (short : env.scope.journal.length ≤ 900) (low : ∀ r ∈ refs, r.h ≤ maxHeight) (answers : ∀ k, env.get k = none)
    (dead : ∀ l ∈ forestLeaves d refs, Dead floor l) (enough : refs.length ≤ budget) :
    expireEach (fun r => expireRef env floor deadline r.h r) refs budget d =
      (.ok (refs.map (dropped d),budget - refs.length),d) := by
  induction refs generalizing budget with
  | nil => rfl
  | cons r rest ih =>
    have here : ∀ l ∈ leavesAt d r.h r.k, Dead floor l := fun l mem => dead l (mem_flatMap.mpr ⟨r,mem_cons_self,mem⟩)
    obtain ⟨drop,early⟩ := deadDroppable (s r mem_cons_self) here
    have collected := collectPageKeysTotal (s r mem_cons_self) short (low r mem_cons_self) answers
      (fun l mem => (here l mem).idle)
    rw [length_cons] at enough
    have head : expireRef env floor deadline r.h r budget d = (.ok (dropped d r,budget - 1),d) := by
      have open_ : ¬ (budget = 0 ∨ floor ≤ r.kn) := by omega
      unfold expireRef
      rw [if_neg open_,if_pos drop]
      simp only [Op.bindOk,Op.liftOk,Op.pureOk]
      exact ⟨_,d,⟨collected,rfl⟩,rfl,rfl⟩
    have tail := ih (forall_mem_cons.mp s).2 (forall_mem_cons.mp low).2
      (fun l mem => dead l (by
        obtain ⟨x,hx,hl⟩ := mem_flatMap.mp mem
        exact mem_flatMap.mpr ⟨x,mem_cons_of_mem _ hx,hl⟩)) (show rest.length ≤ budget - 1 by omega)
    simp only [expireEach,Op.bindOk,Op.pureOk]
    refine ⟨_,d,head,_,d,tail,?_,rfl⟩
    rw [map_cons,length_cons,Nat.sub_sub,Nat.add_comm 1]

def dropping (d : Disk) (r : Ref) : Change := ⟨r.k,none,keysAt d r.h r.k,[],0⟩

theorem expirePlanDead {deadline d} (s : AllSound env.toContext d root.refs)
    (short : env.scope.journal.length ≤ 900) (low : ∀ r ∈ root.refs, r.h ≤ maxHeight) (answers : ∀ k, env.get k = none)
    (dead : ∀ l ∈ forestLeaves d root.refs, Dead floor l) :
    expirePlan env root floor deadline root.refs.length d = (.ok (root.refs.map (dropping d)),d) := by
  simp only [expirePlan,Op.bindOk,Op.pureOk]
  refine ⟨_,d,expireEachDead s short low answers dead (Nat.le_refl _),?_,rfl⟩
  have paired : root.refs.zip (root.refs.map (dropped d)) = root.refs.map (fun r => (r,dropped d r)) := by
    simpa using zip_map' (f := id) (g := dropped d) (l := root.refs)
  rw [paired,filterMap_map,← filterMap_eq_map]
  refine filterMap_congr (fun r _ => ?_)
  simp [expireChange,dropped,dropping]

end Drop

theorem basenameTail (dir base : Bytes) (some : base ≠ []) (plain : ∀ b ∈ base, b ≠ Bytes.slash) :
    Bytes.basename (dir ++ Bytes.slash::base) = base := by
  have back : base.reverse ≠ [] := by simpa using some
  have clean : ∀ b ∈ base.reverse, (b != Bytes.slash) = true := fun b mem => by simpa using plain b (mem_reverse.mp mem)
  unfold Bytes.basename
  rw [reverse_append,reverse_cons,append_assoc]
  cases last : base.reverse with
  | nil => exact absurd last back
  | cons b rest =>
    rw [last] at clean
    have first : (b == Bytes.slash) = false := by simpa [bne] using clean b mem_cons_self
    rw [cons_append,dropWhile_cons,first,if_neg (by simp),← cons_append,takeWhile_append_of_pos clean]
    simp [← last]

theorem containsSublist {part whole} (found : Bytes.contains part whole = true) : part.Sublist whole := by
  induction whole with
  | nil =>
    have none : part = [] := by simpa [Bytes.contains] using found
    rw [none]
  | cons b rest ih =>
    rw [Bytes.contains,Bool.or_eq_true] at found
    rcases found with here | later
    · exact ( isPrefixOf_iff_prefix.mp here).sublist
    · exact (ih later).cons b

namespace Sample

def letter (n : Nat) : UInt8 := UInt8.ofNat (97 + n % 16)
def code (i : Nat) : Bytes := [letter i,letter (i / 16),letter (i / 256),letter (i / 4096),letter (i / 65536),letter (i / 1048576)]
def file : Bytes := ascii "00000000000000000007-00000000000000000009-rand-a.parquet"
def buriedKey (i : Nat) : Key := scope.path ++ code i ++ Bytes.slash::file

variable {a b : Nat}

theorem letterInjective (same : letter a = letter b) : a % 16 = b % 16 := by
  have bytes := congrArg UInt8.toNat same
  simp only [letter,UInt8.toNat_ofNat'] at bytes
  omega

theorem codeInjective (small : a < 16777216) (small' : b < 16777216) (same : code a = code b) : a = b := by
  simp only [code,List.cons.injEq,and_true] at same
  obtain ⟨h₁,h₂,h₃,h₄,h₅,h₆⟩ := same
  have := letterInjective h₁
  have := letterInjective h₂
  have := letterInjective h₃
  have := letterInjective h₄
  have := letterInjective h₅
  have := letterInjective h₆
  omega

theorem buriedInjective (small : a < 16777216) (small' : b < 16777216) (same : buriedKey a = buriedKey b) : a = b := by
  refine codeInjective small small' ?_
  simpa [buriedKey] using same

theorem buriedStamp (i : Nat) : (buriedKey i).maxTs? = some 9 := by
  have base : Bytes.basename (buriedKey i) = file :=
    basenameTail (scope.path ++ code i) file (by decide +kernel) (by decide +kernel)
  have suffix : (ascii ".parquet").isSuffixOf (buriedKey i) = true := by
    rw [isSuffixOf_iff_suffix]
    have inner : ascii ".parquet" <:+ file := by decide +kernel
    exact inner.trans ((suffix_cons _ _).trans (suffix_append _ _))
  rw [Key.maxTs?,Key.segmentFromKey,if_pos suffix,base]
  decide +kernel

theorem letterPlain (n : Nat) : letter n ≠ 46 ∧ letter n ≠ 47 := by
  constructor
  · intro same
    have := congrArg UInt8.toNat same
    simp only [letter,UInt8.toNat_ofNat'] at this
    change (97 + n % 16) % 2 ^ 8 = 46 at this
    omega
  · intro same
    have := congrArg UInt8.toNat same
    simp only [letter,UInt8.toNat_ofNat'] at this
    change (97 + n % 16) % 2 ^ 8 = 47 at this
    omega

theorem buriedValid (i : Nat) : ValidRetiredKey scope (buriedKey i) := by
  refine ⟨⟨?_,⟨code i ++ Bytes.slash::file,by simp [buriedKey]⟩,?_⟩,by rw [buriedStamp]; rfl⟩
  · have path : scope.path.length = 25 := by decide +kernel
    have name : file.length = 56 := by decide +kernel
    simp [buriedKey,code,path,name,Scope.keyLimit]
  by_contra climbs
  -- two dots would be needed, and the key has one
  have dots := (containsSublist (Bool.eq_true_of_not_eq_false climbs)).count_le 46
  have path : scope.path.count 46 = 0 := by decide +kernel
  have name : (Bytes.slash::file).count 46 = 1 := by decide +kernel
  have letters : (code i).count 46 = 0 := by
    refine count_eq_zero.mpr (fun mem => ?_)
    simp only [code,mem_cons,not_mem_nil,or_false] at mem
    rcases mem with h | h | h | h | h | h <;> exact (letterPlain _).1 h.symm
  rw [buriedKey,count_append,count_append,path,name,letters] at dots
  exact absurd dots (by decide +kernel)

def grave (i : Nat) : Key × Retirement := (buriedKey i,⟨8,0,true⟩)

def buried (n : Nat) : Listing := ⟨[],Dict.ofList ((List.range n).map grave)⟩

section Buried
variable {n : Nat} (small : n ≤ 16777216)

include small in
theorem buriedEntries : (buried n).retired.entries = (List.range n).map grave := by
  have distinct : (((List.range n).map grave).map Prod.fst).Nodup := by
    rw [map_map]
    refine (nodup_range).map_on (fun a ha b hb same => ?_)
    rw [mem_range] at ha hb
    exact buriedInjective (by omega) (by omega) same
  exact ofListEntries distinct

include small in
theorem memBuried {e} (mem : e ∈ (buried n).retired.entries) : ∃ i, e = grave i := by
  rw [buriedEntries small] at mem
  obtain ⟨i,-,rfl⟩ := mem_map.mp mem
  exact ⟨i,rfl⟩

include small in
theorem buriedSize : (buried n).size = n := by
  have none : (buried n).segments = [] := rfl
  rw [Listing.size,none,Dict.size,buriedEntries small]
  simp

end Buried

/- Encoded sizes as the journal writes them: entries and references well under their budgets, a
garbage page of one quoted key and a comma after another. -/
def burial : Env where
  scope := scope
  sizes := ⟨⟨fun _ => 1,fun _ => 1,fun _ => 1,fun _ => 1,fun _ => 1⟩,fun _ => 200,fun _ => 400,fun l => 200 * l.size,
    fun children => 400 * children.length,fun keys => (keys.map (fun k => k.bytes + 3)).sum,fun _ => 100⟩
  now := 10
  graceMs := 5
  rootBytes := fun _ => 100
  get := fun _ => none
  put := fun _ => none

theorem burialRoomy : Roomy burial := by
  refine ⟨fun _ => rfl,fun _ => by simp [burial,refBytes],fun l few => ?_,fun children few => ?_⟩
  · simp only [burial,pageOverhead,pageLimit,leafEntries] at few ⊢
    omega
  · simp only [burial,pageOverhead,pageLimit,fanout] at few ⊢
    omega

section Interment
variable {n : Nat} (small : n ≤ 16777216)

include small in
theorem buriedDead : Dead 10 (buried n) := by
  refine ⟨rfl,fun e mem => ?_⟩
  obtain ⟨i,rfl⟩ := memBuried small mem
  exact ⟨rfl,9,buriedStamp i,by decide⟩

include small in
theorem buriedChunks : (chunk burial.sizes (entries (buried n))).length * leafEntries < n + leafEntries ∧
    n ≤ (chunk burial.sizes (entries (buried n))).length * leafEntries := by
  have count : (entries (buried n)).length = n := by
    rw [entries,length_append,length_map,length_map]
    exact buriedSize small
  constructor
  · have light : ∀ x ∈ (entries (buried n)).insertionSort Entry.Before, x.bytes burial.sizes ≤ 256 := by
      intro x mem
      rw [mem_insertionSort,entries] at mem
      rcases mem_append.mp mem with none | entry
      · cases none
      obtain ⟨e,he,rfl⟩ := mem_map.mp entry
      obtain ⟨i,rfl⟩ := memBuried small he
      have path : scope.path.length = 25 := by decide +kernel
      have name : file.length = 56 := by decide +kernel
      simp [Entry.bytes,Entry.ofRetirement,grave,buriedKey,code,path,name]
    have few : (chunkFrom burial.sizes ((entries (buried n)).insertionSort Entry.Before) [] 0 0).length * leafEntries < _ :=
      chunkFromFew light rfl (Nat.zero_le _) (Nat.le_refl 0)
    rw [length_insertionSort,count] at few
    simpa [chunk] using few
  · obtain ⟨cs,same,flat,each⟩ := chunkSpec burial.sizes (buried n)
    have total := flat.length_eq
    rw [count,length_flatten] at total
    rw [same,length_map,← total,Nat.mul_comm]
    have bound : (cs.map List.length).sum ≤ leafEntries * (cs.map (fun _ => 1)).sum :=
      sumBound (fun c mem => by simpa using (each c mem).few)
    simpa using bound

structure Interred (root : Root) (d : Disk) : Prop where
  wf : WellFormed burial.toContext d root.paging
  listing : root.toListing = Listing.empty
  lists : root.paging.g = [] ∧ root.paging.gr = []
  floor : root.paging.rf = none
  low : ∀ r ∈ root.refs, r.h ≤ maxHeight
  dead : ∀ l ∈ forestLeaves d root.refs, Dead 10 l
  many : gcPageKeys < (forestKeys d root.refs).length
  few : (forestKeys d root.refs).length ≤ 2 * (gcPageKeys + 1)

theorem interment (enough : n = (gcPageKeys + 1) * leafEntries) :
    ∃ root d, convert burial (buried n) Disk.blank = (.ok root,d) ∧ Interred root d := by
  have small : n ≤ 16777216 := by rw [enough]; decide +kernel
  have dead := buriedDead small
  obtain ⟨upper,lower⟩ := buriedChunks small
  obtain ⟨cs,same,-,each⟩ := chunkSpec burial.sizes (buried n)
  have count : (chunk burial.sizes (entries (buried n))).length = gcPageKeys + 1 := by
    simp only [gcPageKeys,leafEntries] at enough upper lower ⊢
    omega
  have leafDead : ∀ l ∈ chunk burial.sizes (entries (buried n)), Dead 10 l ∧ 0 < l.size ∧ l.size ≤ leafEntries := by
    intro l mem
    rw [same] at mem
    obtain ⟨c,hc,rfl⟩ := mem_map.mp mem
    have part := each c hc
    exact ⟨dead.leaf part,by rw [leafOfSize part.distinct]; exact length_pos_iff.mpr part.nonempty,
      by rw [leafOfSize part.distinct]; exact part.few⟩
  obtain ⟨⟨fresh,d₀⟩,drawn⟩ : ∃ x : Root × Disk, newRoot Disk.blank = (.ok x.1,x.2) := ⟨(_,_),rfl⟩
  obtain ⟨leaves,d₁,put⟩ := Op.eachTotal (f := leafRef burial)
    (fun l mem e => leafRefTotal burialRoomy (leafDead l mem).1.dated (leafDead l mem).2.1 (leafDead l mem).2.2 e) d₀
  obtain ⟨refs,d₂,packed⟩ := buildTotal burialRoomy leaves.length leaves d₁
  have ok : convert burial (buried n) Disk.blank = (.ok (fresh.withRefs refs),d₂) := by
    have large : ¬ (buried n).size ≤ leafEntries := by
      rw [buriedSize small,enough]; decide +kernel
    simp only [convert,validateSegments,Op.bindOk,Op.requireOk]
    refine ⟨(),_,⟨(by intro x mem; cases mem),rfl⟩,(),_,⟨?_,rfl⟩,fresh,d₀,drawn,?_⟩
    · intro k mem
      obtain ⟨e,he,rfl⟩ := mem_map.mp mem
      obtain ⟨i,rfl⟩ := memBuried small he
      exact buriedValid i
    · rw [if_neg large]
      simp only [Op.bindOk,Op.liftOk,Op.pureOk]
      exact ⟨entries (buried n),d₀,⟨by rw [items,if_pos dead.dated],rfl⟩,leaves,d₁,put,refs,d₂,packed,rfl,rfl⟩
  have spec := convertSpec blankAllocated ok
  obtain ⟨rfl,grown⟩ := newRootSpec drawn
  have written := putLeavesSpec (grown.allocated blankAllocated) put
  obtain ⟨w,packs,fewer⟩ := buildPacks ((grown.trans written.grows).allocated blankAllocated) written.sound packed
  have long := (Op.eachLength put).trans count
  have pages : (forestKeys d₂ refs).length = leaves.length + w.length := by
    rw [packs.keys.length_eq,length_append,written.keys,length_map]
  have low := buildHeights (k := 12) (fun r mem => (written.sound r mem).height) (by rw [long]; decide +kernel) packed
  refine ⟨_,d₂,ok,spec.wf,rfl,spec.lists,spec.marks.2.2,?_,?_,?_,?_⟩
  · intro r mem
    simpa [maxHeight] using low r mem
  · intro l mem
    have content : forestLeaves d₂ refs = _ := packs.leaves.trans written.content
    have stored : l ∈ forestLeaves d₂ refs := mem
    rw [content] at stored
    obtain ⟨l',hl,rfl⟩ := mem_map.mp stored
    exact (leafDead l' hl).1.persisted _
  · have shown : (forestKeys d₂ refs).length = _ := pages
    change gcPageKeys < (forestKeys d₂ refs).length
    omega
  · change (forestKeys d₂ refs).length ≤ _
    omega

end Interment

variable {d : Disk}

theorem replacementDropped {refs : List Ref} {r} (mem : r ∈ refs) : replacement (refs.map (dropping d)) r = [] := by
  have listed : r.k ∈ (Dict.ofList ((refs.map (dropping d)).map (fun c => (c.key,c.ref)))).keys := by
    rw [Dict.ofList,Dict.memKeysPutAll]
    refine .inr ?_
    rw [map_map,map_map]
    exact mem_map.mpr ⟨r,mem,rfl⟩
  obtain ⟨new,found⟩ := Dict.memKeys.mp listed
  have entry := Dict.getOfList found
  rw [map_map] at entry
  obtain ⟨x,-,same⟩ := mem_map.mp entry
  have gone : new = none := (congrArg Prod.snd same).symm
  rw [replacement,found,gone]
  rfl

variable (refs : List Ref)

theorem appliedDropping : appliedTo refs (refs.map (dropping d)) = refs.map (dropping d) := by
  refine filter_eq_self.mpr (fun c mem => ?_)
  obtain ⟨r,hr,rfl⟩ := mem_map.mp mem
  simpa [dropping] using ⟨r,hr,rfl⟩

theorem staleDropping : staleFor refs (refs.map (dropping d)) = [] := by
  refine filter_eq_nil_iff.mpr (fun c mem => ?_)
  obtain ⟨r,hr,rfl⟩ := mem_map.mp mem
  simpa [dropping] using ⟨r,hr,rfl⟩

theorem supersededDropping : (refs.map (dropping d)).flatMap Change.superseded = forestKeys d refs := by
  rw [flatMap_map]
  rfl

theorem forestLocal (i : Interred root d) : Local burial.toContext (forestKeys d root.refs) := by
  refine .flatMap (fun r mem => ?_)
  have collected := collectPageKeysTotal (i.wf.refs r mem) (by decide +kernel) (i.low r mem) (fun _ => rfl)
    (fun l hl => (i.dead l (mem_flatMap.mpr ⟨r,mem,hl⟩)).idle)
  exact collectPageKeysLocal (topsLocal i.wf r mem) collected

theorem burialExpires (i : Interred root d) : ∃ ref d', applyExpiry burial root 10 20 (root.refs.map (dropping d)) d =
        (.ok (⟨Listing.empty,{ root.paging with refs := [],rf := some 10,g := [],gr := [ref] }⟩,0),d') ∧ ref.d = 15 ∧
      d'.pages ref.k = some ⟨.gc (forestKeys d root.refs),ref.b⟩ ∧ ref.k.sha = ref.sha := by
  have many := i.many
  have few := i.few
  have refs : (substitute root.refs (root.refs.map (dropping d))).refs = [] := by
    rw [substitute,appliedDropping]
    exact flatMap_eq_nil_iff.mpr (fun r mem => replacementDropped mem)
  have small : pageOverhead + burial.sizes.gc (forestKeys d root.refs) ≤ pageLimit := by
    have journal : scope.journal.length = 33 := by decide +kernel
    have each : ∀ k ∈ forestKeys d root.refs, k.bytes + 3 ≤ 111 * 1 := by
      intro k mem
      have name : k.kind.name.length ≤ 5 := by cases k.kind <;> decide +kernel
      have here : k.journal = scope.journal := forestLocal i k mem
      rw [PageKey.bytes,here]
      omega
    have total := sumBound each
    have ones : ((forestKeys d root.refs).map (fun _ => 1)).sum = (forestKeys d root.refs).length := by simp
    rw [ones] at total
    simp only [burial,pageOverhead,pageLimit,gcPageKeys] at few total ⊢
    omega
  obtain ⟨stub,d',put⟩ := putPageTotal burialRoomy (.gc (forestKeys d root.refs)) .gc small d
  have page := putPageSpec i.wf.allocated put
  let listed := (forestKeys d root.refs).map (fun k => (⟨k,15⟩ : GcEntry))
  have names : listed.map GcEntry.key = forestKeys d root.refs := by simp [listed,Function.comp_def]
  have deadlines : ((listed.map GcEntry.deadline).max?).getD 0 = 15 := by
    have same : listed.map GcEntry.deadline = List.replicate (forestKeys d root.refs).length 15 := by
      simp [listed,Function.comp_def,map_const']
    rw [same,max?_replicate]
    split
    · omega
    · rfl
  refine ⟨⟨stub,15,listed.length⟩,d',?_,rfl,page.stored,by rw [page.key,page.sha]⟩
  have start := i.lists
  let old : Paging := { root.paging with refs := [], rf := some 10 }
  have shelved : supersede burial ⟨Listing.empty,old⟩ (forestKeys d root.refs) 15 d =
      (.ok ⟨Listing.empty,{ old with g := [],gr := [⟨stub,15,listed.length⟩] }⟩,d') := by
    have some : forestKeys d root.refs ≠ [] := length_pos_iff.mp (by omega)
    have long : ¬ listed.length ≤ gcInline := by simp only [listed,length_map,gcInline,gcPageKeys] at *; omega
    have inline : old.g ++ (forestKeys d root.refs).map (fun k => ⟨k,15⟩) = listed := by simp [old,start,listed]
    rw [supersede,if_neg some]
    simp only [inline]
    rw [if_neg long,names,deadlines]
    simp only [Op.bindOk,Op.requireOk,Op.pureOk]
    refine ⟨stub,d',put,(),d',⟨?_,rfl⟩,?_,rfl⟩
    · simp [old,start,gcRefs]
    · simp [old,start]
  have floor : max (root.paging.rf.getD 0) 10 = 10 := by rw [i.floor]; rfl
  simp only [applyExpiry,Op.bindOk,Op.requireOk,Op.pureOk]
  refine ⟨(),d,⟨?_,rfl⟩,⟨Listing.empty,{ old with g := [],gr := [⟨stub,15,listed.length⟩] }⟩,d',?_,?_,rfl⟩
  · rw [i.listing]
    intro e mem
    cases mem
  · have keys : (substitute root.refs (root.refs.map (dropping d))).applied.flatMap Change.superseded ++
        (substitute root.refs (root.refs.map (dropping d))).stale.flatMap Change.written = forestKeys d root.refs := by
      rw [substitute,appliedDropping,staleDropping,supersededDropping]
      exact append_nil _
    rw [refs,keys,floor,i.listing]
    exact shelved
  · have retired : ((substitute root.refs (root.refs.map (dropping d))).applied.map Change.retired).sum = 0 := by
      rw [substitute,appliedDropping,map_map]
      simp [Function.comp_def,dropping]
    rw [retired,i.listing]
    rfl

theorem droppedCleanup {d' ref} (i : Interred root d) (due : ref.d = 15)
    (stored : d'.pages ref.k = some ⟨.gc (forestKeys d root.refs),ref.b⟩) (digest : ref.k.sha = ref.sha) {now}
    (late : 15 ≤ now) (maximum : Nat) :
    cleanupPlan burial ⟨Listing.empty,{ root.paging with refs := [],rf := some 10,g := [],gr := [ref] }⟩ now maximum d' =
      .error .invalidManifestPage := by
  have long : ¬ ValidGcKeys burial.scope (forestKeys d root.refs) := fun valid => by
    have := valid.1
    have := i.many
    omega
  have read : gcKeys burial ref d' = .error .invalidManifestPage := by
    rw [gcKeys,readGcStored stored digest rfl,if_neg long]
  have listed : ([ref].filter (fun r => decide (r.d ≤ now))).take 2 = [ref] := by simp [due,late]
  unfold cleanupPlan
  simp only [listed,mapM_cons,read,bind,Except.bind,dueRetired,dueSweep]

theorem buriedFlat (n : Nat) : (names (buried n).catalog).Nodup := by
  rw [names,Listing.catalogKeys]
  exact (buried n).retired.distinct

end Sample

theorem droppedPagesUnreadable : ∃ (s s' : State) (keys : List PageKey) (root' : Root) (d' : Disk),
    Begins Sample.burial.toContext s ∧ Reaches Sample.burial.toContext Honest s s' ∧ Discards Sample.burial s' keys root' d' ∧
      ¬ Accepted Sample.burial.toContext d' s'.root.paging root'.paging keys ∧
      ∀ now maximum, 15 ≤ now → cleanupPlan Sample.burial root' now maximum d' = .error .invalidManifestPage := by
  obtain ⟨n,enough⟩ : ∃ n, n = (gcPageKeys + 1) * leafEntries := ⟨_,rfl⟩
  obtain ⟨root,d,ok,interred⟩ := Sample.interment enough
  obtain ⟨ref,d',expired,due,stored,digest⟩ := Sample.burialExpires interred
  have begins : Begins Sample.burial.toContext ⟨d,root,[root],[]⟩ :=
    @Begins.converted _ Sample.burial ⟨Sample.buried n,Sample.buriedFlat n⟩ _ _ _ rfl Sample.blankAllocated
      (by intro x mem; cases mem) ok
  have start : Start Sample.burial.toContext ⟨d,root,[root],[]⟩ := .converted rfl Sample.blankAllocated ok
  have planned : expirePlan Sample.burial root 10 20 root.refs.length d = _ :=
    expirePlanDead interred.wf.refs (by decide +kernel) interred.low (fun _ => rfl) interred.dead
  let plan := Plan.expiry 10 20 (root.refs.map (dropping d))
  have step : Step Sample.burial.toContext ⟨d,root,[root],[]⟩ (.planned plan) ⟨d,root,[root],[plan]⟩ :=
    .expirePlan rfl mem_cons_self planned
  have op : Discards Sample.burial ⟨d,root,[root],[plan]⟩ _ _ d' := .applyExpiry mem_cons_self expired
  refine ⟨_,_,_,_,_,begins,.single ⟨.planned plan,trivial,step⟩,op,?_,fun now maximum late => ?_⟩
  · rw [discardsAccepted start (.single ⟨.planned plan,trivial,step⟩) op]
    have keys : discarded ⟨d,root,[root],[plan]⟩ (.expired 10 20 (root.refs.map (dropping d))) = forestKeys d root.refs := by
      simp only [discarded,Sample.appliedDropping,Sample.staleDropping,Sample.supersededDropping,inlineKeys,interred.lists.1]
      simp
    rw [keys]
    exact Nat.not_le.mpr interred.many
  · exact Sample.droppedCleanup interred due stored digest late maximum

end Pulso.Journal
