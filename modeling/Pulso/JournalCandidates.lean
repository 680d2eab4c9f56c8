import Pulso.JournalQuery

/-! Compaction looks at the tail, the four newest leaves and four older ones from a rotating cursor. -/
namespace Pulso.Journal.Candidates
open List

/- `leaves_at/6`: below a reference whose leaves hold no wanted position nothing is read. -/
def leavesFrom (wanted : List Nat) (below : Ref → Nat → Except Fail (List Listing)) :
    List Ref → Nat → Except Fail (List Listing)
  | [],_ => .ok []
  | ref::refs,start => do
    let leaves ← if ∃ i ∈ wanted, start ≤ i ∧ i < start + ref.l then below ref start else .ok []
    let rest ← leavesFrom wanted below refs (start + ref.l)
    .ok (leaves ++ rest)

def leavesBelow (env : Env) (wanted : List Nat) (d : Disk) : Nat → Ref → Nat → Except Fail (List Listing)
  | 0,ref,_ => do
    let leaf ← readLeaf env ref d
    .ok [leaf]
  | h+1,ref,start => do
    let children ← readIndex env ref d
    leavesFrom wanted (leavesBelow env wanted d h) children start

def total (refs : List Ref) : Nat := (refs.map (fun r => r.l)).sum
def cursor (total cc : Nat) : Nat := if cc < total then cc else 0
def recent (total : Nat) : List Nat := List.range' (total - 4) (min 4 total)
def sweep (total cursor : Nat) : List Nat := List.range' cursor (min 4 (total - cursor))
def wanted (total cc : Nat) : List Nat := recent total ++ sweep total (cursor total cc)
def next (total cc : Nat) : Nat := if total ≤ cursor total cc + 4 then 0 else cursor total cc + 4

def candidates (env : Env) (root : Root) (d : Disk) : Except Fail (List Segment × Nat) := do
  let total := total root.refs
  let leaves ← leavesFrom (wanted total root.paging.cc)
    (fun ref => leavesBelow env (wanted total root.paging.cc) d ref.h ref) root.refs 0
  .ok (root.segments ++ leaves.flatMap (fun l => l.segments),next total root.paging.cc)

def advanceCursor (root : Root) (next : Nat) : Root := { root with paging := { root.paging with cc := next } }

def pass (env : Env) (d : Disk) (root : Root) : Root :=
  match candidates env root d with
  | .ok (_,next) => advanceCursor root next
  | .error _ => root

def picked (wanted : List Nat) (ls : List Listing) (start : Nat) : List Listing :=
  ((ls.zipIdx start).filter (fun p => p.2 ∈ wanted)).map Prod.fst

variable {env : Env} {d : Disk} {root : Root} {refs : List Ref} {positions : List Nat}

theorem pickedAppend (a b : List Listing) (start : Nat) :
    picked positions (a ++ b) start = picked positions a start ++ picked positions b (start + a.length) := by
  simp [picked,zipIdx_append]

theorem pickedNone {ls start} (none : ¬ ∃ i ∈ positions, start ≤ i ∧ i < start + ls.length) :
    picked positions ls start = [] := by
  simp only [picked,map_eq_nil_iff,filter_eq_nil_iff]
  rintro ⟨l,i⟩ mem inside
  have place := mem_zipIdx mem
  exact none ⟨i,by simpa using inside,place.1,place.2.1⟩

theorem leavesFromOk {below content} (counted : ∀ r ∈ refs, r.l = (content r).length) (each : ∀ r ∈ refs, ∀ start,
      (∃ i ∈ positions, start ≤ i ∧ i < start + r.l) → below r start = .ok (picked positions (content r) start)) (start : Nat) :
    leavesFrom positions below refs start = .ok (picked positions (refs.flatMap content) start) := by
  induction refs generalizing start with
  | nil => rfl
  | cons ref refs ih =>
    have rest := ih (forall_mem_cons.mp counted).2 (forall_mem_cons.mp each).2
    have count := counted ref mem_cons_self
    rw [flatMap_cons,pickedAppend,← count,leavesFrom]
    split
    · rename_i some
      rw [each ref mem_cons_self start some,rest]
      rfl
    rename_i none
    rw [pickedNone (count ▸ none),rest]
    rfl

theorem leavesBelowOk {h ref} (s : Sound env.toContext d h ref) (readable : Readable env d h ref) (start : Nat)
    (some : ∃ i ∈ positions, start ≤ i ∧ i < start + ref.l) :
    leavesBelow env positions d h ref start = .ok (picked positions (leavesAt d h ref.k) start) := by
  induction h generalizing ref start with
  | zero =>
    obtain ⟨l,read⟩ := readable
    have count := s.exact.l
    have page : leavesAt d 0 ref.k = [l] := by
      rw [leavesAt,PageTree.leavesAtLeaf]
      simp [Disk.view,(readLeafOk read).1]
    obtain ⟨i,mem,low,high⟩ := some
    have here : i = start := by
      rw [count,page] at high
      simp at high
      omega
    simp [leavesBelow,read,page,picked,← here,mem,bind,Except.bind]
  | succ h ih =>
    obtain ⟨children,read,below⟩ := readable
    have height := s.height
    obtain ⟨sound,leaves⟩ := indexChildren (height ▸ s) (by omega) read
    have level : ∀ c ∈ children, c.h = h := fun c mem => by have := (sound c mem).2; omega
    rw [height] at leaves
    rw [leavesBelow,read,← leaves]
    have sound : ∀ c ∈ children, Sound env.toContext d h c := fun c mem => level c mem ▸ (sound c mem).1
    have same : forestLeaves d children = children.flatMap (fun c => leavesAt d h c.k) :=
      flatMap_congr (fun c mem => by rw [level c mem])
    rw [same]
    exact leavesFromOk (fun c mem => (sound c mem).exact.l) (fun c mem start => ih (sound c mem) (below c mem) start) start

theorem candidatesOk (s : AllSound env.toContext d root.refs) (readable : ∀ r ∈ root.refs, Readable env d r.h r) (cc : Nat) :
    candidates env (advanceCursor root cc) d = .ok (root.segments ++ (picked (wanted (forestLeaves d root.refs).length cc)
      (forestLeaves d root.refs) 0).flatMap (fun l => l.segments),next (forestLeaves d root.refs).length cc) := by
  have counted : ∀ r ∈ root.refs, r.l = (leavesAt d r.h r.k).length := fun r mem => (s r mem).exact.l
  have count : total root.refs = (forestLeaves d root.refs).length := by
    rw [total,forestLeaves,length_flatMap,map_congr_left counted]
  unfold candidates
  dsimp only [advanceCursor]
  rw [count,leavesFromOk counted (fun r mem start => leavesBelowOk (s r mem) (readable r mem) start)]
  rfl

theorem passes (s : AllSound env.toContext d root.refs) (readable : ∀ r ∈ root.refs, Readable env d r.h r) (n : Nat) :
    (pass env d)^[n] root = advanceCursor root ((next (forestLeaves d root.refs).length)^[n] root.paging.cc) := by
  induction n with
  | zero => rfl
  | succ n ih =>
    rw [Function.iterate_succ_apply',ih,Function.iterate_succ_apply',pass,candidatesOk s readable]
    rfl

variable {L c i : Nat}

theorem cursorInside (inside : c < L) : cursor L c = c := if_pos inside

theorem forward {j} (inside : c + 4 * j < L) : (next L)^[j] c = c + 4 * j := by
  induction j with
  | zero => rfl
  | succ j ih =>
    rw [Function.iterate_succ_apply',ih (by omega),next,cursorInside (by omega),if_neg (by omega)]
    omega

theorem back (inside : c < L) : (next L)^[(L - c + 3) / 4] c = 0 := by
  obtain ⟨j,count⟩ : ∃ j, (L - c + 3) / 4 = j + 1 := ⟨(L - c - 1) / 4,by omega⟩
  have last : c + 4 * j < L := by omega
  rw [count,Function.iterate_succ_apply',forward last,next,cursorInside last,if_pos (by omega)]

theorem fromCursor (inside : i < L) (low : c ≤ i) : i ∈ wanted L ((next L)^[(i - c) / 4] c) := by
  have last : c + 4 * ((i - c) / 4) < L := by omega
  rw [forward last,wanted,cursorInside last,sweep,mem_append,mem_range'_1]
  omega

theorem pastEnd (past : L ≤ c) (k : Nat) : wanted L ((next L)^[k] c) = wanted L ((next L)^[k] 0) := by
  have start : cursor L c = cursor L 0 := by simp [cursor,past]
  cases k with
  | zero => simp [wanted,start]
  | succ k => rw [Function.iterate_succ_apply,Function.iterate_succ_apply,next,next,start]

theorem covered (c : Nat) (inside : i < L) :
    ∃ k < (L + 3) / 4 + (if c % 4 = 0 ∨ L ≤ c then 0 else 1), i ∈ wanted L ((next L)^[k] c) := by
  by_cases past : L ≤ c
  · exact ⟨i / 4,by omega,pastEnd past _ ▸ fromCursor inside (Nat.zero_le i)⟩
  by_cases low : c ≤ i
  · exact ⟨(i - c) / 4,by omega,fromCursor inside low⟩
  refine ⟨i / 4 + (L - c + 3) / 4,?_,?_⟩
  · split <;> omega
  · rw [Function.iterate_add_apply,back (by omega)]
    exact fromCursor inside (Nat.zero_le i)

theorem aligned (start : c % 4 = 0) (n : Nat) : (next L)^[n] c % 4 = 0 := by
  induction n with
  | zero => exact start
  | succ n ih =>
    rw [Function.iterate_succ_apply',next,cursor]
    split <;> split <;> omega

/-- Every pass returns the tail and the leaves at the newest and the swept positions; from a cursor that is a multiple
of four, `⌈L/4⌉` passes return every leaf, and from any cursor one pass more. -/
theorem passesReachEveryLeaf (s : AllSound env.toContext d root.refs) (readable : ∀ r ∈ root.refs, Readable env d r.h r)
    (n : Nat) :
    candidates env ((pass env d)^[n] root) d = .ok (root.segments ++
        (picked (wanted (forestLeaves d root.refs).length ((pass env d)^[n] root).paging.cc)
          (forestLeaves d root.refs) 0).flatMap (fun l => l.segments),
      ((pass env d)^[n+1] root).paging.cc) ∧
    ∀ i < (forestLeaves d root.refs).length, ∃ k, n ≤ k ∧
      k < n + ((forestLeaves d root.refs).length + 3) / 4 + (if root.paging.cc % 4 = 0 then 0 else 1) ∧
      i ∈ wanted (forestLeaves d root.refs).length ((pass env d)^[k] root).paging.cc := by
  simp only [passes s readable]
  refine ⟨?_,?_⟩
  · rw [candidatesOk s readable,Function.iterate_succ_apply']
    rfl
  intro i inside
  obtain ⟨k,soon,seen⟩ := covered ((next _)^[n] root.paging.cc) inside
  refine ⟨k + n,by omega,?_,by rw [Function.iterate_add_apply]; exact seen⟩
  by_cases start : root.paging.cc % 4 = 0
  · rw [if_pos (.inl (aligned start n))] at soon
    omega
  · rw [if_neg start]
    split at soon <;> omega

abbrev store : Env := Sample.env
def leaves : List Listing := ⟨[Sample.first],Dict.empty⟩::List.replicate 7 ⟨[Sample.second],Dict.empty⟩
def shelved : List Ref × Disk := ((putLeaves store leaves).done Disk.blank).get (by decide +kernel)
def skewed (cc : Nat) : Root := ⟨⟨[],Dict.empty⟩,⟨0,shelved.1,[],[],cc,none,none⟩⟩

theorem shelvedSound (cc : Nat) : AllSound store.toContext shelved.2 (skewed cc).refs := by
  have blank : Disk.blank.Allocated := by simp [Disk.Allocated,Disk.blank]
  have spec := putLeavesSpec blank (Op.doneOk (x := putLeaves store leaves) (by decide +kernel))
  exact fun r mem => (spec.sound r mem).height.symm ▸ spec.sound r mem

theorem shelvedReadable : ∀ r ∈ shelved.1, Readable store shelved.2 r.h r := by
  have reads : ∀ r ∈ shelved.1, r.h = 0 ∧ (readLeaf store r shelved.2).isOk = true := by decide +kernel
  intro r mem
  obtain ⟨height,ok⟩ := reads r mem
  rw [height]
  cases read : readLeaf store r shelved.2 with
  | ok l => exact ⟨l,read⟩
  | error e => simp [read,Except.isOk,Except.toBool] at ok

theorem passesReachEveryLeafAligned : AllSound store.toContext shelved.2 (skewed 4).refs ∧
    ∃ k < 2, 3 ∈ wanted 8 ((pass store shelved.2)^[k] (skewed 4)).paging.cc := by
  have count : (forestLeaves shelved.2 (skewed 4).refs).length = 8 := by decide +kernel
  have spec := (passesReachEveryLeaf (shelvedSound 4) shelvedReadable 0).2
  rw [count] at spec
  obtain ⟨k,-,soon,seen⟩ := spec 3 (by decide)
  exact ⟨shelvedSound 4,k,by simpa [skewed] using soon,seen⟩

theorem unalignedCursorSkips : AllSound store.toContext shelved.2 (skewed 1).refs ∧
    (forestLeaves shelved.2 (skewed 1).refs).length = 8 ∧
    Sample.first ∈ (forestLeaves shelved.2 (skewed 1).refs).flatMap (fun l => l.segments) ∧
    ∀ k < 2, (candidates store ((pass store shelved.2)^[k] (skewed 1)) shelved.2).toOption.any
      (fun r => Sample.first ∉ r.1) = true :=
  ⟨shelvedSound 1,by decide +kernel,by decide +kernel,by decide +kernel⟩

end Pulso.Journal.Candidates
