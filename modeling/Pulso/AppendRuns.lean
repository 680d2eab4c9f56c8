import Mathlib.Algebra.BigOperators.Group.Multiset.Basic
import Mathlib.Algebra.Order.BigOperators.Group.Multiset
import Pulso.AppendTasks

/-! Whole runs of the append buffer: every request received is in one place, reservations are what the
counters say, a batch that collects is awaited, and the buffer's own messages and tasks come to an end
with every request answered. -/
namespace Pulso.AppendBuffer
open Pulso.Places List

variable {A R : Type}

def World.everyone (w : World A R) : Multiset (Request A) :=
  w.rejected + w.admitted + w.mailbox + w.pending + (w.flushes.map (fun f => (f.batch : Multiset (Request A)))).sum

def World.held (w : World A R) : Multiset (Request A) :=
  w.admitted + w.mailbox + w.pending + (w.flushes.map (fun f => (f.left : Multiset (Request A)))).sum

def total (requests : Multiset (Request A)) : Counters :=
  ⟨requests.card,(requests.map (fun r => (r.bytes : Int))).sum,(requests.map (fun r => (r.rows : Int))).sum⟩

theorem totalAdd (r : Request A) (requests : Multiset (Request A)) : total ({r} + requests) = (total requests).take r := by
  simp [total,Counters.take,add_comm]

theorem takeRelease (c : Counters) (r : Request A) : (c.take r).release r = c := by
  simp [Counters.take,Counters.release]

theorem totalWithin {some all : Multiset (Request A)} (le : some ≤ all) (within : (total all).within) : (total some).within := by
  obtain ⟨rest,rfl⟩ := Multiset.le_iff_exists_add.mp le
  have bytes : 0 ≤ (rest.map (fun r => (r.bytes : Int))).sum := Multiset.sum_nonneg (by simp)
  have rows : 0 ≤ (rest.map (fun r => (r.rows : Int))).sum := Multiset.sum_nonneg (by simp)
  simp only [total,Counters.within,Multiset.card_add,Multiset.map_add,Multiset.sum_add,Nat.cast_add] at within ⊢
  omega

structure World.Books (w : World A R) : Prop where
  ids : (w.everyone.map Request.id).Nodup
  issued : ∀ r ∈ w.everyone, r.id < w.issued
  counters : w.counters = total ((w.rejected : Multiset (Request A)) + w.held)
  limits : (total w.held).within

structure World.Moved (w next : World A R) : Prop where
  alive : next.alive = w.alive
  issued : next.issued = w.issued
  counters : next.counters = w.counters
  rejected : next.rejected = w.rejected
  everyone : next.everyone = w.everyone
  held : next.held = w.held

theorem World.Moved.trans {w v u : World A R} (first : w.Moved v) (second : v.Moved u) : w.Moved u :=
  ⟨second.alive.trans first.alive,second.issued.trans first.issued,second.counters.trans first.counters,second.rejected.trans first.rejected,
    second.everyone.trans first.everyone,second.held.trans first.held⟩

variable {w next : World A R}

theorem World.Moved.books (moved : w.Moved next) (books : w.Books) : next.Books := by
  obtain ⟨ids,issued,counters,limits⟩ := books
  exact ⟨by rw [moved.everyone]; exact ids,by rw [moved.everyone,moved.issued]; exact issued,
    by rw [moved.counters,moved.rejected,moved.held]; exact counters,by rw [moved.held]; exact limits⟩

structure World.Tended (w : World A R) : Prop where
  staged : ∀ f ∈ w.flushes, f.Staged
  flushing : w.flushing = (w.flushes.map (fun f => if f.isOpen then (1 : Int) else 0)).sum
  timer : ∀ token, w.timer = some token → token ∈ w.clocks ∨ token ∈ w.due

def World.Awaited (w : World A R) : Prop := w.pending ≠ [] → w.timer.isSome = true ∨ 0 < w.flushing

def World.measure (w : World A R) : Nat :=
  15 * w.mailbox.length + 12 * w.pending.length + 2 * w.clocks.length + w.due.length + w.uploads +
    (w.flushes.map Flush.weight).sum

section Flushing

theorem startStaged (batch : List (Request A)) : (Flush.start batch : Flush A R).Staged := ⟨rfl,rfl,rfl⟩

theorem startLeft (batch : List (Request A)) : (Flush.start batch : Flush A R).left = batch := rfl

variable (w : World A R)

theorem flushMoved : w.Moved w.flush := by
  unfold World.flush
  split
  · exact ⟨rfl,rfl,rfl,rfl,rfl,rfl⟩
  split
  · exact ⟨rfl,rfl,rfl,rfl,rfl,rfl⟩
  refine ⟨rfl,rfl,rfl,rfl,?_,?_⟩
  · simp only [World.everyone,Flush.start,map_append,map_cons,map_nil,sum_append,sum_cons,
      sum_nil,Multiset.coe_reverse,Multiset.coe_nil]
    abel
  simp only [World.held,startLeft,map_append,map_cons,map_nil,sum_append,sum_cons,
    sum_nil,Multiset.coe_reverse,Multiset.coe_nil]
  abel

theorem flushTended {w : World A R} (tended : w.Tended) : w.flush.Tended ∧ w.flush.Awaited := by
  unfold World.flush
  split
  case isTrue empty => exact ⟨tended,fun some => absurd (List.isEmpty_iff.mp empty) some⟩
  split
  case isTrue busy => exact ⟨⟨tended.staged,tended.flushing,nofun⟩,fun _ => .inr (by simp [maxFlushes] at busy ⊢; omega)⟩
  refine ⟨⟨?_,?_,nofun⟩,fun some => absurd rfl some⟩
  · intro f mem
    rcases mem_append.mp mem with mem | mem
    · exact tended.staged f mem
    · rw [mem_singleton.mp mem]
      exact startStaged _
  · simp [tended.flushing,Flush.start,Flush.isOpen]

theorem flushMeasure : w.flush.measure ≤ w.measure := by
  unfold World.flush
  split
  · exact le_refl _
  rename_i some
  split
  · exact le_refl _
  have fewer := length_filter_le (fun token => decide (Option.some token ≠ w.timer)) w.clocks
  have one : 0 < w.pending.length := length_pos_of_ne_nil (by simpa using some)
  simp only [World.measure,Flush.start,Flush.weight,map_append,map_cons,map_nil,sum_append,
    sum_cons,sum_nil,length_nil,length_reverse]
  omega

theorem scheduleTended {w : World A R} (tended : w.Tended) : w.schedule.Tended ∧ w.schedule.Awaited := by
  refine ⟨⟨tended.staged,tended.flushing,?_⟩,fun _ => .inl rfl⟩
  rintro token ⟨⟩
  exact .inl (by simp [World.schedule])

theorem scheduleMoved : w.Moved w.schedule := ⟨rfl,rfl,rfl,rfl,rfl,rfl⟩

theorem scheduleMeasure : w.schedule.measure = w.measure + 2 := by
  simp only [World.schedule,World.measure,length_append,length_singleton]
  omega

end Flushing

theorem booksRelease {r} (books : w.Books) (issued : next.issued = w.issued)
    (counters : next.counters = w.counters.release r) (everyone : next.everyone ≤ w.everyone)
    (released : (w.rejected : Multiset (Request A)) + w.held = {r} + (next.rejected + next.held)) (held : next.held ≤ w.held) :
    next.Books := by
  constructor
  · exact Multiset.nodup_of_le (Multiset.map_le_map everyone) books.ids
  · intro r mem
    rw [issued]
    exact books.issued r (Multiset.mem_of_le everyone mem)
  · rw [counters,books.counters,released,totalAdd,takeRelease]
  · exact totalWithin held books.limits

theorem booksReserve {records bytes} (books : w.Books) (issued : next.issued = w.issued + 1)
    (counters : next.counters = w.counters.take ⟨w.issued,records,bytes⟩)
    (everyone : next.everyone = {⟨w.issued,records,bytes⟩} + w.everyone)
    (taken : (next.rejected : Multiset (Request A)) + next.held = {⟨w.issued,records,bytes⟩} + (w.rejected + w.held))
    (limits : (total next.held).within) : next.Books := by
  refine ⟨?_,?_,?_,limits⟩
  · have fresh : w.issued ∉ w.everyone.map Request.id := by
      intro mem
      obtain ⟨r,mem,same⟩ := Multiset.mem_map.mp mem
      exact absurd (books.issued r mem) (by omega)
    rw [everyone,Multiset.singleton_add,Multiset.map_cons]
    exact Multiset.nodup_cons.mpr ⟨fresh,books.ids⟩
  · intro r mem
    rw [everyone,Multiset.singleton_add] at mem
    rw [issued]
    rcases Multiset.mem_cons.mp mem with rfl | mem
    · exact Nat.lt_succ_self _
    · exact Nat.lt_succ_of_lt (books.issued r mem)
  · rw [counters,taken,totalAdd,books.counters]

structure World.Sound (w : World A R) : Prop where
  books : w.Books
  tended : w.Tended
  awaited : w.Awaited

section Callers
variable {w : World A R}

theorem reserveSound (sound : w.Sound) (records : List A) (bytes : Nat) : (w.reserve records bytes).Sound := by
  obtain ⟨books,tended,awaited⟩ := sound
  unfold World.reserve
  split
  · exact ⟨books,tended,awaited⟩
  dsimp only
  split
  case isTrue within =>
    refine ⟨booksReserve books rfl rfl ?_ ?_ ?_,{ tended with },awaited⟩
    · simp only [World.everyone,← Multiset.coe_add,Multiset.coe_singleton]
      abel
    · simp only [World.held,← Multiset.coe_add,Multiset.coe_singleton]
      abel
    rw [books.counters,← totalAdd] at within
    refine totalWithin ?_ within
    refine Multiset.le_iff_exists_add.mpr ⟨w.rejected,?_⟩
    simp only [World.held,← Multiset.coe_add,Multiset.coe_singleton]
    abel
  · refine ⟨booksReserve books rfl rfl ?_ ?_ books.limits,{ tended with },awaited⟩
    · simp only [World.everyone,← Multiset.coe_add,Multiset.coe_singleton]
      abel
    · simp only [World.held,← Multiset.coe_add,Multiset.coe_singleton]
      abel

theorem undoSound (sound : w.Sound) {r} {rest : List (Request A)}
    (taken : (w.rejected : Multiset (Request A)) = {r} + (rest : Multiset (Request A))) :
    World.Sound { w with rejected := rest,counters := w.counters.release r } := by
  refine ⟨booksRelease sound.books rfl rfl ?_ ?_ (le_refl _),{ sound.tended with },sound.awaited⟩
  · refine Multiset.le_iff_exists_add.mpr ⟨{r},?_⟩
    simp only [World.everyone,taken]
    abel
  · rw [taken,add_assoc]
    rfl

theorem sendSound (sound : w.Sound) {r} {rest : List (Request A)}
    (taken : (w.admitted : Multiset (Request A)) = {r} + (rest : Multiset (Request A))) :
    World.Sound { w with admitted := rest,mailbox := w.mailbox ++ [r] } := by
  have moved : w.Moved { w with admitted := rest,mailbox := w.mailbox ++ [r] } := by
    refine ⟨rfl,rfl,rfl,rfl,?_,?_⟩
    · simp only [World.everyone,taken,← Multiset.coe_add,Multiset.coe_singleton]
      abel
    · simp only [World.held,taken,← Multiset.coe_add,Multiset.coe_singleton]
      abel
  exact ⟨moved.books sound.books,{ sound.tended with },sound.awaited⟩

end Callers

structure World.Advances (w next : World A R) : Prop where
  sound : next.Sound
  alive : next.alive = w.alive
  less : next.measure < w.measure

section Messages
variable {w : World A R} (sound : w.Sound)
include sound

theorem appendAdvances {r} {rest : List (Request A)}
    (taken : (w.mailbox : Multiset (Request A)) = {r} + (rest : Multiset (Request A))) :
    w.Advances (World.append { w with mailbox := rest } r) := by
  have fewer : w.mailbox.length = rest.length + 1 := by simpa [add_comm] using congrArg Multiset.card taken
  let collected : World A R := { w with
    mailbox := rest
    pending := r::w.pending
    pendingBytes := w.pendingBytes + r.bytes
    pendingRows := w.pendingRows + r.rows }
  have moved : w.Moved collected := by
    refine ⟨rfl,rfl,rfl,rfl,?_,?_⟩
    · simp only [collected,World.everyone,taken,← Multiset.cons_coe,← Multiset.singleton_add]
      abel
    · simp only [collected,World.held,taken,← Multiset.cons_coe,← Multiset.singleton_add]
      abel
  have tended : collected.Tended := { sound.tended with }
  have measure : collected.measure + 3 = w.measure := by
    simp only [collected,World.measure,fewer,length_cons]
    omega
  have advance : ∀ next : World A R, collected.Moved next → next.Tended ∧ next.Awaited → next.measure ≤ collected.measure + 2 →
      w.Advances next := by
    intro next on kept bound
    have all := moved.trans on
    exact ⟨⟨all.books sound.books,kept.1,kept.2⟩,all.alive,by omega⟩
  unfold World.append
  dsimp only
  split
  · exact advance _ (flushMoved collected) (flushTended tended) (le_trans (flushMeasure collected) (by omega))
  split
  case isTrue timed => exact advance collected ⟨rfl,rfl,rfl,rfl,rfl,rfl⟩ ⟨tended,fun _ => .inl timed⟩ (by omega)
  · exact advance _ (scheduleMoved collected) (scheduleTended tended) (scheduleMeasure collected).le

theorem expireAdvances {token} (mem : token ∈ w.clocks) :
    w.Advances { w with clocks := w.clocks.erase token,due := w.due ++ [token] } := by
  have moved : w.Moved { w with clocks := w.clocks.erase token,due := w.due ++ [token] } := ⟨rfl,rfl,rfl,rfl,rfl,rfl⟩
  refine ⟨⟨moved.books sound.books,⟨sound.tended.staged,sound.tended.flushing,?_⟩,sound.awaited⟩,rfl,?_⟩
  · intro other set
    by_cases same : other = token
    · exact .inr (by simp [same])
    rcases sound.tended.timer other set with running | due
    · exact .inl ((mem_erase_of_ne same).mpr running)
    · exact .inr (mem_append_left _ due)
  · have fewer := length_erase_of_mem mem
    have one := length_pos_of_mem mem
    simp only [World.measure,length_append,length_singleton]
    omega

theorem alarmAdvances {token : Nat} (mem : token ∈ w.due) :
    w.Advances (World.alarm { w with due := w.due.erase token } token) := by
  have fewer := length_erase_of_mem mem
  have one := length_pos_of_mem mem
  unfold World.alarm
  split
  · let rung : World A R := { w with due := w.due.erase token,timer := none }
    have moved : w.Moved rung := ⟨rfl,rfl,rfl,rfl,rfl,rfl⟩
    have measure : rung.measure < w.measure := by
      simp only [rung,World.measure]
      omega
    have kept := flushTended (w := rung) ⟨sound.tended.staged,sound.tended.flushing,nofun⟩
    have all := moved.trans (flushMoved rung)
    exact ⟨⟨all.books sound.books,kept.1,kept.2⟩,all.alive,lt_of_le_of_lt (flushMeasure rung) measure⟩
  case isFalse obsolete =>
    have moved : w.Moved { w with due := w.due.erase token } := ⟨rfl,rfl,rfl,rfl,rfl,rfl⟩
    refine ⟨⟨moved.books sound.books,⟨sound.tended.staged,sound.tended.flushing,?_⟩,sound.awaited⟩,rfl,?_⟩
    · intro other set
      have differs : other ≠ token := fun same => obsolete (same ▸ set)
      exact (sound.tended.timer other set).imp_right (mem_erase_of_ne differs).mpr
    · simp only [World.measure]
      omega

theorem uploadedAdvances (some : 0 < w.uploads) :
    w.Advances { w with uploads := w.uploads - 1,uploading := w.uploading - 1 } := by
  have moved : w.Moved { w with uploads := w.uploads - 1,uploading := w.uploading - 1 } := ⟨rfl,rfl,rfl,rfl,rfl,rfl⟩
  refine ⟨⟨moved.books sound.books,{ sound.tended with },sound.awaited⟩,rfl,?_⟩
  simp only [World.measure]
  omega

end Messages

section Tasks
variable {w : World A R} {index : Nat} {f : Flush A R} {next : Flush A R}

theorem stagedSet (staged : ∀ g ∈ w.flushes, g.Staged) (new : next.Staged) :
    ∀ g ∈ w.flushes.set index next, g.Staged := by
  intro g mem
  rcases mem_or_eq_of_mem_set mem with mem | rfl
  · exact staged g mem
  · exact new

variable (found : w.flushes[index]? = some f)
include found

theorem batchesSet (same : next.batch = f.batch) :
    ((w.flushes.set index next).map (fun g => (g.batch : Multiset (Request A)))).sum =
      (w.flushes.map (fun g => (g.batch : Multiset (Request A)))).sum := by
  have swap := sumSet (fun g : Flush A R => (g.batch : Multiset (Request A))) found next
  rw [same] at swap
  exact (add_right_cancel swap).symm

theorem leftSet {released} (left : (f.left : Multiset (Request A)) = released + (next.left : Multiset (Request A))) :
    (w.flushes.map (fun g => (g.left : Multiset (Request A)))).sum =
      released + ((w.flushes.set index next).map (fun g => (g.left : Multiset (Request A)))).sum := by
  have swap := sumSet (fun g : Flush A R => (g.left : Multiset (Request A))) found next
  rw [left,← add_assoc] at swap
  rw [add_right_cancel swap,add_comm]

theorem openSet (same : next.isOpen = f.isOpen) :
    ((w.flushes.set index next).map (fun g => if g.isOpen then (1 : Int) else 0)).sum =
      (w.flushes.map (fun g => if g.isOpen then (1 : Int) else 0)).sum := by
  have swap := sumSet (fun g : Flush A R => if g.isOpen then (1 : Int) else 0) found next
  rw [same] at swap
  exact (add_right_cancel swap).symm

omit found

theorem taskAdvances (sound : w.Sound) (found : w.flushes[index]? = some f) {released told} (acted : f.Next next released told) : w.Advances (w.task index next released told) := by
  have batches := batchesSet found acted.batch
  have lefts := leftSet found acted.left
  have weights := sumSet Flush.weight found next
  have lighter := acted.lighter
  have tended : (w.task index next released told).Tended :=
    ⟨stagedSet sound.tended.staged acted.staged,
      sound.tended.flushing.trans (openSet found (acted.opened.2.trans acted.opened.1.symm)).symm,sound.tended.timer⟩
  have everyone : (w.task index next released told).everyone = w.everyone := by
    simp only [World.everyone,World.task,batches]
  have held : w.held = released.toList + (w.task index next released told).held := by
    simp only [World.held,World.task,lefts]
    abel
  refine ⟨⟨?_,tended,sound.awaited⟩,rfl,?_⟩
  · cases released with
    | none =>
      have same : (w.task index next none told).held = w.held := by
        rw [held]
        simp
      have moved : w.Moved (w.task index next none told) := ⟨rfl,rfl,rfl,rfl,everyone,same⟩
      exact moved.books sound.books
    | some r =>
      refine booksRelease (r := r) sound.books rfl rfl everyone.le ?_ ?_
      · rw [held]
        simp only [World.task,Option.toList_some,Multiset.coe_singleton]
        abel
      · rw [held]
        exact Multiset.le_add_left _ _
  · simp only [World.measure,World.task]
    split <;> simp_all <;> omega

theorem flushedAdvances (sound : w.Sound) (found : w.flushes[index]? = some f) (reported : f.stage.isReported = true) :
    w.Advances (World.flushed { w with flushes := w.flushes.set index { f with stage := .closed } } f.uploaded) := by
  have stage : f.stage = .reported := by
    unfold Stage.isReported at reported
    split at reported
    case h_1 same => exact same
    · cases reported
  let last : Flush A R := { f with stage := .closed }
  let ended : World A R := { w with
    flushes := w.flushes.set index last
    flushing := w.flushing - 1
    uploading := w.uploading - (if f.uploaded then 0 else 1) }
  have closed : last.Staged := by
    have staged := sound.tended.staged f (mem_of_getElem? found)
    simp only [Flush.Staged,stage] at staged
    exact staged
  have nothing : (f.left : Multiset (Request A)) = ([] : List (Request A)) + (last.left : Multiset (Request A)) := by
    simp [Flush.left,stage,last]
  have same : last.batch = f.batch := rfl
  have weights : (w.flushes.map Flush.weight).sum = ((w.flushes.set index last).map Flush.weight).sum + 1 := by
    have swap := sumSet Flush.weight found last
    rw [show f.weight = 1 by simp [Flush.weight,stage],show last.weight = 0 from rfl] at swap
    exact swap
  have moved : w.Moved ended := by
    refine ⟨rfl,rfl,rfl,rfl,?_,?_⟩
    · simp only [ended,World.everyone,batchesSet found same]
    · simp only [ended,World.held,leftSet found nothing,Multiset.coe_nil,zero_add]
  have tended : ended.Tended := by
    refine ⟨stagedSet sound.tended.staged closed,?_,sound.tended.timer⟩
    have swap := sumSet (fun g : Flush A R => if g.isOpen then (1 : Int) else 0) found last
    have before := sound.tended.flushing
    rw [show f.isOpen = true by simp [Flush.isOpen,stage],show last.isOpen = false from rfl] at swap
    simp only [if_true,Bool.false_eq_true,if_false,add_zero] at swap
    simp only [ended]
    omega
  have measure : ended.measure < w.measure := by
    simp only [ended,World.measure]
    omega
  unfold World.flushed
  dsimp only
  split
  · have kept := flushTended tended
    have all := moved.trans (flushMoved ended)
    exact ⟨⟨all.books sound.books,kept.1,kept.2⟩,all.alive,lt_of_le_of_lt (flushMeasure ended) measure⟩
  rename_i settled
  refine ⟨⟨moved.books sound.books,tended,?_⟩,rfl,measure⟩
  intro some
  by_contra unset
  exact settled (by simp_all [ended])

end Tasks

def Event.isInternal : Event A R → Bool
  | .append _ | .expire _ | .alarm _ | .uploaded | .flushed _ | .work _ _ => true
  | _ => false

section Steps
variable {w : World A R}

theorem internalAdvances (sound : w.Sound) {event} (internal : event.isInternal = true) :
    w.step event = w ∨ w.Advances (w.step event) := by
  unfold World.step
  split
  · exact .inl rfl
  cases event with
  | append id =>
    dsimp only
    split
    case h_1 taken => exact .inr (appendAdvances sound (pullTaken taken))
    · exact .inl rfl
  | expire token =>
    dsimp only
    split
    case isTrue mem => exact .inr (expireAdvances sound mem)
    · exact .inl rfl
  | alarm token =>
    dsimp only
    split
    case isTrue mem => exact .inr (alarmAdvances sound mem)
    · exact .inl rfl
  | uploaded =>
    dsimp only
    split
    case isTrue some => exact .inr (uploadedAdvances sound some)
    · exact .inl rfl
  | flushed index =>
    dsimp only
    split
    case h_1 found =>
      split
      case isTrue reported => exact .inr (flushedAdvances sound found reported)
      · exact .inl rfl
    · exact .inl rfl
  | work index work =>
    dsimp only
    split
    case h_1 f found =>
      split
      case h_1 acted =>
        exact .inr (taskAdvances sound found (actNext (sound.tended.staged f (mem_of_getElem? found)) acted))
      · exact .inl rfl
    · exact .inl rfl
  | _ => cases internal

theorem deadSound (sound : w.Sound) : World.Sound { w with alive := false } :=
  ⟨{ sound.books with },{ sound.tended with },sound.awaited⟩

theorem externalSound (sound : w.Sound) {event} (external : event.isInternal = false) : (w.step event).Sound := by
  unfold World.step
  split
  · exact sound
  cases event with
  | reserve records bytes => exact reserveSound sound records bytes
  | undo id =>
    dsimp only
    split
    case h_1 taken => exact undoSound sound (pullTaken taken)
    · exact sound
  | send id =>
    dsimp only
    split
    case h_1 taken => exact sendSound sound (pullTaken taken)
    · exact sound
  | timeout id => exact sound
  | idle =>
    dsimp only
    split
    · exact deadSound sound
    · exact sound
  | crash => exact deadSound sound
  | _ => cases external

theorem stepSound (sound : w.Sound) (event : Event A R) : (w.step event).Sound := by
  cases internal : event.isInternal with
  | false => exact externalSound sound internal
  | true =>
    rcases internalAdvances sound internal with same | advances
    · rw [same]
      exact sound
    · exact advances.sound

theorem initSound : (World.init : World A R).Sound := by
  refine ⟨⟨?_,?_,?_,?_⟩,⟨nofun,rfl,nofun⟩,fun some => absurd rfl some⟩
  · simp [World.everyone,World.init]
  · simp [World.everyone,World.init]
  · simp [World.held,World.init,total]
  · simp [World.held,World.init,total,Counters.within]

theorem runSound (events : List (Event A R)) : (run events).Sound :=
  List.foldlRecOn (motive := World.Sound) events World.step initSound (fun _ sound event _ => stepSound sound event)

end Steps

def World.unanswered (w : World A R) : Multiset (Request A) :=
  w.pending + (w.flushes.map (fun f => (f.left : Multiset (Request A)))).sum

def World.Quiet (w : World A R) : Prop := ∀ event : Event A R, event.isInternal = true → w.step event = w

def World.Busy (w : World A R) : List (Event A R) → Prop
  | [] => True
  | event::rest => event.isInternal = true ∧ w.step event ≠ w ∧ (w.step event).Busy rest

section Progress
variable {w : World A R}

theorem advancesMoves {next} (advances : w.Advances next) : next ≠ w := by
  rintro rfl
  exact absurd advances.less (lt_irrefl _)

theorem quietTimers (sound : w.Sound) (alive : w.alive = true) (quiet : w.Quiet) : w.timer = none := by
  rcases set : w.timer with _ | token
  · rfl
  rcases sound.tended.timer token set with running | due
  · have stuck := quiet (.expire token) rfl
    rw [World.step,if_neg (by simp [alive])] at stuck
    exact absurd ((if_pos running).symm.trans stuck) (advancesMoves (expireAdvances sound running))
  have stuck := quiet (.alarm token) rfl
  rw [World.step,if_neg (by simp [alive])] at stuck
  exact absurd ((if_pos due).symm.trans stuck) (advancesMoves (alarmAdvances sound due))

theorem quietTasks (sound : w.Sound) (alive : w.alive = true) (quiet : w.Quiet) : ∀ f ∈ w.flushes, f.isOpen = false := by
  intro f mem
  obtain ⟨index,found⟩ := getElem?_of_mem mem
  by_contra opened
  rw [Bool.not_eq_false] at opened
  cases reported : f.stage.isReported with
  | true =>
    have stuck := quiet (.flushed index) rfl
    rw [World.step,if_neg (by simp [alive])] at stuck
    simp only [found,reported,if_true] at stuck
    exact advancesMoves (flushedAdvances sound found reported) stuck
  | false =>
    obtain ⟨work,enabled⟩ := actEnabled opened reported
    obtain ⟨⟨next,released,told⟩,acted⟩ := Option.isSome_iff_exists.mp enabled
    have stuck := quiet (.work index work) rfl
    rw [World.step,if_neg (by simp [alive])] at stuck
    simp only [found,acted] at stuck
    exact advancesMoves (taskAdvances sound found (actNext (sound.tended.staged f mem) acted)) stuck

theorem closedLeft {f : Flush A R} (closed : f.isOpen = false) : f.left = [] := by
  unfold Flush.isOpen at closed
  unfold Flush.left
  split at closed
  case h_1 same => rw [same]
  · cases closed

theorem quietAnswered (sound : w.Sound) (alive : w.alive = true) (quiet : w.Quiet) : w.unanswered = 0 := by
  have closed := quietTasks sound alive quiet
  have lefts : (w.flushes.map (fun f => (f.left : Multiset (Request A)))).sum = 0 := by
    refine sum_eq_zero ?_
    intro s mem
    obtain ⟨f,listed,rfl⟩ := mem_map.mp mem
    rw [closedLeft (closed f listed)]
    rfl
  have idle : w.flushing = 0 := by
    rw [sound.tended.flushing]
    refine sum_eq_zero ?_
    intro n mem
    obtain ⟨f,listed,rfl⟩ := mem_map.mp mem
    simp [closed f listed]
  have nothing : w.pending = [] := by
    by_contra some
    rcases sound.awaited some with timed | busy
    · rw [quietTimers sound alive quiet] at timed
      cases timed
    · omega
  simp only [World.unanswered,lefts,nothing,Multiset.coe_nil,add_zero]

theorem busyBounded (sound : w.Sound) {events} (busy : w.Busy events) :
    events.length ≤ w.measure ∧ (events.foldl World.step w).Sound ∧ (events.foldl World.step w).alive = w.alive := by
  induction events generalizing w with
  | nil => exact ⟨Nat.zero_le _,sound,rfl⟩
  | cons event rest ih =>
    obtain ⟨internal,moves,busy⟩ := busy
    have advances := (internalAdvances sound internal).resolve_left moves
    obtain ⟨bound,last,alive⟩ := ih advances.sound busy
    have less := advances.less
    exact ⟨by simp only [length_cons]; omega,last,alive.trans advances.alive⟩

end Progress

end Pulso.AppendBuffer
