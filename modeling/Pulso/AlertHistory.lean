import Pulso.AlertOutbox
import Pulso.Numbering

/-! The event history of a rule: sealed pages followed by the open tail. Events are numbered and sealed one by
one while a batch is appended, and the oldest pages fall out of the head; what is left is always the
end of the sequence of all events ever committed. -/
namespace Pulso.Alerting
open Pulso.Numbering List
variable {A : Type}

inductive HistoryError where
  | notFound | invalidOrExpiredPosition
  deriving DecidableEq, Repr

/- Objects are read as they were stored: a reference stands for the content it is the digest of. -/
def readEvents (tail : List (Nat × Event A)) (after : Nat) : List (Page A) → Nat → List (Event A) → List (Event A)
  | _,0,acc => acc
  | page::rest,limit+1,acc =>
    let events := (page.events.filter (fun event => after < event.sequence)).take (limit + 1)
    readEvents tail after rest (limit + 1 - events.length) (acc ++ events)
  | [],limit+1,acc => acc ++ ((tail.filter (fun item => after < item.1)).take (limit + 1)).map Prod.snd

def events (head : Option (Head A)) (after limit : Int) : Except HistoryError (List (Event A)) :=
  match head with
  | none => .error .notFound
  | some head =>
    if 0 ≤ after ∧ 1 ≤ limit ∧ limit ≤ 100 ∧ (head.historyFloor : Int) - 1 ≤ after ∧ after ≤ head.eventSeq then
      .ok (readEvents head.tail after.toNat (head.pages.filter (fun page => after < page.last)) limit.toNat [])
    else .error .invalidOrExpiredPosition

def pagedEvents (head : Head A) : List (Event A) := head.pages.flatMap Page.events ++ head.tail.map Prod.snd

def Bounded (page : Page A) : Prop :=
  ∃ front back, page.events.head? = some front ∧ front.sequence = page.first ∧
    page.events.getLast? = some back ∧ back.sequence = page.last

structure Listed (head : Head A) (ledger : List (Event A)) : Prop where
  counted : ledger.length = head.eventSeq
  numbered : From Event.sequence 1 ledger
  floor : 1 ≤ head.historyFloor ∧ head.historyFloor ≤ head.eventSeq + 1
  kept : pagedEvents head = ledger.drop (head.historyFloor - 1)
  labelled : ∀ item ∈ head.tail, item.1 = item.2.sequence
  few : head.pages.length ≤ pageLimit
  paged : ∀ page ∈ head.pages, Bounded page

structure Covers (head : Head A) (ledger : List (Event A)) : Prop extends Listed head ledger where
  short : head.tail.length < tailLimit

theorem emptyCovers (generation : Nat) : Covers (Head.empty generation : Head A) [] where
  counted := rfl
  numbered := fromNil
  floor := ⟨Nat.le_refl 1,Nat.le_refl 1⟩
  kept := rfl
  labelled _ mem := by cases mem
  short := Nat.zero_lt_succ _
  few := Nat.zero_le _
  paged _ mem := by cases mem

section Frame
variable {head next : Head A} {ledger : List (Event A)}

theorem Listed.same (listed : Listed head ledger) (seq : next.eventSeq = head.eventSeq)
    (floor : next.historyFloor = head.historyFloor) (tail : next.tail = head.tail) (pages : next.pages = head.pages) :
    Listed next ledger where
  counted := by rw [seq]; exact listed.counted
  numbered := listed.numbered
  floor := by rw [floor,seq]; exact listed.floor
  kept := by rw [pagedEvents,pages,tail,floor]; exact listed.kept
  labelled := by rw [tail]; exact listed.labelled
  few := by rw [pages]; exact listed.few
  paged := by rw [pages]; exact listed.paged

theorem Covers.same (covers : Covers head ledger) (seq : next.eventSeq = head.eventSeq)
    (floor : next.historyFloor = head.historyFloor) (tail : next.tail = head.tail) (pages : next.pages = head.pages) :
    Covers next ledger where
  toListed := covers.toListed.same seq floor tail pages
  short := by rw [tail]; exact covers.short

theorem Listed.numberedKept (listed : Listed head ledger) : From Event.sequence head.historyFloor (pagedEvents head) := by
  obtain ⟨low,high⟩ := listed.floor
  have counted := listed.counted
  have dropped := fromDrop listed.numbered (head.historyFloor - 1) (by omega)
  have start : 1 + (head.historyFloor - 1) = head.historyFloor := by omega
  rw [listed.kept]
  rwa [start] at dropped

end Frame

section Sealing
variable {head : Head A} {ledger : List (Event A)}

theorem tailBounded (labelled : ∀ item ∈ head.tail, item.1 = item.2.sequence) (some' : head.tail ≠ []) :
    Bounded (⟨(head.tail.head?.map Prod.fst).getD 0,(head.tail.getLast?.map Prod.fst).getD 0,head.tail.map Prod.snd⟩ :
      Page A) := by
  obtain ⟨front,rest,same⟩ := exists_cons_of_ne_nil some'
  refine ⟨front.2,(head.tail.getLast some').2,?_,?_,?_,?_⟩
  · rw [same]
    rfl
  · rw [same]
    exact (labelled front (by rw [same]; exact mem_cons_self)).symm
  · rw [getLast?_map,getLast?_eq_getLast_of_ne_nil some']
    rfl
  · rw [getLast?_eq_getLast_of_ne_nil some']
    exact (labelled _ (getLast_mem some')).symm

theorem floorKept {pages : List (Page A)} {n k} (bounded : ∀ page ∈ pages, Bounded page)
    (numbered : From Event.sequence n (pages.flatMap Page.events)) (left : k < pages.length) :
    ((pages.drop k).head?.map Page.first).getD 0 = n + ((pages.take k).flatMap Page.events).length := by
  obtain ⟨page,rest,same⟩ := exists_cons_of_ne_nil (show pages.drop k ≠ [] by simpa using left)
  obtain ⟨front,_,first,number,_⟩ := bounded page (mem_of_mem_drop (same ▸ mem_cons_self))
  obtain ⟨others,filled⟩ := head?_eq_some_iff.mp first
  rw [← take_append_drop k pages,flatMap_append,fromAppend,same,flatMap_cons,filled,cons_append] at numbered
  rw [same]
  exact number.symm.trans (fromCons.mp numbered.2).1

theorem sealCovers (listed : Listed head ledger) : Covers (sealTail head) ledger := by
  unfold sealTail
  split
  case isTrue short => exact ⟨listed,short⟩
  rename_i full
  have some' : head.tail ≠ [] := by
    rintro none'
    rw [none'] at full
    exact full (Nat.zero_lt_succ _)
  have bounded := tailBounded listed.labelled some'
  generalize made : (⟨(head.tail.head?.map Prod.fst).getD 0,(head.tail.getLast?.map Prod.fst).getD 0,
    head.tail.map Prod.snd⟩ : Page A) = page at bounded
  have every : ∀ p ∈ head.pages ++ [page], Bounded p := by
    intro p mem
    rcases mem_append.mp mem with old | new
    · exact listed.paged p old
    · rw [mem_singleton.mp new]
      exact bounded
  have flat : (head.pages ++ [page]).flatMap Page.events = pagedEvents head := by
    rw [flatMap_append,pagedEvents,← made]
    simp
  have few := listed.few
  have left : head.pages.length + 1 - pageLimit < (head.pages ++ [page]).length := by
    rw [length_append,length_singleton]
    unfold pageLimit at few ⊢
    omega
  have numbered := listed.numberedKept
  rw [← flat] at numbered
  have first := floorKept every numbered left
  have whole := congrArg List.length listed.kept
  have split' := take_append_drop (head.pages.length + 1 - pageLimit) (head.pages ++ [page])
  have parts := congrArg (List.flatMap Page.events) split'
  rw [flatMap_append,flat] at parts
  have lengths := congrArg List.length parts
  rw [length_append] at lengths
  rw [length_drop] at whole
  obtain ⟨low,high⟩ := listed.floor
  have counted := listed.counted
  refine ⟨⟨counted,listed.numbered,?_,?_,(fun _ mem => by cases mem),?_,?_⟩,Nat.zero_lt_succ _⟩
  · dsimp only
    omega
  · dsimp only [pagedEvents]
    rw [first,map_nil,append_nil]
    have after : head.historyFloor + ((List.take (head.pages.length + 1 - pageLimit) (head.pages ++ [page])).flatMap
        Page.events).length - 1 = head.historyFloor - 1 + ((List.take (head.pages.length + 1 - pageLimit)
        (head.pages ++ [page])).flatMap Page.events).length := by omega
    rw [after,← drop_drop,← listed.kept,← parts,drop_left]
  · dsimp only
    rw [length_drop,length_append,length_singleton]
    omega
  · exact fun p mem => every p (mem_of_mem_drop mem)

theorem appendEventCovers {next draft} (covers : Covers head ledger)
    (ok : appendEvent head draft = .ok next) : Covers next (ledger ++ [head.stamp draft]) := by
  obtain ⟨logged,enqueued,rfl⟩ := appendEventCases ok
  refine sealCovers ?_
  rw [enqueueNotificationFrame enqueued]
  have counted := covers.counted
  obtain ⟨low,high⟩ := covers.floor
  refine ⟨?_,?_,⟨low,?_⟩,?_,?_,covers.few,covers.paged⟩
  · rw [length_append,counted]
    rfl
  · refine fromAppend.mpr ⟨covers.numbered,fromCons.mpr ⟨?_,fromNil⟩⟩
    rw [counted]
    exact Nat.add_comm _ _
  · dsimp only
    omega
  · have kept := covers.kept
    unfold pagedEvents at kept ⊢
    dsimp only
    rw [map_append,← append_assoc,kept,drop_append_of_le_length (by omega)]
    rfl
  · intro item mem
    rcases mem_append.mp mem with old | new
    · exact covers.labelled item old
    · rw [mem_singleton.mp new]
      rfl

theorem appendEventsCovers {next drafts} (covers : Covers head ledger)
    (ok : appendEvents head drafts = .ok next) : Covers next (ledger ++ stamped head drafts) := by
  induction drafts generalizing head ledger with
  | nil =>
    cases ok
    rw [stamped,append_nil]
    exact covers
  | cons draft drafts ih =>
    obtain ⟨middle,first,ok⟩ := Results.bindOk ok
    have frame := appendEventFrame first
    have rest := ih (appendEventCovers covers first) ok
    have events : stamped middle drafts = stamped { head with eventSeq := head.eventSeq+1 } drafts :=
      stampedSame _ _ _ (by rw [frame]) (by rw [frame]) (by rw [frame])
    rw [stamped,← events]
    simpa using rest

end Sealing

section Reading
variable {head : Head A} {ledger : List (Event A)} {after : Nat}

theorem readEventsTake (tail : List (Nat × Event A)) (pages : List (Page A)) (limit : Nat) (acc : List (Event A)) :
    readEvents tail after pages limit acc =
      acc ++ ((pages.flatMap (fun page => page.events.filter (fun event => after < event.sequence))) ++
        (tail.filter (fun item => after < item.1)).map Prod.snd).take limit := by
  induction pages generalizing limit acc with
  | nil =>
    cases limit with
    | zero => simp [readEvents]
    | succ limit => rw [readEvents,flatMap_nil,nil_append,map_take]
  | cons page rest ih =>
    cases limit with
    | zero => simp [readEvents]
    | succ limit =>
      have left : ∀ n, limit + 1 - min (limit + 1) n = limit + 1 - n := by omega
      rw [readEvents,ih,length_take,left,flatMap_cons,append_assoc,append_assoc]
      exact congrArg (acc ++ ·) take_append.symm

theorem staleNothing {page : Page A} {n} (bounded : Bounded page) (numbered : From Event.sequence n page.events)
    (stale : page.last ≤ after) : page.events.filter (fun event => after < event.sequence) = [] := by
  obtain ⟨_,back,_,_,last,number⟩ := bounded
  obtain ⟨front,same⟩ := getLast?_eq_some_iff.mp last
  have counted := numbersLast (same ▸ numbered)
  rw [filterAbove numbered,same]
  refine drop_eq_nil_of_le ?_
  rw [length_append,length_singleton]
  omega

theorem staleSkipped (after : Nat) {pages : List (Page A)} {n} (bounded : ∀ page ∈ pages, Bounded page)
    (numbered : From Event.sequence n (pages.flatMap Page.events)) :
    (pages.filter (fun page => (after : Int) < page.last)).flatMap
        (fun page => page.events.filter (fun event => after < event.sequence)) =
      (pages.flatMap Page.events).filter (fun event => after < event.sequence) := by
  induction pages generalizing n with
  | nil => rfl
  | cons page rest ih =>
    rw [flatMap_cons,fromAppend] at numbered
    have later := ih (forall_mem_cons.mp bounded).2 numbered.2
    rw [flatMap_cons,filter_append,filter_cons,← later]
    split
    · rw [flatMap_cons]
    next stale =>
    have old : page.last ≤ after := by simpa using stale
    rw [staleNothing (bounded page mem_cons_self) numbered.1 old,nil_append]

theorem eventsExact (covers : Covers head ledger) {after limit : Int} (low : (head.historyFloor : Int) - 1 ≤ after)
    (high : after ≤ head.eventSeq) (some' : 1 ≤ limit) (most : limit ≤ 100) :
    events (some head) after limit = .ok ((ledger.drop after.toNat).take limit.toNat) := by
  obtain ⟨positive,_⟩ := covers.floor
  have numbered := covers.numberedKept
  have pages := numbered
  rw [pagedEvents,fromAppend] at pages
  have tail : (head.tail.filter (fun item => after.toNat < item.1)).map Prod.snd =
      (head.tail.map Prod.snd).filter (fun event => after.toNat < event.sequence) := by
    rw [filter_map]
    congr 1
    refine filter_congr (fun item mem => ?_)
    rw [Function.comp_apply,covers.labelled item mem]
  have whole : (after.toNat : Int) = after := by omega
  have stale := staleSkipped after.toNat covers.paged pages.1
  rw [whole] at stale
  rw [events,if_pos ⟨by omega,some',most,low,high⟩,readEventsTake,stale,tail,← filter_append,nil_append]
  have same : head.pages.flatMap Page.events ++ head.tail.map Prod.snd = pagedEvents head := rfl
  rw [same,filterAbove numbered,covers.kept,drop_drop]
  congr 3
  omega

theorem eventsOk {after limit found} (ok : events (some head) after limit = .ok found) :
    1 ≤ limit ∧ limit ≤ 100 ∧ (head.historyFloor : Int) - 1 ≤ after ∧ after ≤ head.eventSeq := by
  rw [events] at ok
  split at ok
  · next inside => exact ⟨inside.2.1,inside.2.2.1,inside.2.2.2⟩
  · cases ok

end Reading

section Written
variable [DecidableEq A] {codec : Codec A} {address : Snapshot A → A} {old : Option (Head A)} {ledger : List (Event A)}

def Tracked (old : Option (Head A)) (ledger : List (Event A)) : Prop :=
  match old with
  | none => ledger = []
  | some head => Covers head ledger

omit [DecidableEq A] in
theorem baseCovers (tracked : Tracked old ledger) (call : Call A) (node : Surroundings) :
    Covers (changeBase call old node) ledger := by
  cases old with
  | none =>
    cases tracked
    exact emptyCovers _
  | some head => exact tracked

theorem writtenCovers {write next} (tracked : Tracked old ledger)
    (ok : written codec address old write = some next) : Covers next (ledger ++ committedBy old write) := by
  have did := writtenCases ok
  cases write with
  | change call node =>
    obtain ⟨snapshot,published⟩ := did
    obtain ⟨targets,logged,retired,h⟩ := publishChangeCases published
    have covers := appendEventsCovers (baseCovers tracked call node) h.appended
    have frame := retireRecordingFrame h.retiring
    refine covers.same ?_ ?_ ?_ ?_ <;> rw [h.replaced,frame] <;> rfl
  | checkpoint evaluation =>
    obtain ⟨head,rfl,done⟩ := did
    obtain ⟨logged,queued,_,_,_,logging,recording,rfl⟩ := checkpointCases done
    have frame := enqueueRecordingFrame recording
    refine (appendEventsCovers tracked logging).same ?_ ?_ ?_ ?_ <;> rw [frame]
  | ackRecording ref progress event =>
    obtain ⟨head,rfl,done⟩ := did
    obtain ⟨rest,logged,_,logging,rfl⟩ := ackRecordingCases done
    exact (appendEventsCovers tracked logging).same rfl rfl rfl rfl
  | recordingFailed ref reason =>
    obtain ⟨head,rfl,failed⟩ := did
    unfold recordingFailed at failed
    split at failed
    · cases failed
      rw [committedBy,append_nil]
      exact Covers.same tracked rfl rfl rfl rfl
    · cases failed

end Written
end Pulso.Alerting
