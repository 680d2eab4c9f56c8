import Pulso.AlertHistory

/-! Readers page through the events of a rule while writers of any node append to it, seal its tail and drop
its oldest pages. A read loads the head once; the objects it then reads never change. -/
namespace Pulso.Alerting.Paging
open Pulso.Numbering List
variable {A : Type}

structure Reader (A : Type) where
  start : Nat
  position : Nat
  visited : List (Event A)
  answer : Option (Except HistoryError (List (Event A)))

/- `ledger` records the events of landed writes in order. -/
structure State (A : Type) where
  head : Option (Head A)
  ledger : List (Event A)
  readers : Nat → Reader A

def start : State A := ⟨none,[],fun _ => ⟨0,0,[],none⟩⟩

inductive Act (A : Type) where
  | commit (write : Write A)
  | claim (version : Target) (nonce : Nat) (now : Int)
  | ack (version : Target) (nonce : Nat)
  | openAt (reader : Nat) (position : Nat)
  | next (reader : Nat) (limit : Int)

section Steps
variable [DecidableEq A] (codec : Codec A) (address : Snapshot A → A)

def Reader.page (reader : Reader A) (head : Option (Head A)) (limit : Int) : Reader A :=
  match events head reader.position limit with
  | .ok found =>
    { reader with
      position := (found.getLast?.map Event.sequence).getD reader.position
      visited := reader.visited ++ found
      answer := some (.ok found) }
  | .error e => { reader with answer := some (.error e) }

def outbox (s : State A) (version : Target) (update : Box A → Except Reason (Box A)) : State A :=
  { s with head := s.head.map fun head => ((updateOutbox head version update).toOption.map Prod.snd).getD head }

def step (s : State A) : Act A → State A
  | .commit write => match written codec address s.head write with
    | some next => { s with head := some next, ledger := s.ledger ++ committedBy s.head write }
    | none => s
  | .claim version nonce now => outbox s version (Notifier.claim nonce now)
  | .ack version nonce => outbox s version (Notifier.ack nonce)
  | .openAt id position => { s with readers := Function.update s.readers id ⟨position,position,[],none⟩ }
  | .next id limit => { s with readers := Function.update s.readers id ((s.readers id).page s.head limit) }

def run (s : State A) (acts : List (Act A)) : State A := acts.foldl (step codec address) s

end Steps

structure Visited (ledger : List (Event A)) (reader : Reader A) : Prop where
  forward : reader.start ≤ reader.position
  inside : reader.position = reader.start ∨ reader.position ≤ ledger.length
  seen : reader.visited = (ledger.drop reader.start).take (reader.position - reader.start)

structure Inv (s : State A) : Prop where
  tracked : Tracked s.head s.ledger
  readers : ∀ id, Visited s.ledger (s.readers id)

theorem visitedGrows {ledger more} {reader : Reader A} (visited : Visited ledger reader) :
    Visited (ledger ++ more) reader := by
  obtain ⟨forward,inside,seen⟩ := visited
  refine ⟨forward,inside.imp_right (fun short => by rw [length_append]; omega),?_⟩
  rcases inside with same | short
  · rw [seen,same,Nat.sub_self,take_zero,take_zero]
  · rw [seen,drop_append_of_le_length (by omega),take_append_of_le_length (by rw [length_drop]; omega)]

theorem visitedOpen (ledger : List (Event A)) (position : Nat) : Visited ledger ⟨position,position,[],none⟩ where
  forward := Nat.le_refl _
  inside := .inl rfl
  seen := by simp

theorem lastNumber {found : List (Event A)} {p} (numbered : From Event.sequence (1 + p) found) :
    (found.getLast?.map Event.sequence).getD p = p + found.length := by
  rcases eq_nil_or_concat found with rfl | ⟨front,last,rfl⟩
  · rfl
  rw [concat_eq_append] at numbered ⊢
  rw [getLast?_concat,Option.map_some,Option.getD_some,numbersLast numbered,length_append,length_singleton]
  omega

theorem visitedPage {head : Option (Head A)} {ledger reader} (tracked : Tracked head ledger)
    (visited : Visited ledger reader) (limit : Int) : Visited ledger (reader.page head limit) := by
  unfold Reader.page
  cases asked : events head reader.position limit with
  | error e => exact { visited with }
  | ok found =>
    cases head with
    | none => cases asked
    | some head =>
      obtain ⟨some',most,low,high⟩ := eventsOk asked
      have covers : Covers head ledger := tracked
      have counted := covers.counted
      rw [eventsExact covers low high some' most,Int.toNat_natCast] at asked
      cases asked
      have forward := visited.forward
      have position := lastNumber (fromTake (fromDrop covers.numbered reader.position (by omega)) limit.toNat)
      have length : ((ledger.drop reader.position).take limit.toNat).length ≤ ledger.length - reader.position := by
        rw [length_take,length_drop]
        omega
      refine ⟨by dsimp only; omega,.inr (by dsimp only; omega),?_⟩
      have more : reader.position + ((ledger.drop reader.position).take limit.toNat).length - reader.start =
          reader.position - reader.start + ((ledger.drop reader.position).take limit.toNat).length := by omega
      have there : reader.start + (reader.position - reader.start) = reader.position := by omega
      dsimp only
      rw [position,visited.seen,more,take_add,drop_drop,there]
      simp

theorem outboxTracked {s version} {update : Box A → Except Reason (Box A)}
    (tracked : Tracked s.head s.ledger) : Tracked (outbox s version update).head s.ledger := by
  unfold outbox
  cases current : s.head with
  | none =>
    rw [current] at tracked
    exact tracked
  | some head =>
    rw [current] at tracked
    cases updated : updateOutbox head version update with
    | error reason => simpa [updated,Except.toOption] using tracked
    | ok pair =>
      have frame := updateOutboxFrame updated
      have covers : Tracked (some pair.2) s.ledger := by
        refine Covers.same tracked ?_ ?_ ?_ ?_ <;> rw [frame]
      simpa [updated,Except.toOption] using covers

section Runs
variable [DecidableEq A] {codec : Codec A} {address : Snapshot A → A}

theorem stepInv {s : State A} (inv : Inv s) (act : Act A) : Inv (step codec address s act) := by
  cases act with
  | commit write =>
    simp only [step]
    cases landed : written codec address s.head write with
    | none => exact inv
    | some next => exact ⟨writtenCovers inv.tracked landed,fun id => visitedGrows (inv.readers id)⟩
  | claim version nonce now => exact ⟨outboxTracked inv.tracked,inv.readers⟩
  | ack version nonce => exact ⟨outboxTracked inv.tracked,inv.readers⟩
  | openAt id position =>
    refine ⟨inv.tracked,fun other => ?_⟩
    by_cases same : other = id
    · subst same
      simpa [step] using visitedOpen s.ledger position
    · simpa [step,Function.update_of_ne same] using inv.readers other
  | next id limit =>
    refine ⟨inv.tracked,fun other => ?_⟩
    by_cases same : other = id
    · subst same
      simpa [step] using visitedPage inv.tracked (inv.readers other) limit
    · simpa [step,Function.update_of_ne same] using inv.readers other

theorem runInv (codec : Codec A) (address : Snapshot A → A) (acts : List (Act A)) : Inv (run codec address start acts) :=
  List.foldlRecOn (motive := Inv) acts _ ⟨rfl,fun _ => visitedOpen [] 0⟩ (fun _ inv act _ => stepInv inv act)

/- In every reachable state: the head lists exactly the numbers from its floor to its last event, a page of
events is exactly the next ones after any position the floor allows and refused for any other, and a reader
has visited every event from where it started to where it is, once and in order. -/
theorem historyWithoutGaps (codec : Codec A) (address : Snapshot A → A) (acts : List (Act A)) :
    (∀ head, (run codec address start acts).head = some head →
      Covers head (run codec address start acts).ledger ∧
      (pagedEvents head).map Event.sequence = List.range' head.historyFloor (head.eventSeq + 1 - head.historyFloor) ∧
      (∀ after limit : Int, (head.historyFloor : Int) - 1 ≤ after → after ≤ head.eventSeq → 1 ≤ limit → limit ≤ 100 →
        ∃ found, events (some head) after limit = .ok found ∧
          found = ((run codec address start acts).ledger.drop after.toNat).take limit.toNat ∧
          found.map Event.sequence = List.range' (after.toNat + 1) (min limit.toNat (head.eventSeq - after.toNat))) ∧
      (∀ after limit : Int, after < (head.historyFloor : Int) - 1 →
        events (some head) after limit = .error .invalidOrExpiredPosition)) ∧
    ∀ id, Visited (run codec address start acts).ledger ((run codec address start acts).readers id) := by
  have inv := runInv codec address acts
  refine ⟨fun head current => ?_,inv.readers⟩
  have tracked := inv.tracked
  rw [current] at tracked
  have covers := tracked
  have counted := covers.counted
  obtain ⟨positive,high⟩ := covers.floor
  refine ⟨covers,?_,fun after limit low high some' most => ⟨_,eventsExact covers low high some' most,rfl,?_⟩,?_⟩
  · have numbered := covers.numberedKept
    rw [numbered,covers.kept,length_drop,counted]
    congr 1
    omega
  · have numbered := fromTake (fromDrop covers.numbered after.toNat (by omega)) limit.toNat
    rw [numbered,length_take,length_drop,counted,Nat.add_comm]
  · intro after limit expired
    rw [events,if_neg (by omega)]

end Runs
end Pulso.Alerting.Paging
