import Mathlib.Data.List.Chain
import Pulso.ReliabilityStep

/-! What a committed change does to the protected part of the root: the ledger, the scan and its
claim, the published window, the attempts of its groups and the runs. -/
namespace Pulso.Reliability
open List
variable {E D : Type}

section Months
variable {spend : Dict Int (Dict Kind Nat)} {month : Int} {spent : Dict Kind Nat}

theorem newestEntries (spend : Dict Int (Dict Kind Nat)) :
    (Root.newest spend).entries = (spend.entries.mergeSort (fun a b => b.1 ≤ a.1)).take 2 := by
  have distinct : (((spend.entries.mergeSort (fun a b => b.1 ≤ a.1)).take 2).map Prod.fst).Nodup := by
    have sorted := ((mergeSort_perm spend.entries (fun a b => b.1 ≤ a.1)).map Prod.fst).nodup_iff.mpr spend.distinct
    exact sorted.sublist ((take_sublist 2 _).map Prod.fst)
  exact (Dict.putAllFresh (m := .empty) (by simp [Dict.empty,Dict.keys]) distinct).trans (nil_append _)

theorem newestGet (h : (Root.newest spend).get? month = some spent) : spend.get? month = some spent := by
  rw [Dict.getIff,newestEntries] at h
  exact Dict.getIff.mpr ((mergeSort_perm _ _).mem_iff.mp (mem_of_mem_take h))

theorem newestTop (latest : ∀ m ∈ spend.keys, m ≤ month) : (Root.newest spend).get? month = spend.get? month := by
  cases found : spend.get? month with
  | none =>
    cases kept : (Root.newest spend).get? month with
    | none => rfl
    | some spent => exact absurd (newestGet kept) (by simp [found])
  | some spent =>
    rw [Dict.getIff,newestEntries]
    have member : (month,spent) ∈ spend.entries.mergeSort (fun a b => b.1 ≤ a.1) :=
      (mergeSort_perm _ _).mem_iff.mpr (Dict.getIff.mp found)
    have sorted : (spend.entries.mergeSort (fun a b => b.1 ≤ a.1)).Pairwise (fun a b => b.1 ≤ a.1) := by
      have := @pairwise_mergeSort _ (fun a b : Int × Dict Kind Nat => decide (b.1 ≤ a.1))
        (by intro a b c; simp only [decide_eq_true_eq]; omega)
        (by intro a b; simp only [Bool.or_eq_true,decide_eq_true_eq]; omega) spend.entries
      simpa using this
    cases order : spend.entries.mergeSort (fun a b => b.1 ≤ a.1) with
    | nil => simp [order] at member
    | cons first rest =>
      rw [order] at member sorted
      rcases mem_cons.mp member with rfl|later
      · simp
      have entry : first ∈ spend.entries :=
        (mergeSort_perm _ (fun a b => decide (b.1 ≤ a.1))).mem_iff.mp (order ▸ mem_cons_self)
      have same : first.1 = month := le_antisymm (latest _ (mem_map_of_mem entry)) (rel_of_pairwise_cons sorted later)
      subst same
      have : first = (first.1,spent) := Prod.ext rfl (Dict.valueUnique (k := first.1) entry (Dict.getIff.mp found))
      rw [← this]
      exact mem_cons_self

end Months

structure Charged (setup : Setup E D) (root next : Root E D) (now : Int) (added : Kind → Nat) : Prop where
  top : ∀ kind, next.spent (setup.calendar.month now) kind = root.spent (setup.calendar.month now) kind + added kind
  rest : ∀ month kind, month ≠ setup.calendar.month now → next.spent month kind ≤ root.spent month kind
  months : ∀ month ∈ next.spend.keys, month ≤ setup.calendar.month now
  within : (∀ month kind, root.spent month kind ≤ setup.config.limit kind) →
    ∀ month kind, next.spent month kind ≤ setup.config.limit kind

theorem Root.spentNone {root : Root E D} {month kind} (absent : root.spend.get? month = none) : root.spent month kind = 0 := by
  rw [Root.spent,absent]
  rfl

def Root.adding (root : Root E D) (month : Int) (kind : Kind) (amount : Nat) : Dict Int (Dict Kind Nat) :=
  root.spend.put month (((root.spend.get? month).getD .empty).put kind (root.spent month kind + amount))

theorem chargeDoes {calendar} {root next : Root E D} {now kind amount limit}
    (h : root.charge calendar now kind amount limit = .ok next) :
    root.spent (calendar.month now) kind + amount ≤ limit ∧
      next = { root with spend := Root.newest (root.adding (calendar.month now) kind amount) } := by
  simp only [Root.charge] at h
  split at h
  case isFalse => cases h
  rename_i fits
  cases h
  exact ⟨fits,rfl⟩

theorem addingGet (root : Root E D) (month : Int) (kind k : Kind) (amount : Nat) :
    ((((root.adding month kind amount).get? month).getD .empty).get? k).getD 0 =
      root.spent month k + if k = kind then amount else 0 := by
  rw [Root.adding,Dict.getPutSame,Option.getD_some]
  by_cases same : k = kind
  · subst same
    rw [Dict.getPutSame,if_pos rfl,Option.getD_some]
  · rw [Dict.getPutOther _ _ same,if_neg same]
    rfl

theorem chargeCharged {setup} {root next : Root E D} {now amount} (kind : Kind)
    (months : ∀ month ∈ root.spend.keys, month ≤ setup.calendar.month now)
    (h : root.charge setup.calendar now kind amount (setup.config.limit kind) = .ok next) :
    Charged setup root next now (fun k => if k = kind then amount else 0) := by
  obtain ⟨fits,rfl⟩ := chargeDoes h
  have latest : ∀ m ∈ (root.adding (setup.calendar.month now) kind amount).keys, m ≤ setup.calendar.month now := by
    intro m known
    rcases Dict.memKeysPut.mp known with rfl|old
    · exact le_refl _
    · exact months m old
  have top (k : Kind) : Root.spent { root with spend := Root.newest (root.adding (setup.calendar.month now) kind amount) }
      (setup.calendar.month now) k = root.spent (setup.calendar.month now) k + if k = kind then amount else 0 := by
    rw [← addingGet,← newestTop latest]
    rfl
  have rest (m k) (other : m ≠ setup.calendar.month now) :
      Root.spent { root with spend := Root.newest (root.adding (setup.calendar.month now) kind amount) } m k ≤
        root.spent m k := by
    cases kept : (Root.newest (root.adding (setup.calendar.month now) kind amount)).get? m with
    | none => exact (Root.spentNone kept).le.trans (Nat.zero_le _)
    | some spent =>
      have before := newestGet kept
      rw [Root.adding,Dict.getPutOther _ _ other] at before
      simp [Root.spent,kept,before]
  refine ⟨top,rest,?_,?_⟩
  · intro m known
    obtain ⟨spent,kept⟩ := Dict.memKeys.mp known
    exact latest m (Dict.memKeys.mpr ⟨spent,newestGet kept⟩)
  intro bounded m k
  by_cases same : m = setup.calendar.month now
  · subst same
    rw [top]
    split
    case isTrue own => exact own ▸ fits
    case isFalse => exact bounded _ _
  · exact (rest m k same).trans (bounded m k)

theorem Charged.trans {setup} {root mid next : Root E D} {now} {a b : Kind → Nat}
    (first : Charged setup root mid now a) (second : Charged setup mid next now b) :
    Charged setup root next now (fun kind => a kind + b kind) where
  top kind := by rw [second.top,first.top,Nat.add_assoc]
  rest month kind other := (second.rest month kind other).trans (first.rest month kind other)
  months := second.months
  within bounded := second.within (first.within bounded)

def Root.attempt (root : Root E D) (id : String) : Option (Nonce × Nat) :=
  match root.assessments.get? id with
  | some (.attempt attempt calls _) => some (attempt,calls)
  | _ => none

def Root.finish (root : Root E D) : Option Int := root.snapshot.map SnapshotRef.finish

abbrev Nonces := List (Nat × Purpose)

def DrawnFor (nonces : Nonces) (nonce : Nonce) (purpose : Purpose) : Prop := nonces[nonce]?.map Prod.snd = some purpose

def modelCost (setup : Setup E D) : Nat := setup.config.maxInputTokens * setup.config.inputPrice

structure SameWindow (root next : Root E D) : Prop where
  snapshot : next.snapshot = root.snapshot
  scanFinish : next.scanFinish = root.scanFinish
  scanClaim : next.scanClaim = root.scanClaim

structure SameLedger (root next : Root E D) : Prop where
  spend : next.spend = root.spend
  clock : next.clock = root.clock

def SameAttempts (root next : Root E D) : Prop := ∀ id, next.attempt id = root.attempt id

def SameRuns (root next : Root E D) : Prop := ∀ id ∈ next.investigations.keys, id ∈ root.investigations.keys

inductive Move (setup : Setup E D) (nonces : Nonces) (root next : Root E D) : Prop
  | keep (ledger : SameLedger root next) (window : SameWindow root next) (attempts : SameAttempts root next)
      (runs : SameRuns root next)
  | scan (finish : Int) (claim : Nonce) (drawn : DrawnFor nonces claim (.scan finish))
      (after : root.scanFinish.getD (-1) < finish) (forward : root.clock ≤ next.clock)
      (charged : Charged setup root next next.clock (fun kind => if kind = .objects then 3000000 else 0))
      (scanFinish : next.scanFinish = some finish) (scanClaim : next.scanClaim = some claim)
      (snapshot : next.snapshot = root.snapshot) (attempts : SameAttempts root next) (runs : SameRuns root next)
  | publish (finish : Int) (claim : Nonce) (drawn : DrawnFor nonces claim (.scan finish))
      (claimed : root.scanClaim = some claim) (ledger : SameLedger root next) (snapshot : next.finish = some finish)
      (attempts : ∀ id, next.attempt id = none) (scanFinish : next.scanFinish = root.scanFinish)
      (scanClaim : next.scanClaim = none) (runs : SameRuns root next)
  | reserve (finish : Int) (id : String) (attempt : Nonce) (calls : Nat) (current : root.finish = some finish)
      (slot : (calls = 1 ∧ root.attempt id = none) ∨ (calls = 2 ∧ root.attempt id = some (attempt,1)))
      (forward : root.clock ≤ next.clock)
      (charged : Charged setup root next next.clock
        (fun kind => (if kind = .model then modelCost setup else 0) + if kind = .objects then 50000 else 0))
      (window : SameWindow root next) (reserved : next.attempt id = some (attempt,calls))
      (others : ∀ other ≠ id, next.attempt other = root.attempt other) (runs : SameRuns root next)
  | run (id : Nonce) (forward : root.clock ≤ next.clock)
      (charged : Charged setup root next next.clock (fun kind => if kind = .investigation then investigationCost else 0))
      (window : SameWindow root next) (attempts : SameAttempts root next)
      (runs : ∀ other ∈ next.investigations.keys, other = id ∨ other ∈ root.investigations.keys)

end Pulso.Reliability
