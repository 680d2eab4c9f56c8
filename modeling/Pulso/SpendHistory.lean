import Pulso.SpendLedger

/-! Committed roots, one change after the other: the clock and the windows only move forward, a
group keeps its attempt while its window lasts, and no month that can still be charged shrinks. -/
namespace Pulso.Reliability
open List
variable {E D : Type} {setup : Setup E D} {nonces : Nonces} {root next later : Root E D}

structure Wf (setup : Setup E D) (nonces : Nonces) (root : Root E D) : Prop where
  within : ∀ month kind, root.spent month kind ≤ setup.config.limit kind
  months : ∀ month ∈ root.spend.keys, month ≤ setup.calendar.month root.clock
  scanned : ∀ f, root.finish = some f → ∃ s, root.scanFinish = some s ∧ f ≤ s
  claimed : ∀ c, root.scanClaim = some c →
    ∃ s, root.scanFinish = some s ∧ DrawnFor nonces c (.scan s) ∧ ∀ f, root.finish = some f → f < s

theorem emptyWf (generation : Nonce) : Wf setup nonces (.empty generation) where
  within month kind := Nat.zero_le _
  months := by simp [Root.empty,Dict.empty,Dict.keys]
  scanned := nofun
  claimed := nofun

theorem SameLedger.spent (h : SameLedger root next) (month : Int) (kind : Kind) :
    next.spent month kind = root.spent month kind := by rw [Root.spent,h.spend]; rfl

theorem SameWindow.finish (h : SameWindow root next) : next.finish = root.finish := by rw [Root.finish,h.snapshot]; rfl

theorem Wf.sameWindow (wf : Wf setup nonces root) (h : SameWindow root next)
    (within : ∀ month kind, next.spent month kind ≤ setup.config.limit kind)
    (months : ∀ month ∈ next.spend.keys, month ≤ setup.calendar.month next.clock) : Wf setup nonces next where
  within := within
  months := months
  scanned := by
    rw [h.finish,h.scanFinish]
    exact wf.scanned
  claimed := by
    rw [h.finish,h.scanFinish,h.scanClaim]
    exact wf.claimed

theorem DrawnFor.same {nonce a b} (h : DrawnFor nonces nonce a) (h' : DrawnFor nonces nonce b) : a = b :=
  Option.some.inj (h.symm.trans h')

theorem moveWf (wf : Wf setup nonces root) (move : Move setup nonces root next) : Wf setup nonces next := by
  cases move with
  | keep ledger window attempts runs =>
    refine wf.sameWindow window ?_ ?_
    · intro month kind
      rw [ledger.spent]
      exact wf.within month kind
    · rw [ledger.spend,ledger.clock]
      exact wf.months
  | scan finish claim drawn after forward charged scanFinish scanClaim snapshot =>
    have same : next.finish = root.finish := by rw [Root.finish,snapshot]; rfl
    have below (f) (current : next.finish = some f) : f < finish := by
      obtain ⟨s,known,le⟩ := wf.scanned f (same ▸ current)
      rw [known] at after
      exact lt_of_le_of_lt le after
    exact {
      within := charged.within wf.within
      months := charged.months
      scanned := fun f current => ⟨finish,scanFinish,(below f current).le⟩
      claimed := fun c own => by
        obtain rfl := Option.some.inj (scanClaim.symm.trans own)
        exact ⟨finish,scanFinish,drawn,below⟩ }
  | publish finish claim drawn claimed ledger snapshot attempts scanFinish scanClaim =>
    obtain ⟨s,known,own,-⟩ := wf.claimed claim claimed
    cases own.same drawn
    exact {
      within := fun month kind => by
        rw [ledger.spent]
        exact wf.within month kind
      months := by
        rw [ledger.spend,ledger.clock]
        exact wf.months
      scanned := fun f current => by
        obtain rfl := Option.some.inj (snapshot.symm.trans current)
        exact ⟨finish,scanFinish.trans known,le_refl _⟩
      claimed := fun c own => by simp [scanClaim] at own }
  | reserve finish id attempt calls current slot forward charged window =>
    exact wf.sameWindow window (charged.within wf.within) charged.months
  | run id forward charged window => exact wf.sameWindow window (charged.within wf.within) charged.months

structure Later (setup : Setup E D) (root later : Root E D) : Prop where
  clock : root.clock ≤ later.clock
  window : ∀ f, root.finish = some f → ∃ g, later.finish = some g ∧ f ≤ g
  attempts : root.finish = later.finish → ∀ id a c, root.attempt id = some (a,c) → ∃ c', later.attempt id = some (a,c')
  spend : ∀ month kind, setup.calendar.month later.clock ≤ month → root.spent month kind ≤ later.spent month kind

theorem Later.refl (root : Root E D) : Later setup root root where
  clock := le_refl _
  window f own := ⟨f,own,le_refl _⟩
  attempts _ _ _ c own := ⟨c,own⟩
  spend _ _ _ := le_refl _

theorem Later.trans (first : Later setup root next) (second : Later setup next later) : Later setup root later where
  clock := first.clock.trans second.clock
  window f own := by
    obtain ⟨g,known,le⟩ := first.window f own
    obtain ⟨h,known',le'⟩ := second.window g known
    exact ⟨h,known',le.trans le'⟩
  attempts same id a c own := by
    have between : root.finish = next.finish := by
      cases start : root.finish with
      | none =>
        cases mid : next.finish with
        | none => rfl
        | some g =>
          obtain ⟨h,known,-⟩ := second.window g mid
          rw [← same,start] at known
          cases known
      | some f =>
        obtain ⟨g,known,le⟩ := first.window f start
        obtain ⟨h,known',le'⟩ := second.window g known
        rw [← same,start] at known'
        cases known'
        rw [known,le_antisymm le le']
    obtain ⟨c',mid⟩ := first.attempts between id a c own
    exact second.attempts (between ▸ same) id a c' mid
  spend month kind open_ := by
    have before := (setup.calendar.monotone second.clock).trans open_
    exact (first.spend month kind before).trans (second.spend month kind open_)

theorem Charged.spend {now added} (wf : Wf setup nonces root) (charged : Charged setup root next now added)
    (forward : root.clock ≤ now) {month} (open_ : setup.calendar.month now ≤ month) (kind : Kind) :
    root.spent month kind ≤ next.spent month kind := by
  by_cases same : month = setup.calendar.month now
  · subst same
    rw [charged.top]
    exact Nat.le_add_right _ _
  have absent : root.spend.get? month = none := by
    rw [Dict.getNone]
    intro known
    have before := (wf.months month known).trans (setup.calendar.monotone forward)
    exact same (le_antisymm before open_)
  rw [Root.spentNone absent]
  exact Nat.zero_le _

theorem moveLater (wf : Wf setup nonces root) (move : Move setup nonces root next) : Later setup root next := by
  cases move with
  | keep ledger window attempts runs =>
    exact {
      clock := ledger.clock.ge
      window := fun f own => ⟨f,window.finish.trans own,le_refl _⟩
      attempts := fun _ id a c own => ⟨c,(attempts id).trans own⟩
      spend := fun month kind _ => (ledger.spent month kind).ge }
  | scan finish claim drawn after forward charged scanFinish scanClaim snapshot attempts =>
    have same : next.finish = root.finish := by rw [Root.finish,snapshot]; rfl
    exact {
      clock := forward
      window := fun f own => ⟨f,same.trans own,le_refl _⟩
      attempts := fun _ id a c own => ⟨c,(attempts id).trans own⟩
      spend := fun month kind open_ => charged.spend wf forward open_ kind }
  | publish finish claim drawn claimed ledger snapshot =>
    obtain ⟨s,-,own,below⟩ := wf.claimed claim claimed
    cases own.same drawn
    exact {
      clock := ledger.clock.ge
      window := fun f own => ⟨finish,snapshot,(below f own).le⟩
      attempts := fun same => absurd (below finish (same.trans snapshot)) (lt_irrefl _)
      spend := fun month kind _ => (ledger.spent month kind).ge }
  | reserve finish id attempt calls current slot forward charged window reserved others =>
    exact {
      clock := forward
      window := fun f own => ⟨f,window.finish.trans own,le_refl _⟩
      attempts := fun _ other a c own => by
        by_cases same : other = id
        · subst same
          rcases slot with ⟨-,free⟩|⟨-,mine⟩
          · rw [free] at own
            cases own
          rw [mine] at own
          cases own
          exact ⟨calls,reserved⟩
        · exact ⟨c,(others other same).trans own⟩
      spend := fun month kind open_ => charged.spend wf forward open_ kind }
  | run id forward charged window attempts =>
    exact {
      clock := forward
      window := fun f own => ⟨f,window.finish.trans own,le_refl _⟩
      attempts := fun _ id a c own => ⟨c,(attempts id).trans own⟩
      spend := fun month kind open_ => charged.spend wf forward open_ kind }

def prior (commits : List (Root E D)) : Nat → Root E D
  | 0 => .empty 0
  | i+1 => commits[i]?.getD (.empty 0)

def Linked (setup : Setup E D) (nonces : Nonces) (commits : List (Root E D)) : Prop :=
  ∀ i next, commits[i]? = some next → Move setup nonces (prior commits i) next

section Linked
variable {commits : List (Root E D)} (linked : Linked setup nonces commits) {i j : Nat}
include linked

theorem priorWf (i : Nat) (inside : i ≤ commits.length) : Wf setup nonces (prior commits i) := by
  induction i with
  | zero => exact emptyWf 0
  | succ i ih =>
    have known := getElem?_eq_getElem inside
    have move := linked i _ known
    rw [prior,known,Option.getD_some]
    exact moveWf (ih (Nat.le_of_succ_le inside)) move

theorem priorLater (order : i ≤ j) (inside : j ≤ commits.length) : Later setup (prior commits i) (prior commits j) := by
  induction order with
  | refl => exact .refl _
  | @step j order ih =>
    have known := getElem?_eq_getElem inside
    have move := linked j _ known
    have last : prior commits (j + 1) = commits[j] := by rw [prior,known,Option.getD_some]
    rw [last]
    exact (ih (Nat.le_of_succ_le inside)).trans (moveLater (priorWf linked j (Nat.le_of_succ_le inside)) move)

end Linked

inductive Call where
  | model (finish : Int) (group : String) (attempt : Nonce) (followup : Bool)
  | investigation (run : Nonce)
  deriving DecidableEq, Repr

def callNumber (followup : Bool) : Nat := if followup then 2 else 1

theorem callNumberInj {a b} (h : callNumber a = callNumber b) : a = b := by
  cases a <;> cases b <;> simp_all [callNumber]

def Pays (setup : Setup E D) (root next : Root E D) : Call → Prop
  | .model finish group attempt followup =>
    next.finish = some finish ∧ next.attempt group = some (attempt,callNumber followup) ∧
      root.attempt group ≠ some (attempt,callNumber followup) ∧
      next.spent (setup.calendar.month next.clock) .model =
        root.spent (setup.calendar.month next.clock) .model + modelCost setup
  | .investigation run =>
    run ∈ next.investigations.keys ∧ run ∉ root.investigations.keys ∧
      next.spent (setup.calendar.month next.clock) .investigation =
        root.spent (setup.calendar.month next.clock) .investigation + investigationCost

def Backed (commits : List (Root E D)) : Call → Prop
  | .model finish group attempt followup =>
    ∃ root ∈ commits, root.finish = some finish ∧ root.attempt group = some (attempt,callNumber followup)
  | .investigation run => ∃ root ∈ commits, run ∈ root.investigations.keys

theorem modelPays {finish group attempt followup} (move : Move setup nonces root next)
    (window : next.finish = some finish) (held : next.attempt group = some (attempt,callNumber followup)) :
    (root.finish = some finish ∧ root.attempt group = some (attempt,callNumber followup)) ∨
      Pays setup root next (.model finish group attempt followup) := by
  cases move with
  | keep _ same attempts => exact .inl ⟨same.finish ▸ window,attempts group ▸ held⟩
  | scan _ _ _ _ _ _ _ _ snapshot attempts =>
    have same : next.finish = root.finish := by rw [Root.finish,snapshot]; rfl
    exact .inl ⟨same ▸ window,attempts group ▸ held⟩
  | publish _ _ _ _ _ _ attempts =>
    rw [attempts group] at held
    cases held
  | run _ _ _ same attempts => exact .inl ⟨same.finish ▸ window,attempts group ▸ held⟩
  | reserve f id a calls current slot forward charged same reserved others =>
    by_cases own : group = id
    · subst own
      rw [reserved] at held
      cases held
      refine .inr ⟨window,reserved,?_,by simp [charged.top]⟩
      rcases slot with ⟨-,free⟩|⟨two,mine⟩
      · simp [free]
      · simp [mine,two]
    · exact .inl ⟨same.finish ▸ window,others group own ▸ held⟩

theorem runPays {run} (move : Move setup nonces root next) (held : run ∈ next.investigations.keys) :
    run ∈ root.investigations.keys ∨ Pays setup root next (.investigation run) := by
  by_cases known : run ∈ root.investigations.keys
  · exact .inl known
  cases move with
  | keep _ _ _ runs => exact absurd (runs run held) known
  | scan _ _ _ _ _ _ _ _ _ _ runs => exact absurd (runs run held) known
  | publish _ _ _ _ _ _ _ _ _ runs => exact absurd (runs run held) known
  | reserve _ _ _ _ _ _ _ _ _ _ _ runs => exact absurd (runs run held) known
  | run id forward charged => exact .inr ⟨held,known,by simp [charged.top]⟩

theorem paysAttempt {f g a u} (pays : Pays setup root next (.model f g a u)) : next.attempt g ≠ root.attempt g :=
  fun same => pays.2.2.1 (same ▸ pays.2.1)

theorem paysRun {r} (pays : Pays setup root next (.investigation r)) : ¬SameRuns root next :=
  fun same => pays.2.1 (same r pays.1)

theorem paysNothing {c} (attempts : SameAttempts root next) (runs : SameRuns root next) : ¬Pays setup root next c := by
  intro pays
  cases c with
  | model f g a u => exact paysAttempt pays (attempts g)
  | investigation r => exact paysRun pays runs

theorem paysOnce {c c'} (move : Move setup nonces root next) (pays : Pays setup root next c)
    (pays' : Pays setup root next c') : c = c' := by
  cases move with
  | keep _ _ attempts runs => exact absurd pays (paysNothing attempts runs)
  | scan _ _ _ _ _ _ _ _ _ attempts runs => exact absurd pays (paysNothing attempts runs)
  | publish _ _ _ _ _ _ attempts _ _ runs =>
    cases c with
    | model f g a u =>
      have held := pays.2.1
      rw [attempts g] at held
      cases held
    | investigation r => exact absurd runs (paysRun pays)
  | reserve f id a calls current slot forward charged same reserved others runs =>
    have only (d : Call) (paid : Pays setup root next d) : ∃ u, d = .model f id a u ∧ callNumber u = calls := by
      cases d with
      | investigation r => exact absurd runs (paysRun paid)
      | model f' g a' u =>
        obtain rfl : g = id := by
          by_contra other
          exact paysAttempt paid (others g other)
        have number := paid.2.1
        rw [reserved] at number
        cases number
        have window := paid.1
        rw [same.finish,current] at window
        cases window
        exact ⟨u,rfl,rfl⟩
    obtain ⟨u,rfl,number⟩ := only c pays
    obtain ⟨u',rfl,number'⟩ := only c' pays'
    rw [callNumberInj (number.trans number'.symm)]
  | run id forward charged same attempts runs =>
    have only (d : Call) (paid : Pays setup root next d) : d = .investigation id := by
      cases d with
      | model f g a u => exact absurd (attempts g) (paysAttempt paid)
      | investigation r => rw [(runs r paid.1).resolve_right paid.2.1]
    rw [only c pays,only c' pays']

section Linked
variable {commits : List (Root E D)} (linked : Linked setup nonces commits)
include linked

theorem paidAt {call} {held : Root E D → Prop} (start : ¬held (.empty 0))
    (made : ∀ root next, Move setup nonces root next → held next → held root ∨ Pays setup root next call)
    (k : Nat) (root : Root E D) (known : commits[k]? = some root) (here : held root) :
    ∃ i ≤ k, ∃ next, commits[i]? = some next ∧ Pays setup (prior commits i) next call := by
  induction k generalizing root with
  | zero =>
    rcases made _ root (linked 0 root known) here with before|pays
    · exact absurd before start
    · exact ⟨0,le_refl _,root,known,pays⟩
  | succ k ih =>
    rcases made _ root (linked _ root known) here with before|pays
    · have inside : k < commits.length := Nat.lt_of_succ_lt (List.getElem?_eq_some_iff.mp known).1
      have earlier := getElem?_eq_getElem inside
      rw [prior,earlier,Option.getD_some] at before
      obtain ⟨i,le,rest⟩ := ih _ earlier before
      exact ⟨i,Nat.le_succ_of_le le,rest⟩
    · exact ⟨k + 1,le_refl _,root,known,pays⟩

theorem backedPaid {call} {n : Nat} (backed : Backed (commits.take n) call) :
    ∃ i < n, ∃ next, commits[i]? = some next ∧ Pays setup (prior commits i) next call := by
  have at_ {root} (member : root ∈ commits.take n) : ∃ k < n, commits[k]? = some root := by
    obtain ⟨k,known⟩ := mem_iff_getElem?.mp member
    have inside : k < n := by
      have := (List.getElem?_eq_some_iff.mp known).1
      rw [length_take] at this
      omega
    rw [getElem?_take_of_lt inside] at known
    exact ⟨k,inside,known⟩
  cases call with
  | model finish group attempt followup =>
    obtain ⟨root,member,window,held⟩ := backed
    obtain ⟨k,inside,known⟩ := at_ member
    obtain ⟨i,le,rest⟩ := paidAt linked (by simp [Root.finish,Root.empty]) (fun _ _ move h => modelPays move h.1 h.2)
      k root known ⟨window,held⟩
    exact ⟨i,lt_of_le_of_lt le inside,rest⟩
  | investigation run =>
    obtain ⟨root,member,held⟩ := backed
    obtain ⟨k,inside,known⟩ := at_ member
    obtain ⟨i,le,rest⟩ := paidAt linked (by simp [Root.empty,Dict.empty,Dict.keys]) (fun _ _ move h => runPays move h)
      k root known held
    exact ⟨i,lt_of_le_of_lt le inside,rest⟩

theorem sameAttempt {finish group a a' u u'} (one : Backed commits (.model finish group a u))
    (two : Backed commits (.model finish group a' u')) : a = a' := by
  obtain ⟨root,member,window,held⟩ := one
  obtain ⟨root',member',window',held'⟩ := two
  obtain ⟨k,known⟩ := mem_iff_getElem?.mp member
  obtain ⟨l,known'⟩ := mem_iff_getElem?.mp member'
  have at_ {k root} (known : commits[k]? = some root) : prior commits (k + 1) = root ∧ k + 1 ≤ commits.length :=
    ⟨by rw [prior,known,Option.getD_some],(List.getElem?_eq_some_iff.mp known).1⟩
  obtain ⟨here,inside⟩ := at_ known
  obtain ⟨here',inside'⟩ := at_ known'
  rcases le_total k l with order|order
  · have later := priorLater linked (Nat.succ_le_succ order) inside'
    rw [here,here'] at later
    obtain ⟨c,kept⟩ := later.attempts (window.trans window'.symm) group _ _ held
    rw [held'] at kept
    cases kept
    rfl
  · have later := priorLater linked (Nat.succ_le_succ order) inside
    rw [here,here'] at later
    obtain ⟨c,kept⟩ := later.attempts (window'.trans window.symm) group _ _ held'
    rw [held] at kept
    cases kept
    rfl

end Linked

def Publishes (commits : List (Root E D)) (i : Nat) (finish : Int) : Prop :=
  ∃ next, commits[i]? = some next ∧ next.snapshot ≠ (prior commits i).snapshot ∧ next.finish = some finish

theorem publishAfter {finish} (wf : Wf setup nonces root) (move : Move setup nonces root next)
    (replaced : next.snapshot ≠ root.snapshot) (window : next.finish = some finish) :
    ∀ f, root.finish = some f → f < finish := by
  cases move with
  | keep _ same => exact absurd same.snapshot replaced
  | scan _ _ _ _ _ _ _ _ snapshot => exact absurd snapshot replaced
  | reserve _ _ _ _ _ _ _ _ same => exact absurd same.snapshot replaced
  | run _ _ _ same => exact absurd same.snapshot replaced
  | publish f claim drawn claimed ledger snapshot =>
    obtain ⟨s,-,own,below⟩ := wf.claimed claim claimed
    cases own.same drawn
    cases snapshot.symm.trans window
    exact below

theorem publishOnce {commits} (linked : Linked setup nonces commits) {i j finish}
    (one : Publishes commits i finish) (two : Publishes commits j finish) : i = j := by
  have ordered {i j : Nat} (one : Publishes commits i finish) (two : Publishes commits j finish) : ¬i < j := by
    intro order
    obtain ⟨root,known,-,window⟩ := one
    obtain ⟨next,known',replaced,window'⟩ := two
    have inside : j ≤ commits.length := (List.getElem?_eq_some_iff.mp known').1.le
    have later := priorLater linked (Nat.succ_le_of_lt order) inside
    rw [show prior commits (i + 1) = root by rw [prior,known,Option.getD_some]] at later
    obtain ⟨g,held,le⟩ := later.window finish window
    exact absurd (publishAfter (priorWf linked j inside) (linked j next known') replaced window' g held) (not_lt.mpr le)
  rcases lt_trichotomy i j with less|same|more
  · exact absurd less (ordered one two)
  · exact same
  · exact absurd more (ordered two one)

end Pulso.Reliability
