import Pulso.PromTiered

/-! Summaries compose: joining the summaries of consecutive parts is the same as folding
all their samples, and a summary of samples gives each function's value of those samples. -/
namespace Pulso.PromQL
open Pulso.Binary64 List
open Pulso.MetricTiers (Rollup)

namespace Summary

def joined (acc part : Summary) : Summary where
  count := acc.count + part.count
  firstTs := acc.firstTs
  first := acc.first
  lastTs := part.lastTs
  last := part.last
  min := part.min.min acc.min
  max := part.max.max acc.max
  changes := acc.changes + (acc.last.changed part.first).toNat + part.changes
  resets := acc.resets + (acc.last.resets part.first).toNat + part.resets
  resetValues := part.resetValues ++ ((if acc.last.resets part.first then [acc.last] else []) ++ acc.resetValues)
  zero := acc.zero || !acc.last.resets part.first || part.zero

def fallsBack (acc : Summary) (value : Number) : Bool := acc.last.resets value && acc.last.negativeZero

def join (acc part : Summary) : Except Stop Summary :=
  if acc.fallsBack part.first then .error .fallback else .ok (acc.joined part)

theorem transitionEq (acc : Summary) (value : Number) : acc.transition value =
    if acc.fallsBack value then .error .fallback else .ok { acc with
      changes := acc.changes + (acc.last.changed value).toNat
      resets := acc.resets + (acc.last.resets value).toNat
      resetValues := (if acc.last.resets value then [acc.last] else []) ++ acc.resetValues
      zero := acc.zero || !acc.last.resets value } := by
  have count : (if acc.last.changed value = true then acc.changes + 1 else acc.changes) =
      acc.changes + (acc.last.changed value).toNat := by
    cases acc.last.changed value <;> rfl
  unfold transition fallsBack
  simp only [count]
  cases acc.last.resets value <;> cases acc.last.negativeZero <;> simp

theorem addSampleJoin (acc : Summary) (s : Sample) : acc.addSample s = acc.join (ofSample s) := by
  unfold addSample join
  rw [transitionEq]
  by_cases falls : acc.fallsBack s.value = true
  · simp [ofSample,falls,bind,Except.bind]
  · simp [ofSample,joined,falls,bind,Except.bind,Number.minNan,Number.maxNan]

theorem addRollupJoin (acc : Summary) (r : Rollup) : acc.addRollup r = acc.join (ofRollup r) := by
  unfold addRollup join
  rw [transitionEq]
  by_cases falls : acc.fallsBack r.first = true
  · simp [ofRollup,falls,bind,Except.bind]
  · simp [ofRollup,joined,falls,bind,Except.bind]

theorem joinedAssoc (a b c : Summary) : (a.joined b).joined c = a.joined (b.joined c) := by
  unfold joined
  simp only [Number.minAssoc,Number.maxAssoc,append_assoc,Bool.or_assoc,Nat.add_assoc]

theorem joinAssoc (a b c : Summary) : (do (← a.join b).join c) = (do a.join (← b.join c)) := by
  have first : (a.joined b).fallsBack c.first = b.fallsBack c.first := rfl
  have second : a.fallsBack (b.joined c).first = a.fallsBack b.first := rfl
  unfold join
  by_cases left : a.fallsBack b.first = true <;> by_cases right : b.fallsBack c.first = true <;>
    simp [left,right,first,second,bind,Except.bind,joinedAssoc]

end Summary

def addTierSample (acc : Option Summary) (s : Sample) : Except Stop (Option Summary) := addTierItem acc (.sample s)

def addSamples (acc : Summary) (samples : List Sample) : Except Stop Summary := samples.foldlM Summary.addSample acc

theorem addSamplesJoin (acc part : Summary) (samples : List Sample) :
    (do addSamples (← acc.join part) samples) = (do acc.join (← addSamples part samples)) := by
  induction samples generalizing part with
  | nil =>
    simp only [addSamples,foldlM_nil,bind_pure,pure_bind]
  | cons s samples ih =>
    have grouped : ∀ p : Summary, addSamples p (s::samples) = (do addSamples (← p.join (.ofSample s)) samples) := by
      intro p
      rw [addSamples,foldlM_cons,Summary.addSampleJoin]
      rfl
    calc (do addSamples (← acc.join part) (s::samples))
        = (do addSamples (← (do (← acc.join part).join (.ofSample s))) samples) := by
          simp only [grouped,bind_assoc]
      _ = (do addSamples (← (do acc.join (← part.join (.ofSample s)))) samples) := by rw [Summary.joinAssoc]
      _ = (do acc.join (← (do addSamples (← part.join (.ofSample s)) samples))) := by
          simp only [bind_assoc]
          congr 1
          funext p
          exact ih p
      _ = (do acc.join (← addSamples part (s::samples))) := by rw [grouped]

theorem addSamplesCons (acc : Summary) (s : Sample) (samples : List Sample) :
    addSamples acc (s::samples) = (do acc.join (← addSamples (.ofSample s) samples)) := by
  rw [← addSamplesJoin,addSamples,foldlM_cons,Summary.addSampleJoin]
  rfl

theorem addTierSamples (acc : Summary) (samples : List Sample) :
    samples.foldlM addTierSample (some acc) = (addSamples acc samples).map some := by
  induction samples generalizing acc with
  | nil => rfl
  | cons s samples ih =>
    rw [foldlM_cons,addSamples,foldlM_cons]
    change ((acc.addSample s).map some >>= _) = _
    cases acc.addSample s with
    | error e => rfl
    | ok next => exact ih next

def Item.part : Item → Summary
  | .sample s => .ofSample s
  | .rollup r => .ofRollup r

def Item.Covers (item : Item) (samples : List Sample) : Prop :=
  ∃ s rest, samples = s::rest ∧ addSamples (.ofSample s) rest = .ok item.part

theorem addTierItemJoin (acc : Summary) (item : Item) : addTierItem (some acc) item = (acc.join item.part).map some := by
  cases item with
  | sample s => exact congrArg (Except.map some) (Summary.addSampleJoin acc s)
  | rollup r => exact congrArg (Except.map some) (Summary.addRollupJoin acc r)

theorem itemSamples {item samples} (covers : item.Covers samples) (acc : Option Summary) :
    addTierItem acc item = samples.foldlM addTierSample acc := by
  obtain ⟨s,rest,rfl,parts⟩ := covers
  cases acc with
  | none =>
    have first : addTierSample none s = .ok (some (.ofSample s)) := rfl
    have held : addTierItem none item = .ok (some item.part) := by cases item <;> rfl
    rw [foldlM_cons,first,held]
    exact ((addTierSamples _ rest).trans (congrArg _ parts)).symm
  | some acc => rw [addTierSamples,addSamplesCons,parts,addTierItemJoin]; rfl

theorem itemsSamples (items : List Item) (samplesOf : Item → List Sample)
    (covers : ∀ item ∈ items, item.Covers (samplesOf item)) (acc : Option Summary) :
    items.foldlM addTierItem acc = (items.flatMap samplesOf).foldlM addTierSample acc := by
  induction items generalizing acc with
  | nil => rfl
  | cons item items ih =>
    rw [foldlM_cons,flatMap_cons,foldlM_append,itemSamples (covers item mem_cons_self)]
    congr 1
    funext next
    exact ih (forall_mem_cons.mp covers).2 next

def transitions (op : Op) : Number → List Sample → Nat
  | _,[] => 0
  | previous,s::rest => (counted op previous s.value).toNat + transitions op s.value rest

def Summary.corrected (s : Summary) (change : Number) : Number :=
  let added := s.resetValues.reverse.foldl Number.add change
  if s.zero then added.settled else added

structure Summary.Follows (acc : Summary) (rest : List Sample) (s : Summary) : Prop where
  count : s.count = acc.count + rest.length
  first : s.firstTs = acc.firstTs ∧ s.first = acc.first
  last : (⟨s.lastTs,s.last⟩ : Sample) = (⟨acc.lastTs,acc.last⟩::rest).getLast (List.cons_ne_nil _ _)
  min : s.min = rest.foldl (fun m x => x.value.min m) acc.min
  max : s.max = rest.foldl (fun m x => x.value.max m) acc.max
  changes : s.changes = acc.changes + transitions .changes acc.last rest
  resets : s.resets = acc.resets + transitions .resets acc.last rest
  corrected : ∀ op change, op ≠ .delta → s.corrected change = (rest.foldl (correct op) (acc.corrected change,acc.last)).1

theorem Summary.correctedJoined {acc : Summary} {x} (steady : acc.fallsBack x.value = false) {op}
    (other : op ≠ .delta) (change : Number) :
    ((acc.joined (.ofSample x)).corrected change,x.value) = correct op (acc.corrected change,acc.last) x := by
  have listed : (acc.joined (.ofSample x)).resetValues = (if acc.last.resets x.value then [acc.last] else []) ++ acc.resetValues := rfl
  have flag : (acc.joined (.ofSample x)).zero = (acc.zero || !acc.last.resets x.value) := Bool.or_false _
  unfold corrected correct
  rw [listed,flag]
  unfold Number.resets
  cases reset : x.value.less acc.last with
  | false =>
    simp only [Bool.false_eq_true,if_false,nil_append,Bool.not_false,Bool.or_true,if_true,and_false,Prod.mk.injEq,
      and_true]
    split
    · exact (Number.settledTwice _).symm
    · rfl
  | true =>
    have signed : acc.last ≠ .float .negZero := by
      intro same
      unfold fallsBack Number.resets at steady
      rw [reset,same] at steady
      exact absurd steady (by decide)
    simp only [other,if_true,reverse_cons,foldl_append,Bool.not_true,Bool.or_false,ne_eq,not_false_eq_true,
      Prod.mk.injEq,and_true,singleton_append,foldl_cons,foldl_nil]
    split
    · rw [Number.addSettled _ signed,Number.settledAdd _ signed]
    · rfl

variable {rest : List Sample}

theorem Summary.follows {acc s : Summary} (h : addSamples acc rest = .ok s) : acc.Follows rest s := by
  induction rest generalizing acc with
  | nil =>
    cases h
    exact ⟨rfl,⟨rfl,rfl⟩,rfl,rfl,rfl,rfl,rfl,fun _ _ _ => rfl⟩
  | cons x rest ih =>
    rw [addSamples,foldlM_cons,addSampleJoin,join] at h
    split at h
    · cases h
    rename_i steady
    have steady := Bool.eq_false_iff.mpr steady
    have tail := ih h
    exact {
      count := by
        rw [tail.count,length_cons]
        change acc.count + 1 + rest.length = _
        omega
      first := tail.first
      last := tail.last
      min := by
        rw [tail.min,foldl_cons]
        change rest.foldl _ ((x.value.min .nan).min acc.min) = _
        rw [Number.minNan]
      max := by
        rw [tail.max,foldl_cons]
        change rest.foldl _ ((x.value.max .nan).max acc.max) = _
        rw [Number.maxNan]
      changes := by
        rw [tail.changes,transitions]
        change acc.changes + (acc.last.changed x.value).toNat + 0 + _ = _ + ((acc.last.changed x.value).toNat + _)
        rw [Nat.add_zero,Nat.add_assoc]
        rfl
      resets := by
        rw [tail.resets,transitions]
        change acc.resets + (acc.last.resets x.value).toNat + 0 + _ = _ + ((acc.last.resets x.value).toNat + _)
        rw [Nat.add_zero,Nat.add_assoc]
        rfl
      corrected := by
        intro op change other
        rw [tail.corrected op change other,foldl_cons,← correctedJoined steady other]
        rfl }

theorem oneFloat : Finite.ofInt 1 = some one := by decide +kernel

theorem zeroFloat : Finite.ofInt 0 = some .zero := by decide +kernel

theorem countExact (op : Op) (rest : List Sample) (previous : Number) {n x} (few : n + rest.length < 2^53)
    (here : Finite.ofInt n = some x) : ∃ y last, rest.foldlM (countTransition op) (x,previous) = .ok (y,last) ∧
      Finite.ofInt (n + transitions op previous rest : Nat) = some y := by
  induction rest generalizing n x previous with
  | nil => exact ⟨x,previous,rfl,here⟩
  | cons s rest ih =>
    rw [length_cons] at few
    have small : n < 2^53 := by omega
    rw [foldlM_cons,countTransition,transitions]
    cases counted op previous s.value with
    | true =>
      obtain ⟨y,next,-,-⟩ := Finite.ofNat (n := n + 1) (by omega)
      obtain ⟨z,last,folded,total⟩ := ih s.value (by omega) next
      have sum : x.add one = some y := (Finite.addOne small here oneFloat).trans next
      refine ⟨z,last,?_,?_⟩
      · simp only [if_true,sum]
        exact folded
      · rw [← total,Bool.toNat_true,Nat.add_assoc]
    | false =>
      obtain ⟨y,same,-,signed⟩ := Finite.ofNat small
      cases Option.some.inj (same.symm.trans here)
      obtain ⟨z,last,folded,total⟩ := ih s.value (by omega) here
      have sum : x.add .zero = some x := by rw [Finite.addZero,if_neg signed]
      refine ⟨z,last,?_,?_⟩
      · simp only [Bool.false_eq_true,if_false,sum]
        exact folded
      · rw [← total,Bool.toNat_false,Nat.zero_add]

theorem countFloat (op : Op) {previous} (few : rest.length < 2^53) :
    (do let (count,_) ← rest.foldlM (countTransition op) (.zero,previous); .ok (some (.float count))) =
      (toFloat (transitions op previous rest)).map some := by
  obtain ⟨y,last,folded,total⟩ := countExact (n := 0) op rest previous (by omega) zeroFloat
  rw [folded,toFloat]
  rw [Nat.zero_add] at total
  rw [total]
  rfl

theorem deltaChange (change previous : Number) (some : rest ≠ []) :
    (rest.foldl (correct .delta) (change,previous)).1 = change.settled := by
  induction rest generalizing change previous with
  | nil => exact absurd rfl some
  | cons s rest ih =>
    rw [foldl_cons]
    have step : correct .delta (change,previous) s = (change.settled,s.value) := by simp [correct,Number.settled]
    rw [step]
    cases rest with
    | nil => rfl
    | cons t rest => rw [ih _ _ (cons_ne_nil t rest),Number.settledTwice]

theorem changeRaw (op : Op) {first s} (some : rest ≠ []) (h : (Summary.ofSample first).Follows rest s) : s.change op =
      (rest.foldl (correct op) (s.last.subtract first.value,first.value)).1 := by
  have start : s.first = first.value := h.first.2
  unfold Summary.change
  simp only [start]
  split
  · rename_i delta
    rw [delta,deltaChange _ _ some]
    rfl
  · rename_i other
    exact h.corrected op _ other

theorem tierValueRaw (op : Op) {samples} (few : samples.length ≤ 2^53) {summary}
    (h : samples.foldlM addTierSample none = .ok summary) (start finish : Int) :
    tierValue op summary start finish = value op samples start finish := by
  cases samples with
  | nil =>
    cases h
    rfl
  | cons first rest =>
    rw [length_cons] at few
    change rest.foldlM addTierSample (some (.ofSample first)) = _ at h
    rw [addTierSamples] at h
    cases added : addSamples (.ofSample first) rest with
    | error e =>
      rw [added] at h
      cases h
    | ok s =>
      rw [added] at h
      cases h
      have whole := Summary.follows added
      have count : s.count = rest.length + 1 := by rw [whole.count,Nat.add_comm]; rfl
      have last := whole.last
      have extrapolated : ∀ op, rest ≠ [] →
          extrapolate op (s.change op) ⟨s.firstTs,s.first⟩ ⟨s.lastTs,s.last⟩ s.count start finish =
            extrapolatedChange op first rest start finish := by
        intro op some
        have begin : (⟨s.firstTs,s.first⟩ : Sample) = first := by rw [whole.first.1,whole.first.2]; rfl
        have change := changeRaw op some whole
        have ending : s.last = ((first::rest).getLast (cons_ne_nil _ _)).value := congrArg Sample.value last
        rw [begin,count,last,change,ending]
        rfl
      have single : s.count < 2 ↔ rest = [] := by
        rw [count,← length_eq_zero_iff]
        omega
      cases op with
      | countOverTime => exact congrArg (fun n => (toFloat n).map some) count
      | presentOverTime => rfl
      | firstOverTime => exact congrArg (fun v => Except.ok (some v)) whole.first.2
      | lastOverTime => exact congrArg (fun x : Sample => Except.ok (some x.value)) last
      | minOverTime => exact congrArg (fun v => Except.ok (some v)) whole.min
      | maxOverTime => exact congrArg (fun v => Except.ok (some v)) whole.max
      | changes => 
        refine Eq.trans ?_ (countFloat .changes (by omega)).symm
        exact congrArg (fun n => (toFloat n).map some) (whole.changes.trans (Nat.zero_add _))
      | resets => 
        refine Eq.trans ?_ (countFloat .resets (by omega)).symm
        exact congrArg (fun n => (toFloat n).map some) (whole.resets.trans (Nat.zero_add _))
      | rate | increase | delta =>
        unfold tierValue value
        simp only [single]
        split
        · rfl
        · rename_i some
          rw [extrapolated _ some]

end Pulso.PromQL
