import Pulso.PromParts

/-! A rollup row is the summary of its samples: the finalizer's fold over stored doubles and
the evaluator's fold over decoded samples take the same steps. -/
namespace Pulso.MetricTiers
open Pulso.PromQL Pulso.Metric List

namespace Aggregate

def view (a : Aggregate) : Summary where
  count := a.count
  firstTs := a.firstTs
  first := a.first
  lastTs := a.lastTs
  last := a.last
  min := a.min
  max := a.max
  changes := a.changes
  resets := a.resets
  resetValues := a.resetValues.reverse
  zero := (a.count : Int) - 1 - a.resets > 0

structure Sound (a : Aggregate) : Prop where
  some : a.resets < a.count
  last : a.last = ofBits a.lastBits
  listed : a.resetValues.length = a.resets

theorem pushMin (value least : Number) :
    (if value ≠ .nan ∧ (least = .nan ∨ value.less least = true) then value else least) = value.min least := by
  by_cases none : value = .nan
  · subst none
    rfl
  by_cases fresh : least = .nan
  · subst fresh
    rw [Number.minNan,if_pos ⟨none,.inl rfl⟩]
  · rw [Number.minOf none fresh,Number.lessRank none fresh]
    simp [none,fresh]

theorem equalRank {a b : Number} (ha : a ≠ .nan) (hb : b ≠ .nan) : a.equal b = decide (a.rank = b.rank) := by
  cases a with
  | nan => exact absurd rfl ha
  | infinity => cases b <;> first | exact absurd rfl hb | simp [Number.equal,Number.rank]
  | negativeInfinity => cases b <;> first | exact absurd rfl hb | simp [Number.equal,Number.rank]
  | float x => cases b <;> first | exact absurd rfl hb | simp [Number.equal,Number.rank,Binary64.Finite.equal]

theorem pushMax (value greatest : Number) :
    (if value ≠ .nan ∧ (greatest = .nan ∨ greatest.less value = true ∨ greatest.equal value = true) then value else greatest) =
      value.max greatest := by
  by_cases none : value = .nan
  · subst none
    rfl
  by_cases fresh : greatest = .nan
  · subst fresh
    rw [Number.maxNan,if_pos ⟨none,.inl rfl⟩]
  rw [Number.maxOf none fresh,Number.lessRank fresh none,equalRank fresh none]
  have choice : (greatest.rank < value.rank ∨ greatest.rank = value.rank) ↔ ¬value.rank < greatest.rank := by
    rw [not_lt]
    exact le_iff_lt_or_eq.symm
  simp only [none,fresh,ne_eq,not_false_eq_true,true_and,false_or,decide_eq_true_eq,choice]
  by_cases below : value.rank < greatest.rank <;> simp [below]

theorem changedEq (a b : Number) : (!(a.equal b || (a = .nan && b = .nan))) = a.changed b := by
  cases a <;> cases b <;> simp [Number.changed,Number.equal]

theorem transitionEq (a : Aggregate) (value : Number) : a.transition value = { a with
    changes := a.changes + (a.last.changed value).toNat
    resets := a.resets + (a.last.resets value).toNat
    resetValues := a.resetValues ++ (if a.last.resets value then [a.last] else [])
    flags := { a.flags with negativeZeroReset :=
      a.flags.negativeZeroReset || (a.last.resets value && a.lastBits = negativeZeroBits) } } := by
  unfold transition Number.resets
  rw [changedEq]
  have flagged : (if a.lastBits = negativeZeroBits then { a.flags with negativeZeroReset := true } else a.flags) =
      { a.flags with negativeZeroReset := a.flags.negativeZeroReset || decide (a.lastBits = negativeZeroBits) } := by
    split <;> simp [*]
  cases a.last.changed value <;> cases h : value.less a.last <;> simp [h,flagged]

theorem pushFirst (a : Aggregate) (h : a.count = 0) (ts : Int) (value : Number) (bits : UInt64) :
    a.push ts value bits = { a with
      firstTs := ts, first := value, min := value.min a.min, max := value.max a.max, count := 1
      lastTs := ts, last := value, lastBits := bits } := by
  unfold push
  simp only [h,if_true,pushMin,pushMax]

theorem pushNext (a : Aggregate) (h : a.count ≠ 0) (ts : Int) (value : Number) (bits : UInt64) :
    a.push ts value bits = { a.transition value with
      min := value.min a.min, max := value.max a.max, count := a.count + 1
      lastTs := ts, last := value, lastBits := bits } := by
  have same : (a.transition value).min = a.min ∧ (a.transition value).max = a.max ∧ (a.transition value).count = a.count := by
    rw [transitionEq]
    exact ⟨rfl,rfl,rfl⟩
  unfold push
  simp only [h,if_false,pushMin,pushMax,same]

def pushBits (a : Aggregate) (sample : Int × UInt64) : Aggregate := a.push sample.1 (ofBits sample.2) sample.2

def decoded (sample : Int × UInt64) : Sample := ⟨sample.1,ofBits sample.2⟩

theorem newPush (series : Nat) (seriesId bucket : Int) (sample : Int × UInt64) :
    let a := (new series seriesId bucket).pushBits sample
    a.Sound ∧ a.view = .ofSample (decoded sample) ∧ a.flags = .none := by
  unfold pushBits
  rw [pushFirst _ rfl]
  exact ⟨⟨Nat.zero_lt_one,rfl,rfl⟩,rfl,rfl⟩

variable {a : Aggregate}

theorem pushSound (h : a.Sound) (sample : Int × UInt64) : (a.pushBits sample).Sound := by
  have some := h.some
  unfold pushBits
  rw [pushNext a (by omega),transitionEq]
  refine ⟨?_,rfl,?_⟩
  · have := Bool.toNat_le (a.last.resets (ofBits sample.2))
    simp only
    omega
  · simp only [length_append,h.listed]
    cases a.last.resets (ofBits sample.2) <;> rfl

theorem pushFlags (h : a.Sound) {sample} (plain : (a.pushBits sample).flags = .none) :
    a.flags = .none ∧ (a.last.resets (ofBits sample.2) && a.last.negativeZero) = false := by
  have some := h.some
  unfold pushBits at plain
  rw [pushNext a (by omega),transitionEq] at plain
  simp only [Flags.none,Flags.mk.injEq,Bool.or_eq_false_iff] at plain
  obtain ⟨histogram,conflict,before,reset⟩ := plain
  refine ⟨?_,?_⟩
  · cases flags : a.flags
    rw [flags] at histogram conflict before
    simp only at histogram conflict before
    rw [histogram,conflict,before]
    rfl
  · have zero : a.last.negativeZero = decide (a.lastBits = negativeZeroBits) := by
      unfold Number.negativeZero
      rw [h.last,decide_eq_decide]
      exact negativeZeroWord a.lastBits
    rw [zero]
    exact reset

theorem pushView (h : a.Sound) {sample} (plain : (a.pushBits sample).flags = .none) :
    a.view.addSample (decoded sample) = .ok (a.pushBits sample).view := by
  have some := h.some
  have steady := (pushFlags h plain).2
  rw [Summary.addSampleJoin,Summary.join]
  have calm : a.view.fallsBack (Summary.ofSample (decoded sample)).first = false := steady
  rw [calm]
  simp only [Bool.false_eq_true,if_false]
  congr 1
  unfold pushBits
  rw [pushNext a (by omega),transitionEq]
  simp only [Summary.joined,view,Summary.ofSample,decoded,Number.minNan,Number.maxNan,Nat.add_zero,nil_append,
    Bool.or_false,reverse_append,Summary.mk.injEq,true_and]
  refine ⟨?_,?_⟩
  · cases a.last.resets (ofBits sample.2) <;> rfl
  cases a.last.resets (ofBits sample.2)
  · simp only [Bool.not_false,Bool.or_true,Bool.toNat_false]
    exact (decide_eq_true (by omega)).symm
  · simp only [Bool.not_true,Bool.or_false,Bool.toNat_true,decide_eq_decide]
    omega

theorem foldView (h : a.Sound) {rest : List (Int × UInt64)} (plain : (rest.foldl pushBits a).flags = .none) :
    (rest.foldl pushBits a).Sound ∧ a.flags = .none ∧
      addSamples a.view (rest.map decoded) = .ok (rest.foldl pushBits a).view := by
  induction rest generalizing a with
  | nil => exact ⟨h,plain,rfl⟩
  | cons sample rest ih =>
    obtain ⟨sound,flags,folded⟩ := ih (pushSound h sample) plain
    refine ⟨sound,(pushFlags h flags).1,?_⟩
    rw [map_cons,addSamples,foldlM_cons,pushView h flags]
    exact folded

end Aggregate
end Pulso.MetricTiers
