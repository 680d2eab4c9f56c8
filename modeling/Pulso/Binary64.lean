import Mathlib.Algebra.Order.Ring.Int
import Mathlib.Tactic.Ring

/-! Finite binary64 numbers and their arithmetic. Every finite number is a whole multiple of
the smallest positive one, so sums, products and quotients are exact until they are rounded. -/
namespace Pulso.Binary64

/- The bits without the sign, and the sign. The largest exponent is kept for what is not finite. -/
structure Finite where
  negative : Bool
  magnitude : Nat
  finite : magnitude < 2047 * 2^52
  deriving DecidableEq

def units (m : Nat) : Nat := if m < 2^52 then m else (2^52 + m % 2^52) * 2^(m / 2^52 - 1)

/- The magnitude nearest to `n / d` units, the even one of two. -/
def nearest (n d : Nat) : Nat :=
  let shift := (n / d).log2 - 52
  let whole := d * 2^shift
  let q := n / whole
  let r := n % whole
  shift * 2^52 + if 2 * r > whole ∨ 2 * r = whole ∧ q % 2 = 1 then q + 1 else q

-- the units of the number one
@[irreducible] def unitExponent : Nat := 1074
def scale : Nat := 2^unitExponent

-- none where the result is too large
def pack (negative : Bool) (magnitude : Nat) : Option Finite :=
  if h : magnitude < 2047 * 2^52 then some ⟨negative,magnitude,h⟩ else none

namespace Finite

def zero : Finite := ⟨false,0,by decide⟩
def negZero : Finite := ⟨true,0,by decide⟩

def value (x : Finite) : Int := if x.negative then -(units x.magnitude : Int) else units x.magnitude

def less (x y : Finite) : Bool := x.value < y.value
def equal (x y : Finite) : Bool := x.value = y.value
def neg (x : Finite) : Finite := { x with negative := !x.negative }

def add (x y : Finite) : Option Finite :=
  let sum := x.value + y.value
  if sum = 0 then some (if x.negative && y.negative then negZero else zero)
  else pack (sum < 0) (nearest sum.natAbs 1)

def mul (x y : Finite) : Option Finite :=
  pack (x.negative != y.negative) (nearest (units x.magnitude * units y.magnitude) scale)

def div (x y : Finite) : Option Finite :=
  if y.magnitude = 0 then none
  else pack (x.negative != y.negative) (nearest (units x.magnitude * scale) (units y.magnitude))

def ofInt (n : Int) : Option Finite := pack (n < 0) (nearest (n.natAbs * scale) 1)

end Finite

theorem unitsZero {m} (h : units m = 0) : m = 0 := by
  unfold units at h
  split at h
  · exact h
  · have := Nat.pos_of_ne_zero (Nat.pow_pos (n := m / 2^52 - 1) (show 0 < 2 by decide)).ne'
    rcases Nat.mul_eq_zero.mp h with zero | zero <;> omega

theorem nearestExact {q shift} (low : 2^52 ≤ q) (high : q < 2^53) : nearest (q * 2^shift) 1 = shift * 2^52 + q := by
  have log : (q * 2^shift).log2 = 52 + shift := by
    rw [Nat.log2_eq_iff (Nat.mul_pos (by omega) (Nat.pow_pos (by decide))).ne']
    constructor
    · rw [Nat.pow_add]
      exact Nat.mul_le_mul_right _ low
    · rw [Nat.add_right_comm,Nat.pow_add]
      exact Nat.mul_lt_mul_of_pos_right high (Nat.pow_pos (by decide))
  have pos : 0 < 2^shift := Nat.pow_pos (by decide)
  unfold nearest
  simp only [Nat.div_one,log,Nat.add_sub_cancel_left,Nat.one_mul,Nat.mul_div_cancel _ pos,Nat.mul_mod_left]
  rw [if_neg]
  omega

theorem nearestSmall {n} (h : n < 2^53) : nearest n 1 = n := by
  have log : n.log2 - 52 = 0 := by
    by_cases zero : n = 0
    · subst zero
      rfl
    · have := (Nat.log2_lt zero).mpr h
      omega
  unfold nearest
  simp only [Nat.div_one,log,Nat.pow_zero,Nat.mul_one,Nat.mod_one]
  rw [if_neg (by omega)]
  omega

theorem nearestUnits (m : Nat) : nearest (units m) 1 = m := by
  unfold units
  split
  · rename_i small
    exact nearestSmall (by omega)
  rename_i large
  rw [nearestExact (by omega) (by omega)]
  omega

theorem nearestPos {n} (h : 0 < n) : 0 < nearest n 1 := by
  by_cases small : n < 2^53
  · rwa [nearestSmall small]
  have log := (Nat.le_log2 h.ne').mpr (Nat.le_of_not_lt small)
  unfold nearest
  simp only [Nat.div_one]
  exact Nat.add_pos_left (by omega) _

theorem unitsExact {q shift} (low : 2^52 ≤ q) (high : q < 2^53) : units (shift * 2^52 + q) = q * 2^shift := by
  have exponent : (shift * 2^52 + q) / 2^52 - 1 = shift := by omega
  have fraction : 2^52 + (shift * 2^52 + q) % 2^52 = q := by omega
  unfold units
  rw [if_neg (by omega),exponent,fraction]

theorem scalePos : 0 < scale := Nat.two_pow_pos unitExponent

theorem scaled (n : Nat) (small : n.log2 < 53) : n * scale = n * 2^(52 - n.log2) * 2^(n.log2 + 1022) := by
  have exponent : 52 - n.log2 + (n.log2 + 1022) = unitExponent := by
    rw [unitExponent]
    omega
  rw [Nat.mul_assoc,← Nat.pow_add,exponent]
  rfl

theorem unitsWhole {n} (h : n < 2^53) :
    units (nearest (n * scale) 1) = n * scale ∧ nearest (n * scale) 1 < 2047 * 2^52 := by
  by_cases zero : n = 0
  · subst zero
    rw [Nat.zero_mul]
    exact ⟨by decide,by decide⟩
  have below := (Nat.log2_lt zero).mpr h
  have normal : ∀ j k, j + (52 - n.log2) = k → 2^k = 2^j * 2^(52 - n.log2) := by
    rintro j k rfl
    exact Nat.pow_add 2 j _
  have low : 2^52 ≤ n * 2^(52 - n.log2) := by
    rw [normal n.log2 52 (by omega)]
    exact Nat.mul_le_mul_right _ (Nat.log2_self_le zero)
  have high : n * 2^(52 - n.log2) < 2^53 := by
    rw [normal (n.log2 + 1) 53 (by omega)]
    exact Nat.mul_lt_mul_of_pos_right Nat.lt_log2_self (Nat.pow_pos (by decide))
  rw [scaled n below,nearestExact low high]
  exact ⟨unitsExact low high,by omega⟩

namespace Finite

theorem valueZero {x} (h : x.value = 0) : x = zero ∨ x = negZero := by
  obtain ⟨negative,magnitude,finite⟩ := x
  have none : magnitude = 0 := by
    apply unitsZero
    unfold value at h
    split at h <;> simp only at h <;> omega
  subst none
  cases negative
  · exact .inl rfl
  · exact .inr rfl

theorem packUnits (x : Finite) (h : x.value ≠ 0) : pack (x.value < 0) (nearest x.value.natAbs 1) = some x := by
  obtain ⟨negative,magnitude,finite⟩ := x
  have size : (value ⟨negative,magnitude,finite⟩).natAbs = units magnitude := by
    unfold value
    split <;> simp only <;> omega
  have sign : decide (value ⟨negative,magnitude,finite⟩ < 0) = negative := by
    unfold value at h ⊢
    cases negative
    · simp only [Bool.false_eq_true,if_false,decide_eq_false_iff_not]
      omega
    · simp only [if_true,decide_eq_true_eq] at h ⊢
      omega
  rw [size,sign,nearestUnits,pack,dif_pos finite]

theorem addZero (x : Finite) : x.add zero = some (if x = negZero then zero else x) := by
  have sum : x.value + zero.value = x.value := Int.add_zero _
  unfold add
  simp only [sum]
  by_cases none : x.value = 0
  · rw [if_pos none]
    rcases valueZero none with rfl | rfl <;> rfl
  · have other : x ≠ negZero := fun same => none (same ▸ rfl)
    rw [if_neg none,if_neg other,packUnits x none]

theorem zeroAdd (x : Finite) : zero.add x = some (if x = negZero then zero else x) := by
  rw [← addZero]
  simp only [add,Int.add_comm zero.value,Bool.and_comm zero.negative]

theorem zerosAdd {r} (h : r ≠ negZero) : negZero.add r = zero.add r := by
  have values : negZero.value = zero.value := rfl
  unfold add
  simp only [values]
  split
  · rename_i none
    have : r.value = 0 := by
      rw [← none]
      exact (Int.zero_add _).symm
    rcases valueZero this with rfl | rfl
    · rfl
    · exact absurd rfl h
  · rfl

theorem addNotNegZero {x r s : Finite} (sum : x.add r = some s) (h : r ≠ negZero) : s ≠ negZero := by
  rintro rfl
  unfold add at sum
  simp only at sum
  split at sum
  · rename_i none
    split at sum
    · rename_i both
      rw [Bool.and_eq_true] at both
      have signs : x.value ≤ 0 ∧ r.value ≤ 0 := by
        simp only [value,both,if_true]
        omega
      have : r.value = 0 := by omega
      rcases valueZero this with rfl | rfl
      · exact absurd both.2 (by decide)
      · exact h rfl
    · exact absurd sum (by decide)
  · rename_i some
    unfold pack at sum
    split at sum
    · have pos : 0 < nearest (x.value + r.value).natAbs 1 := nearestPos (by omega)
      have := congrArg magnitude (Option.some.inj sum)
      change nearest (x.value + r.value).natAbs 1 = 0 at this
      omega
    · cases sum

theorem ofNat {n : Nat} (h : n < 2^53) : ∃ x, ofInt n = some x ∧ x.value = n * scale ∧ x ≠ negZero := by
  obtain ⟨exact,fits⟩ := unitsWhole h
  refine ⟨⟨false,nearest (n * scale) 1,fits⟩,?_,?_,?_⟩
  · unfold ofInt pack
    have sign : decide ((n : Int) < 0) = false := decide_eq_false (by omega)
    rw [Int.natAbs_natCast,dif_pos fits,sign]
  · simp only [value,Bool.false_eq_true,if_false,exact]
    push_cast
    ring
  · intro same
    cases congrArg negative same

theorem addOne {n : Nat} (h : n < 2^53) {x one} (counted : ofInt n = some x) (unit : ofInt 1 = some one) :
    x.add one = ofInt (n + 1 : Nat) := by
  obtain ⟨y,same,value,-⟩ := ofNat h
  obtain ⟨z,first,step,-⟩ := ofNat (n := 1) (by decide)
  cases Option.some.inj (same.symm.trans counted)
  cases Option.some.inj (first.symm.trans unit)
  have sum : x.value + one.value = ((n + 1) * scale : Nat) := by
    rw [value,step]
    push_cast
    ring
  have some : x.value + one.value ≠ 0 := by
    rw [sum]
    exact Int.natCast_ne_zero.mpr (Nat.mul_pos (Nat.succ_pos n) scalePos).ne'
  have sign : ∀ k : Nat, decide ((k : Int) < 0) = false := fun k => decide_eq_false (Int.not_lt.mpr (Int.natCast_nonneg k))
  unfold add ofInt
  rw [if_neg some,sum,Int.natAbs_natCast,Int.natAbs_natCast,sign,sign]

end Finite
end Pulso.Binary64
