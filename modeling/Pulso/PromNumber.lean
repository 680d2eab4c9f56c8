import Mathlib.Data.Int.ConditionallyCompleteOrder
import Mathlib.Order.ConditionallyCompleteLattice.Basic
import Mathlib.Tactic.Order
import Pulso.Binary64

/-! Sample values of a query: doubles, with one NaN and the infinities apart. The native side
compares the stored doubles, the evaluator the decoded values; both orders agree. -/
namespace Pulso.PromQL
open Pulso.Binary64

inductive Number
  | nan | infinity | negativeInfinity
  | float (x : Finite)
  deriving DecidableEq

namespace Number

def negate : Number → Number
  | .nan => .nan
  | .infinity => .negativeInfinity
  | .negativeInfinity => .infinity
  | .float x => .float x.neg

def unbounded (negative : Bool) : Number := if negative then .negativeInfinity else .infinity

-- an arithmetic error of the runtime is an overflow
def finite (result : Option Finite) (negative : Bool) : Number := (result.map .float).getD (unbounded negative)

def add : Number → Number → Number
  | .nan,_ => .nan
  | _,.nan => .nan
  | .infinity,.negativeInfinity => .nan
  | .negativeInfinity,.infinity => .nan
  | .infinity,_ => .infinity
  | _,.infinity => .infinity
  | .negativeInfinity,_ => .negativeInfinity
  | _,.negativeInfinity => .negativeInfinity
  | .float a,.float b => finite (a.add b) a.negative

def subtract (a b : Number) : Number := a.add b.negate

def zero : Number := .float .zero

def isNegative : Number → Bool
  | .negativeInfinity => true
  | .float x => x.negative
  | _ => false

def isZero : Number → Bool
  | .float x => x.magnitude = 0
  | _ => false

def multiply : Number → Number → Number
  | .nan,_ => .nan
  | _,.nan => .nan
  | .float a,.float b => finite (a.mul b) (a.negative != b.negative)
  | a,b => if a.isZero || b.isZero then .nan else unbounded (a.isNegative != b.isNegative)

def less : Number → Number → Bool
  | .nan,_ => false
  | _,.nan => false
  | .negativeInfinity,b => b ≠ .negativeInfinity
  | a,.infinity => a ≠ .infinity
  | .infinity,_ => false
  | _,.negativeInfinity => false
  | .float a,.float b => a.less b

def equal : Number → Number → Bool
  | .nan,_ => false
  | _,.nan => false
  | .float a,.float b => a.equal b
  | a,b => a = b

def min : Number → Number → Number
  | .nan,b => b
  | a,.nan => a
  | a,b => if a.less b then a else b

def max : Number → Number → Number
  | .nan,b => b
  | a,.nan => a
  | a,b => if a.less b then b else a

def negativeZero (a : Number) : Bool := a = .float .negZero

def changed : Number → Number → Bool
  | .nan,.nan => false
  | a,b => !a.equal b

def resets (previous current : Number) : Bool := current.less previous

-- adding zero, which only turns a negative zero around
def settled (a : Number) : Number := a.add zero

theorem settledFloat (x : Finite) : settled (.float x) = .float (if x = .negZero then .zero else x) := by
  simp only [settled,zero,add,finite,Finite.addZero,Option.map_some,Option.getD_some]

theorem settledOther {a : Number} (h : a ≠ .float .negZero) : a.settled = a := by
  cases a with
  | float x =>
    have other : x ≠ .negZero := by
      rintro rfl
      exact h rfl
    rw [settledFloat,if_neg other]
  | _ => rfl

variable (a : Number)

theorem settledNot : a.settled ≠ .float .negZero := by
  cases a with
  | float x =>
    rw [settledFloat]
    split
    · decide
    rename_i other
    intro same
    exact other (Number.float.inj same)
  | _ => exact Number.noConfusion

theorem settledTwice : a.settled.settled = a.settled := settledOther a.settledNot

theorem settledAdd {r : Number} (h : r ≠ .float .negZero) : a.settled.add r = a.add r := by
  by_cases other : a = .float .negZero
  · subst other
    cases r with
    | float y =>
      have apart : y ≠ .negZero := by
        rintro rfl
        exact h rfl
      rw [settledFloat,if_pos rfl,add,add,Finite.zerosAdd apart,Finite.zeroAdd]
      rfl
    | _ => rfl
  · rw [settledOther other]

theorem addSettled {r : Number} (h : r ≠ .float .negZero) : (a.add r).settled = a.add r := by
  apply settledOther
  intro same
  cases a with
  | float x =>
    cases r with
    | float y =>
      have apart : y ≠ .negZero := by
        rintro rfl
        exact h rfl
      rw [add,finite] at same
      cases sum : x.add y with
      | none =>
        rw [sum] at same
        revert same
        cases x.negative <;> exact Number.noConfusion
      | some s =>
        rw [sum] at same
        exact Finite.addNotNegZero sum apart (Number.float.inj same)
    | _ => exact Number.noConfusion same
  | _ => cases r <;> exact Number.noConfusion same

def rank : Number → WithBot (WithTop Int)
  | .infinity => (⊤ : WithTop Int)
  | .float x => (x.value : WithTop Int)
  | _ => ⊥

theorem lessRank {a b : Number} (ha : a ≠ .nan) (hb : b ≠ .nan) : a.less b = decide (a.rank < b.rank) := by
  cases a with
  | nan => exact absurd rfl ha
  | infinity =>
    cases b with
    | nan => exact absurd rfl hb
    | _ => simp [less,rank]
  | negativeInfinity =>
    cases b with
    | nan => exact absurd rfl hb
    | _ => simp [less,rank]
  | float x =>
    cases b with
    | nan => exact absurd rfl hb
    | infinity => exact (decide_eq_true (WithBot.coe_lt_coe.mpr (WithTop.coe_lt_top _))).symm
    | negativeInfinity => simp [less,rank]
    | float y => simp [less,rank,Finite.less]

theorem minNan : a.min .nan = a := by cases a <;> rfl
theorem maxNan : a.max .nan = a := by cases a <;> rfl

theorem minOf {a b : Number} (ha : a ≠ .nan) (hb : b ≠ .nan) : a.min b = if a.rank < b.rank then a else b := by
  have either : a.min b = if a.less b then a else b := by
    cases a <;> cases b <;> first | rfl | exact absurd rfl ha | exact absurd rfl hb
  rw [either,lessRank ha hb]
  simp only [decide_eq_true_eq]

theorem maxOf {a b : Number} (ha : a ≠ .nan) (hb : b ≠ .nan) : a.max b = if a.rank < b.rank then b else a := by
  have either : a.max b = if a.less b then b else a := by
    cases a <;> cases b <;> first | rfl | exact absurd rfl ha
  rw [either,lessRank ha hb]
  simp only [decide_eq_true_eq]

theorem minAssoc (a b c : Number) : (a.min b).min c = a.min (b.min c) := by
  by_cases ha : a = .nan
  · subst ha
    rfl
  by_cases hb : b = .nan
  · subst hb
    rw [minNan]
    rfl
  by_cases hc : c = .nan
  · subst hc
    rw [minNan,minNan]
  rw [minOf ha hb,minOf hb hc]
  split <;> split <;> rename_i first second
  · rw [minOf ha hc,minOf ha hb,if_pos first,if_pos (first.trans second)]
  · rw [minOf ha hc]
  · rw [minOf hb hc,minOf ha hb,if_neg first,if_pos second]
  · rw [minOf hb hc,minOf ha hc,if_neg second,if_neg]
    order

theorem maxAssoc (a b c : Number) : (a.max b).max c = a.max (b.max c) := by
  by_cases ha : a = .nan
  · subst ha
    rfl
  by_cases hb : b = .nan
  · subst hb
    rw [maxNan]
    rfl
  by_cases hc : c = .nan
  · subst hc
    rw [maxNan,maxNan]
  rw [maxOf ha hb,maxOf hb hc]
  split <;> split <;> rename_i first second
  · rw [maxOf hb hc,maxOf ha hc,if_pos second,if_pos (first.trans second)]
  · rw [maxOf hb hc,maxOf ha hb,if_neg second,if_pos first]
  · rw [maxOf ha hc]
  · rw [maxOf ha hc,maxOf ha hb,if_neg first,if_neg]
    order

end Number

/- The double a word of the store holds; all NaNs are one. -/
def ofBits (word : UInt64) : Number :=
  let negative := decide (2^63 ≤ word.toNat)
  if h : word.toNat % 2^63 < 2047 * 2^52 then .float ⟨negative,word.toNat % 2^63,h⟩
  else if word.toNat % 2^63 = 2047 * 2^52 then Number.unbounded negative
  else .nan

def staleBits : UInt64 := 0x7ff0000000000002
-- the value of a row that only carries exemplars
def exemplarOnlyBits : UInt64 := 0x7ff0000000000003
def negativeZeroBits : UInt64 := 0x8000000000000000

theorem negativeZeroWord (word : UInt64) : ofBits word = .float .negZero ↔ word = negativeZeroBits := by
  constructor
  · intro h
    unfold ofBits at h
    split at h
    · have same := Number.float.inj h
      have sign := congrArg Finite.negative same
      have size := congrArg Finite.magnitude same
      simp only [Finite.negZero,decide_eq_true_eq] at sign size
      have bound := word.toNat_lt
      apply UInt64.toNat_inj.mp
      change word.toNat = 2^63
      omega
    · split at h
      · revert h
        cases decide (2^63 ≤ word.toNat) <;> exact Number.noConfusion
      · cases h
  · rintro rfl
    decide +kernel

inductive Value
  | stale
  | number (n : Number)
  deriving DecidableEq

def Value.encode (word : UInt64) : Value := if word = staleBits then .stale else .number (ofBits word)

end Pulso.PromQL
