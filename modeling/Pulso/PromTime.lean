import Mathlib.Data.List.TakeWhile
import Mathlib.Data.Nat.Digits.Defs
import Mathlib.Data.Rat.Cast.Order
import Mathlib.Tactic.FieldSimp
import Mathlib.Tactic.Linarith
import Pulso.Key

/-! Query timestamps: a decimal text of seconds is read as the nearest whole number of nanoseconds, ties
away from zero, however large or small its exponent. -/
namespace Pulso.PromTime
open List

def isDigit (c : UInt8) : Bool := 48 ≤ c && c ≤ 57
def minus : Bytes := ascii "-"
def dot : UInt8 := 46

def signPart : Bytes → Bytes × Bytes
  | [] => ([],[])
  | c::rest => if [c] = ascii "+" ∨ [c] = minus then ([c],rest) else ([],c::rest)

structure Captures where
  sign : Bytes
  number : Bytes
  exponent : Option Bytes
  deriving DecidableEq

-- `\d+(?:\.\d*)?|\.\d+`, and what is left of the text
def numberPart (text : Bytes) : Bytes × Bytes :=
  let whole := text.takeWhile isDigit
  match text.dropWhile isDigit with
  | [] => (whole,[])
  | c::rest => if c = dot then (whole ++ dot::rest.takeWhile isDigit,rest.dropWhile isDigit) else (whole,c::rest)

/- `\A([+-]?)(\d+(?:\.\d*)?|\.\d+)(?:[eE]([+-]?\d+))?\z` -/
def run (text : Bytes) : Option Captures :=
  let (sign,rest) := signPart text
  let (number,tail) := numberPart rest
  if number.any isDigit then
    match tail with
    | [] => some ⟨sign,number,none⟩
    | e::exponent =>
      let digits := (signPart exponent).2
      if ([e] = ascii "e" ∨ [e] = ascii "E") ∧ digits ≠ [] ∧ digits.all isDigit then some ⟨sign,number,some exponent⟩
      else none
  else none

def toInteger (digits : Bytes) : Nat := Nat.ofDigits 10 (digits.reverse.map (fun c => c.toNat - 48))

def toSigned (text : Bytes) : Int :=
  let (sign,digits) := signPart text
  if sign = minus then -toInteger digits else toInteger digits

def wholeOf (number : Bytes) : Bytes := number.takeWhile (· != dot)
def fractionOf (number : Bytes) : Bytes := (number.dropWhile (· != dot)).drop 1

def scale (coefficient : Nat) (power : Int) : Option Nat :=
  if coefficient = 0 then some 0
  else if power > 19 then none
  else if power ≥ 0 then some (coefficient * 10^power.toNat)
  else if power < -128 then some 0
  else
    let divisor := 10^(-power).toNat
    some ((coefficient * 2 + divisor) / (divisor * 2))

def maxNs : Int := 9223372036854775807
def bounded (ns : Int) : Option Int := if -maxNs - 1 ≤ ns ∧ ns ≤ maxNs then some ns else none

def decimal (sign number : Bytes) (exponent : Int) : Option Int := do
  let coefficient := toInteger (48::wholeOf number ++ fractionOf number)
  let ns ← scale coefficient (exponent + 9 - (fractionOf number).length)
  bounded (if sign = minus then -ns else ns)

def Captures.power (c : Captures) : Int := (c.exponent.map toSigned).getD 0

def parseSeconds (text : Bytes) : Option Int :=
  if text.length ≤ 128 then (run text).bind (fun c => decimal c.sign c.number c.power) else none

/- The exact value of an accepted text. -/
def Captures.value (c : Captures) : ℚ :=
  (if c.sign = minus then -1 else 1) *
    (toInteger (wholeOf c.number) + toInteger (fractionOf c.number) / 10^(fractionOf c.number).length) * 10^c.power

def Nearest (q : ℚ) (ns : Int) : Prop := |q - ns| ≤ 1 / 2 ∧ (|q - ns| = 1 / 2 → |q| < |(ns : ℚ)|)

theorem Nearest.neg {q ns} (h : Nearest q ns) : Nearest (-q) (-ns) := by
  have turned : |-q - ((-ns : Int) : ℚ)| = |q - ns| := by
    rw [Int.cast_neg,← abs_neg]
    congr 1
    ring
  unfold Nearest
  rw [turned,Int.cast_neg,abs_neg,abs_neg]
  exact h

/- Rounding half up is away from zero where nothing is negative. -/
structure HalfUp (q : ℚ) (m : Nat) : Prop where
  low : (m : ℚ) ≤ q + 1 / 2
  high : q + 1 / 2 < m + 1

theorem HalfUp.nearest {q m} (h : HalfUp q m) (nonneg : 0 ≤ q) : Nearest q m := by
  obtain ⟨low,high⟩ := h
  have size : |(m : ℚ)| = m := abs_of_nonneg (Nat.cast_nonneg m)
  rw [Nearest,Int.cast_natCast,abs_of_nonneg nonneg,size]
  refine ⟨abs_le.mpr ⟨by linarith,by linarith⟩,fun tie => ?_⟩
  rcases eq_or_eq_neg_of_abs_eq tie with above | below
  · linarith
  · linarith

theorem HalfUp.exact (m : Nat) : HalfUp m m := ⟨by linarith,by linarith⟩

theorem HalfUp.quotient (c : Nat) {d : Nat} (positive : 0 < d) : HalfUp (c / d) ((c * 2 + d) / (d * 2)) := by
  have d' : (0 : ℚ) < d := Nat.cast_pos.mpr positive
  have sum : (c : ℚ) / d + 1 / 2 = ((c * 2 + d : Nat) : ℚ) / ((d * 2 : Nat) : ℚ) := by
    push_cast
    field_simp
  have double : (0 : ℚ) < ((d * 2 : Nat) : ℚ) := Nat.cast_pos.mpr (by omega)
  constructor
  · rw [sum,le_div_iff₀ double]
    exact_mod_cast Nat.div_mul_le_self _ _
  · have next : c * 2 + d < ((c * 2 + d) / (d * 2) + 1) * (d * 2) := by
      rw [Nat.mul_comm _ (d * 2)]
      exact Nat.lt_mul_div_succ _ (by omega)
    rw [sum,div_lt_iff₀ double]
    exact_mod_cast next

theorem scaleHalfUp {coefficient : Nat} (power : Int) (few : coefficient < 10^128) :
    ∃ m, HalfUp (coefficient * 10^power) m ∧ (scale coefficient power = some m ∨ scale coefficient power = none ∧ 2^63 < m) := by
  unfold scale
  split
  · rename_i zero
    refine ⟨0,?_,.inl rfl⟩
    rw [zero,Nat.cast_zero,zero_mul]
    exact .exact 0
  rename_i some
  by_cases whole : 0 ≤ power
  · obtain ⟨n,rfl⟩ := Int.eq_ofNat_of_zero_le whole
    refine ⟨coefficient * 10^n,by exact_mod_cast HalfUp.exact (coefficient * 10^n),?_⟩
    split
    · rename_i large
      refine .inr ⟨rfl,?_⟩
      have most : 10^20 ≤ 10^n := Nat.pow_le_pow_right (by decide) (by omega)
      calc 2^63 < 10^20 := by decide
        _ ≤ 10^n := most
        _ ≤ coefficient * 10^n := Nat.le_mul_of_pos_left _ (Nat.pos_of_ne_zero some)
    · exact .inl rfl
  obtain ⟨n,rfl⟩ : ∃ n : Nat, power = -n := ⟨(-power).toNat,by omega⟩
  rw [if_neg (by omega),if_neg whole]
  split
  · rename_i tiny
    have step : (0 : ℚ) ≤ 10^(-n : Int) := zpow_nonneg (by norm_num) _
    have less : (coefficient : ℚ) * 10^(-n : Int) < 1 / 2 := by
      have digits : (coefficient : ℚ) < 10^(128 : Int) := by exact_mod_cast few
      have small : (10 : ℚ)^(-n : Int) ≤ 10^(-129 : Int) := zpow_le_zpow_right₀ (by norm_num) (by omega)
      calc (coefficient : ℚ) * 10^(-n : Int) ≤ 10^(128 : Int) * 10^(-129 : Int) := by gcongr
        _ < 1 / 2 := by norm_num
    have nonneg : (0 : ℚ) ≤ coefficient * 10^(-n : Int) := mul_nonneg (Nat.cast_nonneg _) step
    exact ⟨0,⟨by push_cast; linarith,by push_cast; linarith⟩,.inl rfl⟩
  · refine ⟨_,?_,.inl rfl⟩
    have quotient := HalfUp.quotient coefficient (d := 10^n) (by positivity)
    rw [zpow_neg,zpow_natCast,← div_eq_mul_inv]
    simpa using quotient

theorem toIntegerAppend (a b : Bytes) : toInteger (a ++ b) = toInteger a * 10^b.length + toInteger b := by
  simp only [toInteger,reverse_append,map_append,Nat.ofDigits_append,length_map,length_reverse]
  ring

theorem toIntegerLess {digits} (each : ∀ x ∈ digits, isDigit x = true) : toInteger digits < 10^digits.length := by
  have bound := Nat.ofDigits_lt_base_pow_length (b := 10) (l := digits.reverse.map (fun c => c.toNat - 48)) (by decide) (by
    intro n mem
    obtain ⟨x,inside,rfl⟩ := mem_map.mp mem
    have digit := each x (mem_reverse.mp inside)
    simp only [isDigit,Bool.and_eq_true,decide_eq_true_eq,UInt8.le_iff_toNat_le] at digit
    have top : x.toNat ≤ 57 := digit.2
    omega)
  simpa [toInteger] using bound

theorem signPartLength (text : Bytes) : (signPart text).2.length ≤ text.length := by
  unfold signPart
  split
  · exact Nat.le_refl _
  split
  · exact Nat.le_succ _
  · exact Nat.le_refl _

theorem numberDigits (text : Bytes) : let number := (numberPart text).1
    (∀ x ∈ wholeOf number ++ fractionOf number, isDigit x = true) ∧ (wholeOf number ++ fractionOf number).length ≤ text.length := by
  have digits : ∀ xs : Bytes, ∀ x ∈ xs.takeWhile isDigit, isDigit x = true := fun xs =>
    all_eq_true.mp all_takeWhile
  have plain : ∀ x ∈ text.takeWhile isDigit, (x != dot) = true := by
    intro x mem
    have digit := digits text x mem
    rw [bne_iff_ne]
    rintro rfl
    exact absurd digit (by decide)
  have size := congrArg List.length (takeWhile_append_dropWhile (p := isDigit) (l := text))
  rw [length_append] at size
  have none : wholeOf (text.takeWhile isDigit) ++ fractionOf (text.takeWhile isDigit) = text.takeWhile isDigit := by
    rw [wholeOf,fractionOf,takeWhile_eq_self_iff.mpr plain,dropWhile_eq_nil_iff.mpr plain]
    exact append_nil _
  unfold numberPart
  dsimp only
  split
  · rw [none]
    exact ⟨digits text,by omega⟩
  rename_i c rest left
  split
  · have split : wholeOf (text.takeWhile isDigit ++ dot::rest.takeWhile isDigit) = text.takeWhile isDigit ∧
        fractionOf (text.takeWhile isDigit ++ dot::rest.takeWhile isDigit) = rest.takeWhile isDigit := by
      rw [wholeOf,fractionOf,takeWhile_append_of_pos plain,dropWhile_append_of_pos plain]
      simp
    rw [split.1,split.2]
    have part := (takeWhile_sublist (l := rest) isDigit).length_le
    rw [left,length_cons] at size
    refine ⟨forall_mem_append.mpr ⟨digits text,digits rest⟩,?_⟩
    rw [length_append]
    omega
  · rw [none]
    exact ⟨digits text,by omega⟩

theorem runNumber {text c} (accepted : run text = some c) : c.number = (numberPart (signPart text).2).1 := by
  unfold run at accepted
  dsimp only at accepted
  split at accepted
  · split at accepted
    · cases accepted
      rfl
    split at accepted
    · cases accepted
      rfl
    · cases accepted
  · cases accepted

/-- An accepted text is read as the nearest number of nanoseconds, ties away from zero, unless that is not a
signed 64-bit integer. -/
theorem parseSecondsNearest {text : Bytes} (short : text.length ≤ 128) {c : Captures} (accepted : run text = some c) :
    ∃ ns : Int, Nearest (c.value * 10^9) ns ∧ parseSeconds text = if -2^63 ≤ ns ∧ ns < 2^63 then some ns else none := by
  obtain ⟨digits,size⟩ := numberDigits (signPart text).2
  rw [← runNumber accepted] at digits size
  have within := signPartLength text
  have coefficient : toInteger (48::wholeOf c.number ++ fractionOf c.number) =
      toInteger (wholeOf c.number ++ fractionOf c.number) := by
    rw [cons_append,← singleton_append,toIntegerAppend]
    simp [toInteger]
  have few : toInteger (wholeOf c.number ++ fractionOf c.number) < 10^128 :=
    (toIntegerLess digits).trans_le (Nat.pow_le_pow_right (by decide) (by omega))
  obtain ⟨m,near,scaled⟩ := scaleHalfUp (c.power + 9 - (fractionOf c.number).length) few
  have value : c.value * 10^9 = (if c.sign = minus then -1 else 1) *
      (toInteger (wholeOf c.number ++ fractionOf c.number) * 10^(c.power + 9 - (fractionOf c.number).length) : ℚ) := by
    rw [Captures.value,toIntegerAppend,zpow_sub₀ (by norm_num),zpow_add₀ (by norm_num),zpow_natCast]
    push_cast
    field_simp
    norm_num
  have whole := near.nearest (mul_nonneg (Nat.cast_nonneg _) (zpow_nonneg (by norm_num) _))
  refine ⟨if c.sign = minus then -m else m,?_,?_⟩
  · rw [value]
    split
    · simpa using whole.neg
    · simpa using whole
  · rw [parseSeconds,if_pos short,accepted,Option.bind_some,decimal,coefficient]
    rcases scaled with ok | ⟨failed,large⟩
    · simp only [ok,bind,Option.bind_some,bounded]
      congr 1
      simp only [maxNs,eq_iff_iff]
      omega
    · simp only [failed,bind,Option.bind_none]
      rw [if_neg]
      split <;> omega

theorem parseSecondsNearestTie : parseSeconds (ascii "-1.5e-9") = some (-2) ∧
    ∃ ns, Nearest ((⟨minus,ascii "1.5",some (ascii "-9")⟩ : Captures).value * 10^9) ns ∧
      parseSeconds (ascii "-1.5e-9") = if -2^63 ≤ ns ∧ ns < 2^63 then some ns else none :=
  ⟨by decide +kernel,parseSecondsNearest (by decide +kernel) (by decide +kernel)⟩

end Pulso.PromTime
