import Mathlib.Data.Nat.Bitwise
import Pulso.Key

/-! The partition of a metric name, computed on unbounded integers by the finalizer's
caller and on machine words by the native finalizer. Both are the same function. -/
namespace Pulso.MetricTiers

def u64 : Nat := 0xFFFFFFFFFFFFFFFF

-- FNV-1a finished with MurmurHash3's fmix64
def nameHash (name : Bytes) : Nat :=
  let hash := name.foldl (fun hash byte => ((hash ^^^ byte.toNat) * 0x00000100000001B3) &&& u64) 0xCBF29CE484222325
  let hash := ((hash ^^^ (hash >>> 33)) * 0xFF51AFD7ED558CCD) &&& u64
  let hash := ((hash ^^^ (hash >>> 33)) * 0xC4CEB9FE1A85EC53) &&& u64
  hash ^^^ (hash >>> 33)

def namePartition (name : Bytes) (count : Nat) : Nat := (nameHash name * count) >>> 64

namespace Native

def nameHash (name : Bytes) : UInt64 :=
  let hash := name.foldl (fun hash byte => (hash ^^^ byte.toUInt64) * 0x00000100000001b3) 0xcbf29ce484222325
  let hash := (hash ^^^ (hash >>> 33)) * 0xff51afd7ed558ccd
  let hash := (hash ^^^ (hash >>> 33)) * 0xc4ceb9fe1a85ec53
  hash ^^^ (hash >>> 33)

/- The product is taken in 128 bits and its high half cut to 32. -/
def namePartition (name : Bytes) (count : UInt32) : UInt32 :=
  let product := (nameHash name).toBitVec.setWidth 128 * count.toBitVec.setWidth 128
  ⟨(product >>> 64).setWidth 32⟩

end Native

theorem maskWord (n : Nat) : n &&& u64 = n % 2 ^ 64 := Nat.and_two_pow_sub_one_eq_mod n 64

theorem mixWord (hash factor : UInt64) : (((hash ^^^ (hash >>> 33)) * factor : UInt64)).toNat =
    ((hash.toNat ^^^ (hash.toNat >>> 33)) * factor.toNat) &&& u64 := by
  rw [maskWord,UInt64.toNat_mul,UInt64.toNat_xor,UInt64.toNat_shiftRight]
  rfl

variable (name : Bytes)

theorem absorbWords (hash : UInt64) :
    (name.foldl (fun hash byte => (hash ^^^ byte.toUInt64) * 0x00000100000001b3) hash).toNat =
    name.foldl (fun hash byte => ((hash ^^^ byte.toNat) * 0x00000100000001B3) &&& u64) hash.toNat := by
  induction name generalizing hash with
  | nil => rfl
  | cons byte rest ih =>
    rw [List.foldl_cons,List.foldl_cons,ih,maskWord,UInt64.toNat_mul,UInt64.toNat_xor,UInt8.toNat_toUInt64]
    rfl

theorem nameHashWords : (Native.nameHash name).toNat = nameHash name := by
  unfold Native.nameHash nameHash
  simp only [UInt64.toNat_xor,UInt64.toNat_shiftRight,mixWord,absorbWords]
  rfl

theorem nameHashBound : nameHash name < 2 ^ 64 := by
  rw [← nameHashWords]
  exact (Native.nameHash name).toNat_lt

theorem namePartitionBound {count} (positive : 0 < count) : namePartition name count < count := by
  unfold namePartition
  rw [Nat.shiftRight_eq_div_pow,Nat.div_lt_iff_lt_mul (Nat.two_pow_pos 64),Nat.mul_comm count]
  exact Nat.mul_lt_mul_of_pos_right (nameHashBound name) positive

theorem namePartitionWords {count} (positive : 0 < count) :
    (Native.namePartition name count).toNat = namePartition name count.toNat := by
  have hash := nameHashBound name
  have count32 : count.toNat < 2 ^ 32 := count.toNat_lt
  have bound : namePartition name count.toNat < count.toNat :=
    namePartitionBound name (UInt32.lt_iff_toNat_lt.mp positive)
  -- neither the 128-bit product nor its high half loses a bit
  have product : nameHash name * count.toNat < 2 ^ 128 :=
    calc nameHash name * count.toNat < 2 ^ 64 * 2 ^ 32 := Nat.mul_lt_mul'' hash count32
      _ ≤ 2 ^ 128 := by decide
  have words : (Native.nameHash name).toBitVec.toNat = nameHash name := nameHashWords name
  have wide : (count.toBitVec.setWidth 128).toNat = count.toNat := by
    rw [BitVec.toNat_setWidth]
    exact Nat.mod_eq_of_lt (by omega)
  change (BitVec.setWidth 32 _).toNat = _
  rw [BitVec.toNat_setWidth,BitVec.toNat_ushiftRight,BitVec.toNat_mul,wide,BitVec.toNat_setWidth,words,
    Nat.mod_eq_of_lt (a := nameHash name) (by omega),Nat.mod_eq_of_lt product]
  exact Nat.mod_eq_of_lt (by unfold namePartition at bound; omega)

end Pulso.MetricTiers
