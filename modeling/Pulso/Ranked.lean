import Mathlib.Data.List.Sort
import Mathlib.Data.List.Pairwise
import Mathlib.Data.List.Perm.Basic

/-! The first elements of a list under a total order. An element with enough others strictly
ahead of it can be left out before sorting. -/
namespace Pulso.Ranked
open List

variable {α : Type} (r : α → α → Prop) [DecidableRel r]

def first (n : Nat) (xs : List α) : List α := (xs.insertionSort r).take n

def Distinct (xs : List α) : Prop := xs.Pairwise (fun a b => ¬(r a b ∧ r b a))

variable {r} {n : Nat} {xs ys zs : List α}

omit [DecidableRel r] in
theorem Distinct.perm (h : Distinct r xs) (p : xs.Perm ys) : Distinct r ys :=
  List.Pairwise.perm h p (fun apart both => apart both.symm)

omit [DecidableRel r] in
theorem Distinct.same (h : Distinct r xs) {a b} (ha : a ∈ xs) (hb : b ∈ xs) (ab : r a b) (ba : r b a) : a = b := by
  by_contra different
  have symmetric : Std.Symm (fun a b => ¬(r a b ∧ r b a)) := ⟨fun _ _ apart both => apart both.symm⟩
  exact List.Pairwise.forall h ha hb different ⟨ab,ba⟩

omit [DecidableRel r] in
theorem distinctKeys {κ : Type} {key : α → κ} (same : ∀ a b, r a b → r b a → key a = key b)
    (h : (xs.map key).Nodup) : Distinct r xs :=
  (pairwise_map.mp h).imp (fun different both => different (same _ _ both.1 both.2))

theorem firstLength : (first r n xs).length = min n xs.length := by
  rw [first,length_take,length_insertionSort]

theorem firstFewer {m} (fewer : m ≤ n) : first r m xs = (first r n xs).take m := by
  rw [first,first,take_take,Nat.min_eq_left fewer]

theorem insertBehind [IsTrans α r] {b} (sorted : xs.Pairwise r) (behind : n ≤ xs.countP (fun a => ¬r b a)) :
    (xs.orderedInsert r b).take n = xs.take n := by
  induction xs generalizing n with
  | nil =>
    have none : n = 0 := by simpa using behind
    rw [none,take_zero,take_zero]
  | cons a rest ih =>
    obtain ⟨ahead,tail⟩ := pairwise_cons.mp sorted
    rw [orderedInsert_cons]
    split
    case isTrue before =>
      have all : ∀ c ∈ a::rest, r b c := forall_mem_cons.mpr ⟨before,fun c later => trans_of r before (ahead c later)⟩
      have none : (a::rest).countP (fun a => ¬r b a) = 0 := by
        rw [countP_eq_zero]
        intro c mem
        simpa using all c mem
      have zero : n = 0 := by omega
      rw [zero,take_zero,take_zero]
    case isFalse later =>
      cases n with
      | zero => rfl
      | succ n =>
        rw [countP_cons_of_pos (by simpa using later)] at behind
        rw [take_succ_cons,take_succ_cons,ih tail (by omega)]

variable [Std.Total r] [IsTrans α r]

theorem firstSorted : (first r n xs).Pairwise r := (pairwise_insertionSort r xs).sublist (take_sublist _ _)

theorem firstPerm (distinct : Distinct r xs) (p : xs.Perm ys) : first r n xs = first r n ys := by
  have both : (xs.insertionSort r).Perm (ys.insertionSort r) :=
    (perm_insertionSort r xs).trans (p.trans (perm_insertionSort r ys).symm)
  have eq : xs.insertionSort r = ys.insertionSort r := by
    refine both.eq_of_pairwise (fun a b ha hb => ?_) (pairwise_insertionSort r xs) (pairwise_insertionSort r ys)
    exact distinct.same ((mem_insertionSort r).mp ha) (p.mem_iff.mpr ((mem_insertionSort r).mp hb))
  rw [first,first,eq]

theorem firstBehind (behind : ∀ b ∈ ys, n ≤ xs.countP (fun a => ¬r b a)) : first r n (ys ++ xs) = first r n xs := by
  induction ys with
  | nil => rfl
  | cons b ys ih =>
    have rest := ih (forall_mem_cons.mp behind).2
    have count : n ≤ ((ys ++ xs).insertionSort r).countP (fun a => ¬r b a) := by
      rw [(perm_insertionSort r _).countP_eq,countP_append]
      exact (behind b mem_cons_self).trans (Nat.le_add_left _ _)
    rw [← rest,first,cons_append,insertionSort_cons,insertBehind (pairwise_insertionSort r _) count]
    rfl

theorem firstSettled (distinct : Distinct r (xs ++ zs ++ ys))
    (after : ∀ b ∈ ys, n ≤ (first r n xs).length ∧ ∀ a ∈ first r n xs, ¬r b a) :
    first r n (xs ++ zs ++ ys) = first r n (xs ++ zs) := by
  rw [firstPerm distinct perm_append_comm]
  refine firstBehind (fun b mem => ?_)
  obtain ⟨full,ahead⟩ := after b mem
  have held : (first r n xs).countP (fun a => ¬r b a) = (first r n xs).length :=
    countP_eq_length.mpr (by simpa using ahead)
  have inside : (first r n xs).countP (fun a => ¬r b a) ≤ xs.countP (fun a => ¬r b a) := by
    rw [← (perm_insertionSort r xs).countP_eq]
    exact (take_sublist _ _).countP_le
  rw [countP_append]
  omega

theorem firstKept (distinct : Distinct r (xs ++ ys)) : first r n (first r n xs ++ ys) = first r n (xs ++ ys) := by
  let later := (xs.insertionSort r).drop n
  have parts : first r n xs ++ later = xs.insertionSort r := take_append_drop _ _
  have whole : (xs ++ ys).Perm (later ++ (first r n xs ++ ys)) := by
    refine ((perm_insertionSort r xs).symm.append_right ys).trans ?_
    rw [← parts,append_assoc]
    exact perm_append_comm_assoc _ _ _
  rw [firstPerm distinct whole]
  refine (firstBehind (fun b mem => ?_)).symm
  have full : (first r n xs).length = n := by
    have some := length_pos_of_mem mem
    rw [length_drop,length_insertionSort] at some
    rw [firstLength]
    omega
  have ahead : ∀ a ∈ first r n xs, ¬r b a := by
    intro a held back
    have order : (first r n xs ++ later).Pairwise r := parts ▸ pairwise_insertionSort r xs
    have apart := distinct.perm whole
    have crossing := (pairwise_append.mp apart).2.2 b mem a (mem_append_left _ held)
    exact crossing ⟨back,(pairwise_append.mp order).2.2 a held b mem⟩
  rw [countP_append,countP_eq_length.mpr (by simpa using ahead),full]
  exact Nat.le_add_right _ _

end Pulso.Ranked
