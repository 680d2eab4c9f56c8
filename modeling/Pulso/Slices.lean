import Mathlib.Data.List.Flatten
import Mathlib.Data.List.Perm.Basic
import Mathlib.Order.Nat
import Pulso.Lists

/-! A list cut into consecutive ranges, and a list sorted out by class. -/
namespace Pulso.Lists
open List
variable {α : Type}

def slice (xs : List α) (range : Nat × Nat) : List α := (xs.drop range.1).take (range.2 - range.1)

def Tiles : List (Nat × Nat) → Nat → Nat → Prop
  | [],a,b => a = b
  | range::rest,a,b => range.1 = a ∧ a < range.2 ∧ Tiles rest range.2 b

variable {ranges : List (Nat × Nat)} {a b c : Nat}

theorem tilesLe (h : Tiles ranges a b) : a ≤ b := by
  induction ranges generalizing a with
  | nil => exact h.le
  | cons range rest ih => exact h.2.1.le.trans (ih h.2.2)

theorem tilesAppend {before after} (h : Tiles before a b) (more : Tiles after b c) : Tiles (before ++ after) a c := by
  induction before generalizing a with
  | nil =>
    cases h
    exact more
  | cons range rest ih => exact ⟨h.1,h.2.1,ih h.2.2⟩

theorem tilesOne (h : a < b) : Tiles [(a,b)] a b := ⟨rfl,h,rfl⟩

theorem sliceAppend (xs : List α) (first : a ≤ b) (second : b ≤ c) :
    slice xs (a,b) ++ slice xs (b,c) = slice xs (a,c) := by
  have split : c - a = (b - a) + (c - b) := by omega
  have start : (xs.drop a).drop (b - a) = xs.drop b := by
    rw [drop_drop]
    congr 1
    omega
  simp only [slice]
  rw [split,take_add,start]

variable {range : Nat × Nat} {xs : List α}

theorem sliceTake (bound : range.2 ≤ c) {x} (mem : x ∈ slice xs range) : x ∈ xs.take c := by
  rcases Nat.lt_or_ge range.2 range.1 with empty | forward
  · rw [slice,Nat.sub_eq_zero_of_le empty.le,take_zero] at mem
    cases mem
  · rw [slice,take_drop,Nat.add_sub_cancel' forward] at mem
    exact take_subset_take_left xs bound (mem_of_mem_drop mem)

theorem tilesFlatMap (xs : List α) (h : Tiles ranges a b) : ranges.flatMap (slice xs) = slice xs (a,b) := by
  induction ranges generalizing a with
  | nil =>
    cases h
    simp [slice]
  | cons range rest ih =>
    obtain ⟨same,grows,rest⟩ := h
    cases same
    rw [flatMap_cons,ih rest]
    exact sliceAppend xs grows.le (tilesLe rest)

theorem tilesBounds (h : Tiles ranges a b) (mem : range ∈ ranges) : a ≤ range.1 ∧ range.2 ≤ b := by
  induction ranges generalizing a with
  | nil => cases mem
  | cons first rest ih =>
    cases mem with
    | head => exact ⟨h.1.ge,tilesLe h.2.2⟩
    | tail _ mem =>
      have bounds := ih h.2.2 mem
      exact ⟨h.2.1.le.trans bounds.1,bounds.2⟩

theorem classesPerm (f : α → Nat) {count} (bound : ∀ x ∈ xs, f x < count) :
    ((List.range count).flatMap (fun k => xs.filter (fun x => f x = k))).Perm xs :=
  keyedPerm nodup_range (fun x mem => mem_range.mpr (bound x mem))

theorem aboveLeast (f : α → Nat) {k} (ordered : xs.Pairwise (fun a b => f a ≤ f b))
    (least : ∀ x ∈ xs, k ≤ f x) : ∀ x ∈ xs.dropWhile (fun x => f x = k), k < f x := by
  induction xs with
  | nil => simp
  | cons y ys ih =>
    obtain ⟨first,rest⟩ := pairwise_cons.mp ordered
    intro x mem
    by_cases here : f y = k
    · rw [dropWhile_cons_of_pos (by simpa using here)] at mem
      exact ih rest (forall_mem_cons.mp least).2 x mem
    rw [dropWhile_cons_of_neg (by simpa using here)] at mem
    have above : k < f y := lt_of_le_of_ne (least y mem_cons_self) (Ne.symm here)
    cases mem with
    | head => exact above
    | tail _ mem => exact above.trans_le (first x mem)

theorem mapMFilterMap {β : Type} {f} {ys : List β} (h : xs.mapM f = some ys) : ys = xs.filterMap f := by
  induction xs generalizing ys with
  | nil =>
    cases h
    rfl
  | cons x xs ih =>
    rw [mapM_cons] at h
    simp only [bind,Option.bind_eq_some_iff] at h
    obtain ⟨y,first,rest,tail,last⟩ := h
    cases last
    rw [filterMap_cons_some first,ih tail]

theorem mapMTotal {β : Type} {f : α → Option β} (h : ∀ x ∈ xs, ∃ y, f x = some y) : ∃ ys, xs.mapM f = some ys := by
  induction xs with
  | nil => exact ⟨[],rfl⟩
  | cons x xs ih =>
    obtain ⟨y,first⟩ := h x mem_cons_self
    obtain ⟨ys,rest⟩ := ih (forall_mem_cons.mp h).2
    exact ⟨y::ys,by simp [mapM_cons,first,rest]⟩

theorem tilesNonempty (h : Tiles ranges a xs.length) (mem : range ∈ ranges) : slice xs range ≠ [] := by
  induction ranges generalizing a with
  | nil => cases mem
  | cons first rest ih =>
    cases mem with
    | head =>
      have inside := tilesLe h.2.2
      have grows := h.2.1
      have same := h.1
      apply ne_nil_of_length_pos
      rw [slice,length_take,length_drop]
      omega
    | tail _ mem => exact ih h.2.2 mem

end Pulso.Lists
