import Mathlib.Data.List.TakeWhile
import Pulso.Lists

/-! Sorting by key and preference and keeping the first element of every key. The elements
kept are the preferred ones; which of two equally preferred elements is kept is decided by the
order of the input. -/
namespace Pulso.Winners
open Pulso.Lists List

variable {α κ : Type} [LinearOrder κ] {f : α → κ} {r above : α → α → Prop} [DecidableRel r]

/- `r` sorts by key, and elements of one key by the strict weak order `above`. Elements of
which neither is above the other may compare either way. -/
structure Preference (f : α → κ) (r above : α → α → Prop) : Prop where
  keyed : ∀ {a b}, f a ≠ f b → (r a b ↔ f a < f b)
  before : ∀ {a b}, f a = f b → r a b → ¬above b a
  after : ∀ {a b}, f a = f b → ¬r a b → ¬above a b
  weak : ∀ {a b c}, ¬above a b → ¬above b c → ¬above a c

def Ordered (f : α → κ) (above : α → α → Prop) (a b : α) : Prop := f a ≤ f b ∧ (f a = f b → ¬above b a)

def winners (f : α → κ) (r : α → α → Prop) [DecidableRel r] (xs : List α) : List α :=
  uniqBy f (xs.insertionSort r)

namespace Preference

omit [DecidableRel r] in
theorem irrefl (p : Preference f r above) (a : α) : ¬above a a := by
  by_cases first : r a a
  · exact p.before rfl first
  · exact p.after rfl first

omit [DecidableRel r] in
theorem ordered (p : Preference f r above) {a b} (first : r a b) : Ordered f above a b := by
  by_cases same : f a = f b
  · exact ⟨same.le,fun _ => p.before same first⟩
  · exact ⟨((p.keyed same).mp first).le,fun eq => absurd eq same⟩

omit [DecidableRel r] in
theorem swapped (p : Preference f r above) {a b} (later : ¬r a b) : Ordered f above b a := by
  by_cases same : f a = f b
  · exact ⟨same.ge,fun _ => p.after same later⟩
  · exact ⟨not_lt.mp fun less => later ((p.keyed same).mpr less),fun eq => absurd eq.symm same⟩

omit [DecidableRel r] in
theorem trans (p : Preference f r above) {a b c} (ab : Ordered f above a b) (bc : Ordered f above b c) :
    Ordered f above a c := by
  refine ⟨ab.1.trans bc.1,fun same => ?_⟩
  have middle : f b = f c := le_antisymm bc.1 (same ▸ ab.1)
  exact p.weak (bc.2 middle) (ab.2 (same.trans middle.symm))

theorem insertOrdered (p : Preference f r above) (a : α) {xs : List α} (sorted : xs.Pairwise (Ordered f above)) :
    (xs.orderedInsert r a).Pairwise (Ordered f above) := by
  induction sorted with
  | nil => exact pairwise_singleton _ a
  | @cons x xs head tail ih =>
    rw [orderedInsert_cons]
    split
    case isTrue first =>
      exact .cons (forall_mem_cons.mpr ⟨p.ordered first,fun y mem => p.trans (p.ordered first) (head y mem)⟩) (.cons head tail)
    case isFalse later =>
      refine .cons (fun y mem => ?_) ih
      rcases (mem_orderedInsert _).mp mem with rfl | mem
      · exact p.swapped later
      · exact head y mem

theorem sortOrdered (p : Preference f r above) (xs : List α) : (xs.insertionSort r).Pairwise (Ordered f above) := by
  induction xs with
  | nil => exact .nil
  | cons x xs ih => exact p.insertOrdered x ih

end Preference

variable {xs : List α}

theorem uniqFromFirst {R seen} (sorted : xs.Pairwise R) {w y}
    (kept : w ∈ uniqFrom f seen xs) (mem : y ∈ xs) (same : f y = f w) : y = w ∨ R w y := by
  induction sorted generalizing seen with
  | nil => cases mem
  | @cons x xs head tail ih =>
    unfold uniqFrom at kept
    split at kept
    case isTrue old =>
      rcases mem_cons.mp mem with rfl | mem
      · have fresh := (uniqFromKeys.mp (mem_map_of_mem kept)).2
        exact absurd (same ▸ old) fresh
      · exact ih kept mem
    case isFalse new =>
      rcases mem_cons.mp kept with rfl | kept
      · exact (mem_cons.mp mem).imp id (head y)
      rcases mem_cons.mp mem with rfl | mem
      · have fresh := (uniqFromKeys.mp (mem_map_of_mem kept)).2
        exact absurd (mem_cons.mpr (.inl same.symm)) fresh
      · exact ih kept mem

theorem winnersMem {w} (mem : w ∈ winners f r xs) : w ∈ xs :=
  (perm_insertionSort r xs).mem_iff.mp ((uniqBySublist _).subset mem)

theorem winnerOf {a} (mem : a ∈ xs) : ∃ w ∈ winners f r xs, f w = f a := by
  have sorted := (perm_insertionSort r xs).mem_iff.mpr mem
  exact mem_map.mp (uniqByKeys.mpr (mem_map_of_mem sorted))

theorem winnersUnique {v w} (hv : v ∈ winners f r xs) (hw : w ∈ winners f r xs) (same : f v = f w) : v = w :=
  inj_on_of_nodup_map (uniqByNodup _) hv hw same

theorem winnersAscending (p : Preference f r above) (xs : List α) :
    (winners f r xs).Pairwise (fun a b => f a < f b) := by
  have sorted := (p.sortOrdered xs).sublist (uniqBySublist (f := f) _)
  have distinct : (winners f r xs).Pairwise (fun a b => f a ≠ f b) := pairwise_map.mp (uniqByNodup _)
  exact (sorted.and distinct).imp (fun h => lt_of_le_of_ne h.1.1 h.2)

theorem winnerBest (p : Preference f r above) {w y} (kept : w ∈ winners f r xs) (mem : y ∈ xs)
    (same : f y = f w) : y = w ∨ ¬above y w := by
  have sorted := (perm_insertionSort r xs).mem_iff.mpr mem
  exact (uniqFromFirst (p.sortOrdered xs) kept sorted same).imp id (fun h => h.2 same.symm)

theorem headWins {a} (leads : ∀ y ∈ xs, f y = f a → r a y) : a ∈ winners f r (a::xs) := by
  have split := orderedInsert_eq_take_drop r a (xs.insertionSort r)
  have fresh : ∀ y ∈ (xs.insertionSort r).takeWhile (fun b => ¬r a b), f y ≠ f a := by
    intro y mem same
    have later : ¬r a y := by simpa using mem_takeWhile_imp mem
    have inside := (perm_insertionSort r xs).mem_iff.mp ((takeWhile_sublist _).subset mem)
    exact later (leads y inside same)
  have skips : ∀ {seen : List κ} {pre post : List α}, f a ∉ seen → (∀ y ∈ pre, f y ≠ f a) →
      a ∈ uniqFrom f seen (pre ++ a::post) := by
    intro seen pre post new others
    induction pre generalizing seen with
    | nil =>
      rw [nil_append,uniqFrom,if_neg new]
      exact mem_cons_self
    | cons y pre ih =>
      have rest := fun z mem => others z (mem_cons_of_mem y mem)
      rw [cons_append,uniqFrom]
      split
      · exact ih new rest
      refine mem_cons_of_mem _ (ih ?_ rest)
      rw [mem_cons,not_or]
      exact ⟨(others y mem_cons_self).symm,new⟩
  unfold winners uniqBy
  rw [insertionSort_cons,split]
  exact skips not_mem_nil fresh

def Settled (f : α → κ) (above : α → α → Prop) (xs : List α) : Prop :=
  ∀ a ∈ xs, ∀ b ∈ xs, f a = f b → ¬above a b → ¬above b a → a = b ∨ ∃ c ∈ xs, f c = f a ∧ above c a

variable {xs ys : List α}

omit [LinearOrder κ] [DecidableRel r] in
theorem settledPerm (perm : xs.Perm ys) (settled : Settled f above xs) : Settled f above ys := by
  intro a ha b hb same low high
  rcases settled a (perm.mem_iff.mpr ha) b (perm.mem_iff.mpr hb) same low high with eq | ⟨c,mem,beats⟩
  · exact .inl eq
  · exact .inr ⟨c,perm.mem_iff.mp mem,beats⟩

theorem winnersMoved (p : Preference f r above) (perm : xs.Perm ys) (settled : Settled f above xs)
    {w} (kept : w ∈ winners f r xs) : w ∈ winners f r ys := by
  have mem := winnersMem kept
  obtain ⟨v,won,key⟩ := winnerOf (f := f) (r := r) (perm.mem_iff.mp mem)
  have other := perm.mem_iff.mpr (winnersMem won)
  rcases winnerBest p kept other key with rfl | unbeaten
  · exact won
  rcases winnerBest p won (perm.mem_iff.mp mem) key.symm with rfl | best
  · exact won
  rcases settled w mem v other key.symm best unbeaten with rfl | ⟨c,third,same,higher⟩
  · exact won
  rcases winnerBest p kept third same with rfl | low
  · exact absurd higher (p.irrefl c)
  · exact absurd higher low

theorem winnersPerm (p : Preference f r above) (perm : xs.Perm ys) (settled : Settled f above xs) :
    winners f r xs = winners f r ys := by
  have turned := settledPerm perm settled
  have members : ∀ w, w ∈ winners f r xs ↔ w ∈ winners f r ys := fun w =>
    ⟨winnersMoved p perm settled,winnersMoved p perm.symm turned⟩
  have first := winnersAscending (r := r) p xs
  have second := winnersAscending (r := r) p ys
  have distinct : ∀ {a b : α}, f a < f b → a ≠ b := fun less eq => absurd (eq ▸ less) (lt_irrefl _)
  have equal := (perm_ext_iff_of_nodup (first.imp distinct) (second.imp distinct)).mpr members
  exact equal.eq_of_pairwise (fun _ _ _ _ ab ba => absurd ab (lt_asymm ba)) first second

end Pulso.Winners
