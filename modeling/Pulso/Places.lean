import Mathlib.Algebra.BigOperators.Group.List.Basic
import Mathlib.Algebra.Order.Group.Multiset
import Mathlib.Tactic.Abel

/-! Items that move between places: taking one item out of a list, and sums over a list of holders
when one holder is replaced. -/
namespace Pulso.Places
open List

section Pull
variable {α : Type} {p : α → Bool}

def pull (p : α → Bool) : List α → Option (α × List α)
  | [] => none
  | a::rest => if p a then some (a,rest) else (pull p rest).map (fun found => (found.1,a::found.2))

theorem pullTaken {l rest a} (taken : pull p l = some (a,rest)) : (l : Multiset α) = {a} + (rest : Multiset α) := by
  induction l generalizing rest with
  | nil => cases taken
  | cons b l ih =>
    unfold pull at taken
    split at taken
    · cases taken
      rfl
    obtain ⟨⟨c,others⟩,found,same⟩ := Option.map_eq_some_iff.mp taken
    cases same
    rw [← Multiset.cons_coe,ih found,← Multiset.cons_coe,← Multiset.singleton_add,← Multiset.singleton_add b]
    abel

end Pull

section Sums
variable {β M : Type} [AddCommMonoid M] (g : β → M)

theorem sumSet {l : List β} {i a} (found : l[i]? = some a) (b : β) :
    (l.map g).sum + g b = ((l.set i b).map g).sum + g a := by
  induction l generalizing i with
  | nil => cases found
  | cons c l ih =>
    cases i with
    | zero =>
      cases found
      simp only [set_cons_zero,map_cons,sum_cons]
      abel
    | succ i =>
      simp only [set_cons_succ,map_cons,sum_cons]
      rw [add_assoc,ih (by simpa using found),add_assoc]

end Sums

end Pulso.Places
