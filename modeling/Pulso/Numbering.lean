import Mathlib.Data.List.Basic

/-! Lists whose members carry consecutive numbers. Selecting members by number is then selecting them
by position. -/
namespace Pulso.Numbering
open List

section
variable {α : Type} (number : α → Nat)

def From (n : Nat) (l : List α) : Prop := l.map number = List.range' n l.length

variable {number} {n : Nat}

theorem fromNil : From number n [] := rfl

variable {l : List α}

theorem fromCons {a} : From number n (a::l) ↔ number a = n ∧ From number (n + 1) l := by
  simp only [From,map_cons,length_cons,range'_succ,List.cons.injEq]

theorem fromAppend {xs ys} : From number n (xs ++ ys) ↔ From number n xs ∧ From number (n + xs.length) ys := by
  induction xs generalizing n with
  | nil => simp [fromNil]
  | cons x xs ih =>
    have shift : n + 1 + xs.length = n + (x::xs).length := by
      rw [length_cons]
      omega
    rw [cons_append,fromCons,fromCons,ih,shift,and_assoc]

theorem fromDrop (numbered : From number n l) (k : Nat) (short : k ≤ l.length) : From number (n + k) (l.drop k) := by
  rw [← take_append_drop k l,fromAppend,length_take_of_le short] at numbered
  exact numbered.2

theorem fromTake (numbered : From number n l) (k : Nat) : From number n (l.take k) := by
  rw [← take_append_drop k l,fromAppend] at numbered
  exact numbered.1

theorem filterAbove (numbered : From number n l) (bound : Nat) :
    l.filter (fun a => bound < number a) = l.drop (bound + 1 - n) := by
  induction l generalizing n with
  | nil => simp
  | cons a l ih =>
    obtain ⟨first,rest⟩ := fromCons.mp numbered
    rw [filter_cons,ih rest,first]
    by_cases above : bound < n
    · have all : bound + 1 - n = 0 := by omega
      have more : bound + 1 - (n + 1) = 0 := by omega
      rw [all,more]
      simp [above]
    · have some' : bound + 1 - n = (bound + 1 - (n + 1)) + 1 := by omega
      rw [some',drop_succ_cons]
      simp [above]

theorem numbersLast {a} (numbered : From number n (l ++ [a])) : number a = n + l.length :=
  (fromCons.mp (fromAppend.mp numbered).2).1

end
end Pulso.Numbering
