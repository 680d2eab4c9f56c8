import Mathlib.Data.List.Nodup
import Mathlib.Data.List.Perm.Basic

/-! Element-wise evolution of a list: every element becomes at most one element,
in place. `Carries R xs ys` keeps order; `Evolves` is its closure under reordering. -/
namespace Pulso
open List

inductive Carries {α β : Type} (R : α → Option β → Prop) : List α → List β → Prop
  | nil : Carries R [] []
  | keep {x y xs ys} (head : R x (some y)) (tail : Carries R xs ys) : Carries R (x::xs) (y::ys)
  | drop {x xs ys} (head : R x none) (tail : Carries R xs ys) : Carries R (x::xs) ys

namespace Carries
variable {α β γ : Type} {R S : α → Option β → Prop} {xs : List α}

theorem same {R} (h : ∀ x ∈ xs, R x (some x)) : Carries R xs xs := by
  induction xs with
  | nil => exact .nil
  | cons x xs ih => exact .keep (h x mem_cons_self) (ih (forall_mem_cons.mp h).2)

theorem allDropped (h : ∀ x ∈ xs, R x none) : Carries R xs [] := by
  induction xs with
  | nil => exact .nil
  | cons x xs ih => exact .drop (h x mem_cons_self) (ih (forall_mem_cons.mp h).2)

theorem append {xs xs' ys ys'} (a : Carries R xs ys) (b : Carries R xs' ys') : Carries R (xs ++ xs') (ys ++ ys') := by
  induction a with
  | nil => exact b
  | keep head _ ih => exact .keep head ih
  | drop head _ ih => exact .drop head ih

variable {ys : List β}

theorem mono (h : Carries R xs ys) (le : ∀ x ∈ xs, ∀ o, R x o → S x o) : Carries S xs ys := by
  induction h with
  | nil => exact .nil
  | keep head _ ih =>
    exact .keep (le _ mem_cons_self _ head) (ih (forall_mem_cons.mp le).2)
  | drop head _ ih =>
    exact .drop (le _ mem_cons_self _ head) (ih (forall_mem_cons.mp le).2)

theorem flatMap {δ : Type} {f g} {ps : List δ}
    (each : ∀ p ∈ ps, Carries R (f p) (g p)) : Carries R (ps.flatMap f) (ps.flatMap g) := by
  induction ps with
  | nil => exact .nil
  | cons p ps ih =>
    exact (each p mem_cons_self).append (ih (forall_mem_cons.mp each).2)

theorem forward (h : Carries R xs ys) {x} (mem : x ∈ xs) : R x none ∨ ∃ y ∈ ys, R x (some y) := by
  induction h with
  | nil => simp at mem
  | @keep a b _ _ head _ ih =>
    rcases mem_cons.mp mem with rfl | rest
    · exact .inr ⟨b,mem_cons_self,head⟩
    · exact (ih rest).imp_right (fun ⟨y,my,hy⟩ => ⟨y,mem_cons_of_mem _ my,hy⟩)
  | drop head _ ih =>
    rcases mem_cons.mp mem with rfl | rest
    · exact .inl head
    · exact ih rest

theorem backward (h : Carries R xs ys) {y} (mem : y ∈ ys) : ∃ x ∈ xs, R x (some y) := by
  induction h with
  | nil => simp at mem
  | @keep a b _ _ head _ ih =>
    rcases mem_cons.mp mem with rfl | rest
    · exact ⟨a,mem_cons_self,head⟩
    · obtain ⟨x,mx,hx⟩ := ih rest; exact ⟨x,mem_cons_of_mem _ mx,hx⟩
  | drop _ _ ih => obtain ⟨x,mx,hx⟩ := ih mem; exact ⟨x,mem_cons_of_mem _ mx,hx⟩

theorem sublist {δ : Type} {f} {g : β → δ} (h : Carries R xs ys)
    (names : ∀ x ∈ xs, ∀ y, R x (some y) → g y = f x) : (ys.map g).Sublist (xs.map f) := by
  induction h with
  | nil => exact .slnil
  | keep head _ ih =>
    rw [map_cons,map_cons,names _ mem_cons_self _ head]
    exact (ih (forall_mem_cons.mp names).2).cons_cons _
  | drop _ _ ih =>
    exact (ih (forall_mem_cons.mp names).2).cons _

theorem filterMap (f : α → Option β) (xs : List α) : Carries (fun x o => o = f x) xs (xs.filterMap f) := by
  induction xs with
  | nil => exact .nil
  | cons x xs ih =>
    cases h : f x with
    | none => rw [filterMap_cons_none h]; exact .drop h.symm ih
    | some y => rw [filterMap_cons_some h]; exact .keep h.symm ih

theorem flatMapEq {f} {g : β → List γ} (h : Carries R xs ys)
    (kept : ∀ x ∈ xs, ∀ y, R x (some y) → g y = f x) (dropped : ∀ x ∈ xs, R x none → f x = []) :
    ys.flatMap g = xs.flatMap f := by
  induction h with
  | nil => rfl
  | keep head _ ih =>
    rw [flatMap_cons,flatMap_cons,kept _ mem_cons_self _ head]
    exact congrArg _ (ih (forall_mem_cons.mp kept).2 (forall_mem_cons.mp dropped).2)
  | drop head _ ih =>
    rw [flatMap_cons,dropped _ mem_cons_self head,nil_append]
    exact ih (forall_mem_cons.mp kept).2 (forall_mem_cons.mp dropped).2

theorem flatMapPerm {f} {g : β → List γ} (h : Carries R xs ys)
    (kept : ∀ x ∈ xs, ∀ y, R x (some y) → (g y).Perm (f x)) (dropped : ∀ x ∈ xs, R x none → f x = []) :
    (ys.flatMap g).Perm (xs.flatMap f) := by
  induction h with
  | nil => exact .refl _
  | keep head _ ih =>
    rw [flatMap_cons,flatMap_cons]
    exact (kept _ mem_cons_self _ head).append (ih (forall_mem_cons.mp kept).2 (forall_mem_cons.mp dropped).2)
  | drop head _ ih =>
    rw [flatMap_cons,dropped _ mem_cons_self head,nil_append]
    exact ih (forall_mem_cons.mp kept).2 (forall_mem_cons.mp dropped).2

theorem perm {xs xs'} (p : xs.Perm xs') (h : Carries R xs ys) : ∃ ys', Carries R xs' ys' ∧ ys.Perm ys' := by
  induction p generalizing ys with
  | nil => exact ⟨ys,h,.refl _⟩
  | cons x _ ih =>
    cases h with
    | keep head tail => obtain ⟨zs,hz,pz⟩ := ih tail; exact ⟨_,.keep head hz,pz.cons _⟩
    | drop head tail => obtain ⟨zs,hz,pz⟩ := ih tail; exact ⟨_,.drop head hz,pz⟩
  | swap x y l =>
    cases h with
    | keep first tail => cases tail with
      | keep second tail => exact ⟨_,.keep second (.keep first tail),.swap _ _ _⟩
      | drop second tail => exact ⟨_,.drop second (.keep first tail),.refl _⟩
    | drop first tail => cases tail with
      | keep second tail => exact ⟨_,.keep second (.drop first tail),.refl _⟩
      | drop second tail => exact ⟨_,.drop second (.drop first tail),.refl _⟩
  | trans _ _ ih₁ ih₂ =>
    obtain ⟨zs,hz,pz⟩ := ih₁ h
    obtain ⟨ws,hw,pw⟩ := ih₂ hz
    exact ⟨ws,hw,pz.trans pw⟩

end Carries

def Evolves {α β : Type} (R : α → Option β → Prop) (xs : List α) (ys : List β) : Prop :=
  ∃ zs, Carries R xs zs ∧ zs.Perm ys

namespace Evolves
variable {α β : Type} {R S : α → Option β → Prop} {xs xs' : List α} {ys ys' : List β}

theorem ofCarries (h : Carries R xs ys) : Evolves R xs ys := ⟨ys,h,.refl _⟩

theorem append (a : Evolves R xs ys) (b : Evolves R xs' ys') : Evolves R (xs ++ xs') (ys ++ ys') := by
  obtain ⟨zs,hz,pz⟩ := a
  obtain ⟨ws,hw,pw⟩ := b
  exact ⟨zs ++ ws,hz.append hw,pz.append pw⟩

variable (h : Evolves R xs ys)
include h

theorem mono (le : ∀ x ∈ xs, ∀ o, R x o → S x o) : Evolves S xs ys := by
  obtain ⟨zs,hz,pz⟩ := h
  exact ⟨zs,hz.mono le,pz⟩

theorem forward {x} (mem : x ∈ xs) : R x none ∨ ∃ y ∈ ys, R x (some y) := by
  obtain ⟨zs,hz,pz⟩ := h
  exact (hz.forward mem).imp_right (fun ⟨y,my,hy⟩ => ⟨y,pz.mem_iff.mp my,hy⟩)

theorem backward {y} (mem : y ∈ ys) : ∃ x ∈ xs, R x (some y) := by
  obtain ⟨zs,hz,pz⟩ := h
  exact hz.backward (pz.mem_iff.mpr mem)

theorem nodup {δ : Type} {f} {g : β → δ}
    (names : ∀ x ∈ xs, ∀ y, R x (some y) → g y = f x) (distinct : (xs.map f).Nodup) : (ys.map g).Nodup := by
  obtain ⟨zs,hz,pz⟩ := h
  exact (pz.map g).nodup_iff.mp (distinct.sublist (hz.sublist names))

theorem settled {δ : Type} {f} {g : β → δ}
    (names : ∀ x ∈ xs, ∀ y, R x (some y) → g y = f x) (distinct : (xs.map f).Nodup) {x : α} (mem : x ∈ xs) :
    (R x none ∧ f x ∉ ys.map g) ∨ ∃ y ∈ ys, R x (some y) := by
  by_cases gone : ∃ y ∈ ys, R x (some y)
  · exact .inr gone
  refine .inl ⟨(h.forward mem).resolve_right gone,fun listed => ?_⟩
  obtain ⟨y,hy,same⟩ := mem_map.mp listed
  obtain ⟨x',hx,step⟩ := h.backward hy
  cases inj_on_of_nodup_map distinct hx mem ((names x' hx y step).symm.trans same)
  exact gone ⟨y,hy,step⟩

omit h

theorem same {R} {xs : List α} (h : ∀ x ∈ xs, R x (some x)) : Evolves R xs xs := ofCarries (.same h)

theorem ofFilterMap {f} (p : ys.Perm (xs.filterMap f)) : Evolves (fun x o => o = f x) xs ys :=
  ⟨_,Carries.filterMap f xs,p.symm⟩

theorem ofMap {f} (p : ys.Perm (xs.map f)) : Evolves (fun x o => o = some (f x)) xs ys := by
  refine ofFilterMap (f := fun x => some (f x)) ?_
  rw [filterMap_eq_map']
  exact p

theorem ofFlatMap {γ δ : Type} {T f g} {ps : List γ} {qs : List δ}
    (h : Carries T ps qs) (kept : ∀ p ∈ ps, ∀ q, T p (some q) → Evolves R (f p) (g q))
    (dropped : ∀ p ∈ ps, T p none → Evolves R (f p) []) : Evolves R (ps.flatMap f) (qs.flatMap g) := by
  induction h with
  | nil => exact ofCarries .nil
  | keep head _ ih =>
    exact (kept _ mem_cons_self _ head).append (ih (forall_mem_cons.mp kept).2 (forall_mem_cons.mp dropped).2)
  | drop head _ ih =>
    exact (dropped _ mem_cons_self head).append (ih (forall_mem_cons.mp kept).2 (forall_mem_cons.mp dropped).2)

end Evolves
end Pulso
