import Mathlib.Data.List.Nodup
import Mathlib.Data.List.Perm.Basic

/-! Copy-on-write trees over a store of immutable pages. A page is a leaf or lists
references to pages one height down. Subtrees are denoted through the store: the
keys they occupy and the leaves they hold. -/
namespace Pulso.PageTree
open List

inductive Node (ρ β : Type) where
  | leaf (content : β)
  | index (children : List ρ)

section Denotation
variable {κ ρ β : Type} (view : κ → Option (Node ρ β)) (key : ρ → κ)

def keysAt : Nat → κ → List κ
  | 0,k => [k]
  | h+1,k => k::match view k with
    | some (.index children) => children.flatMap (fun c => keysAt h (key c))
    | _ => []

def leavesAt : Nat → κ → List β
  | 0,k => match view k with
    | some (.leaf content) => [content]
    | _ => []
  | h+1,k => match view k with
    | some (.index children) => children.flatMap (fun c => leavesAt h (key c))
    | _ => []

def Complete : Nat → κ → Prop
  | 0,k => ∃ content, view k = some (.leaf content)
  | h+1,k => ∃ children, view k = some (.index children) ∧ children ≠ [] ∧ ∀ c ∈ children, Complete h (key c)

end Denotation

def Extends {κ ν : Type} (old new : κ → Option ν) : Prop := ∀ k v, old k = some v → new k = some v

theorem Extends.refl {κ ν : Type} (view : κ → Option ν) : Extends view view := fun _ _ h => h
theorem Extends.trans {κ ν : Type} {a b c : κ → Option ν} (ab : Extends a b) (bc : Extends b c) :
    Extends a c := fun k v h => bc k v (ab k v h)

variable {κ ρ β : Type} {view view' : κ → Option (Node ρ β)} {key : ρ → κ}

theorem keysAtIndex {h k children} (page : view k = some (.index children)) :
    keysAt view key (h+1) k = k::children.flatMap (fun c => keysAt view key h (key c)) := by
  simp [keysAt,page]

theorem leavesAtIndex {h k children} (page : view k = some (.index children)) :
    leavesAt view key (h+1) k = children.flatMap (fun c => leavesAt view key h (key c)) := by
  simp [leavesAt,page]

theorem leavesAtLeaf {k content} (page : view k = some (.leaf content)) :
    leavesAt view key 0 k = [content] := by simp [leavesAt,page]

theorem headMem (h k) : k ∈ keysAt view key h k := by cases h <;> simp [keysAt]

theorem keysAtExtends (ext : Extends view view') {h k} (complete : Complete view key h k) :
    keysAt view' key h k = keysAt view key h k := by
  induction h generalizing k with
  | zero => rfl
  | succ h ih =>
    obtain ⟨children,page,_,below⟩ := complete
    rw [keysAtIndex page,keysAtIndex (ext _ _ page)]
    exact congrArg _ (flatMap_congr (fun c mem => ih (below c mem)))

theorem leavesAtExtends (ext : Extends view view') {h k} (complete : Complete view key h k) :
    leavesAt view' key h k = leavesAt view key h k := by
  induction h generalizing k with
  | zero =>
    obtain ⟨content,page⟩ := complete
    rw [leavesAtLeaf page,leavesAtLeaf (ext _ _ page)]
  | succ h ih =>
    obtain ⟨children,page,_,below⟩ := complete
    rw [leavesAtIndex page,leavesAtIndex (ext _ _ page)]
    exact flatMap_congr (fun c mem => ih (below c mem))

theorem heightUnique {h h' k} (a : Complete view key h k) (b : Complete view key h' k) : h = h' := by
  induction h generalizing h' k with
  | zero =>
    obtain ⟨content,page⟩ := a
    cases h' with
    | zero => rfl
    | succ h' => obtain ⟨children,other,_⟩ := b; rw [page] at other; cases other
  | succ h ih =>
    obtain ⟨children,page,some,below⟩ := a
    cases h' with
    | zero => obtain ⟨content,other⟩ := b; rw [page] at other; cases other
    | succ h' =>
      obtain ⟨children',other,_,below'⟩ := b
      rw [page] at other
      cases other
      obtain ⟨c,mem⟩ := exists_mem_of_ne_nil children some
      exact congrArg _ (ih (below c mem) (below' c mem))

/-! Page accounting. A rewrite trades the pages it supersedes for the ones it writes. -/

def Exchange (old new superseded written : List κ) : Prop := (superseded ++ new).Perm (old ++ written)

theorem Exchange.refl (keys : List κ) : Exchange keys keys [] [] := by simp [Exchange]

theorem Exchange.cons {old new superseded written} (x : Exchange old new superseded written) (k k' : κ) :
    Exchange (k::old) (k'::new) (k::superseded) (k'::written) := by
  have moved : (superseded ++ k'::new).Perm (k'::(superseded ++ new)) := perm_middle
  have target : (old ++ k'::written).Perm (k'::(old ++ written)) := perm_middle
  exact (moved.trans ((List.Perm.cons k' x).trans target.symm)).cons k

theorem Exchange.append {o₁ n₁ s₁ w₁ o₂ n₂ s₂ w₂ : List κ} (a : Exchange o₁ n₁ s₁ w₁) (b : Exchange o₂ n₂ s₂ w₂) :
    Exchange (o₁ ++ o₂) (n₁ ++ n₂) (s₁ ++ s₂) (w₁ ++ w₂) := by
  have swap : ∀ p q r s : List κ, ((p ++ q) ++ (r ++ s)).Perm ((p ++ r) ++ (q ++ s)) := by
    intro p q r s
    simp only [append_assoc]
    refine List.Perm.append_left p ?_
    rw [← append_assoc,← append_assoc]
    exact perm_append_comm.append_right s
  exact (swap s₁ s₂ n₁ n₂).trans ((List.Perm.append a b).trans (swap o₁ w₁ o₂ w₂))

theorem Exchange.perm {old new s s' w w' : List κ} (x : Exchange old new s w) (ps : s.Perm s') (pw : w.Perm w') :
    Exchange old new s' w' :=
  (ps.append_right new).symm.trans (List.Perm.trans x (pw.append_left old))

theorem Exchange.flatMap {γ : Type} {old new superseded written : γ → List κ} {parts : List γ}
    (each : ∀ p ∈ parts, Exchange (old p) (new p) (superseded p) (written p)) :
    Exchange (parts.flatMap old) (parts.flatMap new) (parts.flatMap superseded) (parts.flatMap written) := by
  induction parts with
  | nil => exact .refl []
  | cons p parts ih =>
    exact (each p mem_cons_self).append (ih (forall_mem_cons.mp each).2)

theorem Exchange.nodup {old new superseded written rest : List κ} (x : Exchange old new superseded written)
    (distinct : (old ++ written ++ rest).Nodup) : (new ++ superseded ++ rest).Nodup := by
  have same : (new ++ superseded ++ rest).Perm (old ++ written ++ rest) := (perm_append_comm.trans x).append_right rest
  exact same.nodup_iff.mpr distinct

end Pulso.PageTree
