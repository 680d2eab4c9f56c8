import Mathlib.Data.List.Sort
import Pulso.Results

/-! List operations of the standard library the programs use: first occurrence per key,
stable descending order, extremes of concatenated lists. -/
namespace Pulso.Lists
open List

section UniqBy
variable {α κ : Type} [DecidableEq κ] (f : α → κ)

def uniqFrom (seen : List κ) : List α → List α
  | [] => []
  | x::xs => if f x ∈ seen then uniqFrom seen xs else x::uniqFrom (f x::seen) xs

def uniqBy (xs : List α) : List α := uniqFrom f [] xs

variable {f}

theorem uniqFromSublist (seen : List κ) (xs : List α) : (uniqFrom f seen xs).Sublist xs := by
  induction xs generalizing seen with
  | nil => exact .slnil
  | cons x xs ih =>
    unfold uniqFrom
    split
    · exact (ih seen).cons _
    · exact (ih _).cons_cons _

variable {xs : List α}

theorem uniqFromKeys {seen k} : k ∈ (uniqFrom f seen xs).map f ↔ k ∈ xs.map f ∧ k ∉ seen := by
  induction xs generalizing seen with
  | nil => simp [uniqFrom]
  | cons x xs ih =>
    unfold uniqFrom
    split
    case isTrue old =>
      rw [ih,map_cons,mem_cons]
      exact ⟨fun ⟨a,b⟩ => ⟨.inr a,b⟩,fun ⟨a,b⟩ => ⟨a.resolve_left (fun e => b (e ▸ old)),b⟩⟩
    rename_i new
    rw [map_cons,mem_cons,ih,map_cons,mem_cons,mem_cons]
    constructor
    · rintro (rfl | ⟨a,b⟩)
      · exact ⟨.inl rfl,new⟩
      · exact ⟨.inr a,fun h => b (.inr h)⟩
    rintro ⟨a | a,b⟩
    · exact .inl a
    by_cases e : k = f x
    · exact .inl e
    · exact .inr ⟨a,fun h => h.elim e b⟩

theorem uniqFromNodup (seen : List κ) (xs : List α) : ((uniqFrom f seen xs).map f).Nodup := by
  induction xs generalizing seen with
  | nil => exact nodup_nil
  | cons x xs ih =>
    unfold uniqFrom
    split
    · exact ih seen
    refine nodup_cons.mpr ⟨?_,ih _⟩
    intro h
    exact (uniqFromKeys.mp h).2 mem_cons_self

theorem uniqBySublist (xs : List α) : (uniqBy f xs).Sublist xs := uniqFromSublist [] xs
theorem uniqByNodup (xs : List α) : ((uniqBy f xs).map f).Nodup := uniqFromNodup [] xs
theorem uniqByKeys {k} : k ∈ (uniqBy f xs).map f ↔ k ∈ xs.map f := by
  simp [uniqBy,uniqFromKeys]

theorem uniqMem {xs} {k : κ} : k ∈ uniqBy id xs ↔ k ∈ xs := by
  have keys : k ∈ (uniqBy id xs).map id ↔ k ∈ xs.map id := uniqByKeys
  simpa using keys

theorem uniqNodup (xs : List κ) : (uniqBy id xs).Nodup := by
  have once : ((uniqBy id xs).map id).Nodup := uniqByNodup xs
  simpa using once

theorem uniqFromSelf {seen} (distinct : (xs.map f).Nodup) (fresh : ∀ x ∈ xs, f x ∉ seen) : uniqFrom f seen xs = xs := by
  induction xs generalizing seen with
  | nil => rfl
  | cons x xs ih =>
    obtain ⟨head,tail⟩ := nodup_cons.mp distinct
    rw [uniqFrom,if_neg (fresh x mem_cons_self)]
    congr 1
    refine ih tail (fun y mem => ?_)
    rw [mem_cons]
    rintro (same | old)
    · exact head (same ▸ mem_map_of_mem mem)
    · exact fresh y (mem_cons_of_mem _ mem) old

theorem uniqBySelf (distinct : (xs.map f).Nodup) : uniqBy f xs = xs :=
  uniqFromSelf distinct (by simp)

theorem uniqFromFirst {seen s} : s ∈ uniqFrom f seen xs ↔ f s ∉ seen ∧ xs.find? (fun t => f t = f s) = some s := by
  induction xs generalizing seen with
  | nil => simp [uniqFrom]
  | cons x xs ih =>
    rw [uniqFrom,find?_cons]
    by_cases here : f x = f s
    · rw [here]
      by_cases old : f s ∈ seen
      · simp [old,ih]
      · simp [old,ih,eq_comm]
    · have other : s ≠ x := by
        rintro rfl
        exact here rfl
      split <;> simp [ih,here,Ne.symm here,other]

theorem uniqFromFilter {seen} (gone : List κ) {p} (apart : ∀ x, p x = true ↔ f x ∉ gone) :
    uniqFrom f seen (xs.filter p) = uniqFrom f (seen ++ gone) xs := by
  induction xs generalizing seen with
  | nil => rfl
  | cons x xs ih =>
    have here := apart x
    by_cases out : f x ∈ gone
    · simp_all [uniqFrom]
    · simp_all [uniqFrom]

end UniqBy

/- `Enum.sort_by(xs, f, :desc)`: equal elements keep their order. -/
def sortDesc {α : Type} (f : α → Int) (xs : List α) : List α := xs.insertionSort (fun a b => f b ≤ f a)

theorem sortDescPerm {α : Type} (f : α → Int) (xs : List α) : (sortDesc f xs).Perm xs :=
  perm_insertionSort _ xs

theorem keyedPerm {α κ : Type} [DecidableEq κ] {f : α → κ} {keys : List κ} {xs} (distinct : keys.Nodup)
    (cover : ∀ x ∈ xs, f x ∈ keys) : (keys.flatMap (fun k => xs.filter (fun x => f x = k))).Perm xs := by
  induction keys generalizing xs with
  | nil =>
    have none : xs = [] := eq_nil_iff_forall_not_mem.mpr (fun x mem => by simpa using cover x mem)
    rw [none]
    exact .refl _
  | cons k keys ih =>
    obtain ⟨fresh,rest⟩ := nodup_cons.mp distinct
    let others := xs.filter (fun x => !decide (f x = k))
    have otherKeys : ∀ x ∈ others, f x ∈ keys := by
      intro x mem
      obtain ⟨inside,other⟩ := mem_filter.mp mem
      rcases mem_cons.mp (cover x inside) with same | later
      · simp [same] at other
      · exact later
    have same : keys.flatMap (fun k' => xs.filter (fun x => f x = k')) = keys.flatMap (fun k' => others.filter (fun x => f x = k')) := by
      refine flatMap_congr (fun k' mem => ?_)
      rw [filter_filter]
      refine filter_congr (fun x _ => ?_)
      by_cases here : f x = k'
      · have apart : k' ≠ k := fun eq => fresh (eq ▸ mem)
        simp [here,apart]
      · simp [here]
    rw [flatMap_cons,same]
    exact ((ih rest otherKeys).append_left _).trans (filter_append_perm _ xs)

theorem mapMOk {ε α β : Type} {f : α → Except ε β} {xs ys} (ok : xs.mapM f = .ok ys) :
    List.Forall₂ (fun x y => f x = .ok y) xs ys := by
  induction xs generalizing ys with
  | nil => cases ok; exact .nil
  | cons x xs ih =>
    rw [mapM_cons] at ok
    obtain ⟨y,head,ok⟩ := Results.bindOk ok
    obtain ⟨rest,tail,ok⟩ := Results.bindOk ok
    cases ok
    exact .cons head (ih tail)

theorem mapMReturns {ε α β : Type} {f : α → Except ε β} {xs : List α} (h : ∀ x ∈ xs, ∃ y, f x = .ok y) :
    ∃ ys, xs.mapM f = .ok ys := by
  induction xs with
  | nil => exact ⟨[],rfl⟩
  | cons x xs ih =>
    obtain ⟨y,first⟩ := h x mem_cons_self
    obtain ⟨ys,rest⟩ := ih (forall_mem_cons.mp h).2
    exact ⟨y::ys,by simp [mapM_cons,first,rest,bind,Except.bind,pure,Except.pure]⟩

theorem forall₂Left {α β : Type} {r} {xs : List α} {ys : List β} (h : List.Forall₂ r xs ys) {y : β} (mem : y ∈ ys) :
    ∃ x ∈ xs, r x y := by
  induction h with
  | nil => simp at mem
  | @cons a b as bs here _ ih =>
    rcases mem_cons.mp mem with rfl | later
    · exact ⟨a,mem_cons_self,here⟩
    · obtain ⟨x,inside,related⟩ := ih later
      exact ⟨x,mem_cons_of_mem _ inside,related⟩

section Extremes
variable {α β : Type} [LE α] [Std.IsLinearOrder α]

section Minimum
variable [Min α] [Std.LawfulOrderMin α]

theorem minPerm {xs ys : List α} (p : xs.Perm ys) : xs.min? = ys.min? := by
  apply Option.ext
  intro a
  simp only [min?_eq_some_iff,p.mem_iff]

theorem minFlatMap (f : β → List α) (xs : List β) :
    (xs.flatMap f).min? = (xs.filterMap (fun x => (f x).min?)).min? := by
  apply Option.ext
  intro a
  simp only [min?_eq_some_iff,mem_flatMap,mem_filterMap]
  constructor
  · rintro ⟨⟨x,hx,ha⟩,least⟩
    refine ⟨⟨x,hx,ha,fun b hb => least b ⟨x,hx,hb⟩⟩,?_⟩
    rintro b ⟨y,hy,hb,_⟩
    exact least b ⟨y,hy,hb⟩
  rintro ⟨⟨x,hx,ha,_⟩,least⟩
  refine ⟨⟨x,hx,ha⟩,?_⟩
  rintro b ⟨y,hy,hb⟩
  cases smallest : (f y).min? with
  | none => rw [min?_eq_none_iff] at smallest; simp [smallest] at hb
  | some m =>
    obtain ⟨hm,below⟩ := min?_eq_some_iff.mp smallest
    exact Std.le_trans (least m ⟨y,hy,hm,below⟩) (below b hb)

end Minimum

section Maximum
variable [Max α] [Std.LawfulOrderMax α]

theorem maxPerm {xs ys : List α} (p : xs.Perm ys) : xs.max? = ys.max? := by
  apply Option.ext
  intro a
  simp only [max?_eq_some_iff,p.mem_iff]

theorem maxFlatMap (f : β → List α) (xs : List β) :
    (xs.flatMap f).max? = (xs.filterMap (fun x => (f x).max?)).max? := by
  apply Option.ext
  intro a
  simp only [max?_eq_some_iff,mem_flatMap,mem_filterMap]
  constructor
  · rintro ⟨⟨x,hx,ha⟩,greatest⟩
    refine ⟨⟨x,hx,ha,fun b hb => greatest b ⟨x,hx,hb⟩⟩,?_⟩
    rintro b ⟨y,hy,hb,_⟩
    exact greatest b ⟨y,hy,hb⟩
  rintro ⟨⟨x,hx,ha,_⟩,greatest⟩
  refine ⟨⟨x,hx,ha⟩,?_⟩
  rintro b ⟨y,hy,hb⟩
  cases largest : (f y).max? with
  | none => rw [max?_eq_none_iff] at largest; simp [largest] at hb
  | some m =>
    obtain ⟨hm,above⟩ := max?_eq_some_iff.mp largest
    exact Std.le_trans (above b hb) (greatest m ⟨y,hy,hm,above⟩)

end Maximum
end Extremes
theorem zipMapMem {α β : Type} {f : α → β} {xs : List α} {x b} (h : (x,b) ∈ xs.zip (xs.map f)) : x ∈ xs ∧ b = f x := by
  induction xs with
  | nil => cases h
  | cons y ys ih =>
    cases mem_cons.mp h with
    | inl head =>
      cases head
      exact ⟨mem_cons_self,rfl⟩
    | inr tail => exact ⟨mem_cons_of_mem _ (ih tail).1,(ih tail).2⟩

section Errors
variable {ε α β : Type} {P : ε → Prop} {e : ε}

theorem foldlMError {f : β → α → Except ε β} (each : ∀ b x e, f b x = .error e → P e) {xs : List α} {b}
    (error : xs.foldlM f b = .error e) : P e := by
  obtain ⟨x,_,b,failed⟩ := Results.foldError error
  exact each b x e failed

theorem mapMError {f : α → Except ε β} (each : ∀ x e, f x = .error e → P e) {xs : List α}
    (error : xs.mapM f = .error e) : P e := by
  induction xs with
  | nil => simp [pure,Except.pure] at error
  | cons x xs ih =>
    rw [mapM_cons] at error
    rcases Results.bindError error with first | ⟨y,_,error⟩
    · exact each x e first
    rcases Results.bindError error with rest | ⟨ys,_,error⟩
    · exact ih rest
    · cases error

end Errors

section Splits
variable {α : Type} {xs ys l r l' r' : List α} {a b : α}

theorem splitSnoc (eq : xs ++ [b] = l ++ a :: r) : (∃ rest, xs = l ++ a :: rest) ∨ (l = xs ∧ a = b) := by
  rcases append_eq_append_iff.mp eq with ⟨more,left,right⟩ | ⟨more,left,right⟩
  · cases more with
    | nil =>
      have same : b = a := by simpa using congrArg List.head? right
      exact .inr ⟨by simpa using left,same.symm⟩
    | cons x more =>
      have short := congrArg List.length right
      simp at short
  · cases more with
    | nil =>
      have same : a = b := by simpa using congrArg List.head? right
      exact .inr ⟨by simpa using left.symm,same⟩
    | cons x more =>
      have same : a = x := by simpa using congrArg List.head? right
      exact .inl ⟨more,by rw [left,same]⟩

theorem splitLeft (eq : xs ++ ys = l ++ a :: r) (mem : a ∈ xs) (distinct : (xs ++ ys).Nodup) :
    ∃ rest, xs = l ++ a :: rest := by
  have apart := (nodup_append.mp distinct).2.2 a mem
  rcases append_eq_append_iff.mp eq with ⟨more,left,right⟩ | ⟨more,left,right⟩
  · exact absurd rfl (apart a (right ▸ mem_append_right more mem_cons_self))
  cases more with
  | nil =>
    have first : a ∈ ys := by
      rw [nil_append] at right
      exact right ▸ mem_cons_self
    exact absurd rfl (apart a first)
  | cons x more =>
    have same : a = x := by simpa using congrArg List.head? right
    exact ⟨more,by rw [left,same]⟩

theorem splitUnique (eq : l ++ a :: r = l' ++ a :: r') (distinct : (l ++ a :: r).Nodup) : l = l' := by
  rcases append_eq_append_iff.mp eq with ⟨more,left,right⟩ | ⟨more,left,right⟩
  · cases more with
    | nil => simpa using left.symm
    | cons x more =>
      have again : a ∈ r := by
        have tail : r = more ++ a :: r' := by simpa using congrArg List.tail right
        exact tail ▸ mem_append_right more mem_cons_self
      have fresh := (nodup_cons.mp (nodup_append.mp distinct).2.1).1
      exact absurd again fresh
  · cases more with
    | nil => simpa using left
    | cons x more =>
      have same : a = x := by simpa using congrArg List.head? right
      have again : a ∈ l := left ▸ mem_append_right l' (same ▸ mem_cons_self)
      exact absurd rfl ((nodup_append.mp distinct).2.2 a again a mem_cons_self)

end Splits
end Pulso.Lists
