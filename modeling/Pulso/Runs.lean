import Mathlib.Data.List.SplitBy

/-! Runs of consecutive elements with one key. In a list ordered by key, a key has one run. -/
namespace Pulso.Lists
open List

variable {α κ : Type} [DecidableEq κ] (key : α → κ)

def runs (xs : List α) : List (List α) := xs.splitBy (fun a b => key a == key b)

theorem runsFlatten (xs : List α) : (runs key xs).flatten = xs := flatten_splitBy _ _

variable {key} {xs run : List α}

theorem runNonempty (h : run ∈ runs key xs) : run ≠ [] := ne_nil_of_mem_splitBy h

theorem runMem (h : run ∈ runs key xs) {x} (mem : x ∈ run) : x ∈ xs := by
  rw [← runsFlatten key xs]
  exact mem_flatten_of_mem h mem

theorem chainKey {x run} (chain : (x::run).IsChain (fun a b => (key a == key b) = true)) :
    ∀ y ∈ run, key y = key x := by
  induction run generalizing x with
  | nil => intro y mem; cases mem
  | cons z run ih =>
    rw [isChain_cons_cons,beq_iff_eq] at chain
    exact forall_mem_cons.mpr ⟨chain.1.symm,fun y mem => (ih chain.2 y mem).trans chain.1.symm⟩

theorem runKey (h : run ∈ runs key xs) {x y} (hx : x ∈ run) (hy : y ∈ run) : key x = key y := by
  have chain := isChain_of_mem_splitBy h
  cases run with
  | nil => cases hx
  | cons z run =>
    have same : ∀ w ∈ z::run, key w = key z := forall_mem_cons.mpr ⟨rfl,chainKey chain⟩
    exact (same x hx).trans (same y hy).symm

/- Elements of one key are next to each other. -/
def Convex (key : α → κ) (xs : List α) : Prop := ∀ x y z, [x,y,z].Sublist xs → key x = key z → key y = key x

omit [DecidableEq κ] in
theorem convexOfRank {rank : κ → Nat} (ordered : xs.Pairwise (fun a b => rank (key a) ≤ rank (key b)))
    (faithful : ∀ x ∈ xs, ∀ y ∈ xs, rank (key x) = rank (key y) → key x = key y) : Convex key xs := by
  intro x y z part same
  have inside := part.subset
  have sorted := ordered.sublist part
  simp only [pairwise_cons,mem_cons,not_mem_nil,or_false,forall_eq_or_imp,forall_eq] at sorted
  refine faithful y (inside (by simp)) x (inside (by simp)) ?_
  rw [← same] at sorted
  omega

theorem runsDiffer {parts : List (List α)} (some : [] ∉ parts)
    (constant : ∀ run ∈ parts, ∀ x ∈ run, ∀ y ∈ run, key x = key y)
    (neighbours : parts.IsChain (fun a b => ∃ ha hb, (key (a.getLast ha) == key (b.head hb)) = false))
    (convex : Convex key parts.flatten) : parts.Pairwise (fun a b => ∀ x ∈ a, ∀ y ∈ b, key x ≠ key y) := by
  induction parts with
  | nil => exact .nil
  | cons first parts ih =>
    have rest := ih (fun mem => some (mem_cons_of_mem _ mem)) (forall_mem_cons.mp constant).2 neighbours.tail
      (fun x y z part => convex x y z (part.trans (sublist_append_right _ _)))
    refine pairwise_cons.mpr ⟨?_,rest⟩
    cases parts with
    | nil => intro b mem; cases mem
    | cons second parts =>
      obtain ⟨⟨ha,hb,differ⟩,-⟩ := isChain_cons_cons.mp neighbours
      rw [beq_eq_false_iff_ne] at differ
      intro b mem x hx y hy same
      have left : key x = key (first.getLast ha) := constant first mem_cons_self x hx _ (getLast_mem ha)
      rw [left] at same
      refine differ (Eq.symm ?_)
      rcases mem_cons.mp mem with rfl | mem
      · exact (constant b (mem_cons_of_mem _ mem_cons_self) _ (head_mem hb) y hy).trans same.symm
      have part : [first.getLast ha,second.head hb,y].Sublist (first::second::parts).flatten :=
        (singleton_sublist.mpr (getLast_mem ha)).append
          ((singleton_sublist.mpr (head_mem hb)).append (singleton_sublist.mpr (mem_flatten_of_mem mem hy)))
      exact convex _ _ _ part same

theorem runsApart {xs : List α} (convex : Convex key xs) :
    (runs key xs).Pairwise (fun a b => ∀ x ∈ a, ∀ y ∈ b, key x ≠ key y) :=
  runsDiffer (nil_notMem_splitBy _ _) (fun _ mem _ hx _ hy => runKey mem hx hy)
    (isChain_getLast_head_splitBy (fun a b => key a == key b) xs) (by rw [runsFlatten]; exact convex)

theorem partOf {parts : List (List α)} (some : [] ∉ parts)
    (constant : ∀ run ∈ parts, ∀ x ∈ run, ∀ y ∈ run, key x = key y)
    (apart : parts.Pairwise (fun a b => ∀ x ∈ a, ∀ y ∈ b, key x ≠ key y)) (k : κ) :
    parts.filter (fun run => run.any (fun x => key x = k)) =
      [parts.flatten.filter (fun x => key x = k)].filter (fun run => run ≠ []) := by
  induction parts with
  | nil => rfl
  | cons first parts ih =>
    rw [pairwise_cons] at apart
    have rest := ih (fun mem => some (mem_cons_of_mem _ mem)) (forall_mem_cons.mp constant).2 apart.2
    rw [filter_cons,flatten_cons,filter_append]
    by_cases here : ∃ x ∈ first, key x = k
    · obtain ⟨x,mem,same⟩ := here
      have whole : first.filter (fun y => key y = k) = first := by
        rw [filter_eq_self]
        intro y hy
        rw [constant first mem_cons_self y hy x mem,same]
        simp
      have others : parts.flatten.filter (fun y => key y = k) = [] := by
        rw [filter_eq_nil_iff]
        intro y hy found
        obtain ⟨run,inside,hy⟩ := mem_flatten.mp hy
        exact apart.1 run inside x mem y hy (same.trans (of_decide_eq_true found).symm)
      have held : first ≠ [] := ne_nil_of_mem mem
      rw [if_pos (any_eq_true.mpr ⟨x,mem,decide_eq_true same⟩),rest,whole,others,append_nil]
      simp [held]
    · have missing : first.filter (fun y => key y = k) = [] := by
        rw [filter_eq_nil_iff]
        intro y hy found
        exact here ⟨y,hy,of_decide_eq_true found⟩
      have absent : first.any (fun x => key x = k) ≠ true := by
        intro found
        obtain ⟨y,hy,same⟩ := any_eq_true.mp found
        exact here ⟨y,hy,of_decide_eq_true same⟩
      rw [if_neg absent,rest,missing,nil_append]

theorem runOf {xs : List α} (convex : Convex key xs) (k : κ) :
    (runs key xs).filter (fun run => run.any (fun x => key x = k)) =
      [xs.filter (fun x => key x = k)].filter (fun run => run ≠ []) := by
  have some : [] ∉ runs key xs := nil_notMem_splitBy _ _
  rw [partOf some (fun run mem x hx y hy => runKey mem hx hy) (runsApart convex) k,runsFlatten]

end Pulso.Lists
