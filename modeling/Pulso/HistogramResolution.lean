import Mathlib.Algebra.BigOperators.Group.List.Basic
import Mathlib.Analysis.SpecialFunctions.Pow.Real
import Pulso.NativeHistogram

/-! Native histograms at a lower resolution. The entries of one side are merged into the buckets that contain
them, in one step or in several, and are laid out in spans without loss. -/
namespace Pulso.PromQL.Histogram
open List

variable {C : Type}

def targetIndex (schema target index : Int) : Int := (index - 1) >>> (schema - target).toNat + 1

def mergeStep [Add C] (targetOf : Int → Int) (acc : List (Int × C)) (entry : Int × C) : List (Int × C) :=
  let index := targetOf entry.1
  match acc with
  | [] => [(index,entry.2)]
  | (last,total)::rest => if last = index then (index,total + entry.2)::rest else (index,entry.2)::(last,total)::rest

def reduceEntries [Add C] (schema target : Int) (entries : List (Int × C)) : List (Int × C) :=
  (entries.foldl (mergeStep (targetIndex schema target)) []).reverse

-- the position after the last span, the buckets left and the entries so far, last first
abbrev Expansion (C : Type) := Int × List C × List (Int × C)

def expandStep (acc : Expansion C) (span : Span) : Expansion C :=
  let start := acc.1 + span.offset
  let indexed := (acc.2.1.take span.length).mapIdx (fun k count => (start + k,count))
  (start + span.length,acc.2.1.drop span.length,indexed.reverse ++ acc.2.2)

def expand (spans : List Span) (buckets : List C) : List (Int × C) := (spans.foldl expandStep (0,buckets,[])).2.2.reverse

structure Layout (C : Type) where
  spans : List Span
  buckets : List C
  last : Int

def spanStep (acc : Layout C) (entry : Int × C) : Layout C :=
  let spans := match acc.spans with
    | [] => [⟨entry.1,1⟩]
    | span::rest =>
      if entry.1 = acc.last + 1 then ⟨span.offset,span.length + 1⟩::rest else ⟨entry.1 - acc.last - 1,1⟩::span::rest
  ⟨spans,entry.2::acc.buckets,entry.1⟩

def toSpans (entries : List (Int × C)) : List Span × List C :=
  let acc := entries.foldl spanStep ⟨[],[],0⟩
  (acc.spans.reverse,acc.buckets.reverse)

section Spans

/- The layout of some entries, under whatever buckets come after. -/
def Lays (done : List (Int × C)) (acc : Layout C) : Prop :=
  ∀ more, acc.spans.foldr (fun span e => expandStep e span) (0,acc.buckets.reverse ++ more,[]) =
    (if acc.spans = [] then 0 else acc.last + 1,more,done.reverse)

theorem expandLonger {acc span count} {more : List C} (left : acc.2.1.drop span.length = count::more) :
    expandStep acc ⟨span.offset,span.length + 1⟩ = (acc.1 + span.offset + span.length + 1,more,
      (acc.1 + span.offset + span.length,count)::(expandStep acc span).2.2) := by
  have some := congrArg List.head? left
  rw [head?_drop,head?_cons] at some
  have size := (List.getElem?_eq_some_iff.mp some).1
  have short : (acc.2.1.take span.length).length = span.length := length_take_of_le size.le
  have rest : acc.2.1.drop (span.length + 1) = more := by rw [← drop_drop,left,drop_one,tail_cons]
  simp only [expandStep,rest,take_add_one,some,Option.toList_some,mapIdx_append,short]
  simp
  omega

theorem spanStepLays {done} {acc : Layout C} (h : Lays done acc) (entry : Int × C) :
    Lays (done ++ [entry]) (spanStep acc entry) := by
  intro more
  have before := h (entry.2::more)
  obtain ⟨spans,buckets,last⟩ := acc
  simp only [spanStep,reverse_cons,append_assoc,singleton_append,reverse_append,reverse_nil,nil_append] at before ⊢
  cases spans with
  | nil => simp_all [expandStep]
  | cons span rest =>
    simp only [foldr_cons,reduceCtorEq,if_false] at before
    dsimp only
    split
    case isTrue next =>
      simp only [foldr_cons,reduceCtorEq,if_false]
      generalize rest.foldr _ _ = e at before ⊢
      have left := congrArg (fun x => x.2.1) before
      have place := congrArg Prod.fst before
      have entries := congrArg (fun x => x.2.2) before
      dsimp only [expandStep] at left place
      rw [expandLonger left,entries,place,← next]
    case isFalse gap =>
      simp only [foldr_cons,reduceCtorEq,if_false,before]
      simp [expandStep]

theorem expandToSpans (l : List (Int × C)) : expand (toSpans l).1 (toSpans l).2 = l := by
  have lays : Lays l (l.foldl spanStep ⟨[],[],0⟩) := by
    induction l using List.reverseRecOn with
    | nil => intro more; rfl
    | append_singleton l e ih =>
      rw [foldl_append]
      exact spanStepLays ih e
  have whole := lays []
  rw [append_nil] at whole
  simp only [expand,toSpans,foldl_reverse]
  rw [whole,reverse_reverse]

end Spans

section Merging
variable [AddCommMonoid C] {f g : Int → Int} {l : List (Int × C)}

/- Entries merged twice, the second time over the first stack. -/
theorem mergeAgain (acc : List (Int × C)) (entry : Int × C) :
    (mergeStep f acc entry).foldr (fun e again => mergeStep g again e) [] =
      mergeStep (g ∘ f) (acc.foldr (fun e again => mergeStep g again e) []) entry := by
  cases acc with
  | nil => rfl
  | cons top rest =>
    rw [mergeStep]
    split
    case isTrue same =>
      simp only [foldr_cons]
      generalize rest.foldr _ [] = again
      cases again with
      | nil => simp [mergeStep,same]
      | cons a again => by_cases here : a.1 = g top.1 <;> simp_all [mergeStep,add_assoc]
    · rfl

theorem mergeTwice (l : List (Int × C)) :
    (l.foldl (mergeStep f) []).reverse.foldl (mergeStep g) [] = l.foldl (mergeStep (g ∘ f)) [] := by
  rw [foldl_reverse]
  exact (foldl_hom _ (fun acc e => (mergeAgain acc e).symm)).symm

theorem mergeTotal (l : List (Int × C)) : ((l.foldl (mergeStep f) []).map Prod.snd).sum = (l.map Prod.snd).sum := by
  have sum : (l.map Prod.snd).sum = l.foldl (fun total e => total + e.2) 0 := by rw [sum_eq_foldl,foldl_map]
  rw [sum]
  refine (foldl_hom (fun acc : List (Int × C) => (acc.map Prod.snd).sum) ?_).symm
  intro acc e
  unfold mergeStep
  cases acc with
  | nil => simp
  | cons a acc =>
    dsimp only
    split
    · simp [add_right_comm]
    · simp [add_comm]

def total (f : Int → Int) (l : List (Int × C)) (index : Int) : C := ((l.filter (fun e => f e.1 = index)).map Prod.snd).sum

structure Merged (f : Int → Int) (l acc : List (Int × C)) : Prop where
  down : acc.Pairwise (fun a b => b.1 < a.1)
  mem : ∀ b, b ∈ acc ↔ (∃ e ∈ l, f e.1 = b.1) ∧ b.2 = total f l b.1

theorem totalSnoc (l : List (Int × C)) (e : Int × C) (index : Int) :
    total f (l ++ [e]) index = total f l index + if f e.1 = index then e.2 else 0 := by
  unfold total
  rw [filter_append,map_append,sum_append]
  split <;> simp_all

theorem mergeNext {acc} (h : Merged f l acc) {e} (next : ∀ b ∈ acc, b.1 < f e.1) :
    Merged f (l ++ [e]) ((f e.1,e.2)::acc) := by
  have new : ∀ x ∈ l, f x.1 ≠ f e.1 := fun x listed same =>
    (next (f e.1,total f l (f e.1)) ((h.mem _).mpr ⟨⟨x,listed,same⟩,rfl⟩)).false
  have none : total f l (f e.1) = 0 := by
    rw [total,filter_eq_nil_iff.mpr (fun x listed => by simpa using new x listed)]
    rfl
  refine ⟨pairwise_cons.mpr ⟨next,h.down⟩,fun b => ?_⟩
  rw [mem_cons,h.mem,totalSnoc,Prod.ext_iff]
  by_cases here : f e.1 = b.1
  · rw [here] at new none ⊢
    have absent : ¬ ∃ x ∈ l, f x.1 = b.1 := fun ⟨x,listed,same⟩ => new x listed same
    simp [none,absent,here]
  · simp [here,Ne.symm here,or_and_right,exists_or]

theorem mergeTop {top acc} (h : Merged f l (top::acc)) {e} (same : top.1 = f e.1) :
    Merged f (l ++ [e]) ((f e.1,top.2 + e.2)::acc) := by
  obtain ⟨below,down⟩ := pairwise_cons.mp h.down
  obtain ⟨held,own⟩ := (h.mem top).mp mem_cons_self
  refine ⟨pairwise_cons.mpr ⟨same ▸ below,down⟩,fun b => ?_⟩
  have before := h.mem b
  rw [mem_cons,totalSnoc,Prod.ext_iff]
  by_cases here : f e.1 = b.1
  · have out : b ∉ acc := fun inside => by
      have := below b inside
      omega
    simp_all
  · have other : b ≠ top := by
      rintro rfl
      exact here same.symm
    have := Ne.symm here
    simp_all

theorem mergeMerged (mono : Monotone f) (ordered : l.Pairwise (fun a b => a.1 < b.1)) :
    Merged f l (l.foldl (mergeStep f) []) := by
  induction l using List.reverseRecOn with
  | nil => exact ⟨.nil,by simp⟩
  | append_singleton l e ih =>
    obtain ⟨first,-,across⟩ := pairwise_append.mp ordered
    have h := ih first
    rw [foldl_append]
    generalize l.foldl (mergeStep f) [] = acc at h
    simp only [foldl_cons,foldl_nil]
    unfold mergeStep
    cases acc with
    | nil => exact mergeNext h (by simp)
    | cons top acc =>
      dsimp only
      split
      case isTrue same => exact mergeTop h same
      case isFalse other =>
        obtain ⟨⟨x,listed,from'⟩,-⟩ := (h.mem top).mp mem_cons_self
        have least : top.1 < f e.1 := lt_of_le_of_ne (from' ▸ mono (across x listed e (by simp)).le) other
        refine mergeNext h (forall_mem_cons.mpr ⟨least,fun b inside => ?_⟩)
        exact ((pairwise_cons.mp h.down).1 b inside).trans least

end Merging

section Bounds
open scoped Classical

noncomputable def upper (schema index : Int) : ℝ := 2^(index * 2^(-schema) : ℝ)
def bucket (schema index : Int) : Set ℝ := Set.Ioc (upper schema (index - 1)) (upper schema index)

variable {s a b : Int}

theorem targetCompose (fine : a ≤ s) (coarse : b ≤ a) : targetIndex a b ∘ targetIndex s a = targetIndex s b := by
  funext index
  have sum : (s - b).toNat = (s - a).toNat + (a - b).toNat := by omega
  simp only [Function.comp,targetIndex,add_sub_cancel_right,sum,Int.shiftRight_add]

theorem upperMono (s : Int) : StrictMono (upper s) := by
  intro i j less
  have positive : (0 : ℝ) < 2^(-s) := by positivity
  have cast : (i : ℝ) < j := Int.cast_lt.mpr less
  exact Real.rpow_lt_rpow_of_exponent_lt (by norm_num) (mul_lt_mul_of_pos_right cast positive)

theorem upperScale (coarse : b ≤ s) (j : Int) : upper b j = upper s (j * 2^(s - b).toNat) := by
  obtain ⟨n,rfl⟩ := Int.le.dest coarse
  have step : (2 : ℝ)^(-b) = 2^n * 2^(-(b + n)) := by
    rw [← zpow_natCast,← zpow_add₀ (by norm_num)]
    congr 1
    omega
  rw [upper,upper,step,show (b + n - b).toNat = n by omega]
  push_cast
  rw [mul_assoc]

theorem bucketInside (coarse : b ≤ s) (i j : Int) : bucket s i ⊆ bucket b j ↔ targetIndex s b i = j := by
  have size : (0 : Int) < 2^(s - b).toNat := by positivity
  have low := Int.le_ediv_iff_mul_le (a := j - 1) (b := i - 1) size
  have high := Int.ediv_lt_iff_lt_mul (a := i - 1) (b := j) size
  rw [bucket,bucket,upperScale coarse,upperScale coarse,Set.Ioc_subset_Ioc_iff (upperMono s (by omega)),
    (upperMono s).le_iff_le,(upperMono s).le_iff_le,targetIndex,Int.shiftRight_eq_div_pow]
  push_cast
  omega

theorem targetMono : Monotone (targetIndex s b) := by
  intro i j le
  have size : (0 : Int) < 2^(s - b).toNat := by positivity
  have := Int.ediv_le_ediv size (show i - 1 ≤ j - 1 by omega)
  simp only [targetIndex,Int.shiftRight_eq_div_pow]
  push_cast
  omega

variable [AddCommMonoid C]

/-- Reducing in two steps is reducing once, no count is lost, every entry is counted in the bucket that
contains it, and spans keep the entries. -/
theorem reduceEntriesExact {l : List (Int × C)} (ordered : l.Pairwise (fun x y => x.1 < y.1)) (fine : a ≤ s) (coarse : b ≤ a) :
    reduceEntries a b (reduceEntries s a l) = reduceEntries s b l ∧
      ((reduceEntries s b l).map Prod.snd).sum = (l.map Prod.snd).sum ∧
      (reduceEntries s b l).Pairwise (fun x y => x.1 < y.1) ∧
      (∀ r, r ∈ reduceEntries s b l ↔ (∃ e ∈ l, bucket s e.1 ⊆ bucket b r.1) ∧
        r.2 = ((l.filter (fun e => bucket s e.1 ⊆ bucket b r.1)).map Prod.snd).sum) ∧
      expand (toSpans l).1 (toSpans l).2 = l := by
  have merged := mergeMerged (targetMono (s := s) (b := b)) ordered
  refine ⟨?_,?_,pairwise_reverse.mpr merged.down,fun r => ?_,expandToSpans l⟩
  · rw [reduceEntries,reduceEntries,mergeTwice,targetCompose fine coarse,reduceEntries]
  · rw [reduceEntries,map_reverse,sum_reverse,mergeTotal]
  · simp only [reduceEntries,mem_reverse,merged.mem,bucketInside (coarse.trans fine),total]

theorem reduceEntriesExactBelowZero : reduceEntries 2 0 [(-3,5),(-2,1),(1,(2 : Nat)),(4,3)] = [(0,6),(1,5)] ∧
    reduceEntries 1 0 (reduceEntries 2 1 [(-3,5),(-2,1),(1,(2 : Nat)),(4,3)]) =
      reduceEntries 2 0 [(-3,5),(-2,1),(1,(2 : Nat)),(4,3)] :=
  ⟨by decide +kernel,(reduceEntriesExact (s := 2) (a := 1) (b := 0) (by decide) (by decide) (by decide)).1⟩

end Bounds

end Pulso.PromQL.Histogram
