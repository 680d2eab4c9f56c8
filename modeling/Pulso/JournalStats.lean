import Mathlib.Data.List.ReduceOption
import Pulso.JournalStore

/-! Every aggregate a reference records is exact over the leaves below it. -/
namespace Pulso.Journal
open List

structure Exact (s : Stats) (ls : List Listing) : Prop where
  n : s.n = (ls.map (fun l => l.segments.length)).sum
  e : s.e = (ls.map Listing.size).sum
  l : s.l = ls.length
  mn : s.mn = (ls.flatMap (fun l => l.segments.map Segment.minTs)).min?
  mx : s.mx = (ls.flatMap (fun l => l.segments.map Segment.maxTs)).max?
  kn : some s.kn = (ls.flatMap stamps).min?
  kx : some s.kx = (ls.flatMap stamps).max?
  rd : s.rd = (ls.flatMap pending).min?
  sb : s.sb = sumKnown (ls.flatMap (fun l => l.segments.map Segment.byteSize))

theorem sumKnownPerm {xs ys} (p : xs.Perm ys) : sumKnown xs = sumKnown ys := by
  have all : xs.all Option.isSome = ys.all Option.isSome := p.all_eq
  have sums : xs.reduceOption.sum = ys.reduceOption.sum := (p.filterMap id).sum_nat
  simp [sumKnown,all,sums]

theorem sumKnownAppend (xs ys : List (Option Nat)) :
    sumKnown (xs ++ ys) = (sumKnown xs).bind (fun a => (sumKnown ys).map (a + ·)) := by
  unfold sumKnown
  rw [all_append,reduceOption_append,sum_append]
  cases xs.all Option.isSome <;> cases ys.all Option.isSome <;> simp

theorem sumKnownFlatMap {α : Type} (f : α → List (Option Nat)) (xs : List α) :
    sumKnown (xs.flatMap f) = sumKnown (xs.map (fun x => sumKnown (f x))) := by
  induction xs with
  | nil => rfl
  | cons x xs ih =>
    have head : sumKnown [sumKnown (f x)] = sumKnown (f x) := by
      cases sumKnown (f x) <;> simp [sumKnown,List.reduceOption]
    rw [flatMap_cons,sumKnownAppend,ih,map_cons,← singleton_append,sumKnownAppend,head]

theorem persistedStamps (sizes : SummarySizes) (l : Listing) : (stamps (l.persisted sizes)).Perm (stamps l) :=
  (Listing.persistedMap Segment.Identity.maxTs sizes l).append (.refl _)

theorem stampsLength (l : Listing) : (stamps l).length = l.size := by simp [stamps,Listing.size,Dict.keys,Dict.size]

variable {s : Stats}

theorem leafStatsOk {l} (ok : leafStats l = .ok s) :
    Dated l.retired ∧ (stamps l).min? = some s.kn ∧ (stamps l).max? = some s.kx ∧
      s = ⟨l.segments.length,(stamps l).length,1,(l.segments.map Segment.minTs).min?,(l.segments.map Segment.maxTs).max?,
        s.kn,s.kx,(pending l).min?,sumKnown (l.segments.map Segment.byteSize)⟩ := by
  unfold leafStats at ok
  split at ok
  · rename_i dated
    split at ok
    · rename_i kn kx least greatest
      cases ok
      exact ⟨dated,least,greatest,rfl⟩
    · simp at ok
  · simp at ok

theorem exactLeaf {ctx : Context} {l} (ok : leafStats l = .ok s) : Exact s [l.persisted ctx.sizes.toSummarySizes] := by
  obtain ⟨_,least,greatest,fields⟩ := leafStatsOk ok
  let sizes := ctx.sizes.toSummarySizes
  have count : (l.persisted sizes).segments.length = l.segments.length := by
    simpa using (Listing.persistedIdentity sizes l).length_eq
  have kn : some s.kn = ([l.persisted sizes].flatMap stamps).min? := by
    rw [flatMap_singleton,Lists.minPerm (persistedStamps sizes l),least]
  have kx : some s.kx = ([l.persisted sizes].flatMap stamps).max? := by
    rw [flatMap_singleton,Lists.maxPerm (persistedStamps sizes l),greatest]
  refine ⟨?_,?_,?_,?_,?_,kn,kx,?_,?_⟩ <;> rw [fields]
  · simpa using count.symm
  · simpa [stampsLength] using (Listing.persistedSize sizes l).symm
  · rfl
  · rw [flatMap_singleton]; exact (Lists.minPerm (Listing.persistedMap Segment.Identity.minTs sizes l)).symm
  · rw [flatMap_singleton]; exact (Lists.maxPerm (Listing.persistedMap Segment.Identity.maxTs sizes l)).symm
  · rw [flatMap_singleton]; rfl
  · rw [flatMap_singleton]; exact (sumKnownPerm (Listing.persistedMap Segment.Identity.byteSize sizes l)).symm

theorem indexStatsOk {children} (ok : indexStats children = .ok s) :
    (children.map (fun c => c.kn)).min? = some s.kn ∧ (children.map (fun c => c.kx)).max? = some s.kx ∧
      s = ⟨(children.map (fun c => c.n)).sum,(children.map (fun c => c.e)).sum,(children.map (fun c => c.l)).sum,
        (children.filterMap (fun c => c.mn)).min?,(children.filterMap (fun c => c.mx)).max?,s.kn,s.kx,
        (children.filterMap (fun c => c.rd)).min?,sumKnown (children.map (fun c => c.sb))⟩ := by
  unfold indexStats at ok
  split at ok
  · rename_i kn kx least greatest
    cases ok
    exact ⟨least,greatest,rfl⟩
  · simp at ok

theorem sumFlatMap {α β : Type} (f : α → List β) (g : β → Nat) (xs : List α) :
    ((xs.flatMap f).map g).sum = (xs.map (fun x => ((f x).map g).sum)).sum := by
  induction xs with
  | nil => rfl
  | cons x xs ih => simp [ih]

theorem exactIndex {children below} (ok : indexStats children = .ok s)
    (each : ∀ c ∈ children, Exact c.toStats (below c)) : Exact s (children.flatMap below) := by
  obtain ⟨least,greatest,fields⟩ := indexStatsOk ok
  have extreme : ∀ {β : Type} (f : Listing → List β), (children.flatMap below).flatMap f =
      children.flatMap (fun c => (below c).flatMap f) := fun f => flatMap_assoc
  have kn : some s.kn = ((children.flatMap below).flatMap stamps).min? := by
    rw [extreme,Lists.minFlatMap,← least,filterMap_congr (fun c mem => (each c mem).kn.symm),filterMap_eq_map']
  have kx : some s.kx = ((children.flatMap below).flatMap stamps).max? := by
    rw [extreme,Lists.maxFlatMap,← greatest,filterMap_congr (fun c mem => (each c mem).kx.symm),filterMap_eq_map']
  refine ⟨?_,?_,?_,?_,?_,kn,kx,?_,?_⟩ <;> rw [fields]
  · rw [sumFlatMap]; exact congrArg _ (map_congr_left (fun c mem => (each c mem).n))
  · rw [sumFlatMap]; exact congrArg _ (map_congr_left (fun c mem => (each c mem).e))
  · rw [length_flatMap]; exact congrArg _ (map_congr_left (fun c mem => (each c mem).l))
  · rw [extreme,Lists.minFlatMap]; exact congrArg List.min? (filterMap_congr (fun c mem => (each c mem).mn))
  · rw [extreme,Lists.maxFlatMap]; exact congrArg List.max? (filterMap_congr (fun c mem => (each c mem).mx))
  · rw [extreme,Lists.minFlatMap]; exact congrArg List.min? (filterMap_congr (fun c mem => (each c mem).rd))
  · rw [extreme,sumKnownFlatMap]; exact congrArg sumKnown (map_congr_left (fun c mem => (each c mem).sb))

theorem Sound.exact {ctx d h ref} (s : Sound ctx d h ref) : Exact ref.toStats (leavesAt d h ref.k) := by
  induction h generalizing ref with
  | zero =>
    obtain ⟨_,mem,placed,stats,_⟩ := s
    rw [leavesAt,PageTree.leavesAtLeaf placed.leafView]
    exact exactLeaf stats
  | succ h ih =>
    obtain ⟨_,_,children,placed,stats,_,below⟩ := s
    rw [leavesAt,PageTree.leavesAtIndex placed.indexView]
    exact exactIndex stats (fun c mem => ih (below c mem))

theorem Exact.stampBounds {s ls} (x : Exact s ls) {l} (mem : l ∈ ls) : ∀ t ∈ stamps l, s.kn ≤ t ∧ t ≤ s.kx := by
  intro t ht
  have inside : t ∈ ls.flatMap stamps := mem_flatMap.mpr ⟨l,mem,ht⟩
  exact ⟨(min?_eq_some_iff.mp x.kn.symm).2 t inside,(max?_eq_some_iff.mp x.kx.symm).2 t inside⟩

theorem Exact.noActive {s ls} (x : Exact s ls) (none : s.n = 0) {l} (mem : l ∈ ls) : l.segments = [] := by
  have zero := x.n.symm.trans none
  have length : l.segments.length ∈ ls.map (fun l => l.segments.length) := mem_map_of_mem mem
  exact length_eq_zero_iff.mp (List.sum_eq_zero_iff_forall_eq_nat.mp zero _ length)

theorem Exact.noPending {s ls} (x : Exact s ls) (none : s.rd = none) {l} (mem : l ∈ ls) : pending l = [] := by
  have empty := min?_eq_none_iff.mp (x.rd.symm.trans none)
  exact flatMap_eq_nil_iff.mp empty l mem

end Pulso.Journal
