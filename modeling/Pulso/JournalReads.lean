import Pulso.JournalWindow

/-! The reads of a published root agree: a plan without a window lists every candidate or refuses at the
scan limit, a window is the beginning of it, and a lookup answers as the whole listing does. -/
namespace Pulso.Journal
open List

theorem exceedsMore {maximum : Option Nat} {m n} (le : m ≤ n) (past : maximum.any (· < m) = true) :
    maximum.any (· < n) = true := by
  obtain ⟨most,is,less⟩ := (Option.any_eq_true _ _).mp past
  exact (Option.any_eq_true _ _).mpr ⟨most,is,decide_eq_true ((of_decide_eq_true less).trans_le le)⟩

theorem addLeavesAll {read content} {leaves : List Ref} {found : List Segment} {maximum : Option Nat}
    (reads : ∀ ref ∈ leaves, read ref = Except.ok (content ref)) (room : maximum.any (· < found.length) = false) :
    if maximum.any (· < (found ++ leaves.flatMap content).length) then
      leaves.foldlM (addLeaf read maximum) found = .error .queryScanLimit
    else ∃ all, leaves.foldlM (addLeaf read maximum) found = .ok all ∧ all.Perm (found ++ leaves.flatMap content) := by
  -- the count held only grows, so a leaf that passes the limit decides for all behind it
  induction leaves generalizing found with
  | nil => simpa [room] using ⟨found,rfl,.refl _⟩
  | cons ref rest ih =>
    obtain ⟨here,later⟩ := forall_mem_cons.mp reads
    have step : (ref::rest).foldlM (addLeaf read maximum) found =
        if maximum.any (· < found.length + (content ref).length) then .error .queryScanLimit
        else rest.foldlM (addLeaf read maximum) (content ref ++ found) := by
      rw [foldlM_cons,addLeaf,here]
      dsimp only [bind,Except.bind]
      cases maximum.any (· < found.length + (content ref).length) <;> rfl
    have moved : (content ref ++ found ++ rest.flatMap content).Perm (found ++ content ref ++ rest.flatMap content) :=
      perm_append_comm.append_right _
    rw [step,flatMap_cons,← append_assoc]
    cases past : maximum.any (· < found.length + (content ref).length) with
    | true =>
      rw [if_pos (exceedsMore (by simp only [length_append]; omega) past)]
      rfl
    | false =>
      have next := @ih (content ref ++ found) later (by simpa [Nat.add_comm] using past)
      rw [moved.length_eq] at next
      rw [if_neg Bool.false_ne_true]
      split at next
      · rename_i exceeded
        rw [if_pos exceeded,next]
      · rename_i within
        obtain ⟨all,ran,same⟩ := next
        rw [if_neg within]
        exact ⟨all,ran,same.trans moved⟩

theorem allCandidatesAll {read content} {leaves : List Ref} (found : List Segment) (maximum : Option Nat)
    (reads : ∀ ref ∈ leaves, read ref = Except.ok (content ref)) :
    if maximum.any (· < (found ++ leaves.flatMap content).length) then
      allCandidates read maximum leaves found = .error .queryScanLimit
    else ∃ result, allCandidates read maximum leaves found = .ok result ∧ result.Perm (found ++ leaves.flatMap content) ∧
      result.Pairwise (fun a b => b.maxTs ≤ a.maxTs) := by
  unfold allCandidates
  cases past : maximum.any (· < found.length) with
  | true =>
    rw [if_pos (exceedsMore (sublist_append_left _ _).length_le past)]
    rfl
  | false =>
    have folded := addLeavesAll reads past
    split at folded
    · rename_i exceeded
      rw [if_pos exceeded,folded]
      rfl
    · rename_i within
      obtain ⟨all,ran,same⟩ := folded
      rw [if_neg within,ran]
      exact ⟨_,rfl,(Lists.sortDescPerm _ _).trans same,pairwise_insertionSort _ _⟩

def referenced (root : Root) : Nat := root.segments.length + (root.refs.map (fun r => r.n)).sum

/- `cleanup_pending?/1` -/
def cleanupPending (root : Root) : Bool :=
  0 < root.retired.size || root.paging.g ≠ [] || root.paging.gr ≠ [] || root.refs.any (fun r => r.rd.isSome)

/- The counts of the references answer for their pages, in every root of every run. -/
theorem referencesAnswer {ctx : Context} {s s' : State} (start : Start ctx s) (run : Reaches ctx anything s s') (root : Root)
    (published : root ∈ s'.past) : referenced root = (segmentsOf s'.disk root).length ∧
      (cleanupPending root = false → garbage s'.disk root.paging = [] ∧
        ∀ k r, Item.retired (k,r) ∈ catalog s'.disk root → r.deleted = true) := by
  have wf := (reachOwned (startOwned start) run).roots root published
  constructor
  · have each : root.refs.map (fun r => r.n) =
        root.refs.map (fun r => ((leavesAt s'.disk r.h r.k).flatMap Listing.segments).length) :=
      map_congr_left (fun r mem => by rw [(wf.refs r mem).exact.n,length_flatMap])
    rw [referenced,each,segmentsOf,length_append,forestLeaves,flatMap_assoc,length_flatMap]
  · intro idle
    simp only [cleanupPending,Bool.or_eq_false_iff,decide_eq_false_iff_not,not_not,any_eq_false,Nat.not_lt,Nat.le_zero] at idle
    obtain ⟨⟨⟨none,g⟩,gr⟩,settled⟩ := idle
    refine ⟨by simp [garbage,g,gr],fun k r mem => ?_⟩
    rcases mem_append.mp mem with tail | page
    · simp [Listing.catalog,eq_nil_of_length_eq_zero none,Item.retired,Item.active] at tail
    obtain ⟨l,listed,item⟩ := mem_flatMap.mp page
    obtain ⟨ref,hr,leaf⟩ := mem_flatMap.mp listed
    have done := (wf.refs ref hr).exact.noPending (by simpa using settled ref hr) leaf
    have entry : (k,r) ∈ l.retired.entries := by simpa [Listing.catalog,Item.retired,Item.active] using item
    by_contra live
    exact absurd (mem_map_of_mem (mem_filter.mpr ⟨entry,by simpa using live⟩)) (done ▸ not_mem_nil)

theorem referencesAnswerRevived :
    referenced Sample.revived.1 = (segmentsOf Sample.revived.2 Sample.revived.1).length :=
  (referencesAnswer Sample.openingStarts Sample.retriedReached Sample.revived.1 mem_cons_self).1

end Pulso.Journal
