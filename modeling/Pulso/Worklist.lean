import Mathlib.Data.List.Basic
import Mathlib.Data.Nat.Basic
import Mathlib.Logic.Relation

/-! Searches that keep a worklist and a set of visited nodes. Whatever way a node is expanded, as long as
the expansion lists exactly its unvisited neighbours, repeated or not, the search ends and what it has
visited is what the start reaches. Loops carry fuel, and `Settles` says that enough of it exists. -/
namespace Pulso.Worklist
open List

section Settling
variable {α β : Type}

def Settles (run : Nat → Option α) (result : α) : Prop := ∃ enough, ∀ fuel, enough ≤ fuel → run fuel = some result

theorem Settles.always {run} {result : α} (same : ∀ fuel, run fuel = some result) : Settles run result :=
  ⟨0,fun fuel _ => same fuel⟩

theorem Settles.chain {first} (second : Nat → α → Option β) {middle result}
    (earlier : Settles first middle) (later : Settles (fun fuel => second fuel middle) result) :
    Settles (fun fuel => (first fuel).bind (second fuel)) result := by
  obtain ⟨n,earlier⟩ := earlier
  obtain ⟨m,later⟩ := later
  refine ⟨max n m,fun fuel enough => ?_⟩
  show (first fuel).bind (second fuel) = some result
  rw [earlier fuel (by omega)]
  exact later fuel (by omega)

theorem Settles.map {run} {middle : α} (f : α → β) (settled : Settles run middle) :
    Settles (fun fuel => (run fuel).bind (fun a => some (f a))) (f middle) :=
  settled.chain (fun _ a => some (f a)) (.always (fun _ => rfl))

end Settling

section Search
variable {ι : Type} {next : ι → List ι} {expand : List ι → ι → List ι}

def search (expand : List ι → ι → List ι) : Nat → List ι → List ι → Option (List ι)
  | _,[],seen => some seen
  | 0,_::_,_ => none
  | fuel+1,x::rest,seen => search expand fuel (expand seen x ++ rest) (expand seen x ++ seen)

structure Fresh (next : ι → List ι) (seen : List ι) (x : ι) (found : List ι) : Prop where
  sound : ∀ y ∈ found, y ∈ next x ∧ y ∉ seen
  complete : ∀ y ∈ next x, y ∈ seen ∨ y ∈ found

def Reaches (next : ι → List ι) (starts : List ι) (y : ι) : Prop :=
  ∃ x ∈ starts, Relation.ReflTransGen (fun a b => b ∈ next a) x y

/- What holds between two expansions: a visited node either still waits or has all its neighbours visited. -/
structure Visiting (next : ι → List ι) (starts queue seen : List ι) : Prop where
  started : ∀ x ∈ starts, x ∈ seen
  queued : ∀ x ∈ queue, x ∈ seen
  reached : ∀ x ∈ seen, Reaches next starts x
  closed : ∀ x ∈ seen, x ∈ queue ∨ ∀ y ∈ next x, y ∈ seen

theorem Visiting.start {starts queue seen} (queued : ∀ x, x ∈ queue ↔ x ∈ starts)
    (visited : ∀ x, x ∈ seen ↔ x ∈ starts) : Visiting next starts queue seen where
  started x mem := (visited x).mpr mem
  queued x mem := (visited x).mpr ((queued x).mp mem)
  reached x mem := ⟨x,(visited x).mp mem,.refl⟩
  closed x mem := .inl ((queued x).mpr ((visited x).mp mem))

theorem Visiting.step {starts rest seen found x} (visiting : Visiting next starts (x::rest) seen)
    (fresh : Fresh next seen x found) : Visiting next starts (found ++ rest) (found ++ seen) where
  started y mem := mem_append_right _ (visiting.started y mem)
  queued y mem := by
    rcases mem_append.mp mem with new | old
    · exact mem_append_left _ new
    · exact mem_append_right _ (visiting.queued y (mem_cons_of_mem _ old))
  reached y mem := by
    rcases mem_append.mp mem with new | old
    · obtain ⟨z,start,path⟩ := visiting.reached x (visiting.queued x mem_cons_self)
      exact ⟨z,start,path.tail (fresh.sound y new).1⟩
    · exact visiting.reached y old
  closed y mem := by
    rcases mem_append.mp mem with new | old
    · exact .inl (mem_append_left _ new)
    rcases visiting.closed y old with waiting | done
    · rcases mem_cons.mp waiting with rfl | waiting
      · exact .inr (fun z edge => mem_append.mpr (fresh.complete z edge).symm)
      · exact .inl (mem_append_right _ waiting)
    · exact .inr (fun z edge => mem_append_right _ (done z edge))

theorem Visiting.finish {starts seen} (visiting : Visiting next starts [] seen) (y : ι) :
    y ∈ seen ↔ Reaches next starts y := by
  refine ⟨visiting.reached y,?_⟩
  rintro ⟨x,start,path⟩
  induction path with
  | refl => exact visiting.started x start
  | tail _ edge ih =>
    rcases visiting.closed _ ih with waiting | done
    · cases waiting
    · exact done _ edge

section Ending
variable [DecidableEq ι]

def unseen (nodes seen : List ι) : Nat := (nodes.filter (fun x => x ∉ seen)).length

theorem unseenLess {nodes seen found} {y : ι} (node : y ∈ nodes) (new : y ∈ found) (old : y ∉ seen) :
    unseen nodes (found ++ seen) < unseen nodes seen := by
  unfold unseen
  have smaller : (nodes.filter (fun x => x ∉ found ++ seen)) = (nodes.filter (fun x => x ∉ seen)).filter (fun x => x ∉ found) := by
    rw [filter_filter]
    simp [mem_append]
  rw [smaller]
  refine lt_of_le_of_ne (length_filter_le _ _) (fun same => ?_)
  have all := length_filter_eq_length_iff.mp same y (mem_filter.mpr ⟨node,by simpa using old⟩)
  simp [new] at all

/- Induction on the unvisited nodes, and for each number of them on the queue: an expansion that finds
nothing shortens the queue, any other visits a node. -/
theorem searchEnds {nodes : List ι} (inside : ∀ x, ∀ y ∈ next x, y ∈ nodes)
    (fresh : ∀ seen x, Fresh next seen x (expand seen x)) (starts : List ι) (n : Nat) :
    ∀ queue seen, unseen nodes seen = n → Visiting next starts queue seen →
      ∃ result, Settles (fun fuel => search expand fuel queue seen) result ∧ ∀ y, y ∈ result ↔ Reaches next starts y := by
  induction n using Nat.strongRecOn with
  | ind n outer =>
    intro queue
    induction queue with
    | nil =>
      intro seen _ visiting
      exact ⟨seen,.always (fun fuel => by cases fuel <;> rfl),visiting.finish⟩
    | cons x rest inner =>
      intro seen count visiting
      have stepped := visiting.step (fresh seen x)
      have ended : ∃ result, Settles (fun fuel => search expand fuel (expand seen x ++ rest) (expand seen x ++ seen)) result ∧
          ∀ y, y ∈ result ↔ Reaches next starts y := by
        cases found : expand seen x with
        | nil =>
          rw [found] at stepped
          exact inner seen count stepped
        | cons y others =>
          have new : y ∈ expand seen x := by rw [found]; exact mem_cons_self
          obtain ⟨edge,old⟩ := (fresh seen x).sound y new
          rw [← found]
          exact outer _ (count ▸ unseenLess (inside x y edge) new old) _ _ rfl stepped
      obtain ⟨result,⟨enough,ends⟩,reached⟩ := ended
      refine ⟨result,⟨enough + 1,fun fuel more => ?_⟩,reached⟩
      obtain ⟨fuel,rfl⟩ := Nat.exists_eq_add_of_le' (show 1 ≤ fuel by omega)
      exact ends fuel (by omega)

theorem searchReach {nodes : List ι} (inside : ∀ x, ∀ y ∈ next x, y ∈ nodes)
    (fresh : ∀ seen x, Fresh next seen x (expand seen x)) {starts queue seen}
    (queued : ∀ x, x ∈ queue ↔ x ∈ starts) (visited : ∀ x, x ∈ seen ↔ x ∈ starts) :
    ∃ result, Settles (fun fuel => search expand fuel queue seen) result ∧ ∀ y, y ∈ result ↔ Reaches next starts y :=
  searchEnds inside fresh starts _ queue seen rfl (.start queued visited)

end Ending
end Search
end Pulso.Worklist
