import Mathlib.Algebra.Order.Group.Nat
import Pulso.AppendRuns

/-! Every request received by the append buffer is answered once, and its records are passed to the
store in one shared batch, or once more alone after a failure that came before any upload. -/
namespace Pulso.AppendBuffer
open Pulso.Places List

variable {A R : Type}

def World.received (w : World A R) : Multiset (Request A) :=
  w.pending + (w.flushes.map (fun f => (f.batch : Multiset (Request A)))).sum

def Request.is (id : Nat) (r : Request A) : Prop := r.id = id

instance (id : Nat) : DecidablePred (Request.is (A := A) id) := fun r => inferInstanceAs (Decidable (r.id = id))

def tally (id : Nat) (requests : Multiset (Request A)) : Nat := requests.countP (Request.is id)

/- The replies sent for a request, the flushes that passed it on in their batch, and the times it was
passed on alone. -/
def World.replies (w : World A R) (id : Nat) : List (Result R) :=
  w.flushes.flatMap (fun f => (f.answered.filter (fun a => Request.is id a.1)).map Prod.snd)

def World.batches (w : World A R) (id : Nat) : List (Flush A R) :=
  w.flushes.filter (fun f => f.batch.any (fun r => Request.is id r))

def World.solos (w : World A R) (id : Nat) : Nat := (w.flushes.map (fun f => tally id (f.alone : Multiset (Request A)))).sum

structure World.Once (w : World A R) (r : Request A) : Prop where
  replied : (w.replies r.id).length + tally r.id w.unanswered = 1
  passed : (w.batches r.id).length + tally r.id (w.pending : Multiset (Request A)) = 1
  again : w.solos r.id ≤ (w.batches r.id).length
  unsent : ∀ f ∈ w.batches r.id, 0 < tally r.id (f.alone : Multiset (Request A)) → f.Preflight

theorem tallySum (id : Nat) (g : Flush A R → Multiset (Request A)) (flushes : List (Flush A R)) :
    tally id (flushes.map g).sum = (flushes.map (fun f => tally id (g f))).sum := by
  have hom := map_list_sum (Multiset.countPAddMonoidHom (Request.is (A := A) id)) (flushes.map g)
  rw [map_map] at hom
  exact hom

theorem tallyAdd (id : Nat) (s t : Multiset (Request A)) : tally id (s + t) = tally id s + tally id t :=
  Multiset.countP_add ..

theorem tallyLe (id : Nat) {s t : Multiset (Request A)} (le : s ≤ t) : tally id s ≤ tally id t := Multiset.countP_le_of_le _ le

section Counting
variable {w : World A R} {r : Request A}

theorem receivedOnce (books : w.Books) (mem : r ∈ w.received) :
    tally r.id (w.pending : Multiset (Request A)) + (w.flushes.map (fun f => tally r.id (f.batch : Multiset (Request A)))).sum = 1 := by
  have le : w.received ≤ w.everyone := by
    refine Multiset.le_iff_exists_add.mpr ⟨w.rejected + w.admitted + w.mailbox,?_⟩
    simp only [World.everyone,World.received]
    abel
  have once : tally r.id w.everyone ≤ 1 := by
    have count := Multiset.nodup_iff_count_le_one.mp books.ids r.id
    rw [Multiset.count_map,← Multiset.countP_eq_card_filter] at count
    refine le_trans (le_of_eq ?_) count
    exact Multiset.countP_congr rfl (fun _ _ => by simp [Request.is,eq_comm])
  have some : 0 < tally r.id w.received := Multiset.countP_pos.mpr ⟨r,mem,rfl⟩
  have split := tallyAdd r.id (w.pending : Multiset (Request A)) (w.flushes.map (fun f => (f.batch : Multiset (Request A)))).sum
  rw [tallySum] at split
  unfold World.received at some le
  have bound := tallyLe r.id le
  omega

theorem repliesLength (w : World A R) (id : Nat) :
    (w.replies id).length = (w.flushes.map (fun f => tally id f.answeredRequests)).sum := by
  unfold World.replies
  rw [length_flatMap]
  refine congrArg List.sum (map_congr_left ?_)
  intro f _
  rw [length_map,tally,Flush.answeredRequests,Multiset.coe_countP,countP_map,countP_eq_length_filter]
  rfl

theorem batchesLength {flushes : List (Flush A R)} {id}
    (few : ∀ f ∈ flushes, tally id (f.batch : Multiset (Request A)) ≤ 1) :
    (flushes.filter (fun f => f.batch.any (fun r => Request.is id r))).length =
      (flushes.map (fun f => tally id (f.batch : Multiset (Request A)))).sum := by
  induction flushes with
  | nil => rfl
  | cons f rest ih =>
    have tail := ih (forall_mem_cons.mp few).2
    have head := few f mem_cons_self
    have present : f.batch.any (fun r => Request.is id r) = true ↔ 0 < tally id (f.batch : Multiset (Request A)) := by
      rw [tally,Multiset.countP_pos,any_eq_true]
      simp
    rw [filter_cons,map_cons,sum_cons]
    split
    case isTrue here =>
      have one := present.mp here
      rw [length_cons]
      omega
    case isFalse absent =>
      have none := mt present.mpr absent
      omega

theorem soundOnce (sound : w.Sound) (mem : r ∈ w.received) : w.Once r := by
  have once := receivedOnce sound.books mem
  have few : ∀ f ∈ w.flushes, tally r.id (f.batch : Multiset (Request A)) ≤ 1 := by
    intro f mem
    have one := single_le_sum (by simp) _
      (mem_map_of_mem (f := fun f : Flush A R => tally r.id (f.batch : Multiset (Request A))) mem)
    omega
  have passed := batchesLength few
  constructor
  · have parts : (w.flushes.map (fun f => tally r.id (f.batch : Multiset (Request A)))).sum =
        (w.flushes.map (fun f => tally r.id f.answeredRequests)).sum +
          (w.flushes.map (fun f => tally r.id (f.left : Multiset (Request A)))).sum := by
      rw [← sum_map_add]
      refine congrArg List.sum (map_congr_left ?_)
      intro f mem
      rw [← (sound.tended.staged f mem).answers,tallyAdd]
    rw [repliesLength,World.unanswered,tallyAdd,tallySum]
    omega
  · rw [World.batches,passed]
    omega
  · rw [World.batches,passed]
    exact sum_le_sum (fun f mem => tallyLe r.id (sound.tended.staged f mem).passes)
  · intro f mem some
    have listed : f ∈ w.flushes := mem_of_mem_filter mem
    refine (sound.tended.staged f listed).preflight ?_
    intro none
    rw [none] at some
    exact absurd some (by simp [tally])

end Counting

end Pulso.AppendBuffer
