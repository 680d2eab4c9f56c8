import Pulso.AppendBuffer

/-! What one flush task does with its batch: it answers every request once, and passes a request on
alone only when the shared attempt failed before its upload. -/
namespace Pulso.AppendBuffer
open Pulso.Places List

variable {A R : Type}

def Flush.left (f : Flush A R) : List (Request A) :=
  match f.stage with
  | .calling | .registering => f.batch
  | .answering _ left => left
  | .splitting waiting running => waiting ++ running
  | .reported | .closed => []

def Flush.isOpen (f : Flush A R) : Bool :=
  match f.stage with
  | .closed => false
  | _ => true

def Flush.weight (f : Flush A R) : Nat :=
  match f.stage with
  | .calling => 3 * f.batch.length + 5
  | .registering => 3 * f.batch.length + 3
  | .answering _ left => left.length + 2
  | .splitting waiting running => 3 * waiting.length + running.length + 2
  | .reported => 1
  | .closed => 0

def Flush.Preflight (f : Flush A R) : Prop := f.began = false ∧ ∃ result, f.outcome = some result ∧ encodingError result = true

def Flush.answeredRequests (f : Flush A R) : Multiset (Request A) := (f.answered.map Prod.fst : List (Request A))

def Flush.Staged (f : Flush A R) : Prop :=
  match f.stage with
  | .calling => f.answered = [] ∧ f.alone = [] ∧ f.began = false
  | .registering => f.answered = [] ∧ f.alone = []
  | .answering _ left => f.answeredRequests + left = f.batch ∧ f.alone = []
  | .splitting waiting running =>
    f.answeredRequests + waiting + running = f.batch ∧ (f.alone : Multiset (Request A)) + waiting = f.batch ∧ f.Preflight
  | .reported | .closed =>
    f.answeredRequests = f.batch ∧ (f.alone = [] ∨ (f.alone : Multiset (Request A)) = f.batch ∧ f.Preflight)

variable {f : Flush A R}

theorem Flush.Staged.answers (staged : f.Staged) : f.answeredRequests + f.left = f.batch := by
  unfold Flush.Staged at staged
  unfold Flush.left
  split at staged
  case h_1 => simp [Flush.answeredRequests,staged.1]
  case h_2 => simp [Flush.answeredRequests,staged.1]
  case h_3 => exact staged.1
  case h_4 => rw [← staged.1,← Multiset.coe_add,add_assoc]
  case h_5 => simpa using staged.1
  case h_6 => simpa using staged.1

theorem noneAlone (none : f.alone = []) : (f.alone : Multiset (Request A)) ≤ f.batch := by
  rw [none]
  exact Multiset.zero_le _

theorem Flush.Staged.passes (staged : f.Staged) : (f.alone : Multiset (Request A)) ≤ f.batch := by
  unfold Flush.Staged at staged
  split at staged
  case h_1 => exact noneAlone staged.2.1
  case h_2 => exact noneAlone staged.2
  case h_3 => exact noneAlone staged.2
  case h_4 => exact Multiset.le_iff_exists_add.mpr ⟨_,staged.2.1.symm⟩
  case h_5 => exact staged.2.elim noneAlone (fun all => all.1.le)
  case h_6 => exact staged.2.elim noneAlone (fun all => all.1.le)

theorem Flush.Staged.preflight (staged : f.Staged) (some : f.alone ≠ []) : f.Preflight := by
  unfold Flush.Staged at staged
  split at staged
  case h_1 => exact absurd staged.2.1 some
  case h_2 => exact absurd staged.2 some
  case h_3 => exact absurd staged.2 some
  case h_4 => exact staged.2.2
  case h_5 => exact (staged.2.resolve_left some).2
  case h_6 => exact (staged.2.resolve_left some).2

structure Flush.Next (f next : Flush A R) (released : Option (Request A)) (told : Bool) : Prop where
  batch : next.batch = f.batch
  staged : next.Staged
  left : (f.left : Multiset (Request A)) = released.toList + (next.left : Multiset (Request A))
  opened : f.isOpen = true ∧ next.isOpen = true
  lighter : next.weight + (if told then 1 else 0) < f.weight

theorem registeredSafe (answer : Option (Limit ⊕ R)) : encodingError (registered answer) = false := by
  rcases answer with _ | _ | _ <;> rfl

theorem publishStage (f : Flush A R) (result : Result R) :
    (encodingError result = true ∧ (f.publish result).stage = .splitting f.batch []) ∨
      (encodingError result = false ∧ ∃ answer, (f.publish result).stage = .answering answer f.batch) := by
  cases safe : encodingError result with
  | true => exact .inl ⟨rfl,by simp [Flush.publish,safe]⟩
  | false =>
    refine .inr ⟨rfl,?_⟩
    simp only [Flush.publish,safe,Bool.false_eq_true,if_false]
    split
    · exact ⟨_,rfl⟩
    · exact ⟨_,rfl⟩

theorem publishNext {f g : Flush A R} {result} (batch : g.batch = f.batch) (none : g.answered = [] ∧ g.alone = [])
    (left : f.left = f.batch) (opened : f.isOpen = true) (weight : 3 * f.batch.length + 3 ≤ f.weight)
    (safe : encodingError result = true → g.began = false) : f.Next (g.publish result) .none false := by
  have kept : (g.publish result).batch = f.batch := batch
  have unanswered : (g.publish result).answeredRequests = 0 := by simp [Flush.answeredRequests,Flush.publish,none.1]
  have unpassed : (g.publish result).alone = [] := none.2
  rcases publishStage g result with ⟨split,stage⟩ | ⟨-,answer,stage⟩
  · have staged : (g.publish result).Staged := by
      simp only [Flush.Staged,stage,unanswered,unpassed,kept,batch]
      exact ⟨by simp,by simp,safe split,result,rfl,split⟩
    have same : (g.publish result).left = f.left := by
      rw [left]
      simp [Flush.left,stage,batch]
    have lighter : (g.publish result).weight = 3 * f.batch.length + 2 := by simp [Flush.weight,stage,batch]
    exact ⟨kept,staged,by simp [same],⟨opened,by simp [Flush.isOpen,stage]⟩,by simp [lighter]; omega⟩
  · have staged : (g.publish result).Staged := by
      simp only [Flush.Staged,stage,unanswered,unpassed,kept,batch]
      exact ⟨by simp,trivial⟩
    have same : (g.publish result).left = f.left := by
      rw [left]
      simp [Flush.left,stage,batch]
    have lighter : (g.publish result).weight = f.batch.length + 2 := by simp [Flush.weight,stage,batch]
    exact ⟨kept,staged,by simp [same],⟨opened,by simp [Flush.isOpen,stage]⟩,by simp [lighter]; omega⟩

theorem splitReplyNext {f next : Flush A R} {waiting running id result released told} (stage : f.stage = .splitting waiting running) (staged : f.Staged)
    (acted : f.splitReply waiting running id result = some (next,released,told)) : f.Next next released told := by
  unfold Flush.splitReply at acted
  split at acted
  case h_2 => cases acted
  rename_i r rest taken
  cases acted
  have moved := pullTaken taken
  have fewer : running.length = rest.length + 1 := by simpa [add_comm] using congrArg Multiset.card moved
  simp only [Flush.Staged,stage,moved] at staged
  refine ⟨rfl,⟨?_,staged.2⟩,?_,by simp [Flush.isOpen,stage],by simp [Flush.weight,stage,fewer]⟩
  · rw [← staged.1]
    simp only [Flush.answeredRequests,map_append,map_cons,map_nil,← Multiset.coe_add,Multiset.coe_singleton]
    abel
  · simp only [Flush.left,stage,← Multiset.coe_add,moved]
    simp only [Option.toList_some,Multiset.coe_singleton]
    abel

theorem actNext {f next : Flush A R} {work released told} (staged : f.Staged)
    (acted : f.act work = some (next,released,told)) : f.Next next released told := by
  unfold Flush.act at acted
  split at acted
  case h_1 checks put stage =>
    have left : f.left = f.batch := by simp [Flush.left,stage]
    have opened : f.isOpen = true := by simp [Flush.isOpen,stage]
    have weight : f.weight = 3 * f.batch.length + 5 := by simp [Flush.weight,stage]
    simp only [Flush.Staged,stage] at staged
    split at acted
    · cases acted
      exact publishNext rfl ⟨staged.1,staged.2.1⟩ left opened (by omega) (fun _ => staged.2.2)
    split at acted
    · cases acted
      exact publishNext rfl ⟨staged.1,staged.2.1⟩ left opened (by omega) (fun split => by cases split)
    · cases acted
      exact ⟨rfl,⟨staged.1,staged.2.1⟩,by simp [Flush.left,stage],⟨opened,rfl⟩,by simp [Flush.weight,stage]⟩
  case h_2 answer stage =>
    have left : f.left = f.batch := by simp [Flush.left,stage]
    have weight : f.weight = 3 * f.batch.length + 3 := by simp [Flush.weight,stage]
    simp only [Flush.Staged,stage] at staged
    cases acted
    refine publishNext rfl staged left (by simp [Flush.isOpen,stage]) (by omega) ?_
    intro split
    rw [registeredSafe] at split
    cases split
  case h_3 result r left stage =>
    simp only [Flush.Staged,stage] at staged
    cases acted
    refine ⟨rfl,⟨?_,staged.2⟩,?_,by simp [Flush.isOpen,stage],by simp [Flush.weight,stage]⟩
    · rw [← staged.1,← Multiset.cons_coe,← Multiset.singleton_add]
      simp only [Flush.answeredRequests,map_append,map_cons,map_nil,← Multiset.coe_add,Multiset.coe_singleton]
      abel
    · simp only [Flush.left,stage]
      rfl
  case h_4 result stage =>
    simp only [Flush.Staged,stage] at staged
    cases acted
    exact ⟨rfl,⟨by simpa [Flush.answeredRequests] using staged.1,.inl staged.2⟩,by simp [Flush.left,stage],by simp [Flush.isOpen,stage],by simp [Flush.weight,stage]⟩
  case h_5 r waiting running stage =>
    split at acted
    case isFalse => cases acted
    simp only [Flush.Staged,stage] at staged
    cases acted
    refine ⟨rfl,⟨?_,?_,staged.2.2⟩,?_,by simp [Flush.isOpen,stage],by simp [Flush.weight,stage]; omega⟩
    · rw [← staged.1,← Multiset.cons_coe,← Multiset.singleton_add]
      simp only [Flush.answeredRequests,← Multiset.coe_add,Multiset.coe_singleton]
      abel
    · rw [← staged.2.1,← Multiset.cons_coe,← Multiset.singleton_add]
      simp only [← Multiset.coe_add,Multiset.coe_singleton]
      abel
    simp only [Flush.left,stage,cons_append,← Multiset.cons_coe,← Multiset.singleton_add]
    simp only [Option.toList_none,← Multiset.coe_add,Multiset.coe_singleton,Multiset.coe_nil]
    abel
  case h_6 stage => exact splitReplyNext stage staged acted
  case h_7 stage => exact splitReplyNext stage staged acted
  case h_8 stage =>
    simp only [Flush.Staged,stage] at staged
    cases acted
    refine ⟨rfl,⟨by simpa [Flush.answeredRequests] using staged.1,.inr ⟨by simpa using staged.2.1,staged.2.2⟩⟩,by simp [Flush.left,stage],by simp [Flush.isOpen,stage],by simp [Flush.weight,stage]⟩
  case h_9 => cases acted

theorem actEnabled (opened : f.isOpen = true) (unreported : f.stage.isReported = false) :
    ∃ work, (f.act work).isSome = true := by
  obtain ⟨batch,stage,began,uploaded,outcome,alone,answered⟩ := f
  rcases stage with _ | _ | ⟨result,_ | ⟨r,left⟩⟩ | ⟨waiting,_ | ⟨r,running⟩⟩ | _ | _
  · exact ⟨.call ⟨false,none,none⟩ none,rfl⟩
  · exact ⟨.register none,rfl⟩
  · exact ⟨.report,rfl⟩
  · exact ⟨.answer,rfl⟩
  · cases waiting with
    | nil => exact ⟨.report,rfl⟩
    | cons r waiting => exact ⟨.split,rfl⟩
  · refine ⟨.splitRaised r.id,?_⟩
    simp [Flush.act,Flush.splitReply,pull]
  · cases unreported
  · cases opened

end Pulso.AppendBuffer
