import Pulso.AlertRepository

/-! The committed revisions of a rule form one chain of parents, so an expected revision has at
most one committed child, and the bounded walk over the ancestry finds it or gives up. -/
namespace Pulso.Alerting
open List
variable {A : Type}

/-- Revisions, newest first, each naming the address of the one before it. -/
def Chain (address : Snapshot A → A) : List (Snapshot A) → Prop
  | [] => True
  | c :: rest => c.parent = rest.head?.map address ∧ c.changeSeq = rest.length+1 ∧ Chain address rest

def CollisionFree (address : Snapshot A → A) (objects : List (Snapshot A)) : Prop :=
  ∀ a ∈ objects, ∀ b ∈ objects, address a = address b → a = b

section Chains
variable {address : Snapshot A → A} {history : List (Snapshot A)} {c d : Snapshot A} (h : Chain address history)
include h

variable (mem : c ∈ history)
include mem

theorem chainBounded : c.changeSeq ≤ history.length := by
  induction history with
  | nil => cases mem
  | cons first rest ih =>
    obtain ⟨_,seq,tail⟩ := h
    rcases mem_cons.mp mem with rfl | later
    · rw [seq,length_cons]
    · exact Nat.le_succ_of_le (ih tail later)

theorem chainParent {ref} (parent : c.parent = some ref) :
    ∃ p ∈ history, address p = ref ∧ c.changeSeq = p.changeSeq+1 := by
  induction history with
  | nil => cases mem
  | cons first rest ih =>
    obtain ⟨link,seq,tail⟩ := h
    rcases mem_cons.mp mem with rfl | later
    · cases rest with
      | nil => simp [link] at parent
      | cons p rest =>
        have same : address p = ref := by simpa [link] using parent
        exact ⟨p,by simp,same,by rw [seq,tail.2.1,length_cons]⟩
    · obtain ⟨p,inside,rest⟩ := ih tail later
      exact ⟨p,mem_cons_of_mem _ inside,rest⟩

theorem chainRoot (parent : c.parent = none) : c.changeSeq = 1 := by
  induction history with
  | nil => cases mem
  | cons first rest ih =>
    obtain ⟨link,seq,tail⟩ := h
    rcases mem_cons.mp mem with rfl | later
    · cases rest with
      | nil => simpa using seq
      | cons p rest => simp [link] at parent
    · exact ih tail later

theorem chainSeq (mem' : d ∈ history) (same : c.changeSeq = d.changeSeq) : c = d := by
  induction history with
  | nil => cases mem
  | cons first rest ih =>
    obtain ⟨_,seq,tail⟩ := h
    rcases mem_cons.mp mem with rfl | later <;> rcases mem_cons.mp mem' with rfl | later'
    · rfl
    · have bound := chainBounded tail later'
      omega
    · have bound := chainBounded tail later
      omega
    · exact ih tail later later'

omit mem

theorem chainNodup : history.Nodup := by
  induction history with
  | nil => exact nodup_nil
  | cons first rest ih =>
    obtain ⟨_,seq,tail⟩ := h
    refine nodup_cons.mpr ⟨fun mem => ?_,ih tail⟩
    have bound := chainBounded tail mem
    omega

theorem chainChild (free : CollisionFree address history)
    (mem : c ∈ history) (mem' : d ∈ history) (same : c.parent = d.parent) : c = d := by
  apply chainSeq h mem mem'
  cases parent : c.parent with
  | none => rw [chainRoot h mem parent,chainRoot h mem' (same ▸ parent)]
  | some ref =>
    obtain ⟨p,inside,at_,seq⟩ := chainParent h mem parent
    obtain ⟨q,inside',at',seq'⟩ := chainParent h mem' (same ▸ parent)
    have unique := free p inside q inside' (at_.trans at'.symm)
    rw [seq,seq',unique]

omit h

theorem chainTip {rest} (h : Chain address (c :: rest))
    (free : CollisionFree address (c :: rest)) (mem : d ∈ c :: rest) : d.parent ≠ some (address c) := by
  intro parent
  obtain ⟨p,inside,same,seq⟩ := chainParent h mem parent
  have tip := free p inside c mem_cons_self same
  have bound := chainBounded h mem
  rw [seq,tip,h.2.1,length_cons] at bound
  omega

end Chains

/-- `ref` is the revision `tip` or one of its ancestors among the stored objects. -/
inductive Ancestor (object : A → Option (Snapshot A)) (ref : A) : A → Prop where
  | tip : Ancestor object ref ref
  | child {tip parent : A} {snapshot : Snapshot A} (stored : object tip = some snapshot)
      (link : snapshot.parent = some parent) (older : Ancestor object ref parent) : Ancestor object ref tip

section Walks
variable {address : Snapshot A → A} {object : A → Option (Snapshot A)} {first c : Snapshot A} {rest : List (Snapshot A)}

theorem chainAncestor (h : Chain address (first :: rest))
    (stored : ∀ c ∈ first :: rest, object (address c) = some c) (mem : c ∈ first :: rest) :
    Ancestor object (address c) (address first) := by
  induction rest generalizing first with
  | nil =>
    cases mem_singleton.mp mem
    exact .tip
  | cons second rest ih =>
    rcases mem_cons.mp mem with rfl | later
    · exact .tip
    · have older := ih h.2.2 (forall_mem_cons.mp stored).2 later
      exact .child (stored first mem_cons_self) h.1 older

variable [DecidableEq A] {expected : Option A} {operation : String} {digest : List Target → RequestDigest A}

theorem resolveCases (h : Chain address (first :: rest))
    (stored : ∀ c ∈ first :: rest, object (address c) = some c) (expected : Option A)
    (operation : String) (digest : List Target → RequestDigest A) (budget : Nat) :
    let answer := resolveAncestry object expected operation digest budget (address first)
    answer = .error .ambiguousOperation ∨
    (∃ c ∈ first :: rest, c.parent = expected ∧ answer = uniqueChild c (address c) operation digest) ∨
    (answer = .error .conflict ∧ ∀ c ∈ first :: rest, c.parent ≠ expected) := by
  induction rest generalizing first budget with
  | nil =>
    cases budget with
    | zero => exact .inl rfl
    | succ budget =>
      have root : first.parent = none := h.1
      simp only [resolveAncestry,stored first mem_cons_self]
      by_cases here : first.parent = expected
      · simp only [here,if_true]
        exact .inr (.inl ⟨first,mem_cons_self,here,rfl⟩)
      · rw [if_neg here,root]
        exact .inr (.inr ⟨rfl,by simpa using here⟩)
  | cons second rest ih =>
    cases budget with
    | zero => exact .inl rfl
    | succ budget =>
      have link : first.parent = some (address second) := h.1
      simp only [resolveAncestry,stored first mem_cons_self]
      by_cases here : first.parent = expected
      · simp only [here,if_true]
        exact .inr (.inl ⟨first,mem_cons_self,here,rfl⟩)
      rw [if_neg here,link]
      rcases ih h.2.2 (forall_mem_cons.mp stored).2 budget with
        lost | ⟨c,mem,found⟩ | ⟨ended,none⟩
      · exact .inl lost
      · exact .inr (.inl ⟨c,mem_cons_of_mem _ mem,found⟩)
      exact .inr (.inr ⟨ended,forall_mem_cons.mpr ⟨here,none⟩⟩)

theorem uniqueChildOk {snapshot found ref at_} (ok : uniqueChild snapshot ref operation digest = .ok (found,at_)) :
    found = snapshot ∧ at_ = ref ∧ snapshot.requestDigest = digest snapshot.notificationTargets := by
  unfold uniqueChild at ok
  split at ok
  · split at ok
    · rename_i same
      cases ok
      exact ⟨rfl,rfl,same⟩
    · contradiction
  · contradiction

theorem uniqueChildSame {snapshot ref} (operations : snapshot.operationId = operation)
    (digests : snapshot.requestDigest = digest snapshot.notificationTargets) :
    uniqueChild snapshot ref operation digest = .ok (snapshot,ref) := by
  simp [uniqueChild,operations,← digests]

theorem resolveCommitted (h : Chain address (first :: rest)) (stored : ∀ c ∈ first :: rest, object (address c) = some c)
    (free : CollisionFree address (first :: rest)) (mem : c ∈ first :: rest) (parent : c.parent = expected)
    (operations : c.operationId = operation) (digests : c.requestDigest = digest c.notificationTargets)
    (budget : Nat) :
    let answer := resolveAncestry object expected operation digest budget (address first)
    answer = .error .ambiguousOperation ∨ answer = .ok (c,address c) := by
  rcases resolveCases h stored expected operation digest budget with lost | ⟨d,mem',parent',found⟩ | ⟨_,none⟩
  · exact .inl lost
  · cases chainChild h free mem mem' (parent.trans parent'.symm)
    exact .inr (found.trans (uniqueChildSame operations digests))
  · exact absurd parent (none c mem)

theorem resolveOk (h : Chain address (first :: rest))
    (stored : ∀ c ∈ first :: rest, object (address c) = some c) {budget ref}
    (ok : resolveAncestry object expected operation digest budget (address first) = .ok (c,ref)) :
    c ∈ first :: rest ∧ ref = address c ∧ c.requestDigest = digest c.notificationTargets := by
  rcases resolveCases h stored expected operation digest budget with lost | ⟨d,mem,_,found⟩ | ⟨ended,_⟩
  · simp [lost] at ok
  · obtain ⟨rfl,rfl,same⟩ := uniqueChildOk (found.symm.trans ok)
    exact ⟨mem,rfl,same⟩
  · simp [ended] at ok

end Walks

end Pulso.Alerting
