import Mathlib.Algebra.Ring.Int.Defs
import Mathlib.Algebra.Ring.Nat
import Mathlib.Data.List.Basic

/-! Live-tail credits: a counter of batches, a counter of bytes and an overload flag, changed by the single atomic
steps of any number of concurrent calls. A call begins with its first atomic step. -/
namespace Pulso.TailDelivery
open List

def maxBatches : Nat := 64
def maxBytes : Nat := 16 * 1024 * 1024
def maxSingleBatchBytes : Nat := 32 * 1024 * 1024

inductive Overflow where
  | drop | close

/- Records by their external size; no term has size zero. -/
structure Batch where
  bytes : Nat
  positive : 0 < bytes

/- What a call does next: `giveBack` returns a batch credit, `flag` compares and exchanges the third counter. -/
inductive Call where
  | reserved (batch : Batch) (overflow : Overflow)
  | admitted (batch : Batch)
  | excess (batch : Batch) (overflow : Overflow)
  | giveBack (overflow : Overflow)
  | flag
  | notify

structure State where
  batches : Int := 0
  bytes : Int := 0
  flag : Int := 0
  calls : List Call := []
  delivered : List Batch := []
  notices : Nat := 0

def overflow : Overflow → List Call
  | .drop => []
  | .close => [.flag]

def Call.step (s : State) : Call → State × List Call
  | .reserved b o =>
    let queued := s.bytes + b.bytes
    ({ s with bytes := queued },
      if queued ≤ maxBytes ∨ queued = b.bytes ∧ b.bytes ≤ maxSingleBatchBytes then [.admitted b] else [.excess b o])
  | .admitted b => ({ s with delivered := s.delivered ++ [b] },[])
  | .excess b o => ({ s with bytes := s.bytes - b.bytes },[.giveBack o])
  | .giveBack o => ({ s with batches := s.batches - 1 },overflow o)
  | .flag => if s.flag = 0 then ({ s with flag := 1 },[.notify]) else (s,[])
  | .notify => ({ s with notices := s.notices + 1 },[])

inductive Act where
  | deliver (batch : Batch) (overflow : Overflow)
  | close
  | release (index : Nat)
  | step (index : Nat)

def State.act (s : State) : Act → State
  | .deliver b o =>
    let count := s.batches + 1
    { s with batches := count,calls := s.calls ++ [if count ≤ maxBatches then .reserved b o else .giveBack o] }
  | .close =>
    let (s',next) := Call.flag.step s
    { s' with calls := s.calls ++ next }
  | .release i => match s.delivered.drop i with
    | [] => s
    | b::after => { s with
        bytes := s.bytes - b.bytes
        delivered := s.delivered.take i ++ after
        calls := s.calls ++ [.giveBack .drop] }
  | .step i => match s.calls.drop i with
    | [] => s
    | c::after =>
      let (s',next) := c.step s
      { s' with calls := s.calls.take i ++ next ++ after }

def run (acts : List Act) : State := acts.foldl State.act {}

namespace Call

@[simp] def slots : Call → Nat
  | .reserved _ _ | .admitted _ | .excess _ _ | .giveBack _ => 1
  | .flag | .notify => 0

@[simp] def granted : Call → Nat
  | .reserved _ _ | .admitted _ | .excess _ _ => 1
  | _ => 0

@[simp] def bytes : Call → Nat
  | .admitted b | .excess b _ => b.bytes
  | _ => 0

@[simp] def sends : Call → Nat
  | .admitted _ => 1
  | _ => 0

@[simp] def sendBytes : Call → Nat
  | .admitted b => b.bytes
  | _ => 0

@[simp] def notices : Call → Nat
  | .notify => 1
  | _ => 0

end Call

def total {α : Type} (f : α → Nat) (xs : List α) : Nat := (xs.map f).sum

@[simp] theorem totalNil {α : Type} (f : α → Nat) : total f [] = 0 := rfl
@[simp] theorem totalCons {α : Type} (f : α → Nat) (x : α) (xs : List α) : total f (x::xs) = f x + total f xs := by
  simp [total]
@[simp] theorem totalAppend {α : Type} (f : α → Nat) (xs ys : List α) : total f (xs ++ ys) = total f xs + total f ys := by
  simp [total]

def Fits (count bytes : Nat) : Prop := bytes ≤ maxBytes ∨ count = 1 ∧ bytes ≤ maxSingleBatchBytes

/- The credits taken by calls in progress and by batches delivered and not released. -/
structure Balanced (s : State) : Prop where
  batches : s.batches = total Call.slots s.calls + s.delivered.length
  few : total Call.granted s.calls + s.delivered.length ≤ maxBatches
  bytes : s.bytes = total Call.bytes s.calls + total Batch.bytes s.delivered
  fits : Fits (total Call.sends s.calls + s.delivered.length) (total Call.sendBytes s.calls + total Batch.bytes s.delivered)
  flag : s.flag = s.notices + total Call.notices s.calls
  once : s.flag ≤ 1

theorem batchBytes (bs : List Batch) : bs.length ≤ total Batch.bytes bs ∧ (bs.length = 0 → total Batch.bytes bs = 0) := by
  induction bs with
  | nil => simp
  | cons b bs ih =>
    have := b.positive
    simp
    omega

theorem callBytes (cs : List Call) : total Call.sends cs ≤ total Call.sendBytes cs ∧
    total Call.sendBytes cs ≤ total Call.bytes cs ∧ (total Call.sends cs = 0 → total Call.sendBytes cs = 0) ∧
    total Call.granted cs ≤ total Call.slots cs := by
  induction cs with
  | nil => simp
  | cons c cs ih =>
    cases c with
    | admitted b | excess b _ =>
      have := b.positive
      simp
      omega
    | _ =>
      simp
      omega

theorem stepBalanced {s before after c} (b : Balanced s) (is : s.calls = before ++ c::after) :
    Balanced { (c.step s).1 with calls := before ++ (c.step s).2 ++ after } := by
  obtain ⟨batches,few,bytes,fits,flag,once⟩ := b
  have old := callBytes before
  have new := callBytes after
  have sizes := batchBytes s.delivered
  simp only [is,totalAppend,totalCons,Fits] at batches few bytes fits flag
  cases c with
  | reserved x o =>
    have size := x.positive
    by_cases fit : s.bytes + x.bytes ≤ maxBytes ∨ s.bytes + x.bytes = x.bytes ∧ x.bytes ≤ maxSingleBatchBytes
    · simp only [Call.step,if_pos fit]
      constructor <;> simp [Fits] at * <;> omega
    · simp only [Call.step,if_neg fit]
      constructor <;> simp [Fits] at * <;> omega
  | admitted x | excess x _ | notify => constructor <;> simp [Call.step,Fits] at * <;> omega
  | giveBack o => cases o <;> constructor <;> simp [Call.step,overflow,Fits] at * <;> omega
  | flag =>
    by_cases free : s.flag = 0
    · simp only [Call.step,if_pos free]
      constructor <;> simp [Fits] at * <;> omega
    · simp only [Call.step,if_neg free]
      constructor <;> simp [Fits] at * <;> omega

theorem actBalanced {s} (b : Balanced s) (act : Act) : Balanced (s.act act) := by
  cases act with
  | deliver x o =>
    obtain ⟨batches,few,bytes,fits,flag,once⟩ := b
    have counts := callBytes s.calls
    unfold State.act
    dsimp only
    split <;> constructor <;> simp [Fits] at * <;> omega
  | close =>
    have begun : Balanced { s with calls := s.calls ++ [.flag] } := by
      obtain ⟨batches,few,bytes,fits,flag,once⟩ := b
      constructor <;> simpa
    have done := stepBalanced begun rfl
    unfold State.act
    by_cases free : s.flag = 0 <;> simpa [Call.step,free] using done
  | release i =>
    unfold State.act
    dsimp only
    split
    · exact b
    rename_i x after rest
    have is : s.delivered = s.delivered.take i ++ x::after := by rw [← rest,take_append_drop]
    generalize s.delivered.take i = before at is ⊢
    obtain ⟨batches,few,bytes,fits,flag,once⟩ := b
    have old := batchBytes before
    have new := batchBytes after
    have counts := callBytes s.calls
    simp only [is,Fits,length_append,length_cons,totalAppend,totalCons] at batches few bytes fits
    constructor <;> simp [Fits] <;> omega
  | step i =>
    unfold State.act
    dsimp only
    split
    · exact b
    · rename_i c after rest
      exact stepBalanced b (by rw [← rest,take_append_drop])

theorem runBalanced (acts : List Act) : Balanced (run acts) := by
  refine List.foldlRecOn acts State.act (motive := Balanced) ?_ (fun s b act _ => actBalanced b act)
  constructor <;> simp [Fits]

/-- In every interleaving the batches delivered and not released keep to their bounds, one notice is sent at most, and
with nothing in progress or unreleased both credit counters are zero and the third counts the notice. -/
theorem creditsBounded (acts : List Act) : (run acts).delivered.length ≤ maxBatches ∧
    (total Batch.bytes (run acts).delivered ≤ maxBytes ∨
      ∃ batch, (run acts).delivered = [batch] ∧ batch.bytes ≤ maxSingleBatchBytes) ∧
    (run acts).notices ≤ 1 ∧
    ((run acts).calls = [] → (run acts).delivered = [] →
      (run acts).batches = 0 ∧ (run acts).bytes = 0 ∧ (run acts).flag = (run acts).notices) := by
  obtain ⟨batches,few,bytes,fits,flag,once⟩ := runBalanced acts
  have counts := callBytes (run acts).calls
  refine ⟨by omega,?_,by omega,?_⟩
  · rcases fits with small | ⟨one,large⟩
    · exact .inl (by omega)
    cases is : (run acts).delivered with
    | nil => exact .inl (Nat.zero_le _)
    | cons batch rest =>
      simp only [is,length_cons,totalCons] at one large
      cases eq_nil_of_length_eq_zero (by omega : rest.length = 0)
      exact .inr ⟨batch,rfl,by omega⟩
  · intro idle empty
    simp only [idle,empty,totalNil,length_nil] at batches bytes flag
    omega

theorem closeLeavesFlag : (run [.close,.step 0]).calls = [] ∧ (run [.close,.step 0]).delivered = [] ∧
    (run [.close,.step 0]).flag = 1 := ⟨rfl,rfl,rfl⟩

end Pulso.TailDelivery
