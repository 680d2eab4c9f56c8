import Mathlib.Algebra.Ring.Int.Defs
import Mathlib.Algebra.Ring.Nat
import Mathlib.Data.List.Basic

/-! Computations that may fail: taking a successful one apart, and what a successful fold keeps. -/
namespace Pulso.Results
open List

variable {ε α β γ : Type}

theorem bindOk {x} {f : α → Except ε β} {b : β} (ok : (x >>= f) = .ok b) : ∃ a, x = .ok a ∧ f a = .ok b := by
  cases x with
  | error e => cases ok
  | ok a => exact ⟨a,rfl,ok⟩

theorem mapOk {x : Except ε α} {f} {b : β} (ok : x.map f = .ok b) : ∃ a, x = .ok a ∧ f a = b := by
  cases x with
  | error e => cases ok
  | ok a => exact ⟨a,rfl,Except.ok.inj ok⟩

theorem okOf {x : Except ε α} {a} (some : x.toOption = some a) : x = .ok a := by
  cases x with
  | error e => cases some
  | ok b =>
    cases some
    rfl

theorem foldOk {f : β → α → Except ε β} {P : List α → β → Prop}
    (step : ∀ before x b next, P before b → f b x = .ok next → P (before ++ [x]) next)
    {xs : List α} {b last : β} (ok : xs.foldlM f b = .ok last) (start : P [] b) : P xs last := by
  have run : ∀ (xs before : List α) (b : β), P before b → xs.foldlM f b = .ok last → P (before ++ xs) last := by
    intro xs
    induction xs with
    | nil =>
      intro before b holds ok
      cases ok
      rwa [append_nil]
    | cons x xs ih =>
      intro before b holds ok
      obtain ⟨next,first,rest⟩ := bindOk ok
      have more := ih (before ++ [x]) next (step before x b next holds first) rest
      rwa [append_assoc] at more
  exact run xs [] b start ok

theorem bindError {x} {f : α → Except ε β} {e} (error : (x >>= f) = .error e) :
    x = .error e ∨ ∃ a, x = .ok a ∧ f a = .error e := by
  cases x with
  | error _ =>
    cases error
    exact .inl rfl
  | ok a => exact .inr ⟨a,rfl,error⟩

theorem foldError {f : β → α → Except ε β} {xs : List α} {b e} (error : xs.foldlM f b = .error e) :
    ∃ x ∈ xs, ∃ before, f before x = .error e := by
  induction xs generalizing b with
  | nil => cases error
  | cons x xs ih =>
    rcases bindError error with here | ⟨next,_,later⟩
    · exact ⟨x,mem_cons_self,b,here⟩
    · obtain ⟨y,mem,rest⟩ := ih later
      exact ⟨y,mem_cons_of_mem _ mem,rest⟩

theorem foldEvery {f : β → α → Except ε β} {xs : List α} {b last : β} (ok : xs.foldlM f b = .ok last) {x : α}
    (mem : x ∈ xs) : ∃ before next, f before x = .ok next := by
  induction xs generalizing b with
  | nil => cases mem
  | cons y xs ih =>
    obtain ⟨next,first,rest⟩ := bindOk ok
    rcases mem_cons.mp mem with rfl | mem
    · exact ⟨b,next,first⟩
    · exact ih rest mem

theorem foldFollows {f : β → α → Except ε β} {g : γ → α → Except ε γ} {R : β → γ → Prop}
    (step : ∀ x b c next, R b c → f b x = .ok next → ∃ after, g c x = .ok after ∧ R next after)
    {xs : List α} {b last : β} {c : γ} (ok : xs.foldlM f b = .ok last) (start : R b c) :
    ∃ final, xs.foldlM g c = .ok final ∧ R last final := by
  induction xs generalizing b c with
  | nil =>
    cases ok
    exact ⟨c,rfl,start⟩
  | cons x xs ih =>
    obtain ⟨next,first,rest⟩ := bindOk ok
    obtain ⟨after,second,related⟩ := step x b c next start first
    rw [foldlM_cons,second]
    exact ih rest related

end Pulso.Results
