import Mathlib.Logic.Function.Basic
import Mathlib.Logic.Relation

/-! Programs that act on a shared world one operation at a time, and the runs in which any number
of them interleave. A discipline says which operations a program may perform; a program that
follows it whatever the others do keeps the invariant in every run. -/
namespace Pulso.Interleaving

inductive Prog (Op : Type) (Answer : Op → Type) (α : Type) where
  | done (value : α)
  | act (op : Op) (next : Answer op → Prog Op Answer α)

namespace Prog
variable {Op : Type} {Answer : Op → Type} {α β : Type}

def andThen : Prog Op Answer α → (α → Prog Op Answer β) → Prog Op Answer β
  | .done a,k => k a
  | .act op next,k => .act op (fun answer => (next answer).andThen k)

instance : Monad (Prog Op Answer) where
  pure := .done
  bind := andThen

def perform (op : Op) : Prog Op Answer (Answer op) := .act op .done

end Prog

/- What an operation may do: `acts w p op answer w'` when process `p` performs it in `w`; `drifts`
is what happens without any process. -/
structure Machine (Op : Type) (Answer : Op → Type) (World : Type) where
  acts : World → Nat → (op : Op) → Answer op → World → Prop
  drifts : World → World → Prop

variable {Op : Type} {Answer : Op → Type} {World : Type}

structure State (Op : Type) (Answer : Op → Type) (World : Type) where
  world : World
  running : Nat → Prog Op Answer Unit

namespace Machine
variable (m : Machine Op Answer World) (starts : Prog Op Answer Unit → Prop)

/- A process is started when it has none to run, and may be stopped at any point. -/
inductive Step (s : State Op Answer World) : State Op Answer World → Prop
  | act {p op next answer w} : s.running p = .act op next → m.acts s.world p op answer w →
      Step s ⟨w,Function.update s.running p (next answer)⟩
  | start {p task} : s.running p = .done () → starts task → Step s ⟨s.world,Function.update s.running p task⟩
  | stop (p) : Step s ⟨s.world,Function.update s.running p (.done ())⟩
  | drift {w} : m.drifts s.world w → Step s ⟨w,s.running⟩

def idle (w : World) : State Op Answer World := ⟨w,fun _ => .done ()⟩

def Run (w : World) (s : State Op Answer World) : Prop := Relation.ReflTransGen (m.Step starts) (idle w) s

/- `rely p` is what may happen to the world between two operations of process `p`. -/
structure Discipline where
  holds : World → Prop
  allowed : World → Nat → Op → Prop
  rely : Nat → World → World → Prop
  relyRefl : ∀ p w, rely p w w
  relyTrans : ∀ {p u v w}, rely p u v → rely p v w → rely p u w
  keeps : ∀ {p op answer w w'}, holds w → allowed w p op → m.acts w p op answer w' → holds w'
  others : ∀ {p q op answer w w'}, holds w → allowed w q op → m.acts w q op answer w' → p ≠ q → rely p w w'
  drift : ∀ {w w'}, holds w → m.drifts w w' → holds w' ∧ ∀ p, rely p w w'

namespace Discipline
variable {m} (d : m.Discipline) {α β : Type} {p : Nat}

def follows (p : Nat) : Prog Op Answer α → (α → World → Prop) → World → Prop
  | .done a,post,w => post a w
  | .act op next,post,w => ∀ v, d.rely p w v → d.holds v →
      d.allowed v p op ∧ ∀ answer u, m.acts v p op answer u → follows p (next answer) post u

variable {d} {task : Prog Op Answer α} {w : World}

theorem followsBind {k} {post : β → World → Prop}
    (h : d.follows p task (fun a => d.follows p (k a) post) w) : d.follows p (task >>= k) post w := by
  induction task generalizing w with
  | done a => exact h
  | act op next ih =>
    intro v relied held
    obtain ⟨may,after⟩ := h v relied held
    exact ⟨may,fun answer u did => ih answer (after answer u did)⟩

theorem followsMono {post post'}
    (h : d.follows p task post w) (weaker : ∀ a v, post a v → post' a v) : d.follows p task post' w := by
  induction task generalizing w with
  | done a => exact weaker a w h
  | act op next ih =>
    intro v relied held
    obtain ⟨may,after⟩ := h v relied held
    exact ⟨may,fun answer u did => ih answer (after answer u did)⟩

theorem followsStable {w v} (h : d.follows p task (fun _ _ => True) w)
    (relied : d.rely p w v) : d.follows p task (fun _ _ => True) v := by
  cases task with
  | done => trivial
  | act op next => exact fun u later held => h u (d.relyTrans relied later) held

theorem eachUpdated {running} {task : Prog Op Answer Unit}
    (own : d.follows p task (fun _ _ => True) w) (rest : ∀ q ≠ p, d.follows q (running q) (fun _ _ => True) w) (q : Nat) :
    d.follows q (Function.update running p task q) (fun _ _ => True) w := by
  by_cases same : q = p
  · subst same
    rw [Function.update_self]
    exact own
  · rw [Function.update_of_ne same]
    exact rest q same

theorem runHolds {starts} {s : State Op Answer World} (d : m.Discipline) (first : d.holds w)
    (begun : ∀ task, starts task → ∀ p v, d.holds v → d.follows p task (fun _ _ => True) v)
    (run : m.Run starts w s) : d.holds s.world := by
  have invariant : d.holds s.world ∧ ∀ p, d.follows p (s.running p) (fun _ _ => True) s.world := by
    induction run with
    | refl => exact ⟨first,fun _ => trivial⟩
    | tail _ step ih =>
      obtain ⟨held,each⟩ := ih
      cases step with
      | @act p op next answer w' ready did =>
        have own := each p
        rw [ready] at own
        obtain ⟨may,after⟩ := own _ (d.relyRefl p _) held
        exact ⟨d.keeps held may did,
          eachUpdated (after answer w' did) (fun q other => followsStable (each q) (d.others held may did other))⟩
      | @start p task ready started => exact ⟨held,eachUpdated (begun task started p _ held) (fun q _ => each q)⟩
      | stop p => exact ⟨held,eachUpdated trivial (fun q _ => each q)⟩
      | drift moved =>
        obtain ⟨held',relied⟩ := d.drift held moved
        exact ⟨held',fun q => followsStable (each q) (relied q)⟩
  exact invariant.1

end Discipline

end Machine

end Pulso.Interleaving
