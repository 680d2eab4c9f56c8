import Mathlib.Data.List.Count
import Mathlib.Data.List.Nodup

/-! Node-wide admission of retention deletes: four monitored slots and a budget
per interval. Callers read the clock, ask, delete and give the slot back; what a
caller sends arrives in its own order, and callers interleave in any way. -/
namespace Pulso.RetentionAdmission
open List

structure Config where
  interval : Int
  limit : Nat

structure Server where
  slots : List (Nat × Nat) := []
  epoch : Option Int := none
  used : Nat := 0
  deriving DecidableEq

namespace Server

def turn (epoch : Int) (s : Server) : Server :=
  if s.epoch = some epoch then s else {s with epoch := some epoch,used := 0}

def reserve (epoch : Int) (limit pid ref : Nat) (s : Server) : Option Nat × Server :=
  let s := s.turn epoch
  if 4 ≤ s.slots.length ∨ min 512 limit ≤ s.used then (none,s)
  else (some ref,{s with used := s.used+1,slots := (ref,pid)::s.slots})

def refund (epoch : Int) (s : Server) : Server :=
  if s.epoch = some epoch then {s with used := s.used-1} else s

def drop (ref : Nat) (s : Server) : Server := {s with slots := s.slots.filter (·.1 ≠ ref)}

def release (ref : Nat) (s : Server) : Server := s.drop ref

def down (ref : Nat) (s : Server) : Server := s.drop ref

def held (s : Server) : List Nat := s.slots.map Prod.fst

end Server

inductive Signal where
  | reserve (epoch : Int) (limit : Nat)
  | refund (epoch : Int)
  | release (ref : Nat)
  | down (ref : Nat)
  deriving DecidableEq

inductive Phase where
  | idle
  | waiting
  | deleting (ref : Nat) (epoch : Int)
  | dead
  deriving DecidableEq

structure Caller where
  phase : Phase := .idle
  outbox : List Signal := []

/- The last three fields record what the server did and are read by no step. -/
structure World where
  server : Server := {}
  clock : Int := 0
  refs : Nat := 0
  callers : Nat → Caller := fun _ => {}
  granted : List (Nat × Int) := []
  refunded : List Int := []
  freed : List Nat := []

inductive Action where
  | tick (elapsed : Nat)
  | call (pid : Nat)
  | finish (pid : Nat) (overloaded : Bool)
  | die (pid : Nat)
  | handle (pid : Nat)

namespace World

def set (w : World) (pid : Nat) (c : Caller) : World := {w with callers := Function.update w.callers pid c}

def call (config : Config) (pid : Nat) (w : World) : World :=
  let c := w.callers pid
  match c.phase with
  | .idle => w.set pid ⟨.waiting,c.outbox++[.reserve (w.clock.tdiv config.interval) config.limit]⟩
  | _ => w

def finish (pid : Nat) (overloaded : Bool) (w : World) : World :=
  let c := w.callers pid
  match c.phase with
  | .deleting ref epoch =>
    w.set pid ⟨.idle,c.outbox++((if overloaded then [.refund epoch] else [])++[.release ref])⟩
  | _ => w

/- Every monitor still set on the process sends its message. -/
def die (pid : Nat) (w : World) : World :=
  let c := w.callers pid
  if c.phase = .dead then w
  else w.set pid ⟨.dead,c.outbox++(w.server.slots.filter (·.2 = pid)).map (fun s => .down s.1)⟩

def free (ref : Nat) (w : World) : World :=
  {w with freed := if ref ∈ w.server.held then ref::w.freed else w.freed}

/- A caller that no longer waits is gone, and monitoring it answers at once. -/
def grant (pid : Nat) (epoch : Int) (rest : List Signal) (ref : Nat) (w : World) : World :=
  let c := w.callers pid
  {w.set pid (if c.phase = .waiting then ⟨.deleting ref epoch,rest⟩ else ⟨c.phase,rest++[.down ref]⟩) with
    refs := w.refs+1
    granted := (ref,epoch)::w.granted}

def refuse (pid : Nat) (rest : List Signal) (w : World) : World :=
  let c := w.callers pid
  w.set pid ⟨if c.phase = .waiting then .idle else c.phase,rest⟩

def handle (pid : Nat) (w : World) : World :=
  let c := w.callers pid
  match c.outbox with
  | [] => w
  | .reserve epoch limit::rest =>
    match w.server.reserve epoch limit pid w.refs with
    | (some ref,server) => {w with server := server}.grant pid epoch rest ref
    | (none,server) => {w with server := server}.refuse pid rest
  | .refund epoch::rest =>
    {w with server := w.server.refund epoch,refunded := epoch::w.refunded}.set pid {c with outbox := rest}
  | .release ref::rest =>
    {w.free ref with server := w.server.release ref}.set pid {c with outbox := rest.filter (· ≠ Signal.down ref)}
  | .down ref::rest =>
    {w.free ref with server := w.server.down ref}.set pid {c with outbox := rest}

def act (config : Config) (w : World) : Action → World
  | .tick elapsed => {w with clock := w.clock+elapsed}
  | .call pid => w.call config pid
  | .finish pid overloaded => w.finish pid overloaded
  | .die pid => w.die pid
  | .handle pid => w.handle pid

def run (config : Config) (actions : List Action) : World := actions.foldl (act config) {}

def grants (w : World) (epoch : Int) : Nat := (w.granted.map Prod.snd).count epoch

def refunds (w : World) (epoch : Int) : Nat := w.refunded.count epoch

def Quiet (w : World) : Prop :=
  ∀ pid, (w.callers pid).outbox = [] ∧ ∀ ref epoch, (w.callers pid).phase ≠ .deleting ref epoch

/- The reservation handled next is not of an earlier interval than the server's. -/
def Timely (w : World) : Action → Prop
  | .handle pid =>
    match (w.callers pid).outbox,w.server.epoch with
    | .reserve epoch _::_,some current => current ≤ epoch
    | _,_ => True
  | _ => True

def InOrder (config : Config) : World → List Action → Prop
  | _,[] => True
  | w,a::rest => w.Timely a ∧ InOrder config (w.act config a) rest

end World

variable {config : Config} {w : World} (s : Server) (epoch : Int)

theorem reserveShape (limit pid ref : Nat) : s.reserve epoch limit pid ref = (none,s.turn epoch) ∨
      s.slots.length < 4 ∧ (s.turn epoch).used < min 512 limit ∧
        s.reserve epoch limit pid ref =
          (some ref,{s.turn epoch with used := (s.turn epoch).used+1,slots := (ref,pid)::s.slots}) := by
  have kept : (s.turn epoch).slots = s.slots := by unfold Server.turn; split <;> rfl
  simp only [Server.reserve,kept]
  split
  · exact .inl rfl
  · rename_i room
    exact .inr ⟨by omega,by omega,rfl⟩

@[simp] theorem turnSlots : (s.turn epoch).slots = s.slots := by
  unfold Server.turn; split <;> rfl

@[simp] theorem turnEpoch : (s.turn epoch).epoch = some epoch := by
  unfold Server.turn; split <;> simp_all

@[simp] theorem refundSlots : (s.refund epoch).slots = s.slots := by
  unfold Server.refund; split <;> rfl

@[simp] theorem refundEpoch : (s.refund epoch).epoch = s.epoch := by
  unfold Server.refund; split <;> rfl

/- What an action does to the server and to the record of its effects; the callers change too. -/
inductive Effect (w : World) : Action → World → Prop where
  | refused {epoch limit pid rest} (callers) (asked : (w.callers pid).outbox = .reserve epoch limit::rest) :
      Effect w (.handle pid) {w with server := w.server.turn epoch,callers := callers}
  | granted {epoch limit pid rest} (callers) (asked : (w.callers pid).outbox = .reserve epoch limit::rest)
      (room : w.server.slots.length < 4) (left : (w.server.turn epoch).used < min 512 limit) :
      Effect w (.handle pid) {w with
        server := {w.server.turn epoch with used := (w.server.turn epoch).used+1,slots := (w.refs,pid)::w.server.slots}
        callers := callers,refs := w.refs+1,granted := (w.refs,epoch)::w.granted}
  | refunded {pid} (epoch : Int) (callers) :
      Effect w (.handle pid) {w with server := w.server.refund epoch,refunded := epoch::w.refunded,callers := callers}
  | freed {pid} (ref : Nat) (callers) :
      Effect w (.handle pid) {w.free ref with server := w.server.drop ref,callers := callers}
  | other (action clock callers) : Effect w action {w with clock := clock,callers := callers}

theorem handleEffect (w : World) (pid : Nat) : Effect w (.handle pid) (w.handle pid) := by
  simp only [World.handle]
  split
  · exact .other _ w.clock w.callers
  · rename_i epoch limit rest asked
    rcases reserveShape w.server epoch limit pid w.refs with full | ⟨room,left,given⟩
    · rw [full]
      exact .refused _ asked
    · rw [given]
      exact .granted _ asked room left
  · exact .refunded _ _
  · exact .freed _ _
  · exact .freed _ _

theorem actEffect (config : Config) (w : World) (a : Action) : Effect w a (w.act config a) := by
  cases a with
  | tick elapsed => exact .other _ _ w.callers
  | call pid =>
    simp only [World.act,World.call]
    split
    · exact .other _ w.clock _
    · exact .other _ w.clock w.callers
  | finish pid overloaded =>
    simp only [World.act,World.finish]
    split
    · exact .other _ w.clock _
    · exact .other _ w.clock w.callers
  | die pid =>
    simp only [World.act,World.die]
    split
    · exact .other _ w.clock w.callers
    · exact .other _ w.clock _
  | handle pid => exact handleEffect w pid

structure Balanced (w : World) : Prop where
  few : w.server.slots.length ≤ 4
  fresh : ∀ g ∈ w.granted, g.1 < w.refs
  distinct : (w.granted.map Prod.fst).Nodup
  account : (w.server.held++w.freed).Perm (w.granted.map Prod.fst)

theorem dropHeld (ref : Nat) : (s.drop ref).held = s.held.filter (· != ref) := by
  simp [Server.drop,Server.held,filter_map,Function.comp_def,bne,Bool.beq_eq_decide_eq]

theorem freeAccount (w : World) (ref : Nat) (distinct : w.server.held.Nodup) :
    ((w.server.drop ref).held++(w.free ref).freed).Perm (w.server.held++w.freed) := by
  rw [dropHeld]
  by_cases held : ref ∈ w.server.held
  · simp only [World.free,if_pos held,← distinct.erase_eq_filter ref]
    exact perm_middle.trans ((perm_cons_erase held).symm.append_right w.freed)
  have whole : w.server.held.filter (· != ref) = w.server.held := by
    rw [filter_eq_self]
    intro r mem
    exact bne_iff_ne.mpr fun same => held (same ▸ mem)
  simp only [World.free,if_neg held,whole]
  exact .refl _

theorem effectBalanced {a w'} (balanced : Balanced w) (effect : Effect w a w') : Balanced w' := by
  cases effect with
  | refused callers asked =>
    exact ⟨by simpa using balanced.few,balanced.fresh,balanced.distinct,by simpa [Server.held] using balanced.account⟩
  | granted callers asked room left =>
    refine ⟨Nat.succ_le_of_lt room,?_,?_,?_⟩
    · simp only [mem_cons,forall_eq_or_imp]
      exact ⟨by omega,fun g mem => Nat.lt_succ_of_lt (balanced.fresh g mem)⟩
    · simp only [map_cons,nodup_cons,mem_map]
      exact ⟨fun ⟨g,mem,same⟩ => absurd (balanced.fresh g mem) (by omega),balanced.distinct⟩
    · simpa [Server.held] using balanced.account
  | refunded epoch callers =>
    exact ⟨by simpa using balanced.few,balanced.fresh,balanced.distinct,by simpa [Server.held] using balanced.account⟩
  | freed ref callers =>
    have distinct : w.server.held.Nodup := (balanced.account.nodup_iff.mpr balanced.distinct).of_append_left
    exact ⟨Nat.le_trans (length_filter_le _ _) balanced.few,balanced.fresh,balanced.distinct,
      (freeAccount w ref distinct).trans balanced.account⟩
  | other action clock callers => exact { balanced with }

def Caller.Carries (c : Caller) (ref : Nat) : Prop :=
  (∃ epoch, c.phase = .deleting ref epoch) ∨ .release ref ∈ c.outbox ∨ .down ref ∈ c.outbox

structure Tracked (config : Config) (w : World) : Prop where
  limits : ∀ pid epoch limit, .reserve epoch limit ∈ (w.callers pid).outbox → limit = config.limit
  carried : ∀ slot ∈ w.server.slots, (w.callers slot.2).Carries slot.1

theorem setTracked {w' pid c} (tracked : Tracked config w) (callers : w'.callers = Function.update w.callers pid c)
    (others : ∀ slot ∈ w'.server.slots, slot.2 ≠ pid → slot ∈ w.server.slots)
    (asks : ∀ epoch limit, .reserve epoch limit ∈ c.outbox → limit = config.limit)
    (own : ∀ ref, (ref,pid) ∈ w'.server.slots → c.Carries ref) : Tracked config w' := by
  constructor
  · intro p epoch limit mem
    rw [callers,Function.update_apply] at mem
    split at mem
    · exact asks epoch limit mem
    · exact tracked.limits p epoch limit mem
  · rintro ⟨ref,p⟩ mem
    rw [callers,Function.update_apply]
    split
    · rename_i same
      exact own ref (same ▸ mem)
    · rename_i different
      exact tracked.carried _ (others _ mem different)

theorem handleTracked (tracked : Tracked config w) (pid : Nat) : Tracked config (w.handle pid) := by
  have limits := tracked.limits pid
  have carried : ∀ ref, (ref,pid) ∈ w.server.slots → (w.callers pid).Carries ref := fun ref => tracked.carried (ref,pid)
  simp only [World.handle]
  split
  · exact tracked
  · rename_i epoch limit rest asked
    rcases reserveShape w.server epoch limit pid w.refs with full | ⟨-,-,given⟩
    · rw [full]
      refine setTracked tracked rfl (fun slot mem _ => turnSlots w.server epoch ▸ mem) (by grind) fun ref mem => ?_
      have mem : (ref,pid) ∈ (w.server.turn epoch).slots := mem
      grind [Caller.Carries,turnSlots]
    · rw [given]
      refine setTracked tracked rfl ?_ (by grind) fun ref mem => ?_
      · intro slot mem different
        exact (mem_cons.mp mem).resolve_left fun same => different (same ▸ rfl)
      · have mem : (ref,pid) ∈ (w.refs,pid)::w.server.slots := mem
        grind [Caller.Carries]
  · rename_i epoch rest sent
    refine setTracked tracked rfl (fun _ mem _ => refundSlots w.server epoch ▸ mem) (by grind) fun ref mem => ?_
    have mem : (ref,pid) ∈ w.server.slots := refundSlots w.server epoch ▸ mem
    grind [Caller.Carries]
  all_goals
    refine setTracked tracked rfl (fun slot mem _ => (mem_filter.mp mem).1) (by grind) fun r mem => ?_
    obtain ⟨mem,other⟩ := mem_filter.mp mem
    grind [Caller.Carries]

theorem actTracked (tracked : Tracked config w) (a : Action) : Tracked config (w.act config a) := by
  cases a with
  | tick elapsed => exact { tracked with }
  | call pid | finish pid overloaded =>
    have limits := tracked.limits pid
    have carried : ∀ ref, (ref,pid) ∈ w.server.slots → (w.callers pid).Carries ref := fun ref => tracked.carried (ref,pid)
    simp only [World.act,World.call,World.finish]
    split
    · exact setTracked tracked rfl (fun _ mem _ => mem) (by grind)
        (fun ref (mem : (ref,pid) ∈ w.server.slots) => by grind [Caller.Carries])
    · exact tracked
  | die pid =>
    have limits := tracked.limits pid
    simp only [World.act,World.die]
    split
    · exact tracked
    refine setTracked tracked rfl (fun _ mem _ => mem) (by grind) fun ref mem => ?_
    have fallen : (ref,pid) ∈ w.server.slots.filter (·.2 = pid) := mem_filter.mpr ⟨mem,by simp⟩
    exact .inr (.inr (mem_append_right _ (mem_map.mpr ⟨_,fallen,rfl⟩)))
  | handle pid => exact handleTracked tracked pid

structure Spent (config : Config) (w : World) : Prop where
  cap : w.server.used ≤ min 512 config.limit
  current : ∀ e, w.server.epoch = some e → w.grants e ≤ w.server.used+w.refunds e
  bounded : ∀ e, w.grants e ≤ min 512 config.limit+w.refunds e
  ahead : ∀ e, (∀ c, w.server.epoch = some c → c < e) → w.grants e = 0

theorem turnSpent {epoch} (spent : Spent config w) (due : ∀ c, w.server.epoch = some c → c ≤ epoch) :
    Spent config {w with server := w.server.turn epoch} := by
  by_cases same : w.server.epoch = some epoch
  · simpa only [Server.turn,if_pos same] using spent
  have none : w.grants epoch = 0 := by
    refine spent.ahead epoch fun c stored => ?_
    have below := due c stored
    have other : c ≠ epoch := by rintro rfl; exact same stored
    omega
  simp only [Server.turn,if_neg same]
  refine ⟨Nat.zero_le _,?_,spent.bounded,?_⟩
  · intro e stored
    have this : w.grants e = 0 := Option.some.inj stored ▸ none
    exact Nat.le_trans (Nat.le_of_eq this) (Nat.zero_le _)
  intro e after
  refine spent.ahead e fun c stored => ?_
  have below := due c stored
  have above := after epoch rfl
  omega

theorem grantSpent {s epoch} (spent : Spent config {w with server := s})
    (stored : s.epoch = some epoch) (left : s.used < min 512 config.limit) (ref pid : Nat) :
    Spent config {w with
      server := {s with used := s.used+1,slots := (ref,pid)::s.slots},granted := (ref,epoch)::w.granted} := by
  have current := spent.current epoch stored
  simp only [World.grants,World.refunds] at current
  refine ⟨left,?_,?_,?_⟩
  · intro e same
    cases Option.some.inj (stored.symm.trans same)
    simp only [World.grants,World.refunds,map_cons,count_cons_self]
    omega
  · intro e
    by_cases same : epoch = e
    · subst same
      simp only [World.grants,World.refunds,map_cons,count_cons_self]
      omega
    · simpa [World.grants,World.refunds,count_cons_of_ne same] using spent.bounded e
  · intro e after
    have below := after epoch stored
    have other : epoch ≠ e := by omega
    simpa [World.grants,count_cons_of_ne other] using spent.ahead e after

theorem refundSpent (spent : Spent config w) (epoch : Int) :
    Spent config {w with server := w.server.refund epoch,refunded := epoch::w.refunded} := by
  have more : ∀ e, w.refunded.count e ≤ (epoch::w.refunded).count e := fun e => count_le_count_cons
  refine ⟨?_,?_,fun e => Nat.le_trans (spent.bounded e) (Nat.add_le_add_left (more e) _),?_⟩
  · grind [Server.refund,spent.cap]
  · intro e stored
    have stored : w.server.epoch = some e := refundEpoch w.server epoch ▸ stored
    have current := spent.current e stored
    simp only [World.grants,World.refunds] at current ⊢
    by_cases same : epoch = e
    · subst same
      simp only [Server.refund,if_pos stored,count_cons_self]
      omega
    · have kept : w.server.refund epoch = w.server := if_neg (by simpa [stored] using Ne.symm same)
      simpa [kept,count_cons_of_ne same] using current
  · intro e after
    exact spent.ahead e fun c stored => after c (by simpa using stored)

theorem timelyDue {pid limit epoch rest} (timely : w.Timely (.handle pid))
    (asked : (w.callers pid).outbox = .reserve epoch limit::rest) : ∀ c, w.server.epoch = some c → c ≤ epoch := by
  intro c stored
  simpa only [World.Timely,asked,stored] using timely

theorem effectSpent {a w'} (spent : Spent config w) (tracked : Tracked config w)
    (timely : w.Timely a) (effect : Effect w a w') : Spent config w' := by
  cases effect with
  | refused callers asked =>
    have turned := turnSpent spent (timelyDue timely asked)
    exact { turned with }
  | @granted epoch limit pid rest callers asked room left =>
    have same : limit = config.limit := tracked.limits pid epoch limit (by simp [asked])
    subst same
    have given := grantSpent (turnSpent spent (timelyDue timely asked)) (turnEpoch _ _) left w.refs pid
    exact { given with }
  | refunded epoch callers =>
    have back := refundSpent spent epoch
    exact { back with }
  | freed ref callers => exact { spent with }
  | other action clock callers => exact { spent with }

theorem runKept (config : Config) (actions : List Action) (w : World) (balanced : Balanced w) (tracked : Tracked config w) :
    Balanced (actions.foldl (World.act config) w) ∧ Tracked config (actions.foldl (World.act config) w) ∧
      (Spent config w → World.InOrder config w actions → Spent config (actions.foldl (World.act config) w)) := by
  induction actions generalizing w with
  | nil => exact ⟨balanced,tracked,fun spent _ => spent⟩
  | cons a rest ih =>
    have effect := actEffect config w a
    obtain ⟨balanced',tracked',budget⟩ := ih (w.act config a) (effectBalanced balanced effect) (actTracked tracked a)
    exact ⟨balanced',tracked',fun spent order => budget (effectSpent spent tracked order.1 effect) order.2⟩

theorem heldOnce (balanced : Balanced w) {ref} (given : ref ∈ w.granted.map Prod.fst) :
    w.freed.count ref = if ref ∈ w.server.held then 0 else 1 := by
  have total := balanced.account.count_eq ref
  rw [count_append,count_eq_one_of_mem balanced.distinct given] at total
  have distinct : w.server.held.Nodup := (balanced.account.nodup_iff.mpr balanced.distinct).of_append_left
  split
  · rename_i held
    have one := count_eq_one_of_mem distinct held
    omega
  rename_i gone
  have none := count_eq_zero_of_not_mem gone
  omega

theorem quietEmpty (tracked : Tracked config w) (quiet : w.Quiet) : w.server.held = [] := by
  have none : w.server.slots = [] := by
    rw [eq_nil_iff_forall_not_mem]
    intro slot mem
    obtain ⟨sent,still⟩ := quiet slot.2
    rcases tracked.carried slot mem with ⟨epoch,deleting⟩ | released | fallen
    · exact still _ _ deleting
    · simp [sent] at released
    · simp [sent] at fallen
  simp [Server.held,none]

/-- In every run, four slots at most are held, no slot is freed twice, and when nothing is left to be
sent or deleted each granted slot was freed once. In runs whose reservations reach the server in
the order of their intervals, the grants of an interval stay within its budget and its refunds. -/
theorem deletesWithinBudget (config : Config) (actions : List Action) : (World.InOrder config {} actions → ∀ epoch,
      (World.run config actions).grants epoch ≤ min 512 config.limit+(World.run config actions).refunds epoch) ∧
    (World.run config actions).server.slots.length ≤ 4 ∧
    ∀ ref ∈ (World.run config actions).granted.map Prod.fst,
      ((World.run config actions).freed.count ref = if ref ∈ (World.run config actions).server.held then 0 else 1) ∧
      ((World.run config actions).Quiet → (World.run config actions).freed.count ref = 1) := by
  obtain ⟨balanced,tracked,budget⟩ := runKept config actions {} ⟨by simp,by simp,by simp,.nil⟩ ⟨by simp,by simp⟩
  refine ⟨fun order => (budget ⟨by simp,by simp,by simp [World.grants],by simp [World.grants]⟩ order).bounded,balanced.few,?_⟩
  intro ref given
  have once := heldOnce balanced given
  refine ⟨once,fun quiet => ?_⟩
  rw [World.run,once,quietEmpty tracked quiet]
  rfl

theorem deletesWithinBudgetRefunded : let config : Config := ⟨30000,1⟩
    let actions : List Action := [.call 0,.handle 0,.finish 0 true,.handle 0,.call 0,.handle 0,.handle 0]
    World.InOrder config {} actions ∧ (World.run config actions).grants 0 = 2 ∧
      (World.run config actions).grants 0 ≤ min 512 config.limit+(World.run config actions).refunds 0 :=
  have order := ⟨trivial,trivial,trivial,trivial,trivial,trivial,Int.le_refl 0,trivial⟩
  ⟨order,by decide,(deletesWithinBudget _ _).1 order 0⟩

theorem lateCallerExceedsBudget :
    let w := World.run ⟨30000,1⟩ [.call 0,.call 1,.tick 30000,.call 2,.handle 0,.handle 2,.handle 1]
    w.grants 0 = 2 ∧ ¬w.grants 0 ≤ min 512 1+w.refunds 0 := by decide

end Pulso.RetentionAdmission
