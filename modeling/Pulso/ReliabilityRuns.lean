import Pulso.SpendHistory

/-! Any number of nodes over one root object. A conditional write lands only on the version it
was made from, at once or later, and may land whatever it answered; clocks read anything. -/
namespace Pulso.Reliability
open Pulso.Interleaving List
variable {E D : Type}

structure World (E D : Type) where
  commits : List (Root E D)
  -- writes whose request may still arrive, with the version they were made from
  pending : List (Nat × Root E D)
  nonces : Nonces
  -- calls that were made, with the number of commits before them
  calls : List (Call × Nat)

namespace World

def initial : World E D := ⟨[],[],[],[]⟩

def commit (w : World E D) (root : Root E D) : World E D := { w with commits := w.commits ++ [root] }
def called (w : World E D) (call : Call) : World E D := { w with calls := w.calls ++ [(call,w.commits.length)] }

end World

def modelCall (context : Context) (input : Input E) : Call :=
  .model context.finish context.id context.attempt input.followup.isSome

inductive Acts (w : World E D) (p : Nat) : (o : Op E D) → Reply o → World E D → Prop
  | clock (now : Int) : Acts w p .clock now w
  | monotonic (now : Int) : Acts w p .monotonic now w
  | nonce (purpose) : Acts w p (.nonce purpose) w.nonces.length { w with nonces := w.nonces ++ [(p,purpose)] }
  | found {root} : w.commits.getLast? = some root → Acts w p .get (.found root w.commits.length) w
  | missing : w.commits = [] → Acts w p .get .missing w
  | unread (reason) : Acts w p .get (.failed reason) w
  | landed (etag root) (answer : Put) : etag.getD 0 = w.commits.length → Acts w p (.put etag root) answer (w.commit root)
  | lost (etag root) (answer : Put) : answer ≠ .ok → Acts w p (.put etag root) answer w
  | delayed (etag root) (answer : Put) : answer ≠ .ok →
      Acts w p (.put etag root) answer { w with pending := w.pending ++ [(etag.getD 0,root)] }
  | fetch (key) (answer : Option (Fetched E D)) : Acts w p (.fetch key) answer w
  | store (key snapshot) (answer : Except Reason Unit) : Acts w p (.store key snapshot) answer w
  | delete (key) : Acts w p (.delete key) () w
  | scan (previous finish deadline) (answer : Except Reason (Dict String (Group E))) :
      Acts w p (.scan previous finish deadline) answer w
  | assess (context input) (answer : Except Reason Answer) :
      Acts w p (.assess context input) answer (w.called (modelCall context input))
  | post (run signal token) (answer : Bool) : Acts w p (.post run signal token) answer (w.called (.investigation run.id))

inductive Drifts (w : World E D) : World E D → Prop
  | arrived (root) : (w.commits.length,root) ∈ w.pending → Drifts w (w.commit root)

def machine (E D : Type) : Machine (Op E D) Reply (World E D) := ⟨fun w p o answer w' => Acts w p o answer w',Drifts⟩

/- What nodes run: steps, dispatches of any signal, and completions with any token. -/
inductive Starts [DecidableEq E] [DecidableEq D] (setup : Setup E D) : Prog (Op E D) Reply Unit → Prop
  | step (deadline) : Starts setup ((step setup deadline).run >>= fun _ => pure ())
  | dispatch (signal deadline) : Starts setup ((dispatch setup signal deadline).run >>= fun _ => pure ())
  | complete (id token completed) : Starts setup ((complete setup id token completed).run >>= fun _ => pure ())

def Chargeable (setup : Setup E D) (root : Root E D) (month : Int) : Prop :=
  ∃ now, root.clock ≤ now ∧ setup.calendar.month now = month

structure Fenced (setup : Setup E D) (w : World E D) : Prop where
  within : ∀ root ∈ w.commits, ∀ month kind, root.spent month kind ≤ setup.config.limit kind
  grows : ∀ (i j : Nat) (root later : Root E D), i ≤ j → w.commits[i]? = some root → w.commits[j]? = some later →
    ∀ month, Chargeable setup later month → ∀ kind, root.spent month kind ≤ later.spent month kind
  paid : ∃ charge : Call → Nat, (w.calls.map (fun c => charge c.1)).Nodup ∧
    ∀ c ∈ w.calls, charge c.1 < c.2 ∧
      ∃ next, w.commits[charge c.1]? = some next ∧ Pays setup (prior w.commits (charge c.1)) next c.1
  single : ∀ finish group followup, (w.calls.filter (fun c => match c.1 with
    | .model f g _ u => f = finish ∧ g = group ∧ u = followup
    | .investigation _ => false)).length ≤ 1
  published : ∀ finish i j, Publishes w.commits i finish → Publishes w.commits j finish → i = j

def Call.nonce : Call → Nonce
  | .model _ _ attempt _ => attempt
  | .investigation run => run

def Owned (w : World E D) (p : Nat) (nonce : Nonce) : Prop := w.nonces[nonce]?.map Prod.fst = some p

structure MayCall (w : World E D) (p : Nat) (call : Call) : Prop where
  owned : Owned w p call.nonce
  backed : Backed w.commits call
  unmade : call ∉ w.calls.map Prod.fst

def Allowed (setup : Setup E D) (w : World E D) (p : Nat) : Op E D → Prop
  | .put etag root => etag.getD 0 ≤ w.commits.length ∧ Move setup w.nonces (prior w.commits (etag.getD 0)) root
  | .assess context input => MayCall w p (modelCall context input)
  | .post run _ _ => MayCall w p (.investigation run.id)
  | _ => True

structure Sound (setup : Setup E D) (w : World E D) : Prop where
  linked : Linked setup w.nonces w.commits
  pending : ∀ e ∈ w.pending, e.1 ≤ w.commits.length ∧ Move setup w.nonces (prior w.commits e.1) e.2
  distinct : (w.calls.map Prod.fst).Nodup
  backed : ∀ c ∈ w.calls, Backed (w.commits.take c.2) c.1
  drawn : ∀ c ∈ w.calls, c.1.nonce < w.nonces.length

/- What the others may do: add commits and nonces, and make calls of their own. -/
structure Rely (p : Nat) (w v : World E D) : Prop where
  commits : w.commits <+: v.commits
  nonces : w.nonces <+: v.nonces
  calls : ∀ call, Owned w p call.nonce → call ∈ v.calls.map Prod.fst → call ∈ w.calls.map Prod.fst

section Growth
variable {setup : Setup E D} {w v u : World E D} {p : Nat} {nonces more : Nonces} {commits : List (Root E D)}
  {root next : Root E D}

theorem getPrefix {α : Type} {xs ys} {i : Nat} {x : α} (grown : xs <+: ys) (h : xs[i]? = some x) : ys[i]? = some x := by
  obtain ⟨zs,rfl⟩ := grown
  rw [getElem?_append_left (List.getElem?_eq_some_iff.mp h).1]
  exact h

theorem Owned.grow {nonce : Nonce} (owned : Owned w p nonce) (grown : w.nonces <+: v.nonces) : Owned v p nonce := by
  obtain ⟨entry,known,mine⟩ := Option.map_eq_some_iff.mp owned
  exact Option.map_eq_some_iff.mpr ⟨entry,getPrefix grown known,mine⟩

theorem DrawnFor.grow {nonce : Nonce} {purpose : Purpose} (drawn : DrawnFor nonces nonce purpose) (grown : nonces <+: more) :
    DrawnFor more nonce purpose := by
  obtain ⟨entry,known,mine⟩ := Option.map_eq_some_iff.mp drawn
  exact Option.map_eq_some_iff.mpr ⟨entry,getPrefix grown known,mine⟩

theorem Move.grow (move : Move setup nonces root next) (grown : nonces <+: more) : Move setup more root next := by
  cases move with
  | keep ledger window attempts runs => exact .keep ledger window attempts runs
  | scan finish claim drawn after forward charged scanFinish scanClaim snapshot attempts runs =>
    exact .scan finish claim (drawn.grow grown) after forward charged scanFinish scanClaim snapshot attempts runs
  | publish finish claim drawn claimed ledger snapshot attempts scanFinish scanClaim runs =>
    exact .publish finish claim (drawn.grow grown) claimed ledger snapshot attempts scanFinish scanClaim runs
  | reserve finish id attempt calls current slot forward charged window reserved others runs =>
    exact .reserve finish id attempt calls current slot forward charged window reserved others runs
  | run id forward charged window attempts runs => exact .run id forward charged window attempts runs

theorem Backed.grow {call later} (backed : Backed commits call) (grown : commits ⊆ later) : Backed later call := by
  cases call with
  | model finish group attempt followup =>
    obtain ⟨root,member,rest⟩ := backed
    exact ⟨root,grown member,rest⟩
  | investigation run =>
    obtain ⟨root,member,rest⟩ := backed
    exact ⟨root,grown member,rest⟩

theorem priorGrow {later : List (Root E D)} {i : Nat} (inside : i ≤ commits.length) (grown : commits <+: later) :
    prior later i = prior commits i := by
  cases i with
  | zero => rfl
  | succ i =>
    have known := getElem?_eq_getElem inside
    rw [prior,prior,known,getPrefix grown known]

theorem Linked.grow (linked : Linked setup nonces commits) (grown : nonces <+: more) : Linked setup more commits :=
  fun i next known => (linked i next known).grow grown

theorem Linked.commit (linked : Linked setup nonces commits) (move : Move setup nonces (prior commits commits.length) root) :
    Linked setup nonces (commits ++ [root]) := by
  intro i next known
  rcases Nat.lt_or_ge i commits.length with inside|outside
  · rw [getElem?_append_left inside] at known
    rw [priorGrow inside.le (prefix_append _ _)]
    exact linked i next known
  rw [getElem?_append_right outside] at known
  have last : i = commits.length := by
    have := (List.getElem?_eq_some_iff.mp known).1
    simp only [length_singleton] at this
    omega
  subst last
  rw [Nat.sub_self,getElem?_cons_zero] at known
  cases known
  rw [priorGrow (le_refl _) (prefix_append _ _)]
  exact move

theorem Rely.refl (p : Nat) (w : World E D) : Rely p w w := ⟨prefix_refl _,prefix_refl _,fun _ _ made => made⟩

theorem Rely.trans (first : Rely p w v) (second : Rely p v u) : Rely p w u where
  commits := first.commits.trans second.commits
  nonces := first.nonces.trans second.nonces
  calls call owned made := first.calls call owned (second.calls call (owned.grow first.nonces) made)

theorem Owned.inside {nonce} (owned : Owned w p nonce) : nonce < w.nonces.length := by
  obtain ⟨entry,known,-⟩ := Option.map_eq_some_iff.mp owned
  exact (List.getElem?_eq_some_iff.mp known).1

variable (sound : Sound setup w)
include sound

theorem Sound.commit (move : Move setup w.nonces (prior w.commits w.commits.length) root) :
    Sound setup (w.commit root) where
  linked := sound.linked.commit move
  pending e member := by
    obtain ⟨inside,made⟩ := sound.pending e member
    refine ⟨inside.trans (prefix_append _ _).length_le,?_⟩
    change Move setup w.nonces (prior (w.commits ++ [root]) e.1) e.2
    rw [priorGrow inside (prefix_append _ _)]
    exact made
  distinct := sound.distinct
  backed c member := by
    have grown : w.commits.take c.2 ⊆ (w.commits ++ [root]).take c.2 := by
      rw [take_append]
      exact subset_append_left _ _
    exact (sound.backed c member).grow grown
  drawn := sound.drawn

theorem Sound.nonce (entry : Nat × Purpose) : Sound setup { w with nonces := w.nonces ++ [entry] } where
  linked := sound.linked.grow (prefix_append _ _)
  pending e member := ⟨(sound.pending e member).1,(sound.pending e member).2.grow (prefix_append _ _)⟩
  distinct := sound.distinct
  backed := sound.backed
  drawn c member := (sound.drawn c member).trans_le (prefix_append _ _).length_le

theorem Sound.delay {version} (inside : version ≤ w.commits.length)
    (move : Move setup w.nonces (prior w.commits version) root) :
    Sound setup { w with pending := w.pending ++ [(version,root)] } where
  linked := sound.linked
  pending e member := by
    rcases mem_append.mp member with old|new
    · exact sound.pending e old
    · obtain rfl := mem_singleton.mp new
      exact ⟨inside,move⟩
  distinct := sound.distinct
  backed := sound.backed
  drawn := sound.drawn

theorem Sound.called {call} (may : MayCall w p call) : Sound setup (w.called call) where
  linked := sound.linked
  pending := sound.pending
  distinct := by
    rw [World.called,map_append,nodup_append]
    refine ⟨sound.distinct,nodup_singleton _,?_⟩
    rintro c old d new rfl
    obtain rfl := mem_singleton.mp new
    exact may.unmade old
  backed c member := by
    rcases mem_append.mp member with old|new
    · exact sound.backed c old
    obtain rfl := mem_singleton.mp new
    change Backed (w.commits.take w.commits.length) call
    rw [take_length]
    exact may.backed
  drawn c member := by
    rcases mem_append.mp member with old|new
    · exact sound.drawn c old
    · obtain rfl := mem_singleton.mp new
      exact may.owned.inside

omit sound

theorem Rely.called {q call} (may : MayCall w q call) (other : p ≠ q) : Rely p w (w.called call) where
  commits := prefix_refl _
  nonces := prefix_refl _
  calls made owned member := by
    rw [World.called,map_append] at member
    rcases mem_append.mp member with old|new
    · exact old
    · obtain rfl := mem_singleton.mp new
      exact absurd (Option.some.inj (owned.symm.trans may.owned)) other

theorem Rely.commit (p : Nat) (w : World E D) (root : Root E D) : Rely p w (w.commit root) :=
  ⟨prefix_append _ _,prefix_refl _,fun _ _ made => made⟩

def quiet : Op E D → Bool
  | .assess _ _ | .post _ _ _ => false
  | _ => true

theorem actsQuiet {q o answer} (silent : quiet o) (acts : Acts w q o answer v) : Rely p w v := by
  cases acts with
  | nonce => exact ⟨prefix_refl _,prefix_append _ _,fun _ _ made => made⟩
  | landed => exact .commit p w _
  | delayed => exact ⟨prefix_refl _,prefix_refl _,fun _ _ made => made⟩
  | assess => cases silent
  | post => cases silent
  | clock | monotonic | found | missing | unread | lost | fetch | store | delete | scan => exact .refl p w

theorem actsSound {o answer} (sound : Sound setup w) (allowed : Allowed setup w p o)
    (acts : Acts w p o answer v) : Sound setup v := by
  cases acts with
  | nonce purpose => exact sound.nonce _
  | landed etag root _ current =>
    have move := allowed.2
    rw [current] at move
    exact sound.commit move
  | delayed etag root => exact sound.delay allowed.1 allowed.2
  | assess => exact sound.called allowed
  | post => exact sound.called allowed
  | clock | monotonic | found | missing | unread | lost | fetch | store | delete | scan => exact sound

end Growth

def discipline (setup : Setup E D) : (machine E D).Discipline where
  holds := Sound setup
  allowed := Allowed setup
  rely := Rely
  relyRefl := .refl
  relyTrans := .trans
  keeps := actsSound
  others := by
    intro p q o answer w w' _ allowed acts other
    cases o with
    | assess => cases acts; exact .called allowed other
    | post => cases acts; exact .called allowed other
    | clock | monotonic | nonce | get | put | fetch | store | delete | scan => exact actsQuiet rfl acts
  drift := by
    rintro w _ sound ⟨root,waiting⟩
    exact ⟨sound.commit (sound.pending _ waiting).2,fun p => .commit p w root⟩

end Pulso.Reliability
