import Mathlib.Data.Nat.Bitwise
import Mathlib.Tactic.IntervalCases
import Pulso.TraceChain

/-! What a structural chain means, read off the links of the spans, and that both implementations end
with exactly that reading. -/
namespace Pulso.TraceQL
open Worklist List

section Reading
variable {ι : Type} {spans chosen : List (Span ι)}

/- The second span is a parent of the first. Copies of one span share its identifier, so a span can have
several parents, and a parent that was not stored has no row. -/
def Up (spans : List (Span ι)) (s t : Span ι) : Prop := s ∈ spans ∧ t ∈ spans ∧ s.parent = some t.id

def Related (spans : List (Span ι)) : Relation → Span ι → Span ι → Prop
  | .child,kept,s => s.parent = some kept.id
  | .parent,kept,s => kept.parent = some s.id
  | .descendant,kept,s => Relation.TransGen (Up spans) s kept
  | .ancestor,kept,s => Relation.TransGen (Up spans) kept s
  | .sibling,kept,s => kept.id ≠ s.id ∧ ∃ p, kept.parent = some p ∧ s.parent = some p

def Kept (spans : List (Span ι)) (relations : List Relation) : Nat → Span ι → Prop
  | 0,s => s.mask.testBit 0 = true
  | n+1,s => s.mask.testBit (n + 1) = true ∧
      ∃ relation, relations[n]? = some relation ∧ ∃ kept ∈ spans, Kept spans relations n kept ∧ Related spans relation kept s

def Linked (spans : List (Span ι)) (a b : ι) : Prop := ∃ s ∈ spans, s.id = a ∧ s.parent = some b

theorem climbUp {s t} (here : s ∈ spans) (there : t ∈ spans) {p} (own : s.parent = some p)
    (path : Relation.ReflTransGen (Linked spans) p t.id) : Relation.TransGen (Up spans) s t := by
  induction path using Relation.ReflTransGen.head_induction_on generalizing s with
  | refl => exact .single ⟨here,there,own⟩
  | head edge _ ih =>
    obtain ⟨row,stored,rfl,next⟩ := edge
    exact .head ⟨here,stored,own⟩ (ih stored next)

theorem climbDown {s t} (path : Relation.TransGen (Up spans) s t) :
    ∃ p, s.parent = some p ∧ Relation.ReflTransGen (Linked spans) p t.id := by
  induction path using Relation.TransGen.head_induction_on with
  | single up => exact ⟨_,up.2.2,.refl⟩
  | head up _ ih =>
    obtain ⟨p,own,path⟩ := ih
    exact ⟨_,up.2.2,.head ⟨_,up.2.1,rfl,own⟩ path⟩

variable {next : ι → List ι} {seeds reached : List ι}

theorem ancestorIff (inside : ∀ t ∈ chosen, t ∈ spans) (edges : ∀ a b, b ∈ next a ↔ Linked spans a b)
    (starts : ∀ x, x ∈ seeds ↔ ∃ t ∈ chosen, t.parent = some x) (found : ∀ y, y ∈ reached ↔ Reaches next seeds y)
    {s} (here : s ∈ spans) : s.id ∈ reached ↔ ∃ kept ∈ chosen, Related spans .ancestor kept s := by
  have same : (fun a b => b ∈ next a) = Linked spans := by
    funext a b
    exact propext (edges a b)
  simp only [found,Reaches,starts,same]
  constructor
  · rintro ⟨p,⟨t,kept,own⟩,path⟩
    exact ⟨t,kept,climbUp (inside t kept) here own path⟩
  rintro ⟨t,kept,path⟩
  obtain ⟨p,own,path⟩ := climbDown path
  exact ⟨p,⟨t,kept,own⟩,path⟩

variable [DecidableEq ι]

theorem descendantIff (inside : ∀ t ∈ chosen, t ∈ spans) (edges : ∀ a b, b ∈ next a ↔ Linked spans b a)
    (starts : ∀ x, x ∈ seeds ↔ ∃ t ∈ chosen, t.id = x) (found : ∀ y, y ∈ reached ↔ Reaches next seeds y)
    {s} (here : s ∈ spans) :
    s.parent.any (fun p => p ∈ reached) = true ↔ ∃ kept ∈ chosen, Related spans .descendant kept s := by
  have swapped : (fun a b => b ∈ next a) = Function.swap (Linked spans) := by
    funext a b
    exact propext (edges a b)
  simp only [Option.any_eq_true,decide_eq_true_eq,found,Reaches,starts,swapped,Relation.reflTransGen_swap]
  constructor
  · rintro ⟨p,own,_,⟨t,kept,rfl⟩,path⟩
    exact ⟨t,kept,climbUp here (inside t kept) own path⟩
  rintro ⟨t,kept,path⟩
  obtain ⟨p,own,path⟩ := climbDown path
  exact ⟨p,own,t.id,⟨t,kept,rfl⟩,path⟩

theorem childIff (starts : ∀ x, x ∈ seeds ↔ ∃ t ∈ chosen, t.id = x) {s} :
    s.parent.any (fun p => p ∈ seeds) = true ↔ ∃ kept ∈ chosen, Related spans .child kept s := by
  simp only [Option.any_eq_true,decide_eq_true_eq,starts,Related]
  constructor
  · rintro ⟨p,own,t,kept,rfl⟩
    exact ⟨t,kept,own⟩
  · rintro ⟨t,kept,own⟩
    exact ⟨t.id,own,t,kept,rfl⟩

theorem siblingIff {groups : ι → List ι} (members : ∀ p x, x ∈ groups p ↔ Linked chosen x p)
    {s} : s.parent.any (fun p => (groups p).any (fun other => other ≠ s.id)) = true ↔
      ∃ kept ∈ chosen, Related spans .sibling kept s := by
  simp only [Option.any_eq_true,any_eq_true,decide_eq_true_eq,members,Related]
  constructor
  · rintro ⟨p,own,_,⟨t,kept,rfl,shared⟩,other⟩
    exact ⟨t,kept,other,p,shared,own⟩
  · rintro ⟨t,kept,other,p,shared,own⟩
    exact ⟨p,own,t.id,⟨t,kept,rfl,shared⟩,other⟩

omit [DecidableEq ι] in
theorem linkedUp {a b} : (∃ s ∈ spans, ∃ p, s.parent = some p ∧ (s.id,p) = (a,b)) ↔ Linked spans a b := by
  constructor
  · rintro ⟨s,here,p,own,same⟩
    cases same
    exact ⟨s,here,rfl,own⟩
  · rintro ⟨s,here,rfl,own⟩
    exact ⟨s,here,b,own,rfl⟩

omit [DecidableEq ι] in
theorem linkedDown {a b} : (∃ s ∈ spans, ∃ p, s.parent = some p ∧ (p,s.id) = (b,a)) ↔ Linked spans a b := by
  simpa only [Prod.mk.injEq,and_comm] using @linkedUp _ spans a b

end Reading

section Grouping
variable {κ ν : Type} [DecidableEq κ]

theorem gatherPut (groups : Dict κ (List ν)) (k k' : κ) (vs : List ν) :
    gather (groups.put k vs) k' = if k' = k then vs else gather groups k' := by
  unfold gather
  split
  · next same => rw [same,Dict.getPutSame]; rfl
  · next other => rw [Dict.getPutOther _ _ other]

theorem memGroupBy {pairs} {k : κ} {v : ν} : v ∈ gather (groupBy pairs) k ↔ (k,v) ∈ pairs := by
  have from' : ∀ (groups : Dict κ (List ν)), v ∈ gather (pairs.foldl (fun groups pair =>
      groups.put pair.1 (gather groups pair.1 ++ [pair.2])) groups) k ↔ v ∈ gather groups k ∨ (k,v) ∈ pairs := by
    induction pairs with
    | nil => simp
    | cons pair pairs ih =>
      intro groups
      rw [foldl_cons,ih,gatherPut]
      split
      · next same => subst same; simp [or_assoc,Prod.ext_iff]
      · next other => simp [Prod.ext_iff,other]
  refine (from' Dict.empty).trans ?_
  simp [gather,Dict.empty,Dict.get?]

def targets (edges : Dict κ (List ν)) : List ν := edges.entries.flatMap Prod.snd

theorem gatherTargets (edges : Dict κ (List ν)) (k : κ) : ∀ v ∈ gather edges k, v ∈ targets edges := by
  intro v mem
  unfold gather at mem
  cases found : edges.get? k with
  | none => rw [found] at mem; cases mem
  | some vs =>
    rw [found] at mem
    exact mem_flatMap.mpr ⟨(k,vs),Dict.getIff.mp found,mem⟩

end Grouping

variable {n : Nat} {current : List Bool}

/- A chain carried out one relation after the other: if every step turns the spans kept so far into the spans
kept next, the chain ends with the spans kept by all of it. -/
section Chain
variable {ι : Type} {spans : List (Span ι)} {relations : List Relation}

def Holds (spans : List (Span ι)) (relations : List Relation) (n : Nat) (current : List Bool) : Prop :=
  List.Forall₂ (fun s bit => bit = true ↔ Kept spans relations n s) spans current

theorem holdsMap {keep} (each : ∀ s ∈ spans, keep s = true ↔ Kept spans relations n s) :
    Holds spans relations n (spans.map keep) := by
  unfold Holds
  rw [forall₂_map_right_iff,forall₂_same]
  exact each

theorem holdsChosen (holds : Holds spans relations n current) (s : Span ι) :
    s ∈ ((spans.zip current).filter (fun pair => pair.2)).map Prod.fst ↔ s ∈ spans ∧ Kept spans relations n s := by
  have along : ∀ {rows : List (Span ι)} {bits : List Bool},
      List.Forall₂ (fun s bit => bit = true ↔ Kept spans relations n s) rows bits →
      (s ∈ ((rows.zip bits).filter (fun pair => pair.2)).map Prod.fst ↔ s ∈ rows ∧ Kept spans relations n s) := by
    intro rows bits each
    induction each with
    | nil => simp
    | @cons row bit rows bits first _ ih =>
      simp only [zip_cons_cons,filter_cons,mem_cons]
      split
      · next kept =>
        rw [map_cons,mem_cons,ih]
        constructor
        · rintro (rfl | ⟨later,holds⟩)
          · exact ⟨.inl rfl,first.mp kept⟩
          · exact ⟨.inr later,holds⟩
        rintro ⟨rfl | later,holds⟩
        · exact .inl rfl
        · exact .inr ⟨later,holds⟩
      · next dropped =>
        rw [ih]
        constructor
        · exact fun found => ⟨.inr found.1,found.2⟩
        rintro ⟨rfl | later,holds⟩
        · exact absurd (first.mpr holds) dropped
        · exact ⟨later,holds⟩
  exact along holds

theorem keptNext {relation} {chosen : List (Span ι)} (here : relations[n]? = some relation)
    (members : ∀ t, t ∈ chosen ↔ t ∈ spans ∧ Kept spans relations n t) (s : Span ι) :
    (s.mask.testBit (n + 1) = true ∧ ∃ kept ∈ chosen, Related spans relation kept s) ↔ Kept spans relations (n + 1) s := by
  refine and_congr_right (fun _ => ⟨fun ⟨t,kept,how⟩ => ?_,fun ⟨r,same,t,mem,kept,how⟩ => ?_⟩)
  · exact ⟨relation,here,t,((members t).mp kept).1,((members t).mp kept).2,how⟩
  · cases here.symm.trans same
    exact ⟨t,(members t).mpr ⟨mem,kept⟩,how⟩

theorem chainHolds {step : Nat → List Bool → Relation × Nat → Option (List Bool)} {first}
    (each : ∀ n relation current, relations[n]? = some relation → Holds spans relations n current →
      ∃ after, Settles (fun fuel => step fuel current (relation,first + n)) after ∧ Holds spans relations (n + 1) after)
    {start} (initial : Holds spans relations 0 start) :
    ∃ kept, Settles (fun fuel => (relations.zipIdx first).foldlM (step fuel) start) kept ∧
      Holds spans relations relations.length kept := by
  have from' : ∀ rest done current, relations = done ++ rest → Holds spans relations done.length current →
      ∃ kept, Settles (fun fuel => (rest.zipIdx (first + done.length)).foldlM (step fuel) current) kept ∧
        Holds spans relations relations.length kept := by
    intro rest
    induction rest with
    | nil =>
      intro done current whole holds
      refine ⟨current,.always (fun _ => rfl),?_⟩
      rw [whole,append_nil] at holds ⊢
      exact holds
    | cons relation rest ih =>
      intro done current whole holds
      obtain ⟨after,settled,kept⟩ := each done.length relation current (by simp [whole]) holds
      obtain ⟨result,ended,all⟩ := ih (done ++ [relation]) after (by simp [whole]) (by simpa using kept)
      refine ⟨result,?_,all⟩
      have both := Settles.chain (fun fuel bits =>
        (rest.zipIdx (first + (done ++ [relation]).length)).foldlM (step fuel) bits) settled ended
      simpa only [zipIdx_cons,foldlM_cons,length_append,length_singleton,Nat.add_assoc,Option.bind_eq_bind] using both
  simpa using from' relations [] start rfl (by simpa using initial)

theorem holdsUnique {a b} (left : Holds spans relations n a) (right : Holds spans relations n b) : a = b := by
  have along : ∀ {rows : List (Span ι)} {a b : List Bool},
      List.Forall₂ (fun s bit => bit = true ↔ Kept spans relations n s) rows a →
      List.Forall₂ (fun s bit => bit = true ↔ Kept spans relations n s) rows b → a = b := by
    intro rows a b left
    induction left generalizing b with
    | nil => intro right; cases right; rfl
    | cons first _ ih =>
      rintro (_ | ⟨second,others⟩)
      rw [ih others,Bool.eq_iff_iff.mpr (first.trans second.symm)]
  exact along left right

end Chain

namespace Reference
variable {ι : Type} [DecidableEq ι]

theorem spreadSearch (edges : Dict ι (List ι)) (fuel : Nat) (queue seen : List ι) : spread edges fuel queue seen =
      search (fun seen id => (gather edges id).filter (fun n => n ∉ seen)) fuel queue seen := by
  induction fuel generalizing queue seen with
  | zero => cases queue <;> rfl
  | succ fuel ih =>
    cases queue with
    | nil => rfl
    | cons id rest => exact ih _ _

theorem closureReaches (seeds : List ι) (edges : Dict ι (List ι)) :
    ∃ result, Settles (fun fuel => closure fuel seeds edges) result ∧ ∀ y, y ∈ result ↔ Reaches (gather edges) seeds y := by
  have fresh : ∀ seen id, Fresh (gather edges) seen id ((gather edges id).filter (fun n => n ∉ seen)) := by
    intro seen id
    refine ⟨fun y mem => by simpa using mem,fun y edge => ?_⟩
    by_cases old : y ∈ seen
    · exact .inl old
    · exact .inr (by simpa using ⟨edge,old⟩)
  simpa only [closure,spreadSearch] using searchReach (gatherTargets edges) fresh (fun _ => Iff.rfl) (fun _ => Iff.rfl)

omit [DecidableEq ι] in
theorem memParented {spans pair} {e : ι × ι} :
    e ∈ parented spans pair ↔ ∃ s ∈ spans, ∃ p, s.parent = some p ∧ pair s p = e := by
  simp [parented]

theorem relatedHolds (order : Iteration ι) (relation : Relation) {spans chosen : List (Span ι)}
    (inside : ∀ t ∈ chosen, t ∈ spans) :
    ∃ holds, Settles (fun fuel => related order fuel relation chosen (Lists.uniqBy id (chosen.map Span.id))
        (childEdges spans) (parentEdges spans)) holds ∧
      ∀ s ∈ spans, holds s = true ↔ ∃ kept ∈ chosen, Related spans relation kept s := by
  have ids : ∀ x, x ∈ Lists.uniqBy id (chosen.map Span.id) ↔ ∃ t ∈ chosen, t.id = x := fun x => by
    rw [Lists.uniqMem,mem_map]
  cases relation with
  | child => exact ⟨_,.always (fun _ => rfl),fun s _ => childIff ids⟩
  | parent =>
    refine ⟨_,.always (fun _ => rfl),fun s _ => ?_⟩
    simp only [decide_eq_true_eq,mem_map,Related]
  | descendant =>
    obtain ⟨down,settled,reached⟩ := closureReaches (order.visit (Lists.uniqBy id (chosen.map Span.id))) (childEdges spans)
    refine ⟨_,settled.map (fun down (s : Span ι) => s.parent.any (fun p => decide (p ∈ down))),
      fun s here => descendantIff inside ?_ (fun x => (order.same _).mem_iff.trans (ids x)) reached here⟩
    intro a b
    rw [childEdges,memGroupBy,memParented,linkedDown]
  | ancestor =>
    obtain ⟨up,settled,reached⟩ := closureReaches (chosen.filterMap Span.parent) (parentEdges spans)
    refine ⟨_,settled.map (fun up (s : Span ι) => decide (s.id ∈ up)),
      fun s here => decide_eq_true_iff.trans (ancestorIff inside ?_ (fun x => mem_filterMap) reached here)⟩
    intro a b
    rw [parentEdges,memGroupBy,memParented,linkedUp]
  | sibling =>
    refine ⟨_,.always (fun _ => rfl),fun s _ => siblingIff (fun p x => ?_)⟩
    rw [memGroupBy,memParented,linkedDown]

theorem bandBit (m n : Nat) : decide (m &&& (1 <<< n) ≠ 0) = m.testBit n := by
  rw [Nat.one_shiftLeft,Nat.and_two_pow]
  cases m.testBit n <;> simp

theorem structuralHolds (order : Iteration ι) (relations : List Relation) (spans : List (Span ι)) :
    ∃ kept, Settles (fun fuel => structural order fuel relations spans) kept ∧
      Holds spans relations relations.length kept := by
  refine chainHolds ?_ (holdsMap (fun s _ => ?_))
  · intro n relation current here holds
    have chosen := holdsChosen holds
    obtain ⟨test,settled,exact'⟩ := relatedHolds order relation (fun t mem => ((chosen t).mp mem).1)
    refine ⟨_,settled.map (fun test => spans.map (fun s => (s.mask &&& (1 <<< (1 + n)) ≠ 0) && test s)),
      holdsMap (fun s mem => ?_)⟩
    rw [Bool.and_eq_true,bandBit,Nat.add_comm,exact' s mem]
    exact keptNext here chosen s
  · rw [Kept,← bandBit s.mask 0]
    rfl

end Reference

variable {relations : List Relation}

namespace Native

def Link.span (s : Link) : Span UInt64 := ⟨s.id,s.parent,s.mask.toNat⟩

def pushed : List UInt64 → List UInt64 → List UInt64
  | _,[] => []
  | seen,id::ids => if id ∈ seen then pushed seen ids else pushed (id::seen) ids ++ [id]

theorem foldVisit (ids queue seen : List UInt64) :
    ids.foldl visit ⟨queue,seen⟩ = ⟨pushed seen ids ++ queue,pushed seen ids ++ seen⟩ := by
  induction ids generalizing queue seen with
  | nil => rfl
  | cons id ids ih =>
    rw [foldl_cons,visit,pushed]
    split
    · exact ih queue seen
    · rw [ih,append_assoc,append_assoc]
      rfl

theorem memPushed {seen ids y} : y ∈ pushed seen ids ↔ y ∈ ids ∧ y ∉ seen := by
  induction ids generalizing seen with
  | nil => simp [pushed]
  | cons id ids ih =>
    rw [pushed]
    split
    · next old =>
      rw [ih,mem_cons]
      exact ⟨fun h => ⟨.inr h.1,h.2⟩,fun h => ⟨h.1.resolve_left (fun same => h.2 (same ▸ old)),h.2⟩⟩
    next new =>
    rw [mem_append,ih]
    by_cases same : y = id
    · subst same
      simp [new]
    · simp [same]

theorem drainSearch (edges : Dict UInt64 (List UInt64)) (fuel : Nat) (queue seen : List UInt64) :
    drain edges fuel ⟨queue,seen⟩ = search (fun seen id => pushed seen (gather edges id)) fuel queue seen := by
  induction fuel generalizing queue seen with
  | zero => cases queue <;> rfl
  | succ fuel ih =>
    cases queue with
    | nil => rfl
    | cons id rest =>
      rw [drain,foldVisit,ih]
      rfl

theorem closureReaches (seeds : List UInt64) (edges : Dict UInt64 (List UInt64)) :
    ∃ result, Settles (fun fuel => closure fuel seeds edges) result ∧ ∀ y, y ∈ result ↔ Reaches (gather edges) seeds y := by
  have fresh : ∀ seen id, Fresh (gather edges) seen id (pushed seen (gather edges id)) := by
    intro seen id
    refine ⟨fun y mem => memPushed.mp mem,fun y edge => ?_⟩
    by_cases old : y ∈ seen
    · exact .inl old
    · exact .inr (memPushed.mpr ⟨edge,old⟩)
  have start : ∀ x, x ∈ pushed [] seeds ++ [] ↔ x ∈ seeds := by
    intro x
    rw [append_nil,memPushed]
    simp
  simpa only [closure,foldVisit,drainSearch] using searchReach (gatherTargets edges) fresh start start

theorem memPaired (pair : UInt64 → UInt64 → UInt64 × UInt64) {spans : List Link} {e} :
    e ∈ spans.filterMap (fun s => s.parent.map (pair s.id)) ↔
      ∃ t ∈ spans.map Link.span, ∃ p, t.parent = some p ∧ pair t.id p = e := by
  simp only [mem_filterMap,Option.map_eq_some_iff,mem_map,exists_exists_and_eq_and]
  rfl

theorem chosenSpans (spans : List Link) (current : List Bool) : (chosen spans current).map Link.span =
      (((spans.map Link.span).zip current).filter (fun pair => pair.2)).map Prod.fst := by
  induction spans generalizing current with
  | nil => rfl
  | cons s spans ih =>
    cases current with
    | nil => rfl
    | cons bit current =>
      cases bit with
      | false => exact ih current
      | true => exact congrArg (s.span::·) (ih current)

theorem relatedHolds (order : Iteration UInt64) (relation : Relation) {spans : List Link}
    (inside : ∀ t ∈ (chosen spans current).map Link.span, t ∈ spans.map Link.span) :
    ∃ holds, Settles (fun fuel => related order fuel spans relation current) holds ∧
      ∀ s ∈ spans, holds s = true ↔
        ∃ kept ∈ (chosen spans current).map Link.span, Related (spans.map Link.span) relation kept s.span := by
  have ids : ∀ x, x ∈ Lists.uniqBy id ((chosen spans current).map Link.id) ↔
      ∃ t ∈ (chosen spans current).map Link.span, t.id = x := by
    simp only [Lists.uniqMem,mem_map,exists_exists_and_eq_and]
    exact fun _ => Iff.rfl
  have wanted : ∀ x, x ∈ (chosen spans current).filterMap Link.parent ↔
      ∃ t ∈ (chosen spans current).map Link.span, t.parent = some x := by
    simp only [mem_filterMap,mem_map,exists_exists_and_eq_and]
    exact fun _ => Iff.rfl
  cases relation with
  | child => exact ⟨_,.always (fun _ => rfl),fun s _ => childIff (s := s.span) ids⟩
  | parent => exact ⟨_,.always (fun _ => rfl),fun s _ => decide_eq_true_iff.trans (wanted s.id)⟩
  | descendant =>
    obtain ⟨down,settled,reached⟩ :=
      closureReaches (order.visit (Lists.uniqBy id ((chosen spans current).map Link.id))) (childEdges spans)
    refine ⟨_,settled.map (fun down (s : Link) => s.parent.any (fun p => decide (p ∈ down))), fun s here =>
      descendantIff inside ?_ (fun x => (order.same _).mem_iff.trans (ids x)) reached (mem_map_of_mem here)⟩
    intro a b
    rw [childEdges,memGroupBy]
    exact (memPaired (fun id parent => (parent,id))).trans linkedDown
  | ancestor =>
    obtain ⟨up,settled,reached⟩ := closureReaches ((chosen spans current).filterMap Link.parent) (parentEdges spans)
    refine ⟨_,settled.map (fun up (s : Link) => decide (s.id ∈ up)),
      fun s here => decide_eq_true_iff.trans (ancestorIff inside ?_ wanted reached (mem_map_of_mem here))⟩
    intro a b
    rw [parentEdges,memGroupBy]
    exact (memPaired (fun id parent => (id,parent))).trans linkedUp
  | sibling =>
    refine ⟨_,.always (fun _ => rfl),fun s _ => siblingIff (s := s.span) (fun p x => ?_)⟩
    rw [memGroupBy]
    exact (memPaired (fun id parent => (parent,id))).trans linkedDown

theorem bandBit (small : n < 8) (m : UInt8) : decide (m &&& bit n ≠ 0) = m.toNat.testBit n := by
  have value : (bit n).toNat = 1 <<< n := by
    interval_cases n <;> rfl
  rw [← Reference.bandBit,← value,← UInt8.toNat_and]
  simp [← UInt8.toNat_inj]

theorem structuralHolds (order : Iteration UInt64) (fits : relations.length < 8) (spans : List Link) :
    ∃ kept, Settles (fun fuel => structural order fuel relations spans) kept ∧
      Holds (spans.map Link.span) relations relations.length kept := by
  have rows : ∀ {n : Nat} {keep : Link → Bool},
      (∀ s ∈ spans, keep s = true ↔ Kept (spans.map Link.span) relations n s.span) →
      Holds (spans.map Link.span) relations n (spans.map keep) := by
    intro n keep each
    unfold Holds
    rw [forall₂_map_left_iff,forall₂_map_right_iff,forall₂_same]
    exact each
  refine chainHolds ?_ (rows (fun s _ => ?_))
  · intro n relation current here holds
    have small : n + 1 < 8 := by
      have := (List.getElem?_eq_some_iff.mp here).1
      omega
    have chosen := holdsChosen holds
    rw [← chosenSpans] at chosen
    obtain ⟨test,settled,exact'⟩ := relatedHolds order relation (fun t mem => ((chosen t).mp mem).1)
    refine ⟨_,settled.map (fun test => spans.map (fun s => (s.mask &&& bit (0 + n + 1) ≠ 0) && test s)),
      rows (fun s mem => ?_)⟩
    rw [Bool.and_eq_true,Nat.zero_add,bandBit small,exact' s mem]
    exact keptNext here chosen s.span
  · rw [Kept]
    exact (bandBit (n := 0) (by decide) s.mask) ▸ Iff.rfl

end Native

section Renaming
variable {ι κ : Type}

def Span.rename (f : ι → κ) (s : Span ι) : Span κ := ⟨f s.id,s.parent.map f,s.mask⟩

variable {s t : Span ι}

theorem upRename (f : ι → κ) {spans} (up : Up spans s t) : Up (spans.map (Span.rename f)) (s.rename f) (t.rename f) :=
  ⟨mem_map_of_mem up.1,mem_map_of_mem up.2.1,by simp [Span.rename,up.2.2]⟩

variable {f : ι → κ} (injective : Function.Injective f) {spans : List (Span ι)}
include injective

theorem parentRename : (s.rename f).parent = some (t.rename f).id ↔ s.parent = some t.id := by
  simp only [Span.rename,Option.map_eq_some_iff]
  exact ⟨fun ⟨p,own,same⟩ => by rw [own,injective same],fun own => ⟨t.id,own,rfl⟩⟩

theorem renameInjective : Function.Injective (Span.rename f) := by
  intro s t same
  obtain ⟨id,parent,mask⟩ := Span.mk.inj same
  exact Span.ext (injective id) (Option.map_injective injective parent) mask

theorem upBack (up : Up (spans.map (Span.rename f)) (s.rename f) (t.rename f)) : Up spans s t :=
  ⟨(mem_map_of_injective (renameInjective injective)).mp up.1,
    (mem_map_of_injective (renameInjective injective)).mp up.2.1,(parentRename injective).mp up.2.2⟩

theorem ancestryRename :
    Relation.TransGen (Up (spans.map (Span.rename f))) (s.rename f) (t.rename f) ↔ Relation.TransGen (Up spans) s t := by
  refine ⟨fun path => ?_,fun path => Relation.TransGen.lift (Span.rename f) (fun _ _ => upRename f) _ _ path⟩
  generalize arrive : t.rename f = last at path
  induction path generalizing t with
  | single up =>
    subst arrive
    exact .single (upBack injective up)
  | tail _ up ih =>
    subst arrive
    obtain ⟨middle,_,rfl⟩ := mem_map.mp up.1
    exact (ih rfl).tail (upBack injective up)

theorem relatedRename {relation} :
    Related (spans.map (Span.rename f)) relation (t.rename f) (s.rename f) ↔ Related spans relation t s := by
  cases relation with
  | child => exact parentRename injective
  | parent => exact parentRename injective
  | descendant => exact ancestryRename injective
  | ancestor => exact ancestryRename injective
  | sibling =>
    refine and_congr (not_congr injective.eq_iff) ⟨?_,?_⟩
    · rintro ⟨_,left,right⟩
      obtain ⟨p,own,rfl⟩ := Option.map_eq_some_iff.mp left
      obtain ⟨q,other,same⟩ := Option.map_eq_some_iff.mp right
      exact ⟨p,own,other.trans (congrArg some (injective same))⟩
    · rintro ⟨p,left,right⟩
      exact ⟨f p,Option.map_eq_some_iff.mpr ⟨p,left,rfl⟩,Option.map_eq_some_iff.mpr ⟨p,right,rfl⟩⟩

theorem keptRename {s} : Kept (spans.map (Span.rename f)) relations n (s.rename f) ↔ Kept spans relations n s := by
  induction n generalizing s with
  | zero => exact Iff.rfl
  | succ n ih =>
    refine and_congr Iff.rfl (exists_congr (fun relation => and_congr Iff.rfl ⟨?_,?_⟩))
    · rintro ⟨_,stored,kept,how⟩
      obtain ⟨t,mem,rfl⟩ := mem_map.mp stored
      exact ⟨t,mem,ih.mp kept,(relatedRename injective).mp how⟩
    · rintro ⟨t,mem,kept,how⟩
      exact ⟨t.rename f,mem_map_of_mem mem,ih.mpr kept,(relatedRename injective).mpr how⟩

theorem holdsRename : Holds (spans.map (Span.rename f)) relations n current ↔ Holds spans relations n current := by
  unfold Holds
  rw [forall₂_map_left_iff]
  simp only [keptRename injective]

end Renaming

/- The native search reads sixteen hexadecimal digits as a number and its mask as a byte; the reference
keeps the digits. A compiled expression has at most four spansets, hence at most three relations. -/
theorem structuralAgrees {ι : Type} [DecidableEq ι] (text : UInt64 ↪ ι) (native : Iteration UInt64)
    (reference : Iteration ι) {relations : List Relation} (fits : relations.length < 8) (spans : List Native.Link) :
    ∃ kept, Settles (fun fuel => Native.structural native fuel relations spans) kept ∧
      Settles (fun fuel => Reference.structural reference fuel relations (spans.map (fun s => s.span.rename text))) kept ∧
      List.Forall₂ (fun s bit => bit = true ↔ Kept (spans.map Native.Link.span) relations relations.length s.span)
        spans kept := by
  obtain ⟨kept,settled,holds⟩ := Native.structuralHolds native fits spans
  obtain ⟨other,ended,same⟩ := Reference.structuralHolds reference relations (spans.map (fun s => s.span.rename text))
  rw [← Function.comp_def (Span.rename text) Native.Link.span,← map_map,holdsRename text.injective] at same
  cases holdsUnique holds same
  refine ⟨kept,settled,ended,?_⟩
  rw [Holds,forall₂_map_left_iff] at holds
  exact holds

def cycle : List Native.Link := [⟨1,some 2,1⟩,⟨2,some 1,2⟩]

theorem cycleAgrees : Native.structural ⟨id,fun _ => .refl _⟩ 2 [.descendant] cycle = some [false,true] ∧
    ∃ kept, Settles (fun fuel => Native.structural ⟨id,fun _ => .refl _⟩ fuel [.descendant] cycle) kept ∧
      Settles (fun fuel => Reference.structural ⟨id,fun _ => .refl _⟩ fuel [.descendant]
        (cycle.map (fun s => s.span.rename (Function.Embedding.refl UInt64)))) kept ∧
      List.Forall₂ (fun s bit => bit = true ↔ Kept (cycle.map Native.Link.span) [.descendant] 1 s.span) cycle kept :=
  ⟨by decide,structuralAgrees (Function.Embedding.refl UInt64) _ _ (by decide) cycle⟩

end Pulso.TraceQL
