import Mathlib.Data.List.Perm.Subperm
import Pulso.PromPlan

/-! The reads of an evaluation are the planned ones: whatever the operators compute, an
evaluation that returns has asked for every planned request as often as it was planned. -/
namespace Pulso.PromQL.Planning
open Pulso.Logs (Matcher)
open List

section Served
variable {E S G : Type}

def misses (d : Dict Request (Except E G × Nat)) : List Request → Nat
  | [] => 0
  | r::rs => (if d.has r then 0 else 1) + misses (take d r) rs

theorem missesAppend (d : Dict Request (Except E G × Nat)) (xs ys : List Request) :
    misses d (xs ++ ys) = misses d xs + misses (xs.foldl take d) ys := by
  induction xs generalizing d with
  | nil => simp [misses]
  | cons r xs ih => rw [cons_append,misses,misses,ih,foldl_cons,Nat.add_assoc]

structure Served (m n : Memory E S G) (asked : List Request) : Prop where
  logged : n.asked = m.asked ++ asked
  taken : n.prefetched = asked.foldl take m.prefetched
  kept : m.calls ≤ n.calls
  missed : n.calls ≤ m.calls + misses m.prefetched asked

variable {m n : Memory E S G}

theorem Served.none (logged : n.asked = m.asked) (taken : n.prefetched = m.prefetched)
    (calls : n.calls = m.calls) : Served m n [] :=
  ⟨by simp [logged],taken,calls.ge,calls.le⟩

variable {xs ys : List Request}

theorem Served.trans {l m n : Memory E S G} (first : Served l m xs) (second : Served m n ys) :
    Served l n (xs ++ ys) := by
  refine ⟨?_,?_,first.kept.trans second.kept,?_⟩
  · rw [second.logged,first.logged,append_assoc]
  · rw [second.taken,first.taken,foldl_append]
  have later := second.missed
  rw [first.taken] at later
  have sooner := first.missed
  rw [missesAppend]
  omega

def Asks {α : Type} (x : Eval E S G α) (requests : List Request) : Prop :=
  ∀ m, ∃ asked, Served m (x m).2 asked ∧ asked.Subperm requests ∧ ∀ v, (x m).1 = .ok v → asked.Perm requests

variable {α β : Type} {x : Eval E S G α}

theorem Asks.perm (asks : Asks x xs) (same : xs.Perm ys) : Asks x ys := by
  intro m
  obtain ⟨asked,served,some,all⟩ := asks m
  exact ⟨asked,served,some.trans same.subperm,fun v ok => (all v ok).trans same⟩

theorem Asks.of_pure (v : α) : Asks (pure v : Eval E S G α) [] := fun _ =>
  ⟨[],.none rfl rfl rfl,.refl _,fun _ _ => .refl _⟩

theorem Asks.fails (e : E) (requests : List Request) : Asks (throw e : Eval E S G α) requests := fun _ =>
  ⟨[],.none rfl rfl rfl,nil_subperm,nofun⟩

theorem Asks.act (f : S → Except E α × S) : Asks (Planning.act f : Eval E S G α) [] := fun _ =>
  ⟨[],.none rfl rfl rfl,.refl _,fun _ _ => .refl _⟩

theorem Asks.get : Asks (MonadState.get : Eval E S G (Memory E S G)) [] := fun _ =>
  ⟨[],.none rfl rfl rfl,.refl _,fun _ _ => .refl _⟩

theorem Asks.lift (r : Except E α) : Asks (liftExcept r : Eval E S G α) [] := by
  cases r with
  | ok v => exact .of_pure v
  | error e => exact .fails e []

variable {f : α → Eval E S G β}

theorem bindOk {v} (ok : x m = (.ok v,n)) : (x >>= f) m = f v n := by
  simp only [Bind.bind,ExceptT.bind,ExceptT.mk,StateT.bind,ok]
  rfl

theorem bindError {e} (error : x m = (.error e,n)) : (x >>= f) m = (.error e,n) := by
  simp only [Bind.bind,ExceptT.bind,ExceptT.mk,StateT.bind,error]
  rfl

theorem Asks.bind (first : Asks x xs) (second : ∀ v, Asks (f v) ys) : Asks (x >>= f) (xs ++ ys) := by
  intro m
  obtain ⟨asked,served,some,all⟩ := first m
  rcases run : x m with ⟨r,n⟩
  rw [run] at served all
  cases r with
  | error e =>
    rw [bindError run]
    exact ⟨asked,served,some.trans (sublist_append_left xs ys).subperm,nofun⟩
  | ok v =>
    rw [bindOk run]
    obtain ⟨later,servedLater,someLater,allLater⟩ := second v n
    refine ⟨asked ++ later,served.trans servedLater,?_,fun w ok => (all v rfl).append (allLater w ok)⟩
    exact ((subperm_append_right later).mpr some).trans ((subperm_append_left xs).mpr someLater)

theorem Asks.after {xs} (first : Asks x []) (second : ∀ v, Asks (f v) xs) : Asks (x >>= f) xs := first.bind second

theorem Asks.before {xs} (first : Asks x xs) (second : ∀ v, Asks (f v) []) : Asks (x >>= f) xs := by
  have both := first.bind second
  rwa [append_nil] at both

end Served

section Plan
variable {N : Type} (c : Context) {args : List (Expr N)} (first last : Int) (acc : List Request)

theorem planCall {name}
    (other : ∀ op matchers window offset, name = .range op → args = [.range matchers window offset] → False) :
    plan c first last acc (.call name args) = planArgs c first last acc args := by
  rw [plan]
  exact other

theorem planArgsAppend (each : ∀ arg ∈ args, ∀ acc, plan c first last acc arg = plan c first last [] arg ++ acc) :
    planArgs c first last acc args = planArgs c first last [] args ++ acc := by
  induction args generalizing acc with
  | nil => rfl
  | cons arg args ih =>
    have rest := fun acc => ih acc (fun a mem => each a (mem_cons_of_mem arg mem))
    rw [planArgs,planArgs,rest,each arg mem_cons_self acc,rest (plan c first last [] arg),append_assoc]

theorem planAppend (expr : Expr N) : plan c first last acc expr = plan c first last [] expr ++ acc := by
  induction expr generalizing first last acc with
  | scalar | string | selector | range => rfl
  | unary op inner ih => exact ih first last acc
  | aggregate op inner ih => exact ih first last acc
  | binary op left right ihl ihr =>
    rw [plan,plan,ihr first last (plan c first last acc left),ihl first last acc,
      ihr first last (plan c first last [] left),append_assoc]
  | parameterAggregate op parameter inner ihp ih =>
    rw [plan,plan,ih first last (plan c first last acc parameter),ihp first last acc,
      ih first last (plan c first last [] parameter),append_assoc]
  | call name args ih =>
    by_cases special : ∃ op matchers window offset, name = .range op ∧ args = [.range matchers window offset]
    · obtain ⟨op,matchers,window,offset,rfl,rfl⟩ := special
      rfl
    have generic := fun acc => planCall c first last acc (fun op m w o named listed => special ⟨op,m,w,o,named,listed⟩)
    rw [generic acc,generic []]
    exact planArgsAppend c first last acc (fun arg mem acc => ih arg mem first last acc)
  | subquery inner window resolution offset ih =>
    unfold plan
    dsimp only
    split
    · exact ih _ _ acc
    · rfl
  | function op inner ih =>
    cases inner with
    | range => rfl
    | _ => exact ih first last acc

theorem planListAppend (args : List (Expr N)) : planArgs c first last acc args = planArgs c first last [] args ++ acc :=
  planArgsAppend c first last acc (fun arg _ acc => planAppend c first last acc arg)

def wanted (first last : Int) (expr : Expr N) : List Request :=
  (plan c first last [] expr).filter Request.nonempty

def wantedArgs (first last : Int) (args : List (Expr N)) : List Request :=
  (planArgs c first last [] args).filter Request.nonempty

def wantedRange (first last : Int) (op : Option RangeOp) : Expr N → List Request
  | .range matchers window offset =>
    [selectorRequest c matchers offset window.ns (.pair first last) op].filter Request.nonempty
  | expr => wanted c first last expr

theorem wantedTwo (one two : Expr N) : (wanted c first last one ++ wanted c first last two).Perm
      ((plan c first last (plan c first last [] one) two).filter Request.nonempty) := by
  rw [planAppend,filter_append]
  exact perm_append_comm

theorem wantedCons (arg : Expr N) (args : List (Expr N)) :
    (wanted c first last arg ++ wantedArgs c first last args).Perm (wantedArgs c first last (arg::args)) := by
  rw [wantedArgs,wantedArgs,planArgs,planListAppend c first last (plan c first last [] arg),filter_append]
  exact perm_append_comm

theorem Asks.plain {E S G α : Type} {x : Eval E S G α} {first last op} {expr : Expr N}
    (asks : Asks x (wantedRange c first last op expr)) (plain : op = none) : Asks x (wanted c first last expr) := by
  subst plain
  cases expr <;> exact asks

theorem wantedFunction (op : RangeOp) (range : Expr N) :
    wanted c first last (.function op range) = wantedRange c first last (some (tierOp op)) range := by
  cases range <;> rfl

theorem wantedRangeCall (op : RangeOp) (range : Expr N) :
    wanted c first last (.call (.range op) [range]) = wantedRange c first last (some (tierOp op)) range := by
  cases range <;> rfl

theorem wantedCall {name} (other : ∀ op range, name = .range op → args = [range] → False) :
    wanted c first last (.call name args) = wantedArgs c first last args := by
  unfold wanted
  rw [planCall c first last [] (fun op matchers window offset named listed => other op _ named listed)]
  rfl

theorem wantedThree (one two three : Expr N) :
    (wanted c first last two ++ (wanted c first last three ++ wanted c first last one)).Perm
      (wantedArgs c first last [one,two,three]) := by
  have pair := wantedCons c first last two [three]
  have all := (pair.append_left (wanted c first last one)).trans (wantedCons c first last one [two,three])
  refine List.Perm.trans ?_ all
  rw [← append_assoc]
  exact perm_append_comm

theorem tierOpSame {op} (other : op ≠ .absentOverTime) : tierOp op = op := by
  cases op <;> first | rfl | exact absurd rfl other

theorem wantedFused {V : Type} {inner : Expr N} {matchers offset window} {op : SelectOp V} (fused : fusedSource c inner = some (matchers,offset,window,op)) :
    wanted c first last inner =
      [selectorRequest c matchers offset window (.pair first last) op.range].filter Request.nonempty := by
  unfold fusedSource at fused
  split at fused
  · cases fused
    rfl
  · split at fused
    · cases fused
    rename_i other
    cases fused
    rw [wantedFunction,tierOpSame other]
    rfl
  · split at fused
    · cases fused
    rename_i other
    cases fused
    rw [wantedRangeCall,tierOpSame other]
    rfl
  · cases fused

end Plan

section Evaluation
variable {N E S G V : Type} (c : Context) (ops : Operators N E S G V)

theorem readCalls (m : Memory E S G) (requests : List Request) :
    let n := ((readSelectors ops requests : Eval E S G _) m).2
    n.asked = m.asked ∧ n.prefetched = m.prefetched ∧ m.calls ≤ n.calls ∧ n.calls ≤ m.calls + 1 := by
  have first : (act ops.scanBudget : Eval E S G Unit) m =
      ((ops.scanBudget m.rest).1,{ m with rest := (ops.scanBudget m.rest).2 }) := rfl
  rcases budget : ops.scanBudget m.rest with ⟨r,rest⟩
  rw [budget] at first
  cases r with
  | error e =>
    have stopped : (readSelectors ops requests : Eval E S G _) m = (.error e,{ m with rest := rest }) := bindError first
    simp [stopped]
  | ok u =>
    have ran : (readSelectors ops requests : Eval E S G _) m =
        ((ops.query requests rest).1,{ m with rest := (ops.query requests rest).2,calls := m.calls + 1 }) :=
      bindOk first
    simp [ran]

theorem Asks.quiet {α : Type} {x : Eval E S G α} (asks : Asks x []) (m : Memory E S G) : Served m (x m).2 [] := by
  obtain ⟨asked,served,none,_⟩ := asks m
  rwa [subperm_nil.mp none] at served

theorem readOneCalls (m : Memory E S G) (r : Request) : let n := (readOne ops r m).2
    n.asked = m.asked ∧ n.prefetched = m.prefetched ∧ m.calls ≤ n.calls ∧ n.calls ≤ m.calls + 1 := by
  obtain ⟨logged,taken,kept,calls⟩ := readCalls ops m [r]
  unfold readOne
  rcases read : (readSelectors ops [r] : Eval E S G _) m with ⟨result,n⟩
  rw [read] at logged taken kept calls
  cases result with
  | error e =>
    rw [bindError read]
    exact ⟨logged,taken,kept,calls⟩
  | ok series =>
    rw [bindOk read]
    -- what is left after the query is one of two programs that ask nothing
    have closing (x : Eval E S G G) (answered : Asks x []) : (x n).2.asked = m.asked ∧ (x n).2.prefetched = m.prefetched ∧
        m.calls ≤ (x n).2.calls ∧ (x n).2.calls ≤ m.calls + 1 := by
      have quiet := answered.quiet n
      exact ⟨(quiet.logged.trans (append_nil _)).trans logged,quiet.taken.trans taken,kept.trans quiet.kept,
        quiet.missed.trans calls⟩
    refine closing _ ?_
    split
    · exact .lift _
    · exact .fails _ _

theorem selectorAsks (r : Request) : Asks (selectorSeries ops r) [r] := by
  intro m
  refine ⟨[r],?_,.refl _,fun _ _ => .refl _⟩
  let asked : Memory E S G := { m with asked := m.asked ++ [r],prefetched := take m.prefetched r }
  have logged : (modify (fun m => { m with asked := m.asked ++ [r],prefetched := take m.prefetched r }) : Eval E S G PUnit) m =
      (.ok ⟨⟩,asked) := rfl
  have ran : selectorSeries ops r m = _ := (bindOk (rfl : (get : Eval E S G _) m = (.ok m,m))).trans (bindOk logged)
  cases found : m.prefetched.get? r with
  | some entry =>
    rw [ran,found]
    have quiet := (Asks.lift entry.1).quiet asked
    exact ⟨by simpa using quiet.logged,quiet.taken,quiet.kept,quiet.missed.trans (Nat.le_add_right m.calls _)⟩
  | none =>
    have absent : m.prefetched.has r = false := by
      rw [← Bool.not_eq_true,Dict.hasIff]
      exact Dict.getNone.mp found
    have missed : misses m.prefetched [r] = 1 := by simp [misses,absent]
    obtain ⟨logged,taken,kept,calls⟩ := readOneCalls ops asked r
    rw [ran,found]
    exact ⟨logged,taken,kept,missed ▸ calls⟩

theorem selectedAsks (groups : G) (r : Request) (selection : Selection V) :
    Asks (evaluateSelected ops groups r selection) [] := by
  refine (Asks.act _).after fun found => ?_
  cases found with
  | some v => exact .of_pure v
  | none =>
    refine (Asks.act _).after fun _ => ?_
    have noted : Asks (modify (fun m => { m with fallbacks := m.fallbacks ++ [rawRequest r] }) : Eval E S G Unit) [] :=
      fun _ => ⟨[],.none rfl rfl rfl,.refl _,fun _ _ => .refl _⟩
    refine noted.after fun _ => (Asks.act _).after fun results => ?_
    split
    · exact (Asks.lift _).after fun _ => .act _
    · exact .fails _ _

theorem selectAsks (matchers : List Matcher) (selection : Selection V) : Asks (select c ops matchers selection)
      ([selectorRequest c matchers selection.offset selection.window selection.steps selection.op.range].filter
        Request.nonempty) := by
  unfold select
  dsimp only
  split
  case isTrue filled =>
    rw [filter_cons_of_pos filled,filter_nil]
    exact (selectorAsks ops _).before fun _ => selectedAsks ops _ _ _
  rename_i empty
  rw [filter_cons_of_neg empty,filter_nil]
  exact .of_pure _

theorem fusedAsks (expr : Expr N) (matchers : List Matcher) (selection : Selection V) :
    Asks (fusedAggregate c ops expr matchers selection)
      ([selectorRequest c matchers selection.offset selection.window selection.steps selection.op.range].filter
        Request.nonempty) := by
  unfold fusedAggregate
  dsimp only
  split
  case isTrue filled =>
    rw [filter_cons_of_pos filled,filter_nil]
    refine (selectorAsks ops _).before fun _ => (Asks.act _).after fun found => ?_
    cases found with
    | some v => exact .of_pure v
    | none => exact (selectedAsks ops _ _ _).after fun _ => .act _
  case isFalse empty =>
    rw [filter_cons_of_neg empty,filter_nil]
    exact .of_pure _

theorem finishedAsks (held : Nat) (v : V) : Asks (finished ops held v) [] :=
  (Asks.act _).after fun _ => .of_pure v

variable {ops} in
theorem Asks.finish {x requests} (asks : Asks x requests) {held} : Asks (x >>= finished ops held) requests :=
  asks.before fun _ => finishedAsks ops held _

theorem rangedAsks (op : RangeOp) (expr : Expr N) (steps : Steps) (v : V) : Asks (ranged ops op expr steps v) [] := by
  unfold ranged
  split
  · exact .act _
  · exact .of_pure v

theorem gridCount (first last : Int) (window resolution : Duration) (offset : Offset) :
    ∃ k : Int, gridLast c last resolution offset = gridFirst c first window resolution offset + k * resolution.ns ∧
      (gridLast c last resolution offset - gridFirst c first window resolution offset).tdiv resolution.ns = k := by
  unfold gridFirst gridLast
  generalize (sourceTime c last offset).fdiv resolution.ns = j
  generalize (sourceTime c first offset - window.ns).fdiv resolution.ns + 1 = i
  refine ⟨j - i,by ring,?_⟩
  rw [← Int.sub_mul]
  exact Int.mul_tdiv_cancel _ resolution.positive.ne'

theorem gridEnds {first resolution count} (filled : grid first resolution count ≠ []) :
    (⟨grid first resolution count,filled⟩ : Steps).first = first ∧
      (⟨grid first resolution count,filled⟩ : Steps).last = first + (count - 1 : Int) * resolution.ns := by
  cases count with
  | zero => exact absurd rfl filled
  | succ n =>
    constructor
    · simp [Steps.first,grid,head_map,head_range]
    · simp [Steps.last,grid,getLast_map,getLast_range]

variable (steps : Steps)

theorem overGridAsks (op : SelectOp V) (window resolution : Duration) (offset : Offset)
    (expr : Expr N) (inner : Steps → Eval E S G V) (asks : ∀ s, Asks (inner s) (wanted c s.first s.last expr)) :
    Asks (overGrid c ops steps op window resolution offset inner)
      (wanted c steps.first steps.last (.subquery expr window resolution offset)) := by
  obtain ⟨k,last,quotient⟩ := gridCount c steps.first steps.last window resolution offset
  have ends : gridFirst c steps.first window resolution offset ≤ gridLast c steps.last resolution offset ↔ 0 ≤ k := by
    rw [last]
    have := resolution.positive
    constructor
    · intro h
      exact nonneg_of_mul_nonneg_left (by omega) this
    intro h
    have := Int.mul_nonneg h this.le
    omega
  have planned : wanted c steps.first steps.last (.subquery expr window resolution offset) =
      if 0 ≤ k ∧ k + 1 ≤ maxSteps then
        wanted c (gridFirst c steps.first window resolution offset) (gridLast c steps.last resolution offset) expr
      else [] := by
    unfold wanted
    rw [plan]
    simp only [quotient,ends]
    split <;> rfl
  rw [planned]
  unfold overGrid
  simp only [quotient]
  split
  · exact .fails _ _
  rename_i short
  split
  · exact .fails _ _
  refine (Asks.act _).after fun _ => ?_
  by_cases many : 0 ≤ k
  · have count : ((k + 1).toNat : Int) = k + 1 := by omega
    have filled : grid (gridFirst c steps.first window resolution offset) resolution (k + 1).toNat ≠ [] := by
      simp [grid]
      omega
    have within : 0 ≤ k ∧ k + 1 ≤ maxSteps := ⟨many,by omega⟩
    rw [dif_pos filled,if_pos within]
    have ask := asks ⟨_,filled⟩
    obtain ⟨head,tail⟩ := gridEnds filled
    rw [count] at tail
    rw [head,tail,Int.add_sub_cancel,← last] at ask
    exact ask.before fun _ => .act _
  · have none : (k + 1).toNat = 0 := by omega
    have empty : ¬grid (gridFirst c steps.first window resolution offset) resolution (k + 1).toNat ≠ [] := by
      rw [none]
      simp [grid]
    rw [dif_neg empty,if_neg (fun h => many h.1)]
    exact .of_pure _

theorem argsAsk {args} (each : ∀ arg ∈ args, Asks (evaluate c ops steps arg) (wanted c steps.first steps.last arg)) :
    Asks (evaluateArgs c ops steps args) (wantedArgs c steps.first steps.last args) := by
  induction args with
  | nil => exact .of_pure _
  | cons arg args ih =>
    have rest := ih (fun a mem => each a (mem_cons_of_mem arg mem))
    refine Asks.perm ?_ (wantedCons c steps.first steps.last arg args)
    exact (each arg mem_cons_self).bind fun _ => rest.before fun _ => .of_pure _

structure Answers (expr : Expr N) : Prop where
  value : ∀ steps, Asks (evaluate c ops steps expr) (wanted c steps.first steps.last expr)
  range : ∀ steps op, Asks (evaluateRange c ops steps op expr) (wantedRange c steps.first steps.last op.range expr)

variable {c ops} in
theorem Answers.ofValue {expr} (noRange : ∀ matchers window offset, expr ≠ .range matchers window offset)
    (noSubquery : ∀ inner window resolution offset, expr ≠ .subquery inner window resolution offset)
    (value : ∀ steps, Asks (evaluate c ops steps expr) (wanted c steps.first steps.last expr)) : Answers c ops expr := by
  refine ⟨value,fun steps op => ?_⟩
  unfold evaluateRange
  split
  · exact absurd rfl (noRange _ _ _)
  · exact absurd rfl (noSubquery _ _ _ _)
  · exact .fails _ _

theorem callAsks (name : CallName N) {args} (each : ∀ arg ∈ args, Answers c ops arg) :
    Asks (evaluate c ops steps (.call name args)) (wanted c steps.first steps.last (.call name args)) := by
  have value : ∀ arg ∈ args, Asks (evaluate c ops steps arg) (wanted c steps.first steps.last arg) :=
    fun arg mem => (each arg mem).value steps
  -- ranges given beside parameters are read as they are
  have plain : ∀ arg ∈ args, ∀ op : SelectOp V, op.range = none →
      Asks (evaluateRange c ops steps op arg) (wanted c steps.first steps.last arg) :=
    fun arg mem op none => ((each arg mem).range steps op).plain c none
  unfold evaluate
  split
  case h_5 call =>
    cases call
    exact Asks.get.after fun _ => (selectAsks c ops _ _).finish
  case h_6 range parameter call =>
    cases call
    refine Asks.get.after fun _ => ?_
    refine Asks.perm ?_ (perm_append_comm.trans (wantedTwo c steps.first steps.last range parameter))
    refine (value parameter (by simp)).bind fun values => ?_
    exact (plain range (by simp) (.predictLinear values) rfl).finish
  case h_7 parameter range call =>
    cases call
    refine Asks.get.after fun _ => Asks.perm ?_ (wantedTwo c steps.first steps.last parameter range)
    refine (value parameter (by simp)).bind fun values => ?_
    exact (plain range (by simp) (.quantileOverTime values) rfl).finish
  case h_8 range smoothing trend call | h_9 range smoothing trend call =>
    cases call
    refine Asks.get.after fun _ => Asks.perm ?_ (wantedThree c steps.first steps.last range smoothing trend)
    refine (value smoothing (by simp)).bind fun factors => (value trend (by simp)).bind fun trends => ?_
    exact (plain range (by simp) (.smoothing factors trends) rfl).finish
  case h_10 op range call =>
    cases call
    rw [wantedRangeCall]
    refine Asks.get.after fun _ => ((each range (by simp)).range steps (.function (tierOp op))).before fun _ => ?_
    exact (rangedAsks ops _ _ _ _).finish
  case h_11 other call =>
    cases call
    rw [wantedCall c _ _ other]
    refine Asks.get.after fun _ => (argsAsk c ops steps value).before fun _ => ?_
    exact (Asks.act _).finish
  all_goals contradiction

theorem answers (expr : Expr N) : Answers c ops expr := by
  induction expr with
  | scalar v =>
    refine .ofValue nofun nofun fun steps => ?_
    rw [evaluate]
    exact .of_pure _
  | string t =>
    refine .ofValue nofun nofun fun steps => ?_
    rw [evaluate]
    exact .of_pure _
  | unary op inner ih =>
    refine .ofValue nofun nofun fun steps => ?_
    rw [evaluate]
    refine Asks.get.after fun _ => (ih.value steps).before fun _ => ?_
    exact (Asks.act _).finish
  | binary op left right ihl ihr =>
    refine .ofValue nofun nofun fun steps => ?_
    rw [evaluate]
    refine Asks.get.after fun _ => Asks.perm ?_ (wantedTwo c steps.first steps.last left right)
    refine (ihl.value steps).bind fun _ => (ihr.value steps).before fun _ => ?_
    exact (Asks.act _).finish
  | call name args ih =>
    exact .ofValue nofun nofun fun steps => callAsks c ops steps name ih
  | parameterAggregate op parameter inner ihp ih =>
    refine .ofValue nofun nofun fun steps => ?_
    rw [evaluate]
    refine Asks.get.after fun _ => Asks.perm ?_ (wantedTwo c steps.first steps.last parameter inner)
    refine (ihp.value steps).bind fun _ => (ih.value steps).before fun _ => ?_
    exact (Asks.act _).finish
  | aggregate op inner ih =>
    refine .ofValue nofun nofun fun steps => ?_
    change Asks _ (wanted c steps.first steps.last inner)
    rw [evaluate]
    refine Asks.get.after fun _ => ?_
    split
    · refine (ih.value steps).before fun _ => ?_
      exact (Asks.act _).finish
    rename_i fused
    rw [wantedFused c steps.first steps.last fused]
    exact (fusedAsks c ops _ _ _).finish
  | selector matchers offset =>
    refine .ofValue nofun nofun fun steps => ?_
    rw [evaluate]
    exact Asks.get.after fun _ => (selectAsks c ops _ _).finish
  | range matchers window offset =>
    constructor
    · intro steps
      rw [evaluate]
      exact Asks.get.after fun _ => (selectAsks c ops _ _).finish
    intro steps op
    rw [evaluateRange]
    exact selectAsks c ops _ _
  | subquery inner window resolution offset ih =>
    have ask := fun steps op => overGridAsks c ops steps op window resolution offset inner
      (fun grid => evaluate c ops grid inner) ih.value
    constructor
    · intro steps
      rw [evaluate]
      exact Asks.get.after fun _ => (ask steps _).finish
    intro steps op
    rw [evaluateRange]
    exact ask steps op
  | function op range ih =>
    refine .ofValue nofun nofun fun steps => ?_
    rw [evaluate,wantedFunction]
    refine Asks.get.after fun _ => (ih.range steps (.function (tierOp op))).before fun _ => ?_
    exact (rangedAsks ops _ _ _ _).finish

end Evaluation

section Uses
variable {E G : Type}

def uses (d : Dict Request (Except E G × Nat)) (r : Request) : Nat := ((d.get? r).map Prod.snd).getD 0

theorem usesTake (d : Dict Request (Except E G × Nat)) (r s : Request) :
    uses (take d r) s = if s = r then uses d r - 1 else uses d s := by
  unfold take
  split
  case h_1 found =>
    split
    · subst s
      simp [uses,found,Dict.getDeleteSame]
    · simp [uses,Dict.getDeleteOther _ ‹_›]
  case h_2 found =>
    split
    · subst s
      simp [uses,found,Dict.getPutSame]
    · simp [uses,Dict.getPutOther _ _ ‹_›]
  case h_3 found =>
    split
    · subst s
      simp [uses,found]
    · rfl

theorem missesNone {d : Dict Request (Except E G × Nat)} {asked}
    (enough : ∀ r, asked.count r ≤ uses d r) : misses d asked = 0 := by
  induction asked generalizing d with
  | nil => rfl
  | cons r asked ih =>
    have here := enough r
    rw [count_cons_self] at here
    have has : d.has r = true := by
      rw [Dict.hasIff]
      by_contra absent
      rw [← Dict.getNone] at absent
      simp [uses,absent] at here
    rw [misses,if_pos has,Nat.zero_add]
    refine ih fun s => ?_
    rw [usesTake]
    split
    · subst s
      omega
    rename_i other
    have := enough s
    rwa [count_cons_of_ne (Ne.symm other)] at this

theorem usesLoaded (planned : List Request) {results : List (Except E G)}
    (sized : results.length = (Lists.uniqBy id planned).length) (r : Request) :
    uses (Dict.ofList (((Lists.uniqBy id planned).zip results).map (fun (r,series) => (r,(series,planned.count r))))) r =
      planned.count r := by
  let entries := ((Lists.uniqBy id planned).zip results).map (fun (r,series) => (r,(series,planned.count r)))
  have names : entries.map Prod.fst = Lists.uniqBy id planned := by
    rw [map_map]
    exact map_fst_zip sized.ge
  cases found : (Dict.ofList entries).get? r with
  | some entry =>
    obtain ⟨⟨s,series⟩,_,same⟩ := mem_map.mp (Dict.getOfList found)
    cases same
    simp [uses,entries,found]
  | none =>
    have absent : r ∉ planned := by
      intro mem
      refine Dict.getNone.mp found (Dict.memKeysPutAll.mpr (.inr ?_))
      rw [names]
      exact Lists.uniqMem.mpr mem
    simp [uses,entries,found,count_eq_zero_of_not_mem absent]

end Uses

section Query
variable {N E S G V : Type} (c : Context) (ops : Operators N E S G V)

theorem readReturns {requests m n} {results : {results : List (Except E G) // results.length = requests.length}}
    (ok : readSelectors ops requests m = (.ok results,n)) :
    n.asked = m.asked ∧ n.calls = m.calls + 1 := by
  rcases budget : (act ops.scanBudget : Eval E S G Unit) m with ⟨r,next⟩
  cases r with
  | error e =>
    rw [readSelectors,bindError budget] at ok
    cases ok
  | ok u =>
    rw [readSelectors,bindOk budget] at ok
    have acted : next.asked = m.asked ∧ next.calls = m.calls := by
      rw [← (Prod.mk.inj budget).2]
      exact ⟨rfl,rfl⟩
    rw [← (Prod.mk.inj ok).2]
    exact ⟨acted.1,congrArg (· + 1) acted.2⟩

theorem prefetchReads {steps expr m n} (fresh : m.prefetched = Dict.empty)
    (ok : prefetch c ops steps expr m = (.ok (),n)) :
    n.asked = m.asked ∧ (n.calls = m.calls + if loaded c steps expr = [] then 0 else 1) ∧
      ∀ r, uses n.prefetched r = (loaded c steps expr).count r := by
  unfold prefetch at ok
  have listed : Lists.uniqBy id (loaded c steps expr) = [] ↔ loaded c steps expr = [] := by
    simp only [eq_nil_iff_forall_not_mem,Lists.uniqMem]
  by_cases none : loaded c steps expr = []
  · rw [if_pos (listed.mpr none)] at ok
    cases ok
    simp [none,fresh,uses,Dict.get?,Dict.empty]
  rw [if_neg (listed.not.mpr none)] at ok
  rcases read : readSelectors ops (Lists.uniqBy id (loaded c steps expr)) m with ⟨r,next⟩
  cases r with
  | error e =>
    rw [bindError read] at ok
    cases ok
  | ok results =>
    rw [bindOk read] at ok
    cases ok
    obtain ⟨asked,calls⟩ := readReturns ops read
    exact ⟨asked,by rw [if_neg none]; exact calls,usesLoaded _ results.2⟩

def Plain (steps : Steps) (expr : Expr N) : Prop :=
  ∀ r ∈ plan c steps.first steps.last [] expr, r.nonempty = true → r.hours = none

theorem loadedPlain {steps} {expr : Expr N} (plain : Plain c steps expr) :
    loaded c steps expr = wanted c steps.first steps.last expr := by
  refine filter_congr fun r mem => ?_
  cases filled : r.nonempty with
  | false => simp
  | true => simp [plain r mem filled]

theorem plannedReads (steps : Steps) (expr : Expr N) (rest : S) {v : V} {m : Memory E S G}
    (returned : runQuery c ops steps expr rest = (.ok v,m)) :
    (m.asked.Perm (loaded c steps expr) ∧ m.calls = if m.asked = [] then 0 else 1) ↔ Plain c steps expr := by
  rcases read : prefetch c ops steps expr ⟨rest,Dict.empty,[],0,[]⟩ with ⟨r,n⟩
  cases r with
  | error e =>
    rw [runQuery,bindError read] at returned
    cases returned
  | ok u =>
    rw [runQuery,bindOk read] at returned
    obtain ⟨none,calls,stored⟩ := prefetchReads c ops rfl read
    obtain ⟨asked,served,_,all⟩ := (answers c ops expr).value steps n
    rw [returned] at served all
    have every := all v rfl
    have logged : m.asked = asked := by rw [served.logged,none,nil_append]
    rw [logged]
    constructor
    · rintro ⟨perm,_⟩ r mem filled
      have wanted : r ∈ wanted c steps.first steps.last expr := mem_filter.mpr ⟨mem,filled⟩
      have kept := (perm.symm.trans every).mem_iff.mpr wanted
      have plain := (mem_filter.mp kept).2
      simp only [Bool.and_eq_true,decide_eq_true_eq] at plain
      exact plain.1
    intro plain
    have perm : asked.Perm (loaded c steps expr) := loadedPlain c plain ▸ every
    have missed : misses n.prefetched asked = 0 := missesNone fun r => by rw [stored,perm.count_eq]
    have same : m.calls = n.calls := by
      have upper := served.missed
      rw [missed] at upper
      exact le_antisymm upper served.kept
    have empty : asked = [] ↔ loaded c steps expr = [] :=
      ⟨fun h => nil_perm.mp (h ▸ perm),fun h => perm_nil.mp (h ▸ perm)⟩
    refine ⟨perm,?_⟩
    rw [same,calls]
    simp [empty]

end Query

section Runs

def succeeding : Operators Unit Unit Unit Unit Unit where
  scanBudget s := (.ok (),s)
  query requests s := (.ok ⟨requests.map (fun _ => .ok ()),by simp⟩,s)
  empty := ()
  literal _ _ := ()
  node _ _ _ s := (.ok (),s)
  held _ := 0
  hold _ _ s := (.ok (),s)
  charge _ s := (.ok (),s)
  resample _ _ s := (.ok (),s)
  selected _ _ s := (.ok (some ()),s)
  sampled _ _ s := (.ok (),s)
  folded _ _ _ s := (.ok (some ()),s)
  stepLimit := ()
  invalidTime := ()
  untyped := ()

def fiveMinutes : Context := ⟨300000000000,0,0,id⟩
def atZero : Steps := ⟨[0],by simp⟩
def threeHours : Duration := ⟨10800000000000,by decide,by decide⟩
def anySelector : Expr Unit := .selector [] (.shift 0)
def rateOverHours : Expr Unit := .call (.range .rate) [.range [] threeHours (.shift 0)]

theorem plannedReadsTwice :
    (runQuery fiveMinutes succeeding atZero (.binary () anySelector anySelector) ()).1 = .ok () ∧
      ((runQuery fiveMinutes succeeding atZero (.binary () anySelector anySelector) ()).2.asked.Perm
          (loaded fiveMinutes atZero (.binary () anySelector anySelector)) ∧
        (runQuery fiveMinutes succeeding atZero (.binary () anySelector anySelector) ()).2.calls =
          if (runQuery fiveMinutes succeeding atZero (.binary () anySelector anySelector) ()).2.asked = [] then 0 else 1) :=
  ⟨rfl,(plannedReads fiveMinutes succeeding atZero _ () rfl).mpr (by unfold Plain; decide)⟩

theorem hoursReadAgain :
    ∃ v m, runQuery fiveMinutes succeeding atZero (.binary () rateOverHours anySelector) () = (.ok v,m) ∧
      m.calls = 2 ∧ ¬m.asked.Perm (loaded fiveMinutes atZero (.binary () rateOverHours anySelector)) :=
  ⟨_,_,rfl,rfl,by decide⟩

end Runs

end Pulso.PromQL.Planning
