import Mathlib.Data.List.Induction
import Pulso.TraceMetrics

/-! Measuring the selected rows of a batch in chunks against measuring them at once. Every chunk charges its
work from the same base, so a chunk alone sees a smaller counter than the whole; the totals are compared with
the ceiling only when the chunk is entered, after the chunks before it have been recorded. -/
namespace Pulso.TraceMetrics
open TraceQL.Native List

variable {F : Type} {doubles : Doubles F} {reader : Reader} {state : State F}

/- What measuring a row does to the work counter: it never falls, and below the ceiling there is a fixed charge
and a fixed outcome unless the charge passes the ceiling. -/
structure Charges (measured : Nat → Res (Option (Observation F)) × Nat) (units : Nat)
    (outcome : Res (Option (Observation F))) : Prop where
  grows : ∀ work, work ≤ (measured work).2
  below : ∀ work, work ≤ maxWork →
    measured work = if maxWork < work + units then (.error .budget,work + units) else (outcome,work + units)

theorem chargesNothing (outcome : Res (Option (Observation F))) : Charges (fun work => (outcome,work)) 0 outcome where
  grows work := Nat.le_refl work
  below work within := by rw [Nat.add_zero,if_neg (by omega)]

theorem chargesUnits (units : Nat) (outcome : Res (Option (Observation F))) :
    Charges (fun work => if workMax < work + units then (.error .budget,work + units) else (outcome,work + units))
      units outcome where
  grows work := by
    split <;> exact Nat.le_add_right work units
  below _ _ := rfl

theorem measureCharges (state : State F) (fields : RawFields) (envelope : Option Envelope) (interval : Nat)
    (start finish : Int) :
    ∃ units outcome, Charges (measure doubles reader state fields envelope interval start finish) units outcome := by
  unfold measure
  split
  case isTrue => exact ⟨0,_,chargesNothing _⟩
  dsimp only
  split
  case h_1 => exact ⟨0,_,chargesNothing _⟩
  case h_2 => exact ⟨0,_,chargesNothing _⟩
  case h_3 => exact ⟨0,_,chargesNothing _⟩
  rename_i program _ _
  unfold evaluateWith
  cases prepare reader program fields envelope with
  | error e => exact ⟨0,.error e,chargesNothing _⟩
  | ok found =>
    obtain ⟨owners,units⟩ := found
    let outcome := (finishEvaluation reader program fields owners false).bind (fun evaluation =>
      if evaluation.matched then observe doubles reader state fields envelope interval start finish else .ok none)
    refine ⟨units,outcome,?_⟩
    convert chargesUnits units outcome using 2 with work
    by_cases passes : workMax < work + units
    · simp only [if_pos passes]
    simp only [if_neg passes,outcome]
    cases finishEvaluation reader program fields owners false with
    | error e => rfl
    | ok evaluation =>
      simp only [Except.bind]
      split <;> rfl

theorem rowCharges (doubles : Doubles F) (reader : Reader) (state : State F) (row : Selected) :
    ∃ units outcome, Charges (measureRow doubles reader state row) units outcome := by
  unfold measureRow
  cases row.parts with
  | error e => exact ⟨0,_,chargesNothing _⟩
  | ok parts => exact measureCharges state _ _ _ _ _

section Chunk
variable (doubles reader state)

abbrev Measured (F : Type) := List (Option (Observation F)) × Nat × Option Error

variable {doubles reader state} in
theorem measureFailed {row work after e}
    (failed : measureRow doubles reader state row work = (.error e,after)) (rest : List Selected) :
    measureChunk doubles reader state (row::rest) work = ([],after,some e) := by
  rw [measureChunk,failed]

variable {doubles reader state} in
theorem measureKept {row work after observation}
    (kept : measureRow doubles reader state row work = (.ok observation,after)) (rest : List Selected) :
    measureChunk doubles reader state (row::rest) work =
      (observation::(measureChunk doubles reader state rest after).1,(measureChunk doubles reader state rest after).2) := by
  rw [measureChunk,kept]

theorem chunkGrows (rows : List Selected) (work : Nat) : work ≤ (measureChunk doubles reader state rows work).2.1 := by
  induction rows generalizing work with
  | nil => exact Nat.le_refl work
  | cons row rest ih =>
    obtain ⟨_,_,charges⟩ := rowCharges doubles reader state row
    have first := charges.grows work
    rcases measured : measureRow doubles reader state row work with ⟨found,after⟩
    rw [measured] at first
    cases found with
    | error e => rwa [measureFailed measured]
    | ok observation =>
      rw [measureKept measured]
      exact Nat.le_trans first (ih after)

def andThen (first : Measured F) (second : Nat → Measured F) : Measured F :=
  match first.2.2 with
  | some e => (first.1,first.2.1,some e)
  | none => (first.1 ++ (second first.2.1).1,(second first.2.1).2.1,(second first.2.1).2.2)

theorem measureAppend (xs ys : List Selected) (work : Nat) : measureChunk doubles reader state (xs ++ ys) work =
      andThen (measureChunk doubles reader state xs work) (measureChunk doubles reader state ys) := by
  induction xs generalizing work with
  | nil => rfl
  | cons row rest ih =>
    rcases measured : measureRow doubles reader state row work with ⟨found,after⟩
    cases found with
    | error e => rw [cons_append,measureFailed measured,measureFailed measured,andThen]
    | ok observation =>
      rw [cons_append,measureKept measured,measureKept measured,ih after,andThen,andThen]
      cases (measureChunk doubles reader state rest after).2.2 <;> rfl

/- The same rows measured from two counters, the second one ahead: either nothing is cut short and only the
counters differ, or the rows pass the ceiling from the second counter, and then the first one's total does too. -/
def Shifted (base work : Nat) (low high : Measured F) : Prop :=
  (high.2.1 ≤ maxWork ∧ high.1 = low.1 ∧ high.2.2 = low.2.2 ∧ high.2.1 = work + (low.2.1 - base)) ∨
    (maxWork < high.2.1 ∧ high.2.2 = some .budget ∧ maxWork < work + (low.2.1 - base))

theorem measureShift (rows : List Selected) {base work} (ahead : base ≤ work) (within : work ≤ maxWork) :
    Shifted base work (measureChunk doubles reader state rows base) (measureChunk doubles reader state rows work) := by
  induction rows generalizing base work with
  | nil => exact .inl ⟨within,rfl,rfl,by simp [measureChunk]⟩
  | cons row rest ih =>
    obtain ⟨units,outcome,charges⟩ := rowCharges doubles reader state row
    have high := charges.below work within
    have low := charges.below base (by omega)
    by_cases passes : maxWork < work + units
    · rw [if_pos passes] at high
      have total : base + units ≤ (measureChunk doubles reader state (row::rest) base).2.1 := by
        have grown := chunkGrows doubles reader state rest (base + units)
        split at low
        · exact Nat.le_of_eq (congrArg (fun r => r.2.1) (measureFailed low rest)).symm
        cases outcome with
        | error e => exact Nat.le_of_eq (congrArg (fun r => r.2.1) (measureFailed low rest)).symm
        | ok observation => rwa [measureKept low]
      rw [measureFailed high]
      exact .inr ⟨passes,rfl,by omega⟩
    · rw [if_neg passes] at high
      rw [if_neg (by omega)] at low
      cases outcome with
      | error e =>
        rw [measureFailed high,measureFailed low]
        exact .inl ⟨by simpa using passes,rfl,rfl,by dsimp only; omega⟩
      | ok observation =>
        rw [measureKept high,measureKept low]
        have grown := chunkGrows doubles reader state rest (base + units)
        rcases ih (show base + units ≤ work + units by omega) (by omega) with ⟨below,same,failed,count⟩ | ⟨passed,failed,count⟩
        · exact .inl ⟨below,congrArg (observation::·) same,failed,by dsimp only; omega⟩
        · exact .inr ⟨passed,failed,by dsimp only; omega⟩

theorem measurePassing {rows work} (within : work ≤ maxWork)
    (passed : maxWork < (measureChunk doubles reader state rows work).2.1) :
    ∃ before after, rows = before ++ after ∧ (measureChunk doubles reader state before work).1 =
        (measureChunk doubles reader state rows work).1 ∧
      (measureChunk doubles reader state before work).2.1 ≤ maxWork := by
  induction rows generalizing work with
  | nil => exact absurd passed (by simpa [measureChunk] using within)
  | cons row rest ih =>
    obtain ⟨units,outcome,charges⟩ := rowCharges doubles reader state row
    have step := charges.below work within
    by_cases passes : maxWork < work + units
    · rw [if_pos passes] at step
      exact ⟨[],row::rest,rfl,by rw [measureFailed step]; rfl,within⟩
    rw [if_neg passes] at step
    cases outcome with
    | error e =>
      rw [measureFailed step] at passed
      exact absurd passed passes
    | ok observation =>
      rw [measureKept step] at passed ⊢
      obtain ⟨before,after,rfl,same,below⟩ := ih (by omega) passed
      refine ⟨row::before,after,rfl,?_,?_⟩
      · rw [measureKept step,same]
      · rwa [measureKept step]

end Chunk

section Entering
variable {run : State F × Budget}

def withWork (work : Nat) (run : State F × Budget) : State F × Budget := (run.1,{ run.2 with work := work })

theorem recordWork (work : Nat) (run : State F × Budget) (observation : Observation F) :
    record doubles (withWork work run).1 observation (withWork work run).2 =
      (record doubles run.1 observation run.2).map (withWork work) := by
  have same : isFull (withWork work run).1 (withWork work run).2 = isFull run.1 run.2 := rfl
  unfold record
  rw [same]
  dsimp only [withWork]
  cases run.1.series.get? observation.key with
  | some series => rfl
  | none =>
    cases isFull run.1 run.2 with
    | true => rfl
    | false =>
      by_cases large : maxOutput < run.2.labelBytes + labelSize observation.key
      · simp only [if_pos large]
        rfl
      · simp only [if_neg large]
        rfl

theorem mapFailed {α β : Type} {f : α → β} {x : Res α} {e} (failed : x.map f = .error e) : x = .error e := by
  cases x with
  | error _ => cases failed; rfl
  | ok _ => cases failed

theorem recordAllWork (doubles : Doubles F) (work : Nat) (run : State F × Budget) (observations : List (Observation F)) :
    recordAll doubles (withWork work run) observations = (recordAll doubles run observations).map (withWork work) := by
  induction observations generalizing run with
  | nil => rfl
  | cons observation rest ih =>
    simp only [recordAll,foldlM_cons] at ih ⊢
    rw [recordWork]
    cases record doubles run.1 observation run.2 with
    | error e => rfl
    | ok next => exact ih next

theorem recordKind {observation e} (failed : record doubles run.1 observation run.2 = .error e) :
    e = .groups ∨ e = .budget := by
  unfold record at failed
  split at failed
  · cases failed
  split at failed
  · cases failed
    exact .inl rfl
  dsimp only at failed
  split at failed
  · cases failed
    exact .inr rfl
  · cases failed

theorem recordAllKind {observations e}
    (failed : recordAll doubles run observations = .error e) : e = .groups ∨ e = .budget := by
  induction observations generalizing run with
  | nil => cases failed
  | cons observation rest ih =>
    rw [recordAll,foldlM_cons] at failed
    cases first : record doubles run.1 observation run.2 with
    | error e' =>
      rw [first] at failed
      cases failed
      exact recordKind first
    | ok next =>
      rw [first] at failed
      exact ih failed

theorem recordAllAppend (run : State F × Budget) (xs ys : List (Observation F)) :
    recordAll doubles run (xs ++ ys) = (recordAll doubles run xs).bind (fun run => recordAll doubles run ys) := by
  unfold recordAll
  rw [foldlM_append]
  rfl

theorem enterOver {base chunk} (passes : maxWork < run.2.work + (chunk.2.1 - base)) :
    enter doubles base run chunk = .error .budget := by
  simp only [enter,if_pos passes]

theorem enterWithin {base chunk} (below : ¬ maxWork < run.2.work + (chunk.2.1 - base)) : enter doubles base run chunk =
      (recordAll doubles run (chunk.1.filterMap id)).bind (fun next => match chunk.2.2 with
        | some e => .error e
        | none => .ok (withWork (run.2.work + (chunk.2.1 - base)) next)) := by
  have recorded := recordAllWork doubles (run.2.work + (chunk.2.1 - base)) run (chunk.1.filterMap id)
  simp only [withWork] at recorded
  simp only [enter,if_neg below]
  rw [recorded]
  cases recordAll doubles run (chunk.1.filterMap id) with
  | error e => rfl
  | ok next => cases chunk.2.2 <;> rfl

end Entering

def whole (doubles : Doubles F) (reader : Reader) (state : State F) (run : State F × Budget) (rows : List Selected) :
    Res (State F × Budget) :=
  enter doubles run.2.work run (measureChunk doubles reader state rows run.2.work)

/- The rows pass the work ceiling, but the rows before the one that passes it already need a series the limits
do not allow. -/
def Shadowed (doubles : Doubles F) (reader : Reader) (state : State F) (run : State F × Budget) (rows : List Selected) : Prop :=
  run.2.work ≤ maxWork ∧ maxWork < (measureChunk doubles reader state rows run.2.work).2.1 ∧
    recordAll doubles run ((measureChunk doubles reader state rows run.2.work).1.filterMap id) = .error .groups

section Whole
variable {run : State F × Budget} {rows : List Selected}

theorem wholeOver (passed : maxWork < (measureChunk doubles reader state rows run.2.work).2.1) :
    whole doubles reader state run rows = .error .budget :=
  enterOver (by omega)

theorem wholeWithin (rows : List Selected) (below : (measureChunk doubles reader state rows run.2.work).2.1 ≤ maxWork) :
    whole doubles reader state run rows =
      (recordAll doubles run ((measureChunk doubles reader state rows run.2.work).1.filterMap id)).bind (fun next =>
        match (measureChunk doubles reader state rows run.2.work).2.2 with
        | some e => .error e
        | none => .ok (withWork (measureChunk doubles reader state rows run.2.work).2.1 next)) := by
  have grown := chunkGrows doubles reader state rows run.2.work
  have total : run.2.work + ((measureChunk doubles reader state rows run.2.work).2.1 - run.2.work) =
      (measureChunk doubles reader state rows run.2.work).2.1 := by omega
  rw [whole,enterWithin (by omega),total]

theorem enterChunk {base} (ahead : base ≤ run.2.work) (within : run.2.work ≤ maxWork) :
    enter doubles base run (measureChunk doubles reader state rows base) = whole doubles reader state run rows := by
  rcases measureShift doubles reader state rows ahead within with ⟨below,same,failed,count⟩ | ⟨passed,_,count⟩
  · rw [enterWithin (by omega),wholeWithin rows below,same,failed,count]
  · rw [enterOver count,wholeOver passed]

theorem passedFailed (within : run.2.work ≤ maxWork) (passed : maxWork < (measureChunk doubles reader state rows run.2.work).2.1) :
    (measureChunk doubles reader state rows run.2.work).2.2 = some .budget := by
  rcases measureShift doubles reader state rows (Nat.le_refl _) within with ⟨below,_⟩ | ⟨_,failed,_⟩
  · omega
  · exact failed

theorem wholeAppend (within : run.2.work ≤ maxWork) {xs ys} (clear : ¬ Shadowed doubles reader state run (xs ++ ys)) :
    whole doubles reader state run (xs ++ ys) =
      (whole doubles reader state run xs).bind (fun next => whole doubles reader state next ys) := by
  have joined := measureAppend doubles reader state xs ys run.2.work
  by_cases passed : maxWork < (measureChunk doubles reader state xs run.2.work).2.1
  · rw [andThen,passedFailed within passed] at joined
    rw [wholeOver passed,wholeOver (by rw [joined]; exact passed)]
    rfl
  rw [wholeWithin xs (by omega)]
  rw [andThen] at joined
  cases failed : (measureChunk doubles reader state xs run.2.work).2.2 with
  | some e =>
    rw [failed] at joined
    rw [wholeWithin (xs ++ ys) (by rw [joined]; dsimp only; omega),joined]
    cases recordAll doubles run ((measureChunk doubles reader state xs run.2.work).1.filterMap id) <;> rfl
  | none =>
    rw [failed] at joined
    cases recorded : recordAll doubles run ((measureChunk doubles reader state xs run.2.work).1.filterMap id) with
    | error g =>
      have first : recordAll doubles run ((measureChunk doubles reader state (xs ++ ys) run.2.work).1.filterMap id) =
          .error g := by
        rw [joined,filterMap_append,recordAllAppend,recorded]
        rfl
      by_cases passes : maxWork < (measureChunk doubles reader state (xs ++ ys) run.2.work).2.1
      · rw [wholeOver passes]
        rcases recordAllKind recorded with rfl | rfl
        · exact absurd ⟨within,passes,first⟩ clear
        · rfl
      · rw [wholeWithin (xs ++ ys) (by omega),first]
        rfl
    | ok next =>
      have counter : (withWork (measureChunk doubles reader state xs run.2.work).2.1 next).2.work =
        (measureChunk doubles reader state xs run.2.work).2.1 := rfl
      by_cases passes : maxWork < (measureChunk doubles reader state (xs ++ ys) run.2.work).2.1
      · rw [wholeOver passes]
        rw [joined] at passes
        exact (wholeOver passes).symm
      rw [wholeWithin (xs ++ ys) (by omega)]
      rw [joined] at passes ⊢
      dsimp only at passes ⊢
      rw [filterMap_append,recordAllAppend,recorded]
      refine Eq.trans ?_ (wholeWithin ys (by rw [counter]; omega)).symm
      rw [recordAllWork,counter]
      dsimp only [Except.bind]
      cases recordAll doubles next _ <;> rfl

theorem wholeOk {next} (ok : whole doubles reader state run rows = .ok next) :
    ∃ observations work kept, measureChunk doubles reader state rows run.2.work = (observations,work,none) ∧
      work ≤ maxWork ∧ recordAll doubles run (observations.filterMap id) = .ok kept ∧ next = withWork work kept := by
  by_cases passed : maxWork < (measureChunk doubles reader state rows run.2.work).2.1
  · rw [wholeOver passed] at ok
    cases ok
  rw [wholeWithin rows (by omega)] at ok
  rcases measured : measureChunk doubles reader state rows run.2.work with ⟨observations,work,failed⟩
  rw [measured] at ok passed
  dsimp only at ok passed
  cases recorded : recordAll doubles run (observations.filterMap id) with
  | error e => rw [recorded] at ok; cases ok
  | ok kept =>
    rw [recorded] at ok
    cases failed with
    | some e => cases ok
    | none =>
      cases ok
      exact ⟨observations,work,kept,rfl,by omega,recorded,rfl⟩

theorem clearRest (within : run.2.work ≤ maxWork) {xs ys : List Selected} {next : State F × Budget}
    (clear : ¬ Shadowed doubles reader state run (xs ++ ys)) (first : whole doubles reader state run xs = .ok next) :
    run.2.work ≤ next.2.work ∧ next.2.work ≤ maxWork ∧ ¬ Shadowed doubles reader state next ys := by
  obtain ⟨observations,work,kept,measured,below,recorded,rfl⟩ := wholeOk first
  have grown := chunkGrows doubles reader state xs run.2.work
  rw [measured] at grown
  refine ⟨grown,below,fun shadowed => clear ?_⟩
  obtain ⟨_,passed,groups⟩ := shadowed
  have joined := measureAppend doubles reader state xs ys run.2.work
  rw [andThen,measured] at joined
  refine ⟨within,by rw [joined]; exact passed,?_⟩
  rw [joined,filterMap_append,recordAllAppend,recorded]
  rw [recordAllWork] at groups
  exact mapFailed groups

end Whole

variable {run : State F × Budget}

/- Induction on the chunks: the first one is entered as the front of all rows that are left. -/
theorem chunksWhole {base} (ahead : base ≤ run.2.work) (within : run.2.work ≤ maxWork)
    {chunk rest} (clear : ¬ Shadowed doubles reader state run (chunk::rest).flatten) :
    ((chunk::rest).map (fun chunk => measureChunk doubles reader state chunk base)).foldlM (enter doubles base) run =
      whole doubles reader state run (chunk::rest).flatten := by
  induction rest generalizing run chunk with
  | nil =>
    rw [map_cons,foldlM_cons,enterChunk ahead within,flatten_cons,flatten_nil,append_nil]
    cases whole doubles reader state run chunk <;> rfl
  | cons next rest ih =>
    rw [flatten_cons] at clear ⊢
    rw [map_cons,foldlM_cons,enterChunk ahead within,wholeAppend within clear]
    cases first : whole doubles reader state run chunk with
    | error e => rfl
    | ok after =>
      obtain ⟨grown,below,later⟩ := clearRest within clear first
      exact ih (by omega) below later

def Cut (rows : List Selected) (chunks : List (List Selected)) : Prop := chunks ≠ [] ∧ chunks.flatten = rows

theorem scanOver (spent : maxWork < run.2.work) {chunks} (some' : chunks ≠ []) :
    scanChunks doubles reader run chunks = .error .budget := by
  obtain ⟨chunk,rest,rfl⟩ := exists_cons_of_ne_nil some'
  rw [scanChunks,map_cons,foldlM_cons,enterOver (by omega)]
  rfl

theorem scanWhole {rows} : scanChunks doubles reader run [rows] = whole doubles reader run.1 run rows := by
  rw [scanChunks,map_cons,foldlM_cons,whole]
  cases enter doubles run.2.work run (measureChunk doubles reader run.1 rows run.2.work) <;> rfl

/- Cutting the selected rows never shows, exactly when no limit on series is met before the work ceiling. -/
theorem chunkingTransparent (doubles : Doubles F) (reader : Reader) (run : State F × Budget) (rows : List Selected) :
    (∀ chunks, Cut rows chunks → scanChunks doubles reader run chunks = scanChunks doubles reader run [rows]) ↔
      ¬ Shadowed doubles reader run.1 run rows := by
  constructor
  · rintro same ⟨within,passed,groups⟩
    obtain ⟨before,after,rfl,observed,below⟩ := measurePassing doubles reader run.1 within passed
    have cut := same [before,after] ⟨by simp,by simp⟩
    have first : enter doubles run.2.work run (measureChunk doubles reader run.1 before run.2.work) = .error .groups := by
      rw [← observed] at groups
      refine (wholeWithin before below).trans ?_
      rw [groups]
      rfl
    rw [scanWhole,wholeOver passed,scanChunks,map_cons,foldlM_cons,first] at cut
    cases cut
  · rintro clear chunks ⟨some',rfl⟩
    obtain ⟨chunk,rest,rfl⟩ := exists_cons_of_ne_nil some'
    by_cases spent : maxWork < run.2.work
    · rw [scanOver spent some',scanOver spent (by simp)]
    · rw [scanWhole]
      exact chunksWhole (Nat.le_refl _) (by omega) clear

section Segments
variable {cut : List Selected → List (List Selected)} {floor : Int}

theorem chunksFlatten {α : Type} (size : Nat) (positive : 0 < size) (fuel : Nat) (l : List α) (enough : l.length ≤ fuel) :
    (chunksOf size fuel l).flatten = l := by
  induction fuel generalizing l with
  | zero =>
    have empty : l = [] := eq_nil_of_length_eq_zero (Nat.le_zero.mp enough)
    rw [empty]
    rfl
  | succ fuel ih =>
    cases l with
    | nil => rfl
    | cons a l =>
      have shorter : ((a::l).drop size).length ≤ fuel := by
        rw [length_drop,length_cons] at *
        omega
      rw [chunksOf,isEmpty_cons,if_neg (by decide),flatten_cons,ih _ shorter,take_append_drop]

theorem cutRowsCut (threads : Nat) (selected : List Selected) : Cut selected (cutRows threads selected) := by
  unfold cutRows
  dsimp only
  split
  · next more =>
    have flat := chunksFlatten (max ((selected.length + threads - 1) / threads) 256) (by omega) _ selected (Nat.le_refl _)
    refine ⟨fun none' => ?_,flat⟩
    rw [none'] at flat
    rw [← flat] at more
    simp at more
  · exact ⟨by simp,by simp⟩

def BatchClear (doubles : Doubles F) (reader : Reader) (floor : Int) (run : State F × Budget) (rows : List Row) : Prop :=
  ∀ selected, selectRows run.1.mapper floor rows = .ok selected → ¬ Shadowed doubles reader run.1 run selected

theorem batchSame (cuts : ∀ rows, Cut rows (cut rows)) {run rows} (clear : BatchClear doubles reader floor run rows) :
    scanBatch doubles reader cut floor run rows = scanBatch doubles reader (fun rows => [rows]) floor run rows := by
  unfold scanBatch
  cases found : selectRows run.1.mapper floor rows with
  | error e => rfl
  | ok selected =>
    obtain ⟨some',flat⟩ := cuts selected
    obtain ⟨chunk,rest,cutAs⟩ := exists_cons_of_ne_nil some'
    have apart := clear selected found
    dsimp only [bind,Except.bind]
    rw [cutAs] at flat ⊢
    subst flat
    by_cases spent : maxWork < run.2.work
    · rw [scanOver spent (by simp),scanOver spent (by simp)]
    · rw [scanWhole]
      exact chunksWhole (Nat.le_refl _) (by omega) apart

end Segments

namespace Sample

def naturals : Doubles Nat where
  zero := 0
  one := 1
  nan := 0
  infinity := 0
  negativeInfinity := 0
  isNaN _ := false
  add := (· + ·)
  min := Nat.min
  max := Nat.max
  ofInt := Int.toNat
  parse _ := none
  belowTwo n := n < 2
  bucketOf n := n
  perBillion n := n / 1000000000
  bits := UInt64.ofNat

def plain : Reader where
  object _ := .ok []
  array _ := .ok []
  string := .ok
  integer _ := .ok 0
  quoted text := text

def program : Expression := ⟨[[.leaf ⟨.intrinsic,"duration",.ge,"0",none⟩]],[],false,false,1⟩
def start : State Nat × Budget :=
  (⟨some program,false,false,true,.count,none,[],⟨0,10,10,true,1⟩,Dict.empty⟩,⟨10000,10000,19999232,0⟩)

def row : Selected := ⟨1,1,.ok ([("otlp","o"),("timestamp_ns","1"),("end_timestamp_ns","1")],some ⟨[],0,0⟩),0⟩
def rows : List Selected := List.replicate 257 row

theorem rowEvaluated (work : Nat) : measureRow naturals plain start.1 row work =
    if workMax < work + 3 then (.error .budget,work + 3) else (.ok (some ⟨0,([],none),1⟩),work + 3) := by
  have evaluated : evaluateWith plain program [("otlp","o"),("timestamp_ns","1"),("end_timestamp_ns","1")]
      (some ⟨[],0,0⟩) work false =
      if workMax < work + 3 then (.error .budget,work + 3) else (.ok ⟨true,1,Dict.empty⟩,work + 3) := rfl
  have original : isNull [("otlp","o"),("timestamp_ns","1"),("end_timestamp_ns","1")] "otlp" = false := by decide
  by_cases passes : workMax < work + 3
  · rw [if_pos passes] at evaluated ⊢
    simp [measureRow,measure,row,start,original,evaluated]
  · rw [if_neg passes] at evaluated ⊢
    simp [measureRow,measure,row,start,original,evaluated]
    rfl

theorem rowsMeasured (n work : Nat) (below : work + 3 * n ≤ maxWork) :
    measureChunk naturals plain start.1 (List.replicate n row) work =
      (List.replicate n (some ⟨0,([],none),1⟩),work + 3 * n,none) := by
  induction n generalizing work with
  | zero => rfl
  | succ n ih =>
    have total : work + 3 + 3 * n = work + 3 * (n + 1) := by omega
    rw [replicate_succ,measureKept ((rowEvaluated work).trans (if_neg (Nat.not_lt.mpr (Nat.le_trans (by omega) below)))),ih (work + 3) (by omega),replicate_succ,total]

end Sample

/- With four threads the first chunk holds 256 rows and needs a series that is not left; measured as one chunk,
the last row passes the work ceiling first. -/
theorem chunksDisagree : scanChunks Sample.naturals Sample.plain Sample.start (cutRows 4 Sample.rows) = .error .groups ∧
    scanChunks Sample.naturals Sample.plain Sample.start [Sample.rows] = .error .budget := by
  have first := Sample.rowsMeasured 256 Sample.start.2.work (by decide)
  constructor
  · have cut : cutRows 4 Sample.rows = [List.replicate 256 Sample.row,List.replicate 1 Sample.row] := by
      simp only [cutRows,Sample.rows,length_replicate]
      rw [if_pos (by decide)]
      show chunksOf 256 (255 + 1 + 1) (List.replicate 257 Sample.row) = _
      rw [chunksOf,take_replicate,drop_replicate,chunksOf]
      rfl
    have entered : enter Sample.naturals Sample.start.2.work Sample.start
        (List.replicate 256 (some ⟨0,([],none),1⟩),Sample.start.2.work + 3 * 256,none) = .error .groups := by
      rw [enterWithin (by decide)]
      rfl
    rw [cut,scanChunks,map_cons,first,foldlM_cons,entered]
    rfl
  · have last : measureChunk Sample.naturals Sample.plain Sample.start.1 [Sample.row] (Sample.start.2.work + 3 * 256) =
        ([],maxWork + 3,some .budget) := measureFailed ((Sample.rowEvaluated _).trans (if_pos (by decide))) []
    rw [scanWhole]
    refine wholeOver ?_
    rw [Sample.rows,replicate_succ',measureAppend,first,andThen,last]
    decide

end Pulso.TraceMetrics
