import Mathlib.Data.Prod.Lex
import Pulso.PromRange
import Pulso.NativeHistogram
import Pulso.Winners

/-! Samples as storage delivers them: batches of decoded rows are grouped by series as they
arrive, and each group is then put in time order with one observation for each timestamp. -/
namespace Pulso.PromQL.Delivery
open Pulso.Binary64 Pulso.Metric Pulso.Winners List

inductive Reading
  | stale
  | histogram (h : NativeHistogram Finite)
  | number (n : Number)
  deriving DecidableEq

def Reading.ofValue : Value → Reading
  | .stale => .stale
  | .number n => .number n

structure Observation where
  ts : Int
  value : Reading
  deriving DecidableEq

structure DecodedSample where
  labels : Labels
  ts : Int
  value : Option Value
  histogram : Option (NativeHistogram Finite)
  deriving DecidableEq

/- What a row observed, if it carries more than exemplars. A histogram is stale by its sum. -/
def reading (sample : DecodedSample) : Option Reading :=
  match sample.histogram,sample.value with
  | some h,_ => some (if h.sum = .stale then .stale else .histogram h)
  | none,some v => some (.ofValue v)
  | none,none => none

def point (sample : DecodedSample) : Option Observation := (reading sample).map (⟨sample.ts,·⟩)

abbrev Series := Dict Labels (List Observation)

def foldPoint (series : Series) (sample : DecodedSample) : Series :=
  match point sample with
  | none => series
  | some p => series.put sample.labels (p::(series.get? sample.labels).getD [])

def foldPoints (series : Series) (batch : List DecodedSample) : Series := batch.foldl foldPoint series

def samplePriority : Reading → Reading → Bool
  | .stale,_ => true
  | _,.stale => false
  | .histogram _,_ => true
  | _,.histogram _ => false
  | .number .nan,_ => false
  | _,.number .nan => true
  | .number a,.number b => !a.less b

def Observation.precedes (a b : Observation) : Prop :=
  if a.ts = b.ts then samplePriority a.value b.value = true else a.ts < b.ts
instance : DecidableRel Observation.precedes := fun a b => by unfold Observation.precedes; infer_instance

inductive Warning
  | stalenessFirst | maximumValue
  deriving DecidableEq

def conflictWarning (group : List Observation) : Warning :=
  if group.any (fun p => p.value = .stale) then .stalenessFirst else .maximumValue

structure Prepared where
  groups : List (Labels × List Observation)
  warnings : List Warning

def prepareGroup (state : Prepared) (entry : Labels × List Observation) : Prepared :=
  let ordered := winners Observation.ts Observation.precedes entry.2
  let conflicts := (Lists.uniqBy id entry.2).length ≠ ordered.length
  ⟨(entry.1,ordered)::state.groups,if conflicts then conflictWarning entry.2::state.warnings else state.warnings⟩

def prepareSeries (series : Series) : Prepared := series.entries.foldl prepareGroup ⟨[],[]⟩

def delivered (batches : List (List DecodedSample)) : Prepared :=
  prepareSeries (batches.foldl foldPoints Dict.empty)

def observed (labels : Labels) (samples : List DecodedSample) : List Observation :=
  (samples.filter (fun s => s.labels = labels)).filterMap point

theorem deliveredFlat (batches : List (List DecodedSample)) :
    batches.foldl foldPoints Dict.empty = batches.flatten.foldl foldPoint Dict.empty := by
  rw [foldl_flatten]
  rfl

theorem observedAppend (labels : Labels) (xs ys : List DecodedSample) :
    observed labels (xs ++ ys) = observed labels xs ++ observed labels ys := by
  unfold observed
  rw [filter_append,filterMap_append]

theorem observedPerm (labels : Labels) {xs ys} (perm : xs.Perm ys) :
    (observed labels xs).Perm (observed labels ys) := (perm.filter _).filterMap _

variable {labels : Labels} {samples : List DecodedSample} {p : Observation}

theorem observedMem : p ∈ observed labels samples ↔ ∃ s ∈ samples, s.labels = labels ∧ point s = some p := by
  simp only [observed,mem_filterMap,mem_filter,decide_eq_true_eq,and_assoc]

theorem observedOne {sample} (same : sample.labels = labels)
    (seen : point sample = some p) : observed labels [sample] = [p] := by
  simp [observed,same,seen]

theorem foldPointGet (series : Series) (sample : DecodedSample) (labels : Labels) :
    (foldPoint series sample).get? labels =
      match observed labels [sample] with
      | [] => series.get? labels
      | p::_ => some (p::(series.get? labels).getD []) := by
  unfold foldPoint observed
  by_cases same : sample.labels = labels
  · subst same
    cases h : point sample with
    | none => simp [h]
    | some p => simp [h,Dict.getPutSame]
  · cases h : point sample with
    | none => simp [same]
    | some p => simp [same,Dict.getPutOther _ _ (Ne.symm same)]

theorem foldedGet (samples : List DecodedSample) (labels : Labels) : (samples.foldl foldPoint Dict.empty).get? labels =
      if observed labels samples = [] then none else some (observed labels samples).reverse := by
  induction samples using List.reverseRecOn with
  | nil => rfl
  | append_singleton samples s ih =>
    rw [foldl_append,foldl_cons,foldl_nil,foldPointGet,observedAppend,ih]
    by_cases same : s.labels = labels
    · cases seen : point s with
      | none => simp [observed,seen,same]
      | some p =>
        rw [observedOne same seen]
        by_cases first : observed labels samples = [] <;> simp [first]
    · simp [observed,same]

theorem preparedMem {series points} : (labels,points) ∈ (prepareSeries series).groups ↔
      ∃ group, series.get? labels = some group ∧ points = winners Observation.ts Observation.precedes group := by
  have folded : ∀ (entries : List (Labels × List Observation)) (state : Prepared),
      (entries.foldl prepareGroup state).groups =
        (entries.map (fun e => (e.1,winners Observation.ts Observation.precedes e.2))).reverse ++ state.groups := by
    intro entries
    induction entries with
    | nil => intro state; rfl
    | cons e entries ih => intro state; simp [ih,prepareGroup]
  simp only [prepareSeries,folded,append_nil,mem_reverse,mem_map,Prod.mk.injEq,Dict.getIff]
  constructor
  · rintro ⟨⟨_,group⟩,mem,rfl,rfl⟩
    exact ⟨group,mem,rfl⟩
  · rintro ⟨group,mem,rfl⟩
    exact ⟨(labels,group),mem,rfl,rfl⟩

theorem deliveredMem {batches points} :
    (labels,points) ∈ (delivered batches).groups ↔ observed labels batches.flatten ≠ [] ∧
      points = winners Observation.ts Observation.precedes (observed labels batches.flatten).reverse := by
  rw [delivered,preparedMem,deliveredFlat]
  simp only [foldedGet]
  by_cases none : observed labels batches.flatten = [] <;> simp [none,eq_comm]

/- Staleness beats histograms, histograms beat floats, floats beat smaller ones and NaN. -/
inductive Reading.Above : Reading → Reading → Prop
  | staleness {r} (other : r ≠ .stale) : Above .stale r
  | typed {h n} : Above (.histogram h) (.number n)
  | larger {a b} (less : a.less b = true) : Above (.number b) (.number a)
  | number {n} (known : n ≠ .nan) : Above (.number n) (.number .nan)

/- Two readings that neither staleness, type nor size tells apart. -/
inductive Reading.Tied : Reading → Reading → Prop
  | histograms {g h} (differ : g ≠ h) : Tied (.histogram g) (.histogram h)
  | zeros {a b} (left : a.isZero = true) (right : b.isZero = true) (differ : a ≠ b) :
      Tied (.number a) (.number b)

/- Wherever two readings of a series and time are tied, a third one there is above them. -/
def Settled (samples : List DecodedSample) : Prop :=
  ∀ s ∈ samples, ∀ t ∈ samples, s.labels = t.labels → s.ts = t.ts →
    ∀ a b, reading s = some a → reading t = some b → a.Tied b →
      ∃ u ∈ samples, u.labels = s.labels ∧ u.ts = s.ts ∧ ∃ c, reading u = some c ∧ c.Above a

variable {a b : Reading}

namespace Reading

def rank : Reading → Nat ×ₗ WithBot (WithTop Int)
  | .stale => toLex (3,⊥)
  | .histogram _ => toLex (2,⊥)
  | .number .nan => toLex (0,⊥)
  | .number n => toLex (1,n.rank)

variable {n : Number}

theorem rankNumber (known : n ≠ .nan) : rank (.number n) = toLex (1,n.rank) := by
  cases n with
  | nan => exact absurd rfl known
  | _ => rfl

theorem aboveNumbers {m} : Above (.number n) (.number m) ↔ rank (.number m) < rank (.number n) := by
  by_cases low : m = .nan
  · subst low
    by_cases high : n = .nan
    · subst high
      refine iff_of_false ?_ (lt_irrefl _)
      rintro (_ | _ | less | known)
      · exact absurd less (by decide)
      · exact known rfl
    · exact iff_of_true (.number high) (by simp [rank,Prod.Lex.toLex_lt_toLex])
  by_cases high : n = .nan
  · subst high
    refine iff_of_false ?_ (by simp [rank,Prod.Lex.toLex_lt_toLex])
    rintro (_ | _ | less | known)
    · cases m <;> simp [Number.less] at less
    · exact low rfl
  rw [rankNumber low,rankNumber high,Prod.Lex.toLex_lt_toLex]
  constructor
  · rintro (_ | _ | less | known)
    · rw [Number.lessRank low high] at less
      exact .inr ⟨rfl,of_decide_eq_true less⟩
    · exact absurd rfl low
  · rintro (less | ⟨_,less⟩)
    · exact absurd less (lt_irrefl _)
    · exact .larger (by rw [Number.lessRank low high]; exact decide_eq_true less)

theorem aboveRank : a.Above b ↔ b.rank < a.rank := by
  cases a with
  | stale =>
    cases b with
    | stale => exact ⟨fun h => by cases h; contradiction,fun h => absurd h (lt_irrefl _)⟩
    | histogram h => exact iff_of_true (.staleness (by simp)) (by simp [rank,Prod.Lex.toLex_lt_toLex])
    | number n => exact iff_of_true (.staleness (by simp)) (by cases n <;> simp [rank,Prod.Lex.toLex_lt_toLex])
  | histogram h =>
    cases b with
    | number n => exact iff_of_true .typed (by cases n <;> simp [rank,Prod.Lex.toLex_lt_toLex])
    | _ => exact iff_of_false nofun (by simp [rank,Prod.Lex.toLex_lt_toLex])
  | number n =>
    cases b with
    | number m => exact aboveNumbers
    | _ => exact iff_of_false nofun (by cases n <;> simp [rank,Prod.Lex.toLex_lt_toLex])

theorem priorityRank :
    (samplePriority a b = true → b.rank ≤ a.rank) ∧ (samplePriority a b = false → a.rank ≤ b.rank) := by
  cases a with
  | stale =>
    refine ⟨fun _ => ?_,fun h => by simp [samplePriority] at h⟩
    rcases b with _ | _ | n
    · exact le_rfl
    · simp [rank,Prod.Lex.toLex_le_toLex]
    · cases n <;> simp [rank,Prod.Lex.toLex_le_toLex]
  | histogram h =>
    rcases b with _ | _ | n
    · simp [samplePriority,rank,Prod.Lex.toLex_le_toLex]
    · simp [rank]
    · cases n <;> simp [samplePriority,rank,Prod.Lex.toLex_le_toLex]
  | number n =>
    rcases b with _ | _ | m
    · cases n <;> simp [samplePriority,rank,Prod.Lex.toLex_le_toLex]
    · cases n <;> simp [samplePriority,rank,Prod.Lex.toLex_le_toLex]
    by_cases high : n = .nan
    · subst high
      cases m <;> simp [samplePriority,rank,Prod.Lex.toLex_le_toLex]
    by_cases low : m = .nan
    · subst low
      cases n <;> simp [samplePriority,rank,Prod.Lex.toLex_le_toLex] at high ⊢
    have size : samplePriority (.number n) (.number m) = !n.less m := by
      cases n <;> cases m <;> first | rfl | exact absurd rfl high
    rw [size,Number.lessRank high low,rankNumber high,rankNumber low,Prod.Lex.toLex_le_toLex,Prod.Lex.toLex_le_toLex]
    constructor
    · intro h
      exact .inr ⟨rfl,by simpa using h⟩
    intro h
    have less : n.rank < m.rank := by simpa using h
    exact .inr ⟨rfl,less.le⟩

theorem numberTied {m} (hn : n ≠ .nan) (hm : m ≠ .nan) (same : n.rank = m.rank) (differ : n ≠ m) :
    n.isZero = true ∧ m.isZero = true := by
  cases n with
  | nan => exact absurd rfl hn
  | float x =>
    cases m with
    | float y =>
      have value : x.value = y.value := by simpa [Number.rank] using same
      by_cases zero : x.value = 0
      · have left := Finite.valueZero zero
        have right := Finite.valueZero (value ▸ zero)
        exact ⟨by rcases left with rfl | rfl <;> rfl,by rcases right with rfl | rfl <;> rfl⟩
      have back := Finite.packUnits x zero
      rw [value,Finite.packUnits y (value ▸ zero)] at back
      cases back
      exact absurd rfl differ
    | _ => simp [Number.rank] at same
  | _ => cases m <;> simp [Number.rank] at same differ hm

theorem tiedRank (same : a.rank = b.rank) (differ : a ≠ b) : a.Tied b := by
  cases a with
  | stale => rcases b with _ | _ | ⟨_ | _ | _ | _⟩ <;> simp [rank] at same differ
  | histogram g =>
    cases b with
    | histogram h => exact .histograms (fun eq => differ (eq ▸ rfl))
    | stale => simp [rank] at same
    | number n => cases n <;> simp [rank] at same
  | number n =>
    cases b with
    | number m =>
      have other : n ≠ m := fun eq => differ (eq ▸ rfl)
      by_cases hn : n = .nan
      · subst hn
        cases m <;> simp [rank] at same other
      by_cases hm : m = .nan
      · subst hm
        cases n <;> simp [rank] at same other
      rw [rankNumber hn,rankNumber hm] at same
      obtain ⟨left,right⟩ := numberTied hn hm (congrArg Prod.snd (toLex_inj.mp same)) other
      exact .zeros left right other
    | _ => cases n <;> simp [rank] at same

theorem zeroRank (zero : n.isZero = true) : rank (.number n) = toLex (1,Number.rank (.float .zero)) := by
  cases n with
  | float x =>
    have magnitude : x.magnitude = 0 := of_decide_eq_true zero
    have value : x.value = 0 := by simp [Finite.value,magnitude,units]
    rw [rankNumber (by simp)]
    simp only [Number.rank,value]
    rfl
  | _ => simp [Number.isZero] at zero

variable (tied : a.Tied b)
include tied

theorem tiedSame : a.rank = b.rank := by
  cases tied with
  | histograms => rfl
  | zeros left right => rw [zeroRank left,zeroRank right]

theorem tiedPriority {c} (unbeaten : ¬c.Above a) : samplePriority a c = true := by
  cases c with
  | stale => cases tied <;> exact absurd (.staleness (by simp)) unbeaten
  | histogram h =>
    cases tied with
    | histograms => rfl
    | zeros => exact absurd .typed unbeaten
  | number m =>
    cases tied with
    | histograms => rfl
    | @zeros n _ left =>
      cases n with
      | float x =>
        cases less : (Number.float x).less m with
        | true => exact absurd (.larger less) unbeaten
        | false => cases m <;> simp [samplePriority,less]
      | _ => simp [Number.isZero] at left

theorem tiedSymm : b.Tied a := by
  cases tied with
  | histograms differ => exact .histograms differ.symm
  | zeros left right differ => exact .zeros right left differ.symm

theorem tiedNe : a ≠ b := by
  rintro rfl
  cases tied <;> contradiction

end Reading

theorem preference : Preference Observation.ts Observation.precedes (fun a b => a.value.Above b.value) where
  keyed {a b} differ := by rw [Observation.precedes,if_neg differ]
  before {a b} same first := by
    rw [Observation.precedes,if_pos same] at first
    rw [Reading.aboveRank,not_lt]
    exact Reading.priorityRank.1 first
  after {a b} same later := by
    rw [Observation.precedes,if_pos same,Bool.not_eq_true] at later
    rw [Reading.aboveRank,not_lt]
    exact Reading.priorityRank.2 later
  weak {a b c} ab bc := by
    rw [Reading.aboveRank,not_lt] at ab bc ⊢
    exact ab.trans bc

theorem pointMem : p ∈ observed labels samples ↔
      ∃ s ∈ samples, s.labels = labels ∧ s.ts = p.ts ∧ reading s = some p.value := by
  rw [observedMem]
  refine exists_congr fun s => and_congr_right fun _ => and_congr_right fun _ => ?_
  rw [point,Option.map_eq_some_iff]
  constructor
  · rintro ⟨r,seen,rfl⟩
    exact ⟨rfl,seen⟩
  · rintro ⟨time,seen⟩
    exact ⟨p.value,seen,by rw [time]⟩

theorem settledObserved (settled : Settled samples) (labels : Labels) :
    Winners.Settled Observation.ts (fun a b => a.value.Above b.value) (observed labels samples) := by
  intro p hp q hq same low high
  by_cases eq : p.value = q.value
  · obtain ⟨_,_⟩ := p
    cases same; cases eq
    exact .inl rfl
  have below : q.value.rank ≤ p.value.rank := not_lt.mp fun less => high (Reading.aboveRank.mpr less)
  have level : p.value.rank ≤ q.value.rank := not_lt.mp fun less => low (Reading.aboveRank.mpr less)
  obtain ⟨s,hs,ls,ts,rs⟩ := pointMem.mp hp
  obtain ⟨t,ht,lt,tt,rt⟩ := pointMem.mp hq
  have tied := Reading.tiedRank (le_antisymm level below) eq
  obtain ⟨u,hu,lu,tu,c,seen,above⟩ := settled s hs t ht (ls.trans lt.symm) (ts.trans (same.trans tt.symm)) _ _ rs rt tied
  exact .inr ⟨⟨u.ts,c⟩,pointMem.mpr ⟨u,hu,lu.trans ls,rfl,seen⟩,tu.trans ts,above⟩

theorem lastWins {s} (mem : s ∈ samples) (seen : reading s = some a) (tied : a.Tied b)
    (unbeaten : ∀ u ∈ samples, u.labels = s.labels → u.ts = s.ts → ∀ c, reading u = some c → ¬c.Above a) :
    ∃ batches, batches.flatten.Perm samples ∧
      ∃ points, (s.labels,points) ∈ (delivered batches).groups ∧ ⟨s.ts,a⟩ ∈ points := by
  obtain ⟨before,after,rfl⟩ := append_of_mem mem
  have moved : (before ++ after ++ [s]).Perm (before ++ s::after) := by
    rw [append_assoc]
    exact (perm_append_singleton s after).append_left before
  have seenLast : point s = some ⟨s.ts,a⟩ := by rw [point,seen]; rfl
  have flat : [before ++ after ++ [s]].flatten = before ++ after ++ [s] := by simp
  refine ⟨[before ++ after ++ [s]],flat.symm ▸ moved,_,deliveredMem.mpr ⟨?_,rfl⟩,?_⟩
  · rw [flat,observedAppend,observedOne rfl seenLast]
    simp
  rw [flat,observedAppend,observedOne rfl seenLast,reverse_append,reverse_singleton,singleton_append]
  refine headWins fun q hq time => ?_
  obtain ⟨u,hu,lu,tu,ru⟩ := pointMem.mp (mem_reverse.mp hq)
  have inside : u ∈ before ++ s::after := moved.subset (mem_append_left _ hu)
  rw [Observation.precedes,if_pos time.symm]
  exact Reading.tiedPriority tied (unbeaten u inside lu (tu.trans time) _ ru)

theorem deliveryOrder (samples : List DecodedSample) :
    (∀ first second : List (List DecodedSample), first.flatten.Perm samples → second.flatten.Perm samples →
      ∀ labels points, (labels,points) ∈ (delivered first).groups ↔ (labels,points) ∈ (delivered second).groups) ↔
    Settled samples := by
  constructor
  · intro same s hs t ht labels time a b ra rb tied
    by_contra none
    have unbeaten : ∀ u ∈ samples, u.labels = s.labels → u.ts = s.ts → ∀ c, reading u = some c → ¬c.Above a :=
      fun u hu lu tu c rc above => none ⟨u,hu,lu,tu,c,rc,above⟩
    have turned : ∀ u ∈ samples, u.labels = t.labels → u.ts = t.ts → ∀ c, reading u = some c → ¬c.Above b :=
      fun u hu lu tu c rc above =>
        unbeaten u hu (lu.trans labels.symm) (tu.trans time.symm) c rc
          (Reading.aboveRank.mpr (Reading.tiedSame tied ▸ Reading.aboveRank.mp above))
    obtain ⟨one,permOne,points,listed,won⟩ := lastWins hs ra tied unbeaten
    obtain ⟨two,permTwo,others,listedTwo,wonTwo⟩ := lastWins ht rb (Reading.tiedSymm tied) turned
    have both := (same one two permOne permTwo s.labels points).mp listed
    have equal : points = others := by rw [(deliveredMem.mp both).2,labels,← (deliveredMem.mp listedTwo).2]
    rw [equal,time] at won
    rw [(deliveredMem.mp listedTwo).2] at won wonTwo
    have clash := winnersUnique won wonTwo rfl
    exact Reading.tiedNe tied (congrArg Observation.value clash)
  · intro settled first second permFirst permSecond labels points
    have perm : (observed labels first.flatten).Perm (observed labels second.flatten) :=
      observedPerm labels (permFirst.trans permSecond.symm)
    have spread : (observed labels samples).Perm (observed labels first.flatten).reverse :=
      (observedPerm labels permFirst.symm).trans (reverse_perm _).symm
    have ordered := winnersPerm preference ((reverse_perm _).trans (perm.trans (reverse_perm _).symm))
      (settledPerm spread (settledObserved settled labels))
    have present : observed labels first.flatten ≠ [] ↔ observed labels second.flatten ≠ [] :=
      not_congr ⟨fun none => nil_perm.mp (none ▸ perm),fun none => perm_nil.mp (none ▸ perm)⟩
    rw [deliveredMem,deliveredMem,ordered,present]

def zeroSample (x : Finite) : DecodedSample := ⟨⟨[],by decide,by decide⟩,0,some (.number (.float x)),none⟩

theorem deliveryDecides : ∃ first second : List (List DecodedSample), first.flatten.Perm second.flatten ∧
    ∃ labels points, (labels,points) ∈ (delivered first).groups ∧ (labels,points) ∉ (delivered second).groups :=
  ⟨[[zeroSample .zero],[zeroSample .negZero]],[[zeroSample .negZero],[zeroSample .zero]],.swap _ _ _,
    (zeroSample .zero).labels,[⟨0,.number (.float .negZero)⟩],by decide,by decide⟩

end Pulso.PromQL.Delivery
