import Mathlib.Data.List.Dedup
import Mathlib.Data.List.ReduceOption
import Pulso.Summary

/-! Building and uniting label summaries. Every value set a summary keeps is complete for
the rows it describes, whatever its budgets drop. -/
namespace Pulso.LabelSets
open List

-- the labels of one record; `none` for a value that is not a string
abbrev Labels := Dict Bytes (Option Bytes)

-- a missing label has the value ""
def value (labels : Labels) (name : Bytes) : Option Bytes := (labels.get? name).getD (some [])

def addLabelWithin (budget : Nat) (sizes : SummarySizes) (acc : LabelSets × Nat) (label : Bytes × List Bytes) :
    LabelSets × Nat :=
  if acc.1.size < maxNames then
    let values := Bytes.sort label.2
    let added := sizes.labels (Dict.empty.put label.1 values)
    if acc.2 + added ≤ budget then (acc.1.put label.1 values,acc.2 + added) else acc
  else acc

def fitted (budget : Nat) (sizes : SummarySizes) (labels : List (Bytes × List Bytes)) : Option LabelSets :=
  known (labels.foldl (addLabelWithin budget sizes) (Dict.empty,2)).1

def collect (values : List Bytes) : Option Bytes → Option (List Bytes)
  | none => none
  | some value =>
    if validValue value then
      let values := values.insert value
      if values.length ≤ maxValues then some values else none
    else none

def collectRecord (labels : Labels) (sets : LabelSets) : LabelSets :=
  Dict.ofList (sets.entries.filterMap (fun e => (collect e.2 (value labels e.1)).map (fun values => (e.1,values))))

def collectAll : List Labels → LabelSets → LabelSets
  | [],sets => sets
  | labels::rest,sets =>
    if labels.keys.all Bytes.validUtf8 then
      let sets := collectRecord labels sets
      if sets.size = 0 then sets else collectAll rest sets
    -- an invalid key could become one of the names once it is stored
    else Dict.empty

def build (budget : Nat) (sizes : SummarySizes) (records : List Labels) (names : List Bytes) : Option LabelSets :=
  if records = [] then none
  else
    let names := names.take maxNames
    let sets := collectAll records (Dict.ofList (names.map (fun name => (name,[]))))
    fitted budget sizes (names.flatMap (fun name => match sets.get? name with
      | some values => [(name,values)]
      | none => []))

def unionWithin (budget : Nat) (sizes : SummarySizes) (summaries : List (Option LabelSets)) (names : List Bytes) :
    Option LabelSets :=
  if summaries ≠ [] ∧ summaries.all Option.isSome then
    let sets := summaries.reduceOption
    let kept := (names.take maxNames).filter (fun name => sets.all (fun s => s.has name))
    fitted budget sizes (kept.flatMap (unionValues sets))
  else none

theorem addLabelsGet {budget sizes} {labels : List (Bytes × List Bytes)} {acc name values}
    (h : (labels.foldl (addLabelWithin budget sizes) acc).1.get? name = some values) :
    acc.1.get? name = some values ∨ ∃ all, (name,all) ∈ labels ∧ values = Bytes.sort all := by
  induction labels generalizing acc with
  | nil => exact .inl h
  | cons label rest ih =>
    cases ih h with
    | inr later =>
      obtain ⟨all,mem,sorted⟩ := later
      exact .inr ⟨all,mem_cons_of_mem _ mem,sorted⟩
    | inl now =>
      unfold addLabelWithin at now
      split at now
      · simp only at now
        split at now
        · by_cases same : name = label.1
          · subst same
            have stored := (Dict.getPutSame acc.1 label.1 (Bytes.sort label.2)).symm.trans now
            exact .inr ⟨label.2,mem_cons_self,(Option.some.inj stored).symm⟩
          · exact .inl ((Dict.getPutOther acc.1 _ same).symm.trans now)
        · exact .inl now
      · exact .inl now

theorem knownGet {sets kept} (h : known sets = some kept) : sets = kept := by
  unfold known at h
  split at h
  · exact Option.some.inj h
  · cases h

variable {sets : LabelSets}

theorem fittedGet {budget sizes labels} {name values}
    (h : fitted budget sizes labels = some sets) (found : sets.get? name = some values) :
    ∃ all, (name,all) ∈ labels ∧ ∀ v, v ∈ values ↔ v ∈ all := by
  have same := knownGet h
  subst same
  cases addLabelsGet found with
  | inl initial => simp [Dict.get?,Dict.empty] at initial
  | inr added =>
    obtain ⟨all,mem,sorted⟩ := added
    exact ⟨all,mem,fun v => by simp [sorted,Bytes.sort]⟩

theorem collectKeeps {values all v} (h : collect values v = some all) :
    (∃ text, v = some text ∧ validValue text ∧ text ∈ all) ∧ ∀ x ∈ values, x ∈ all := by
  cases v with
  | none => cases h
  | some text =>
    simp only [collect] at h
    split at h
    case isFalse => cases h
    rename_i valid
    split at h
    · cases h
      exact ⟨⟨text,rfl,valid,mem_insert_self⟩,fun x mem => mem_insert_of_mem mem⟩
    · cases h

theorem collectRecordGet {labels name values} (h : (collectRecord labels sets).get? name = some values) :
    ∃ before, sets.get? name = some before ∧ collect before (value labels name) = some values := by
  have mem := Dict.getOfList h
  obtain ⟨e,inside,entry⟩ := mem_filterMap.mp mem
  cases collected : collect e.2 (value labels e.1) with
  | none => simp [collected] at entry
  | some after =>
    simp only [collected,Option.map_some,Option.some.injEq,Prod.mk.injEq] at entry
    obtain ⟨rfl,rfl⟩ := entry
    exact ⟨e.2,Dict.getIff.mpr inside,collected⟩

theorem emptyGet {name values} : (Dict.empty : LabelSets).get? name ≠ some values := by simp [Dict.get?,Dict.empty]

theorem collectAllGet {records name values} (h : (collectAll records sets).get? name = some values) :
    (∃ before, sets.get? name = some before ∧ ∀ x ∈ before, x ∈ values) ∧
      ∀ labels ∈ records, labels.keys.all Bytes.validUtf8 ∧
        ∃ text, value labels name = some text ∧ validValue text ∧ text ∈ values := by
  induction records generalizing sets with
  | nil => exact ⟨⟨values,h,fun _ mem => mem⟩,by simp⟩
  | cons labels rest ih =>
    unfold collectAll at h
    split at h
    case isFalse => exact absurd h emptyGet
    rename_i keys
    simp only at h
    split at h
    case isTrue empty =>
      have none : collectRecord labels sets = Dict.empty := Dict.ext (length_eq_zero_iff.mp empty)
      exact absurd (none ▸ h) emptyGet
    obtain ⟨⟨between,found,later⟩,others⟩ := ih h
    obtain ⟨before,first,collected⟩ := collectRecordGet found
    obtain ⟨⟨text,isText,valid,inside⟩,kept⟩ := collectKeeps collected
    exact ⟨⟨before,first,fun x mem => later x (kept x mem)⟩,
      forall_mem_cons.mpr ⟨⟨keys,text,isText,valid,later text inside⟩,others⟩⟩

theorem buildGet {budget sizes records names} {name values}
    (h : build budget sizes records names = some sets) (found : sets.get? name = some values) :
    name ∈ names ∧ ∀ labels ∈ records, ∃ text, value labels name = some text ∧ validValue text ∧ text ∈ values := by
  unfold build at h
  split at h
  case isTrue => cases h
  obtain ⟨all,mem,same⟩ := fittedGet h found
  obtain ⟨n,listed,entry⟩ := mem_flatMap.mp mem
  split at entry
  case h_2 => cases entry
  rename_i kept stored
  simp only [mem_singleton,Prod.mk.injEq] at entry
  obtain ⟨rfl,rfl⟩ := entry
  constructor
  · exact mem_of_mem_take listed
  intro labels inside
  obtain ⟨_,text,isText,valid,held⟩ := (collectAllGet stored).2 labels inside
  exact ⟨text,isText,valid,(same text).mpr held⟩

theorem unionGet {budget sizes summaries names} {name values}
    (h : unionWithin budget sizes summaries names = some sets) (found : sets.get? name = some values) :
    name ∈ names ∧ ∀ s ∈ summaries, ∃ own all, s = some own ∧ own.get? name = some all ∧ ∀ v ∈ all, v ∈ values := by
  unfold unionWithin at h
  split at h
  case isFalse => cases h
  rename_i known
  obtain ⟨all,mem,same⟩ := fittedGet h found
  obtain ⟨n,kept,entry⟩ := mem_flatMap.mp mem
  unfold unionValues at entry
  simp only at entry
  split at entry
  case isFalse => cases entry
  simp only [mem_singleton,Prod.mk.injEq] at entry
  obtain ⟨rfl,rfl⟩ := entry
  obtain ⟨listed,everywhere⟩ := mem_filter.mp kept
  constructor
  · exact mem_of_mem_take listed
  intro s inside
  obtain ⟨own,rfl⟩ := Option.isSome_iff_exists.mp (all_eq_true.mp known.2 s inside)
  have member := reduceOption_mem_iff.mpr inside
  obtain ⟨all,get⟩ := Dict.memKeys.mp (Dict.hasIff.mp (all_eq_true.mp everywhere own member))
  have reached (v) (mem : v ∈ all) : v ∈ values := by
    apply (same v).mpr
    apply mem_dedup.mpr
    exact mem_flatMap.mpr ⟨own,member,by simpa [get] using mem⟩
  exact ⟨own,all,rfl,get,reached⟩

section Coverage
variable {ρ : Type} (label : ρ → Bytes → Bytes)

def Covers (rows : List ρ) (summary : Option LabelSets) : Prop :=
  ∀ sets, summary = some sets → ∀ name values, sets.get? name = some values → ∀ row ∈ rows, label row name ∈ values

variable {label}

theorem coversParse {sizes rows summary} (h : Covers label rows summary) :
    Covers label rows (summary.bind (parse sizes)) := by
  intro sets parsed
  obtain ⟨own,known,accepted⟩ := Option.bind_eq_some_iff.mp parsed
  unfold parse at accepted
  split at accepted
  · cases accepted
    exact h _ known
  · cases accepted

theorem coversUnion {budget sizes names} {parts : List (List ρ × Option LabelSets)}
    (h : ∀ p ∈ parts, Covers label p.1 p.2) :
    Covers label (parts.flatMap Prod.fst) (unionWithin budget sizes (parts.map Prod.snd) names) := by
  intro sets united name values found row mem
  obtain ⟨part,inside,held⟩ := mem_flatMap.mp mem
  obtain ⟨_,each⟩ := unionGet united found
  obtain ⟨own,all,known,get,kept⟩ := each part.2 (mem_map_of_mem inside)
  exact kept _ (h part inside own known name all get row held)

end Coverage
end Pulso.LabelSets

/-! The complete set of promoted services of some rows, or nothing at all. -/
namespace Pulso.Services

def maximum : Nat := 128

def valid (service : Bytes) : Bool := 1 ≤ service.length && service.length ≤ 256

def collect : List (Option Bytes) → List Bytes → Option (List Bytes)
  | [],services => some services
  | some service::rest,services =>
    if valid service then
      let services := services.insert service
      if services.length ≤ maximum then collect rest services else none
    else none
  | none::_,_ => none

def complete (services : List (Option Bytes)) : Option (List Bytes) :=
  (collect services []).map Bytes.sort

theorem collectGet {xs seen all} (h : collect xs seen = some all) :
    (∀ v ∈ seen, v ∈ all) ∧ ∀ x ∈ xs, ∃ v, x = some v ∧ valid v ∧ v ∈ all := by
  induction xs generalizing seen with
  | nil =>
    cases h
    exact ⟨fun _ mem => mem,by simp⟩
  | cons x xs ih =>
    cases x with
    | none => cases h
    | some service =>
      simp only [collect] at h
      split at h
      case isFalse => cases h
      rename_i valid
      split at h
      case isFalse => cases h
      obtain ⟨kept,others⟩ := ih h
      exact ⟨fun v mem => kept v (List.mem_insert_of_mem mem),
        List.forall_mem_cons.mpr ⟨⟨service,rfl,valid,kept service List.mem_insert_self⟩,others⟩⟩

theorem completeGet {xs all} (h : complete xs = some all) : ∀ x ∈ xs, ∃ v, x = some v ∧ valid v ∧ v ∈ all := by
  obtain ⟨found,collected,sorted⟩ := Option.map_eq_some_iff.mp h
  intro x mem
  obtain ⟨v,same,valid,inside⟩ := (collectGet collected).2 x mem
  exact ⟨v,same,valid,by simpa [← sorted,Bytes.sort] using inside⟩

theorem validNonempty {v} (h : valid v = true) : v ≠ [] := by
  rintro rfl
  cases h

end Pulso.Services
