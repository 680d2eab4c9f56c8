import Mathlib.Data.List.Chain
import Pulso.Segment

/-! Label sets of metric rows: the canonical bytes a segment stores, how they are parsed
back, and the name list the manifest keeps for a segment. -/
namespace Pulso.Metric
open List

-- cannot occur inside valid UTF-8
def sep : UInt8 := 0xFF

def nameLabel : Bytes := ascii "__name__"

def Ascending (pairs : List (Bytes × Bytes)) : Prop := pairs.IsChain (fun a b => a.1 < b.1)

def Text (pairs : List (Bytes × Bytes)) : Prop := ∀ p ∈ pairs, Bytes.validUtf8 p.1 = true ∧ Bytes.validUtf8 p.2 = true

instance (pairs : List (Bytes × Bytes)) : Decidable (Ascending pairs) := by unfold Ascending; infer_instance
instance (pairs : List (Bytes × Bytes)) : Decidable (Text pairs) := by unfold Text; infer_instance

/- A label map as the encoder writes it: by ascending name, every name and value valid UTF-8. -/
structure Labels where
  pairs : List (Bytes × Bytes)
  ascending : Ascending pairs
  text : Text pairs
  deriving DecidableEq

namespace Labels

-- a missing name is the empty name
def metricName (labels : Labels) : Bytes :=
  ((labels.pairs.find? (fun p => p.1 = nameLabel)).map Prod.snd).getD []

end Labels

def canonicalBytes (pairs : List (Bytes × Bytes)) : Bytes :=
  pairs.flatMap (fun p => p.1 ++ [sep] ++ p.2 ++ [sep])

def cut : Bytes → Option (Bytes × Bytes)
  | [] => none
  | b::rest => if b = sep then some ([],rest) else (cut rest).map (fun p => (b::p.1,p.2))

theorem cutShorter {bytes field rest} (h : cut bytes = some (field,rest)) : rest.length < bytes.length := by
  induction bytes generalizing field with
  | nil => simp [cut] at h
  | cons b bytes ih =>
    rw [cut] at h
    split at h
    · cases h
      simp
    obtain ⟨⟨before,after⟩,found,same⟩ := Option.map_eq_some_iff.mp h
    cases same
    have := ih found
    rw [length_cons]
    omega

def parseCanonicalPairs (bytes : Bytes) : Option (List (Bytes × Bytes)) :=
  if bytes = [] then some []
  else match _named : cut bytes with
    | none => none
    | some (name,rest) => match _valued : cut rest with
      | none => none
      | some (value,rest) => (parseCanonicalPairs rest).map ((name,value)::·)
termination_by bytes.length
decreasing_by
  have := cutShorter _named
  have := cutShorter _valued
  omega

namespace Labels

def canonical (labels : Labels) : Bytes := canonicalBytes labels.pairs

def fromCanonical (bytes : Bytes) : Option Labels :=
  match parseCanonicalPairs bytes with
  | none => none
  | some pairs => if h : Ascending pairs ∧ Text pairs then some ⟨pairs,h.1,h.2⟩ else none

end Labels

theorem continuedOther {b} (h : Bytes.validUtf8.continued b = true) : b ≠ sep := by
  rintro rfl
  exact absurd h (by decide)

theorem second3Other {a b} (h : Bytes.validUtf8.second3 a b = true) : b ≠ sep := by
  rintro rfl
  unfold Bytes.validUtf8.second3 at h
  split at h
  · exact absurd h (by decide)
  · split at h <;> exact absurd h (by decide)

theorem second4Other {a b} (h : Bytes.validUtf8.second4 a b = true) : b ≠ sep := by
  rintro rfl
  unfold Bytes.validUtf8.second4 at h
  split at h
  · exact absurd h (by decide)
  · split at h <;> exact absurd h (by decide)

theorem leadOther {a b} (bound : a ≤ b) (low : b < sep) : a ≠ sep := by
  rintro rfl
  exact absurd (UInt8.lt_of_lt_of_le low bound) (UInt8.lt_irrefl b)

theorem textSeparated {bytes} (h : Bytes.validUtf8 bytes = true) : sep ∉ bytes := by
  fun_induction Bytes.validUtf8 bytes <;> simp only [Bool.and_eq_true,decide_eq_true_eq,mem_cons,not_or] at h ⊢
  case case1 => exact not_mem_nil
  case case2 low ih => exact ⟨(leadOther (UInt8.le_of_lt low) (by decide)).symm,ih h⟩
  case case3 lead ih => exact ⟨(leadOther lead.2 (by decide)).symm,(continuedOther h.1).symm,ih h.2⟩
  case case4 lead ih =>
    exact ⟨(leadOther lead.2 (by decide)).symm,(second3Other h.1.1).symm,(continuedOther h.1.2).symm,ih h.2⟩
  case case5 ih =>
    exact ⟨(leadOther h.1.1.1.1.2 (by decide)).symm,(second4Other h.1.1.1.2).symm,(continuedOther h.1.1.2).symm,
      (continuedOther h.1.2).symm,ih h.2⟩
  all_goals exact absurd h (by decide)

theorem cutField {field} (rest : Bytes) (free : sep ∉ field) : cut (field ++ sep :: rest) = some (field,rest) := by
  induction field with
  | nil => simp [cut]
  | cons b field ih =>
    have other : b ≠ sep := fun same => free (same ▸ mem_cons_self)
    rw [cons_append,cut,if_neg other,ih (fun mem => free (mem_cons_of_mem _ mem))]
    rfl

theorem parseCanonicalBytes {pairs} (text : Text pairs) : parseCanonicalPairs (canonicalBytes pairs) = some pairs := by
  induction pairs with
  | nil => simp [canonicalBytes,parseCanonicalPairs]
  | cons p pairs ih =>
    obtain ⟨name,value⟩ := p
    have valid := text (name,value) mem_cons_self
    have bytes : canonicalBytes ((name,value)::pairs) = name ++ sep :: (value ++ sep :: canonicalBytes pairs) := by
      simp [canonicalBytes]
    rw [bytes,parseCanonicalPairs,if_neg (by simp)]
    have named := cutField (value ++ sep :: canonicalBytes pairs) (textSeparated valid.1)
    have valued := cutField (canonicalBytes pairs) (textSeparated valid.2)
    split <;> rename_i first <;> rw [named] at first <;> cases first
    split <;> rename_i second <;> rw [valued] at second <;> cases second
    rw [ih (forall_mem_cons.mp text).2]
    rfl

theorem Labels.fromCanonicalSelf (labels : Labels) : fromCanonical labels.canonical = some labels := by
  unfold fromCanonical canonical
  rw [parseCanonicalBytes labels.text]
  exact dif_pos ⟨labels.ascending,labels.text⟩

def bloomNames : Nat := 2048

def collectMetricName (names : List Bytes) (labels : Labels) : Option (List Bytes) :=
  let name := labels.metricName
  if name.length ≤ 256 ∧ Bytes.validUtf8 name = true then
    let names := names.insert name
    if names.length ≤ bloomNames then some names else none
  else none

/- The names `summarize_metrics/2` lists; more than 128 go into a bloom filter instead. -/
def metricNames (records : List Labels) : Option (List Bytes) :=
  match records.foldlM collectMetricName [] with
  | none => none
  | some names => if names.length ≤ Segment.listedNames then some (Bytes.sort names) else none

theorem collectMetricNames {records : List Labels} {seen names}
    (h : records.foldlM collectMetricName seen = some names) :
    ∀ name, name ∈ names ↔ name ∈ seen ∨ ∃ labels ∈ records, labels.metricName = name := by
  induction records generalizing seen with
  | nil =>
    cases h
    simp
  | cons labels rest ih =>
    obtain ⟨more,collected,h⟩ := Option.bind_eq_some_iff.mp h
    have inserted : more = seen.insert labels.metricName := by
      simp only [collectMetricName] at collected
      split at collected
      · split at collected <;> cases collected
        rfl
      · cases collected
    intro name
    rw [ih h name,inserted,mem_insert_iff]
    simp only [mem_cons,exists_eq_or_imp]
    tauto

theorem metricNamesListed {records : List Labels} {names} (h : metricNames records = some names)
    {labels} (mem : labels ∈ records) : labels.metricName ∈ names := by
  unfold metricNames at h
  split at h
  · cases h
  rename_i all collected
  split at h
  · cases h
    exact ((perm_insertionSort _ _).mem_iff).mpr ((collectMetricNames collected _).mpr (.inr ⟨_,mem,rfl⟩))
  · cases h

end Pulso.Metric
