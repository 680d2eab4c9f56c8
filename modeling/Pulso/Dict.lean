import Mathlib.Algebra.Ring.Int.Defs
import Mathlib.Algebra.Ring.Nat
import Mathlib.Data.List.Nodup
import Mathlib.Data.List.Perm.Basic

/-! Finite maps as association lists with distinct keys. The order of the
entries is the order of insertion; no result below lets a reader depend on it. -/
namespace Pulso
open List

structure Dict (κ ν : Type) where
  entries : List (κ × ν)
  distinct : (entries.map Prod.fst).Nodup
  deriving DecidableEq

namespace Dict
variable {κ ν : Type}

def empty : Dict κ ν := ⟨[],List.nodup_nil⟩
def keys (m : Dict κ ν) : List κ := m.entries.map Prod.fst
def size (m : Dict κ ν) : Nat := m.entries.length

def filter (p : κ × ν → Bool) (m : Dict κ ν) : Dict κ ν :=
  ⟨m.entries.filter p,m.distinct.sublist (List.filter_sublist.map Prod.fst)⟩

def mapValues (f : κ → ν → ν) (m : Dict κ ν) : Dict κ ν :=
  ⟨m.entries.map (fun e => (e.1,f e.1 e.2)),by
    have same : (m.entries.map (fun e => (e.1,f e.1 e.2))).map Prod.fst = m.entries.map Prod.fst := by
      simp [Function.comp_def]
    rw [same]; exact m.distinct⟩

variable [DecidableEq κ]

def get? (m : Dict κ ν) (k : κ) : Option ν := (m.entries.find? (fun e => e.1 = k)).map Prod.snd
def has (m : Dict κ ν) (k : κ) : Bool := decide (k ∈ m.keys)

def put (m : Dict κ ν) (k : κ) (v : ν) : Dict κ ν :=
  if h : k ∈ m.keys then m.mapValues (fun k' v' => if k' = k then v else v')
  else ⟨m.entries ++ [(k,v)],by
    rw [List.map_append,List.nodup_append]
    refine ⟨m.distinct,by simp,?_⟩
    intro a ha b hb
    have same : b = k := by simpa using hb
    subst b
    exact fun e => h (e ▸ ha)⟩

def putAll (m : Dict κ ν) (es : List (κ × ν)) : Dict κ ν := es.foldl (fun m e => m.put e.1 e.2) m
def ofList (es : List (κ × ν)) : Dict κ ν := putAll empty es
def merge (a b : Dict κ ν) : Dict κ ν := a.putAll b.entries

omit [DecidableEq κ] in
theorem ext {a b : Dict κ ν} (h : a.entries = b.entries) : a = b := by
  cases a; cases b; cases h; rfl

omit [DecidableEq κ] in
theorem valueUnique {m : Dict κ ν} {k v w} (hv : (k,v) ∈ m.entries) (hw : (k,w) ∈ m.entries) : v = w := by
  have inj := inj_on_of_nodup_map m.distinct hv hw rfl
  exact (Prod.mk.inj inj).2

theorem getIff {m : Dict κ ν} {k v} : m.get? k = some v ↔ (k,v) ∈ m.entries := by
  constructor
  · intro h
    obtain ⟨e,found,rfl⟩ := Option.map_eq_some_iff.mp h
    have key : e.1 = k := by simpa using find?_some found
    subst key
    exact mem_of_find?_eq_some found
  intro h
  cases found : m.entries.find? (fun e => e.1 = k) with
  | none =>
    have rejected := (find?_eq_none.mp found) _ h
    simp at rejected
  | some e =>
    have key : e.1 = k := by simpa using find?_some found
    have member : (k,e.2) ∈ m.entries := by
      have := mem_of_find?_eq_some found
      rwa [← key]
    simp [get?,found,valueUnique member h]

theorem getNone {m : Dict κ ν} {k} : m.get? k = none ↔ k ∉ m.keys := by
  simp only [get?,Option.map_eq_none_iff,find?_eq_none,keys,mem_map,not_exists,not_and]
  constructor
  · intro h e he key; exact absurd key (by simpa using h e he)
  · intro h e he; simpa using h e he

theorem memKeys {m : Dict κ ν} {k} : k ∈ m.keys ↔ ∃ v, m.get? k = some v := by
  rw [← not_iff_not,← getNone]
  cases m.get? k <;> simp

@[simp] theorem hasIff {m : Dict κ ν} {k} : m.has k = true ↔ k ∈ m.keys := by simp [has]

omit [DecidableEq κ] in
@[simp] theorem keysMapValues (f : κ → ν → ν) (m : Dict κ ν) : (m.mapValues f).keys = m.keys := by
  simp [keys,mapValues,Function.comp_def]

theorem getMapValues (f : κ → ν → ν) (m : Dict κ ν) (k : κ) : (m.mapValues f).get? k = (m.get? k).map (f k) := by
  cases h : m.get? k with
  | none => rw [getNone] at h; simpa [getNone] using h
  | some v =>
    rw [getIff] at h
    exact getIff.mpr (mem_map.mpr ⟨(k,v),h,rfl⟩)

theorem putFresh {m : Dict κ ν} {k} (v : ν) (h : k ∉ m.keys) :
    (m.put k v).entries = m.entries ++ [(k,v)] := by simp [put,h]

theorem putPresent {m : Dict κ ν} {k} (v : ν) (h : k ∈ m.keys) :
    m.put k v = m.mapValues (fun k' v' => if k' = k then v else v') := by simp [put,h]

theorem memKeysPut {m : Dict κ ν} {k k' v} : k' ∈ (m.put k v).keys ↔ k' = k ∨ k' ∈ m.keys := by
  by_cases h : k ∈ m.keys
  · rw [putPresent v h,keysMapValues]
    exact ⟨Or.inr,fun h' => h'.elim (fun e => e ▸ h) id⟩
  · simp [keys,putFresh v h,or_comm]

variable (m : Dict κ ν)

theorem getPutSame (k : κ) (v : ν) : (m.put k v).get? k = some v := by
  by_cases h : k ∈ m.keys
  · obtain ⟨w,hw⟩ := memKeys.mp h
    simp [putPresent v h,getMapValues,hw]
  · exact getIff.mpr (by simp [putFresh v h])

theorem getPutOther {k k' : κ} (v : ν) (ne : k' ≠ k) : (m.put k v).get? k' = m.get? k' := by
  by_cases h : k ∈ m.keys
  · simp [putPresent v h,getMapValues,ne]
  apply Option.ext
  intro w
  have other : (k',w) ∈ m.entries ++ [(k,v)] ↔ (k',w) ∈ m.entries := by simp [ne]
  rw [getIff,getIff,putFresh v h,other]

theorem putSame {m : Dict κ ν} {k v} (h : m.get? k = some v) : m.put k v = m := by
  rw [putPresent v (memKeys.mpr ⟨v,h⟩)]
  refine ext ((map_congr_left (fun e mem => ?_)).trans (map_id _))
  obtain ⟨k',v'⟩ := e
  by_cases here : k' = k
  · subst here
    simp [valueUnique mem (getIff.mp h)]
  · simp [here]

theorem sizePut (k : κ) (v : ν) : m.size ≤ (m.put k v).size := by
  by_cases present : k ∈ m.keys
  · simp [size,putPresent v present,mapValues]
  · simp [size,putFresh v present]

variable {es : List (κ × ν)}

theorem putAllFresh {m : Dict κ ν} (fresh : ∀ e ∈ es, e.1 ∉ m.keys)
    (distinct : (es.map Prod.fst).Nodup) : (m.putAll es).entries = m.entries ++ es := by
  induction es generalizing m with
  | nil => simp [putAll]
  | cons e es ih =>
    obtain ⟨head,tail⟩ := nodup_cons.mp distinct
    have first := putFresh e.2 (fresh e mem_cons_self)
    have rest : ((m.put e.1 e.2).putAll es).entries = (m.put e.1 e.2).entries ++ es := by
      apply ih _ tail
      intro x hx
      rw [memKeysPut]
      rintro (same | old)
      · exact head (mem_map.mpr ⟨x,hx,same⟩)
      · exact fresh x (mem_cons_of_mem _ hx) old
    simpa [putAll,first] using rest

theorem memKeysPutAll {m : Dict κ ν} {k} : k ∈ (m.putAll es).keys ↔ k ∈ m.keys ∨ k ∈ es.map Prod.fst := by
  induction es generalizing m with
  | nil => simp [putAll]
  | cons e es ih =>
    have step := ih (m := m.put e.1 e.2)
    simp only [putAll,foldl_cons,map_cons,mem_cons] at step ⊢
    rw [step,memKeysPut]
    tauto

theorem getPutAll {m : Dict κ ν} {k v} (h : (m.putAll es).get? k = some v) : m.get? k = some v ∨ (k,v) ∈ es := by
  induction es generalizing m with
  | nil => exact .inl h
  | cons e es ih =>
    rcases ih (m := m.put e.1 e.2) h with earlier | later
    · by_cases here : k = e.1
      · subst here
        rw [getPutSame] at earlier
        cases earlier
        exact .inr mem_cons_self
      · rw [getPutOther _ _ here] at earlier
        exact .inl earlier
    · exact .inr (mem_cons_of_mem _ later)

theorem getOfList {k v} (h : (ofList es).get? k = some v) : (k,v) ∈ es :=
  (getPutAll h).resolve_left (by simp [empty,get?])

theorem getFilter {p} {m : Dict κ ν} {k v} : (m.filter p).get? k = some v ↔ m.get? k = some v ∧ p (k,v) = true := by
  simp [getIff,filter]

def delete (m : Dict κ ν) (k : κ) : Dict κ ν := m.filter (fun e => e.1 ≠ k)

theorem getDeleteSame (k : κ) : (m.delete k).get? k = none := by
  cases h : (m.delete k).get? k with
  | none => rfl
  | some v => simp [delete,getFilter] at h

theorem getDeleteOther {k k' : κ} (ne : k' ≠ k) : (m.delete k).get? k' = m.get? k' := by
  apply Option.ext
  simp [delete,getFilter,ne]

theorem deleteFresh {m : Dict κ ν} {k} (h : m.get? k = none) : m.delete k = m := by
  refine ext (filter_eq_self.mpr (fun e mem => ?_))
  have other : e.1 ≠ k := fun same => getNone.mp h (same ▸ mem_map_of_mem mem)
  simpa using other

theorem entriesPerm {m : Dict κ ν} {k v} (h : m.get? k = some v) : m.entries.Perm ((k,v)::(m.delete k).entries) := by
  have parts := (filter_append_perm (fun e : κ × ν => decide (e.1 = k)) m.entries).symm
  have alone : m.entries.filter (fun e => decide (e.1 = k)) = [(k,v)] := by
    have nodup : (m.entries.filter (fun e => decide (e.1 = k))).Nodup := m.distinct.of_map.filter _
    refine perm_singleton.mp ((perm_ext_iff_of_nodup nodup (nodup_singleton _)).mpr (fun e => ?_))
    simp only [mem_filter,decide_eq_true_eq,mem_singleton]
    constructor
    · rintro ⟨mem,same⟩
      exact Prod.ext same (valueUnique (k := k) (same ▸ mem) (getIff.mp h))
    · rintro rfl
      exact ⟨getIff.mp h,rfl⟩
  rw [alone] at parts
  simpa [delete,filter] using parts

theorem putPerm (k : κ) (v : ν) : (m.put k v).entries.Perm ((k,v)::(m.delete k).entries) := by
  have others : ((m.put k v).delete k).entries.Perm (m.delete k).entries := by
    refine (perm_ext_iff_of_nodup ((m.put k v).delete k).distinct.of_map (m.delete k).distinct.of_map).mpr (fun e => ?_)
    rw [← getIff,← getIff]
    by_cases same : e.1 = k
    · rw [same,getDeleteSame,getDeleteSame]
    · rw [getDeleteOther _ same,getDeleteOther _ same,getPutOther _ _ same]
  exact (entriesPerm (getPutSame m k v)).trans (others.cons _)

end Dict
end Pulso
