import Mathlib.Data.List.Dedup
import Mathlib.Data.List.ReduceOption
import Mathlib.Order.MinMax
import Pulso.Lists
import Pulso.LogGrouper

/-! Regrouping loses and duplicates no row: every counter is the sum it stands for, every output
describes exactly the rows it holds, and draining ends with nothing held. -/
namespace Pulso.LogTiers
open List

structure Group.Consistent (key : GroupKey) (group : Group) : Prop where
  nonempty : group.batches ≠ []
  filled : ∀ b ∈ group.batches, b.rows ≠ []
  rows : group.rows = (rowsOf group.batches).length
  bytes : group.bytes = (group.batches.map Batch.bytes).sum
  keyed : ∀ r ∈ rowsOf group.batches, r.groupKey = key

def entryRows (es : List (GroupKey × Group)) : List Row := es.flatMap (fun e => rowsOf e.2.batches)
def entryBytes (es : List (GroupKey × Group)) : Nat := (es.map (fun e => e.2.bytes)).sum
def entryBatches (es : List (GroupKey × Group)) : Nat := (es.map (fun e => e.2.batches.length)).sum

structure Grouper.Consistent (g : Grouper) : Prop where
  groups : ∀ e ∈ g.groups.entries, e.2.Consistent e.1
  held : g.held = entryBytes g.groups.entries

def Grouper.heldRows (g : Grouper) : List Row := entryRows g.groups.entries
def Grouper.heldBatches (g : Grouper) : Nat := entryBatches g.groups.entries

theorem newConsistent (targetRows targetBytes packBytes maxHeld : Nat) :
    (Grouper.new targetRows targetBytes packBytes maxHeld).Consistent :=
  ⟨fun e mem => by simp [Grouper.new,Dict.empty] at mem,rfl⟩

theorem rowsOfAppend (a b : List Batch) : rowsOf (a ++ b) = rowsOf a ++ rowsOf b := flatMap_append

section Groups
variable {groups : Dict GroupKey Group} {key : GroupKey} {group : Group}

theorem deleteMem {e} (mem : e ∈ (groups.delete key).entries) : e ∈ groups.entries ∧ e.1 ≠ key := by
  obtain ⟨inside,other⟩ := mem_filter.mp mem
  exact ⟨inside,by simpa using other⟩

variable (found : groups.get? key = some group)
include found

theorem rowsWithout : (entryRows groups.entries).Perm (rowsOf group.batches ++ entryRows (groups.delete key).entries) :=
  (Dict.entriesPerm found).flatMap_right _

theorem bytesWithout : entryBytes groups.entries = group.bytes + entryBytes (groups.delete key).entries :=
  ((Dict.entriesPerm found).map _).sum_nat

theorem batchesWithout :
    entryBatches groups.entries = group.batches.length + entryBatches (groups.delete key).entries :=
  ((Dict.entriesPerm found).map _).sum_nat

omit found

theorem rowsPut (groups : Dict GroupKey Group) (key : GroupKey) (group : Group) :
    (entryRows (groups.put key group).entries).Perm (rowsOf group.batches ++ entryRows (groups.delete key).entries) :=
  (Dict.putPerm groups key group).flatMap_right _

theorem bytesPut (groups : Dict GroupKey Group) (key : GroupKey) (group : Group) :
    entryBytes (groups.put key group).entries = group.bytes + entryBytes (groups.delete key).entries :=
  ((Dict.putPerm groups key group).map _).sum_nat

theorem batchesPut (groups : Dict GroupKey Group) (key : GroupKey) (group : Group) :
    entryBatches (groups.put key group).entries = group.batches.length + entryBatches (groups.delete key).entries :=
  ((Dict.putPerm groups key group).map _).sum_nat

theorem consistentPut (all : ∀ e ∈ groups.entries, e.2.Consistent e.1) (one : group.Consistent key) :
    ∀ e ∈ (groups.put key group).entries, e.2.Consistent e.1 := by
  intro e mem
  rcases mem_cons.mp ((Dict.putPerm groups key group).mem_iff.mp mem) with rfl | other
  · exact one
  · exact all e (deleteMem other).1

end Groups

section Adding
variable {arrow : Arrow}

theorem partRows (b : Batch) (key : GroupKey) : (part arrow b key).rows = b.rows.filter (fun r => r.groupKey = key) := by
  unfold part
  simp only
  split
  · rename_i whole
    exact (filter_sublist.eq_of_length whole).symm
  · rfl

theorem splitRows (b : Batch) : (rowsOf ((split arrow b).map Prod.snd)).Perm b.rows := by
  have listed : rowsOf ((split arrow b).map Prod.snd) =
      (b.rows.map Row.groupKey).dedup.flatMap (fun key => b.rows.filter (fun r => r.groupKey = key)) := by
    simp only [rowsOf,split,map_map,flatMap_map,Function.comp_apply]
    exact flatMap_congr (fun key _ => partRows b key)
  rw [listed]
  refine Lists.keyedPerm (nodup_dedup _) (fun r mem => mem_dedup.mpr (mem_map_of_mem mem))

def Fits (p : GroupKey × Batch) : Prop := p.2.rows ≠ [] ∧ ∀ r ∈ p.2.rows, r.groupKey = p.1

theorem splitFits (arrow : Arrow) (b : Batch) : ∀ p ∈ split arrow b, Fits p := by
  intro p mem
  obtain ⟨key,listed,rfl⟩ := mem_map.mp mem
  obtain ⟨r,inside,rfl⟩ := mem_map.mp (mem_dedup.mp listed)
  refine ⟨?_,fun r' here => ?_⟩
  · rw [partRows]
    exact ne_nil_of_mem (mem_filter.mpr ⟨inside,by simp⟩)
  · rw [partRows] at here
    simpa using (mem_filter.mp here).2

theorem pushConsistent {key group b} (empty : group = Group.empty ∨ group.Consistent key)
    (fits : Fits (key,b)) : (group.push b).Consistent key := by
  have old : group.rows = (rowsOf group.batches).length ∧ group.bytes = (group.batches.map Batch.bytes).sum ∧
      (∀ x ∈ group.batches, x.rows ≠ []) ∧ ∀ r ∈ rowsOf group.batches, r.groupKey = key := by
    rcases empty with rfl | held
    · simp [Group.empty,rowsOf]
    · exact ⟨held.rows,held.bytes,held.filled,held.keyed⟩
  obtain ⟨rows,bytes,filled,keyed⟩ := old
  refine ⟨by simp [Group.push],?_,?_,?_,?_⟩
  · intro x mem
    rcases mem_append.mp mem with before | last
    · exact filled x before
    · rw [mem_singleton.mp last]
      exact fits.1
  · simp [Group.push,rows,rowsOf]
  · simp [Group.push,bytes]
  · intro r mem
    simp only [Group.push,rowsOfAppend] at mem
    rcases mem_append.mp mem with before | last
    · exact keyed r before
    · exact fits.2 r (by simpa [rowsOf] using last)

theorem addPartSpec {g : Grouper} {p} (c : g.Consistent) (fits : Fits p) :
    (g.addPart p).Consistent ∧ (g.addPart p).heldRows.Perm (g.heldRows ++ p.2.rows) := by
  obtain ⟨key,b⟩ := p
  let group := (g.groups.get? key).getD Group.empty
  have before : g.heldRows.Perm (rowsOf group.batches ++ entryRows (g.groups.delete key).entries) ∧
      entryBytes g.groups.entries = group.bytes + entryBytes (g.groups.delete key).entries ∧
      (group = Group.empty ∨ group.Consistent key) := by
    cases found : g.groups.get? key with
    | none =>
      have new : group = Group.empty := by simp [group,found]
      rw [new,Dict.deleteFresh found]
      exact ⟨.refl _,(Nat.zero_add _).symm,.inl rfl⟩
    | some old =>
      have same : group = old := by simp [group,found]
      rw [same]
      exact ⟨rowsWithout found,bytesWithout found,.inr (c.groups _ (Dict.getIff.mp found))⟩
  obtain ⟨rows,bytes,own⟩ := before
  refine ⟨⟨consistentPut c.groups (pushConsistent own fits),?_⟩,?_⟩
  · change g.held + b.bytes = entryBytes (g.groups.put key (group.push b)).entries
    simp only [bytesPut,c.held,bytes,Group.push]
    omega
  refine (rowsPut _ _ _).trans (List.Perm.trans ?_ (rows.append_right b.rows).symm)
  simp only [Group.push,rowsOfAppend,append_assoc]
  refine List.Perm.append_left _ (perm_append_comm.trans (List.Perm.append_left _ (.of_eq ?_)))
  simp [rowsOf]

theorem addPartsSpec {g : Grouper} {ps : List (GroupKey × Batch)} (c : g.Consistent) (fits : ∀ p ∈ ps, Fits p) :
    (ps.foldl Grouper.addPart g).Consistent ∧
      (ps.foldl Grouper.addPart g).heldRows.Perm (g.heldRows ++ rowsOf (ps.map Prod.snd)) := by
  induction ps generalizing g with
  | nil => exact ⟨c,by simp [rowsOf]⟩
  | cons p ps ih =>
    obtain ⟨next,rows⟩ := addPartSpec c (fits p mem_cons_self)
    obtain ⟨last,all⟩ := ih next (forall_mem_cons.mp fits).2
    refine ⟨last,all.trans ?_⟩
    have parts : rowsOf ((p::ps).map Prod.snd) = p.2.rows ++ rowsOf (ps.map Prod.snd) := by simp [rowsOf]
    rw [parts,← append_assoc]
    exact rows.append_right _

def sourceRows (source : List (Option Batch)) : List Row := rowsOf source.reduceOption

theorem addSpec {g g' : Grouper} {source : List (Option Batch)} {rows} (c : g.Consistent)
    (ok : g.add arrow source = .ok (rows,g')) :
    g'.Consistent ∧ g'.heldRows.Perm (g.heldRows ++ sourceRows source) ∧ rows = (sourceRows source).length := by
  induction source generalizing g rows with
  | nil =>
    cases ok
    exact ⟨c,by simp [sourceRows,rowsOf,List.reduceOption],rfl⟩
  | cons b rest ih =>
    cases b with
    | none => cases ok
    | some b =>
      obtain ⟨held,added,ok⟩ := Results.bindOk ok
      unfold Grouper.addBatch at added
      split at added
      · cases added
        obtain ⟨result,more,ok⟩ := Results.bindOk ok
        cases ok
        obtain ⟨next,parts⟩ := addPartsSpec c (splitFits arrow b)
        obtain ⟨last,all,count⟩ := ih next more
        have rows : sourceRows (some b::rest) = b.rows ++ sourceRows rest := by
          simp [sourceRows,rowsOf,reduceOption_cons_of_some]
        refine ⟨last,all.trans ?_,?_⟩
        · rw [rows,← append_assoc]
          exact (parts.trans ((splitRows b).append_left _)).append_right _
        · rw [rows,length_append,count]
      · cases added

theorem addNoUnderflow {g : Grouper} {source e} (failed : g.add arrow source = .error e) : e = .invalid := by
  induction source generalizing g with
  | nil => cases failed
  | cons b rest ih =>
    cases b with
    | none => cases failed; rfl
    | some b =>
      rcases Results.bindError failed with added | ⟨held,_,failed⟩
      · unfold Grouper.addBatch at added
        split at added <;> cases added
        rfl
      rcases Results.bindError failed with more | ⟨_,_,failed⟩
      · exact ih more
      · cases failed

end Adding

theorem minusOk {a b} (enough : b ≤ a) : minus a b = .ok (a - b) := if_pos enough

structure Leaves (g g' : Grouper) (batches : List Batch) : Prop where
  consistent : g'.Consistent
  rows : g.heldRows.Perm (rowsOf batches ++ g'.heldRows)
  count : g.heldBatches = batches.length + g'.heldBatches
  filled : ∀ b ∈ batches, b.rows ≠ []

theorem Leaves.then {a b c first second} (one : Leaves a b first) (two : Leaves b c second) :
    Leaves a c (first ++ second) := by
  refine ⟨two.consistent,?_,?_,?_⟩
  · rw [rowsOfAppend,append_assoc]
    exact one.rows.trans (two.rows.append_left _)
  · rw [one.count,two.count,length_append,Nat.add_assoc]
  · intro x mem
    exact (mem_append.mp mem).elim (one.filled x) (two.filled x)

section Taking
variable {g : Grouper} {key : GroupKey} {group : Group}

def Grouper.without (g : Grouper) (key : GroupKey) (group : Group) : Grouper :=
  { g with groups := g.groups.delete key, held := g.held - group.bytes }

theorem removeSpec (c : g.Consistent) (found : g.groups.get? key = some group) :
    g.remove key = .ok (group,g.without key group) ∧ Leaves g (g.without key group) group.batches := by
  have own : group.Consistent key := c.groups _ (Dict.getIff.mp found)
  have bytes := bytesWithout found
  have enough : group.bytes ≤ g.held := by rw [c.held,bytes]; exact Nat.le_add_right _ _
  constructor
  · simp [Grouper.remove,found,minusOk enough,Grouper.without,bind,Except.bind,pure,Except.pure]
  refine ⟨⟨fun e mem => c.groups e (deleteMem mem).1,?_⟩,rowsWithout found,batchesWithout found,own.filled⟩
  simp only [Grouper.without,c.held,bytes]
  omega

theorem chunkSpec (targetRows targetBytes : Nat) (t : Taken) (batches : List Batch) :
    ∃ k, k ≤ batches.length ∧ (t.count = 0 → batches ≠ [] → 1 ≤ k) ∧
      chunk targetRows targetBytes t batches =
        ⟨t.rows + (rowsOf (batches.take k)).length,t.bytes + ((batches.take k).map Batch.bytes).sum,t.count + k⟩ := by
  induction batches generalizing t with
  | nil => exact ⟨0,le_rfl,fun _ none => absurd rfl none,rfl⟩
  | cons b rest ih =>
    rw [chunk]
    split
    · rename_i stop
      exact ⟨0,Nat.zero_le _,fun zero => absurd zero (by omega),rfl⟩
    obtain ⟨k,bound,-,eq⟩ := ih ⟨t.rows + b.rows.length,t.bytes + b.bytes,t.count + 1⟩
    refine ⟨k + 1,by simpa using bound,fun _ _ => by omega,?_⟩
    rw [eq]
    simp only [take_succ_cons,rowsOf,flatMap_cons,length_append,map_cons,sum_cons]
    congr 1 <;> omega

def Group.rest (group : Group) (k : Nat) : Group :=
  ⟨group.batches.drop k,group.rows - (rowsOf (group.batches.take k)).length,
    group.bytes - ((group.batches.take k).map Batch.bytes).sum⟩

def Grouper.trimmed (g : Grouper) (key : GroupKey) (group : Group) (k : Nat) : Grouper :=
  { g with
    groups := if group.batches.drop k = [] then g.groups.delete key else g.groups.put key (group.rest k)
    held := g.held - ((group.batches.take k).map Batch.bytes).sum }

theorem takeDropRows (batches : List Batch) (k : Nat) : rowsOf (batches.take k) ++ rowsOf (batches.drop k) = rowsOf batches := by
  rw [← rowsOfAppend,take_append_drop]

theorem takeDropBytes (batches : List Batch) (k : Nat) :
    ((batches.take k).map Batch.bytes).sum + ((batches.drop k).map Batch.bytes).sum = (batches.map Batch.bytes).sum := by
  rw [← sum_append,← map_append,take_append_drop]

theorem Group.Consistent.fits (own : group.Consistent key) (k : Nat) :
    (rowsOf (group.batches.take k)).length ≤ group.rows ∧ ((group.batches.take k).map Batch.bytes).sum ≤ group.bytes := by
  have bytes := takeDropBytes group.batches k
  rw [own.rows,own.bytes,← takeDropRows group.batches k,length_append]
  omega

theorem Group.Consistent.rest (own : group.Consistent key) {k} (more : group.batches.drop k ≠ []) :
    (group.rest k).Consistent key := by
  have bytes := takeDropBytes group.batches k
  have rows := congrArg List.length (takeDropRows group.batches k)
  rw [length_append] at rows
  refine ⟨more,fun b mem => own.filled b (mem_of_mem_drop mem),?_,?_,fun r mem => own.keyed r ?_⟩
  · simp only [Group.rest,own.rows]
    omega
  · simp only [Group.rest,own.bytes]
    omega
  · rw [← takeDropRows group.batches k]
    exact mem_append_right _ mem

theorem trimmedLeaves (c : g.Consistent) (found : g.groups.get? key = some group) (k : Nat) :
    Leaves g (g.trimmed key group k) (group.batches.take k) := by
  have own : group.Consistent key := c.groups _ (Dict.getIff.mp found)
  have bytes := (takeDropBytes group.batches k).trans own.bytes.symm
  have lengths : (group.batches.take k).length + (group.batches.drop k).length = group.batches.length := by
    rw [← length_append,take_append_drop]
  have total := bytesWithout found
  have filled : ∀ b ∈ group.batches.take k, b.rows ≠ [] := fun b mem => own.filled b (mem_of_mem_take mem)
  by_cases more : group.batches.drop k = []
  · have groups : (g.trimmed key group k).groups = g.groups.delete key := if_pos more
    rw [more] at bytes lengths
    refine ⟨⟨fun e mem => c.groups e (deleteMem (groups ▸ mem)).1,?_⟩,?_,?_,filled⟩
    · rw [groups]
      simp only [Grouper.trimmed,c.held,total]
      simp only [map_nil,sum_nil] at bytes
      omega
    · have rows := takeDropRows group.batches k
      rw [more] at rows
      rw [Grouper.heldRows,Grouper.heldRows,groups,← append_nil (rowsOf (group.batches.take k))]
      exact rows ▸ rowsWithout found
    · rw [Grouper.heldBatches,Grouper.heldBatches,groups,batchesWithout found,← lengths]
      rfl
  · have groups : (g.trimmed key group k).groups = g.groups.put key (group.rest k) := if_neg more
    refine ⟨⟨?_,?_⟩,?_,?_,filled⟩
    · rw [groups]
      exact consistentPut c.groups (own.rest more)
    · rw [groups,bytesPut]
      simp only [Grouper.trimmed,c.held,total,Group.rest]
      omega
    · rw [Grouper.heldRows,Grouper.heldRows,groups]
      refine (rowsWithout found).trans ?_
      rw [← takeDropRows group.batches k,append_assoc]
      exact List.Perm.append_left _ (rowsPut g.groups key (group.rest k)).symm
    · rw [Grouper.heldBatches,Grouper.heldBatches,groups,batchesWithout found,batchesPut,← lengths,Nat.add_assoc]
      rfl

theorem takeChunkOk (c : g.Consistent) (found : g.groups.get? key = some group) :
    ∃ k, group.batches.take k ≠ [] ∧ g.takeChunk key = .ok (group.batches.take k,g.trimmed key group k) := by
  have own : group.Consistent key := c.groups _ (Dict.getIff.mp found)
  obtain ⟨k,-,first,taken⟩ := chunkSpec g.targetRows g.targetBytes ⟨0,0,0⟩ group.batches
  have positive : 1 ≤ k := first rfl own.nonempty
  obtain ⟨rows,bytes⟩ := own.fits k
  have held : group.bytes ≤ g.held := by rw [c.held,bytesWithout found]; exact Nat.le_add_right _ _
  simp only [Nat.zero_add] at taken
  refine ⟨k,fun none => ?_,?_⟩
  · rcases take_eq_nil_iff.mp none with zero | empty
    · omega
    · exact own.nonempty empty
  simp only [Grouper.takeChunk,found,taken,bind,Except.bind,pure,Except.pure,minusOk rows,minusOk bytes,
    minusOk (bytes.trans held)]
  rfl

theorem packPrefix (targetRows packBytes : Nat) (rows bytes : Nat) (keys : List GroupKey) (es : List (GroupKey × Group)) :
    ∃ k, pack targetRows packBytes rows bytes keys es = keys ++ (es.take k).map Prod.fst ∧ (keys = [] → es ≠ [] → 1 ≤ k) := by
  induction es generalizing rows bytes keys with
  | nil => exact ⟨0,by simp [pack],fun _ none => absurd rfl none⟩
  | cons e rest ih =>
    obtain ⟨key,group⟩ := e
    rw [pack]
    split
    · rename_i stop
      exact ⟨0,by simp,fun none => absurd none stop.1⟩
    · obtain ⟨k,eq,-⟩ := ih (rows + group.rows) (bytes + group.bytes) (keys ++ [key])
      exact ⟨k + 1,by simp [eq],fun _ _ => by omega⟩

theorem removeAllSpec {keys} (c : g.Consistent) (distinct : keys.Nodup) (present : ∀ key ∈ keys, key ∈ g.groups.keys) :
    ∃ batches g', g.removeAll keys = .ok (batches,g') ∧ Leaves g g' batches ∧ (keys ≠ [] → batches ≠ []) ∧
      (∀ r ∈ rowsOf batches, r.groupKey ∈ keys) ∧ (∀ e ∈ g'.groups.entries, e ∈ g.groups.entries ∧ e.1 ∉ keys) := by
  induction keys generalizing g with
  | nil =>
    exact ⟨[],g,rfl,⟨c,by simp [rowsOf],by simp,by simp⟩,fun none => absurd rfl none,by simp [rowsOf],
      fun e mem => ⟨mem,by simp⟩⟩
  | cons key keys ih =>
    obtain ⟨fresh,others⟩ := nodup_cons.mp distinct
    obtain ⟨group,found⟩ := Dict.memKeys.mp (present key mem_cons_self)
    obtain ⟨removed,leaves⟩ := removeSpec c found
    have own : group.Consistent key := c.groups _ (Dict.getIff.mp found)
    have still : ∀ k ∈ keys, k ∈ (g.without key group).groups.keys := by
      intro k mem
      obtain ⟨v,here⟩ := Dict.memKeys.mp (present k (mem_cons_of_mem _ mem))
      have apart : k ≠ key := fun same => fresh (same ▸ mem)
      exact Dict.memKeys.mpr ⟨v,(Dict.getDeleteOther g.groups apart).trans here⟩
    obtain ⟨batches,g',rest,more,-,keyed,left⟩ := ih leaves.consistent others still
    refine ⟨group.batches ++ batches,g',?_,leaves.then more,?_,?_,?_⟩
    · simp only [Grouper.removeAll,removed,rest,bind,Except.bind,pure,Except.pure]
    · intro _ none
      exact own.nonempty (append_eq_nil_iff.mp none).1
    · intro r mem
      rw [rowsOfAppend] at mem
      rcases mem_append.mp mem with here | there
      · exact own.keyed r here ▸ mem_cons_self
      · exact mem_cons_of_mem _ (keyed r there)
    · intro e mem
      obtain ⟨inside,other⟩ := left e mem
      obtain ⟨listed,apart⟩ := deleteMem inside
      exact ⟨listed,fun here => (mem_cons.mp here).elim apart other⟩

theorem largestMem {es e} (is : largest es = some e) : e ∈ es := by
  induction es generalizing e with
  | nil => cases is
  | cons head rest ih =>
    rw [largest] at is
    split at is
    · rename_i best found
      split at is <;> cases is
      · exact mem_cons_self
      · exact mem_cons_of_mem _ (ih found)
    · cases is
      exact mem_cons_self

theorem orderedMem {e} : e ∈ g.ordered ↔ e ∈ g.groups.entries := mem_insertionSort _

def OneGroup (rows : List Row) : Prop := ∃ key, ∀ r ∈ rows, r.groupKey = key
def WholeGroups (rows : List Row) (g' : Grouper) : Prop := ∀ r ∈ rows, ∀ left ∈ g'.heldRows, left.groupKey ≠ r.groupKey

structure Takes (g g' : Grouper) (batches : List Batch) : Prop extends Leaves g g' batches where
  nonempty : batches ≠ []
  groups : OneGroup (rowsOf batches) ∨ WholeGroups (rowsOf batches) g'

theorem chunkTakes (c : g.Consistent) (found : g.groups.get? key = some group) :
    ∃ batches g', g.takeChunk key = .ok (batches,g') ∧ Takes g g' batches := by
  have own : group.Consistent key := c.groups _ (Dict.getIff.mp found)
  obtain ⟨k,nonempty,ok⟩ := takeChunkOk c found
  refine ⟨_,_,ok,trimmedLeaves c found k,nonempty,.inl ⟨key,fun r mem => own.keyed r ?_⟩⟩
  rw [← takeDropRows group.batches k]
  exact mem_append_left _ mem

theorem groupTakes (c : g.Consistent) (found : g.groups.get? key = some group) :
    ∃ g', g.remove key = .ok (group,g') ∧ Takes g g' group.batches := by
  have own : group.Consistent key := c.groups _ (Dict.getIff.mp found)
  obtain ⟨ok,leaves⟩ := removeSpec c found
  exact ⟨_,ok,leaves,own.nonempty,.inl ⟨key,own.keyed⟩⟩

theorem packTakes (c : g.Consistent) (some : g.groups.entries ≠ []) :
    ∃ batches g', g.removeAll (pack g.targetRows g.packBytes 0 0 [] g.ordered) = .ok (batches,g') ∧ Takes g g' batches := by
  obtain ⟨k,keys,first⟩ := packPrefix g.targetRows g.packBytes 0 0 [] g.ordered
  rw [keys]
  have order : g.ordered.Perm g.groups.entries := perm_insertionSort _ _
  have distinct : ((g.ordered.take k).map Prod.fst).Nodup :=
    ((order.map Prod.fst).nodup_iff.mpr g.groups.distinct).sublist ((take_sublist _ _).map _)
  have present : ∀ key ∈ (g.ordered.take k).map Prod.fst, key ∈ g.groups.keys := by
    intro key mem
    obtain ⟨e,inside,rfl⟩ := mem_map.mp mem
    exact mem_map_of_mem (orderedMem.mp (mem_of_mem_take inside))
  have chosen : (g.ordered.take k).map Prod.fst ≠ [] := by
    have unordered : g.ordered ≠ [] := fun none => some (nil_perm.mp (none ▸ order))
    have positive := first rfl unordered
    intro none
    rcases take_eq_nil_iff.mp (map_eq_nil_iff.mp none) with zero | empty
    · omega
    · exact unordered empty
  obtain ⟨batches,g',ok,leaves,nonempty,keyed,left⟩ := removeAllSpec c distinct present
  refine ⟨batches,g',ok,leaves,nonempty chosen,.inr (fun r mem held inside same => ?_)⟩
  obtain ⟨e,entry,here⟩ := mem_flatMap.mp inside
  have key := (leaves.consistent.groups e entry).keyed held here
  exact (left e entry).2 (key ▸ same ▸ keyed r mem)

theorem pressedFound {finish} (is : g.pressed finish = some key) : ∃ group, g.groups.get? key = some group := by
  unfold Grouper.pressed at is
  split at is
  · cases is
  · obtain ⟨e,kept,rfl⟩ := Option.map_eq_some_iff.mp is
    exact ⟨e.2,Dict.getIff.mpr (orderedMem.mp (largestMem (Option.filter_eq_some_iff.mp kept).1))⟩

theorem takeSpec (c : g.Consistent) (finish : Bool) :
    (∃ batches g', g.take finish = .ok (some batches,g') ∧ Takes g g' batches) ∨
      (g.take finish = .ok (none,g) ∧ (finish = true → g.groups.entries = [])) := by
  unfold Grouper.take
  split
  · rename_i key group full
    obtain ⟨batches,g',ok,takes⟩ := chunkTakes c (Dict.getIff.mpr (orderedMem.mp (mem_of_find?_eq_some full)))
    exact .inl ⟨batches,g',by simp only [ok,bind,Except.bind,pure,Except.pure],takes⟩
  split
  · rename_i idle
    refine .inr ⟨rfl,fun last => ?_⟩
    subst last
    simpa using idle
  rename_i due
  split
  · rename_i key pressed
    obtain ⟨group,found⟩ := pressedFound pressed
    obtain ⟨g',ok,takes⟩ := groupTakes c found
    exact .inl ⟨group.batches,g',by simp only [ok,bind,Except.bind,pure,Except.pure],takes⟩
  · obtain ⟨batches,g',ok,takes⟩ := packTakes c (fun none => due (.inl none))
    exact .inl ⟨batches,g',by simp only [ok,bind,Except.bind,pure,Except.pure],takes⟩

end Taking

/- `Segment.log_minute/1`: the bucket of the lines with `(m - 1) * 60s < ts <= m * 60s`. -/
def logMinute (ts : Int) : Int := (ts - 1) / minuteNs + 1

def Row.minute (r : Row) : Option Int := r.timestamp.map logMinute

theorem minuteOk {ts} (ranged : i64Min ≤ ts ∧ ts ≤ i64Max) : minute ts = logMinute ts := by
  have inside : i64Min ≤ (ts - 1) / minuteNs + 1 ∧ (ts - 1) / minuteNs + 1 ≤ i64Max := by
    simp only [i64Min,i64Max,minuteNs] at ranged ⊢
    omega
  exact if_pos inside

structure Tallies (rows : List Row) (t : Tally) : Prop where
  count : t.rows = rows.length
  low : ∀ r ∈ rows, t.minTs ≤ r.bound
  high : ∀ r ∈ rows, r.bound ≤ t.maxTs
  lowest : (rows = [] ∧ t.minTs = i64Max) ∨ ∃ r ∈ rows, r.bound = t.minTs
  highest : (rows = [] ∧ t.maxTs = i64Min) ∨ ∃ r ∈ rows, r.bound = t.maxTs
  services : ∀ names, t.services = some names → names.Nodup ∧ (∀ name, name ∈ names ↔ ∃ r ∈ rows, r.service = some name) ∧
    ∀ r ∈ rows, ∃ name, r.service = some name ∧ name ≠ []
  streams : ∀ keys, t.streams = some keys → keys.Nodup ∧ ∀ key, key ∈ keys ↔ ∃ r ∈ rows, r.stream = key
  minutes : ∀ counts, t.minutes = some counts → (∀ r ∈ rows, r.timestamp ≠ none) ∧
    (∀ m, (counts.get? m).getD 0 = rows.countP (fun r => r.minute = some m)) ∧ ∀ m n, counts.get? m = some n → 0 < n

theorem startTallies : Tallies [] Tally.start where
  count := rfl
  low := by simp
  high := by simp
  lowest := .inl ⟨rfl,rfl⟩
  highest := .inl ⟨rfl,rfl⟩
  services names is := by cases is; simp
  streams keys is := by cases is; simp
  minutes counts is := by cases is; simp [Dict.get?,Dict.empty]

theorem insertNewMem {α : Type} [DecidableEq α] (le : α → α → Bool) (x y : α) (xs : List α) :
    y ∈ insertNew le x xs ↔ y = x ∨ y ∈ xs := by
  unfold insertNew
  split
  · rename_i here
    exact ⟨.inr,fun h => h.elim (fun same => same ▸ here) id⟩
  · rw [mem_orderedInsert]

theorem insertNewNodup {α : Type} [DecidableEq α] (le : α → α → Bool) (x : α) {xs} (h : xs.Nodup) :
    (insertNew le x xs).Nodup := by
  unfold insertNew
  split
  · exact h
  · rename_i fresh
    exact (perm_orderedInsert _ x xs).nodup_iff.mpr (nodup_cons.mpr ⟨fresh,h⟩)

theorem collectOk {α : Type} [DecidableEq α] {le limit x set} {ys : List α} (ok : collect le limit x set = some ys) :
    ∃ xs, set = some xs ∧ (xs.Nodup → ys.Nodup) ∧ ∀ y, y ∈ ys ↔ y = x ∨ y ∈ xs := by
  obtain ⟨xs,known,kept⟩ := Option.bind_eq_some_iff.mp ok
  simp only at kept
  split at kept
  · cases kept
    exact ⟨xs,known,insertNewNodup le x,fun y => insertNewMem le x y xs⟩
  · cases kept

theorem collectServiceOk {service set} {ys : List Bytes} (ok : collectService service set = some ys) :
    ∃ name xs, service = some name ∧ name ≠ [] ∧ set = some xs ∧ (xs.Nodup → ys.Nodup) ∧ ∀ y, y ∈ ys ↔ y = name ∨ y ∈ xs := by
  unfold collectService at ok
  split at ok
  · rename_i name
    split at ok
    · rename_i valid
      obtain ⟨xs,known,nodup,members⟩ := collectOk ok
      exact ⟨name,xs,rfl,valid.1,known,nodup,members⟩
    · cases ok
  · cases ok

variable {counts : Dict Int Nat}

theorem countMinuteOk {timestamp set} (ok : countMinute timestamp set = some counts) :
    ∃ t before, timestamp = some t ∧ set = some before ∧
      counts = before.put (minute t) ((before.get? (minute t)).getD 0 + 1) := by
  unfold countMinute at ok
  split at ok
  · rename_i t before
    simp only at ok
    split at ok
    · cases ok
      exact ⟨t,before,rfl,rfl,rfl⟩
    · cases ok
  · cases ok

theorem existsSnoc {α : Type} {p : α → Prop} {xs x} : (∃ y ∈ xs ++ [x], p y) ↔ p x ∨ ∃ y ∈ xs, p y := by
  constructor
  · rintro ⟨y,mem,holds⟩
    rcases mem_append.mp mem with before | last
    · exact .inr ⟨y,before,holds⟩
    · exact .inl (mem_singleton.mp last ▸ holds)
  · rintro (last | ⟨y,mem,holds⟩)
    · exact ⟨x,by simp,last⟩
    · exact ⟨y,by simp [mem],holds⟩

variable {t : Tally}

theorem addMinutes {rows r} (h : Tallies rows t) (known : countMinute r.timestamp t.minutes = some counts) :
    (∀ x ∈ rows ++ [r], x.timestamp ≠ none) ∧
    (∀ m, (counts.get? m).getD 0 = (rows ++ [r]).countP (fun x => x.minute = some m)) ∧ ∀ m n, counts.get? m = some n → 0 < n := by
  obtain ⟨ts,before,dated,was,rfl⟩ := countMinuteOk known
  obtain ⟨all,sums,positive⟩ := h.minutes before was
  have here : r.minute = some (minute ts) := by rw [Row.minute,dated,minuteOk (r.ranged ts dated)]; rfl
  refine ⟨?_,fun m => ?_,fun m n is => ?_⟩
  · intro x mem
    rcases mem_append.mp mem with earlier | last
    · exact all x earlier
    · rw [mem_singleton.mp last,dated]
      simp
  · rw [countP_append,countP_singleton,here]
    by_cases same : m = minute ts
    · subst same
      rw [Dict.getPutSame,← sums]
      simp
    · rw [Dict.getPutOther _ _ same,sums]
      simp [Ne.symm same]
  · by_cases same : m = minute ts
    · subst same
      rw [Dict.getPutSame] at is
      cases is
      omega
    · rw [Dict.getPutOther _ _ same] at is
      exact positive m n is

theorem addTallies {rows : List Row} {r : Row} (h : Tallies rows t) : Tallies (rows ++ [r]) (t.add r) := by
  have ranged : i64Min ≤ r.bound ∧ r.bound ≤ i64Max := by
    unfold Row.bound
    cases is : r.timestamp with
    | none => simp [i64Min,i64Max]
    | some ts => exact r.ranged ts is
  have lowStep : ∀ x ∈ rows ++ [r], (t.add r).minTs ≤ x.bound := by
    intro x mem
    rcases mem_append.mp mem with earlier | last
    · exact (min_le_left _ _).trans (h.low x earlier)
    · rw [mem_singleton.mp last]
      exact min_le_right _ _
  have highStep : ∀ x ∈ rows ++ [r], x.bound ≤ (t.add r).maxTs := by
    intro x mem
    rcases mem_append.mp mem with earlier | last
    · exact (h.high x earlier).trans (le_max_left _ _)
    · rw [mem_singleton.mp last]
      exact le_max_right _ _
  refine ⟨by simp [Tally.add,h.count],lowStep,highStep,.inr (existsSnoc.mpr ?_),.inr (existsSnoc.mpr ?_),?_,?_,?_⟩
  · rcases min_choice t.minTs r.bound with old | new
    · rcases h.lowest with ⟨-,top⟩ | found
      · exact .inl (le_antisymm ((ranged.2.trans top.ge).trans_eq old.symm) (min_le_right _ _))
      · exact .inr (by simpa only [Tally.add,old] using found)
    · exact .inl new.symm
  · rcases max_choice t.maxTs r.bound with old | new
    · rcases h.highest with ⟨-,bottom⟩ | found
      · exact .inl (le_antisymm (le_max_right _ _) (old.trans_le (bottom.le.trans ranged.1)))
      · exact .inr (by simpa only [Tally.add,old] using found)
    · exact .inl new.symm
  · intro names known
    obtain ⟨name,xs,is,proper,was,nodup,members⟩ := collectServiceOk known
    obtain ⟨distinct,exact,every⟩ := h.services xs was
    refine ⟨nodup distinct,fun y => ?_,fun x mem => ?_⟩
    · rw [members,existsSnoc,is,exact]
      simp [eq_comm]
    rcases mem_append.mp mem with earlier | last
    · exact every x earlier
    · exact ⟨name,mem_singleton.mp last ▸ is,proper⟩
  · intro keys known
    obtain ⟨xs,was,nodup,members⟩ := collectOk known
    obtain ⟨distinct,exact⟩ := h.streams xs was
    refine ⟨nodup distinct,fun y => ?_⟩
    rw [members,existsSnoc,exact]
    simp [eq_comm]
  · exact fun counts known => addMinutes h known

theorem foldTallies {seen} (h : Tallies seen t) (rows : List Row) :
    Tallies (seen ++ rows) (rows.foldl Tally.add t) := by
  induction rows generalizing seen t with
  | nil => simpa using h
  | cons r rows ih => simpa using ih (addTallies (r := r) h)

structure Exact (o : Output) : Prop where
  count : o.rows = o.payload.length
  bounds : ∀ r ∈ o.payload, o.minTs ≤ r.bound ∧ r.bound ≤ o.maxTs
  reached : (∃ r ∈ o.payload, r.bound = o.minTs) ∧ ∃ r ∈ o.payload, r.bound = o.maxTs
  services : ∀ names, o.services = some names → names.Nodup ∧
    (∀ name, name ∈ names ↔ ∃ r ∈ o.payload, r.service = some name) ∧ ∀ r ∈ o.payload, ∃ name, r.service = some name ∧ name ≠ []
  streams : ∀ keys, o.streams = some keys → keys.Nodup ∧ ∀ key, key ∈ keys ↔ ∃ r ∈ o.payload, r.stream = key
  minutes : ∀ counts, o.minutes = some counts → (∀ r ∈ o.payload, r.timestamp ≠ none) ∧ (counts.map Prod.fst).Nodup ∧
    ∀ m n, (m,n) ∈ counts ↔ 0 < n ∧ n = o.payload.countP (fun r => r.minute = some m)

theorem Tallies.perm {rows rows'} (h : Tallies rows t) (p : rows.Perm rows') : Tallies rows' t := by
  have members : ∀ {q : Row → Prop}, (∃ r ∈ rows', q r) ↔ ∃ r ∈ rows, q r := by
    intro q
    simp only [p.mem_iff]
  have empty : rows' = [] ↔ rows = [] := ⟨fun none => perm_nil.mp (none ▸ p),fun none => nil_perm.mp (none ▸ p)⟩
  refine ⟨h.count.trans p.length_eq,fun r mem => h.low r (p.mem_iff.mpr mem),fun r mem => h.high r (p.mem_iff.mpr mem),?_,?_,
    fun names known => ?_,fun keys known => ?_,fun counts known => ?_⟩
  · rw [empty,members]; exact h.lowest
  · rw [empty,members]; exact h.highest
  · obtain ⟨nodup,exact,every⟩ := h.services names known
    exact ⟨nodup,fun name => by rw [members,exact],fun r mem => every r (p.mem_iff.mpr mem)⟩
  · obtain ⟨nodup,exact⟩ := h.streams keys known
    exact ⟨nodup,fun key => by rw [members,exact]⟩
  · obtain ⟨dated,sums,positive⟩ := h.minutes counts known
    exact ⟨fun r mem => dated r (p.mem_iff.mpr mem),fun m => by rw [← p.countP_eq,sums],positive⟩

theorem countsMem {rows : List Row}
    (sums : ∀ m, (counts.get? m).getD 0 = rows.countP (fun r => r.minute = some m)) (positive : ∀ m n, counts.get? m = some n → 0 < n)
    (m : Int) (n : Nat) : (m,n) ∈ counts.entries ↔ 0 < n ∧ n = rows.countP (fun r => r.minute = some m) := by
  rw [← Dict.getIff,← sums]
  constructor
  · intro is
    exact ⟨positive m n is,by rw [is]; rfl⟩
  rintro ⟨some,is⟩
  cases found : counts.get? m with
  | none => simp [found] at is; omega
  | some n' => simp [found] at is; rw [is]

theorem encodeOk {arrow batches o} (rows : rowsOf batches ≠ [])
    (ok : encode arrow batches = .ok o) : o.payload.Perm (rowsOf batches) ∧ Exact o := by
  unfold encode at ok
  split at ok
  · cases ok
    have sorted := arrow.sorts (rowsOf batches)
    have all := foldTallies startTallies (rowsOf batches)
    have tally := all.perm sorted.symm
    have positive : ((rowsOf batches).foldl Tally.add Tally.start).rows ≠ 0 := by
      rw [tally.count,sorted.length_eq]
      exact fun zero => rows (length_eq_zero_iff.mp zero)
    have nonempty : arrow.sort (rowsOf batches) ≠ [] := fun none => rows (nil_perm.mp (none ▸ sorted))
    refine ⟨sorted,tally.count,?_,?_,tally.services,tally.streams,?_⟩
    · simp only [if_neg positive]
      exact fun r mem => ⟨tally.low r mem,tally.high r mem⟩
    · simp only [if_neg positive]
      exact ⟨tally.lowest.resolve_left (fun none => nonempty none.1),tally.highest.resolve_left (fun none => nonempty none.1)⟩
    intro counts known
    obtain ⟨found,is,rfl⟩ := Option.map_eq_some_iff.mp known
    obtain ⟨dated,sums,some⟩ := tally.minutes found is
    have order : (found.entries.insertionSort (fun a b => a.1 ≤ b.1)).Perm found.entries := perm_insertionSort _ _
    exact ⟨dated,(order.map _).nodup_iff.mpr found.distinct,fun m n => order.mem_iff.trans (countsMem sums some m n)⟩
  · cases ok

section Runs
variable (arrow : Arrow)

structure Emits (g g' : Grouper) (o : Output) : Prop where
  exact : Exact o
  consistent : g'.Consistent
  rows : g.heldRows.Perm (o.payload ++ g'.heldRows)
  fewer : g'.heldBatches < g.heldBatches
  groups : OneGroup o.payload ∨ WholeGroups o.payload g'

variable {g : Grouper}

theorem nextSpec (c : g.Consistent) (finish : Bool) : (∃ o g', g.next arrow finish = .ok (some o,g') ∧ Emits g g' o) ∨
      (g.next arrow finish = .ok (none,g) ∧ (finish = true → g.groups.entries = [])) ∨
      (g.next arrow finish = .error .invalid ∧ ∃ batches, arrow.writes batches = false) := by
  rcases takeSpec c finish with ⟨batches,g',ok,takes⟩ | ⟨ok,done⟩
  · obtain ⟨b,mem⟩ := exists_mem_of_ne_nil _ takes.nonempty
    obtain ⟨r,inside⟩ := exists_mem_of_ne_nil _ (takes.filled b mem)
    have rows : rowsOf batches ≠ [] := ne_nil_of_mem (mem_flatMap.mpr ⟨b,mem,inside⟩)
    cases encoded : encode arrow batches with
    | error e =>
      have refused : e = .invalid ∧ arrow.writes batches = false := by
        unfold encode at encoded
        split at encoded
        · cases encoded
        rename_i fails
        cases encoded
        exact ⟨rfl,by simpa using fails⟩
      refine .inr (.inr ⟨?_,batches,refused.2⟩)
      simp only [Grouper.next,ok,encoded,bind,Except.bind,refused.1]
    | ok o =>
      obtain ⟨same,exact⟩ := encodeOk rows encoded
      have fewer : g'.heldBatches < g.heldBatches := by
        have some := length_pos_iff.mpr takes.nonempty
        have count := takes.count
        omega
      refine .inl ⟨o,g',by simp only [Grouper.next,ok,encoded,bind,Except.bind,pure,Except.pure],exact,takes.consistent,
        takes.rows.trans (same.symm.append_right _),fewer,?_⟩
      rcases takes.groups with ⟨key,all⟩ | whole
      · exact .inl ⟨key,fun r mem => all r (same.mem_iff.mp mem)⟩
      · exact .inr (fun r mem => whole r (same.mem_iff.mp mem))
  · exact .inr (.inl ⟨by simp only [Grouper.next,ok,bind,Except.bind,pure,Except.pure],done⟩)

def Call.rows : Call → List Row
  | .add source => sourceRows source
  | .next _ => []

def Reply.outputs : Reply → List Output
  | .output o => [o]
  | _ => []

def payloads (outputs : List Output) : List Row := outputs.flatMap Output.payload

theorem payloadsAppend (a b : List Output) : payloads (a ++ b) = payloads a ++ payloads b := flatMap_append

structure Keeps (g : Grouper) (added : List Row) (h : Handle) (outputs : List Output) : Prop where
  exact : ∀ o ∈ outputs, Exact o
  held : ∀ g', h = some g' → g'.Consistent ∧ (payloads outputs ++ g'.heldRows).Perm (g.heldRows ++ added)

theorem callKeeps (c : g.Consistent) (x : Call) :
    Keeps g x.rows (call arrow (some g) x).1 (call arrow (some g) x).2.outputs ∧ (call arrow (some g) x).2 ≠ .underflow := by
  cases x with
  | add source =>
    cases added : g.add arrow source with
    | error e =>
      rw [call,added,addNoUnderflow added]
      exact ⟨⟨by simp [failed,Reply.outputs],nofun⟩,by simp [failed]⟩
    | ok result =>
      obtain ⟨next,all,-⟩ := addSpec c added
      rw [call,added]
      refine ⟨⟨by simp [Reply.outputs],fun g'' is => ?_⟩,by simp⟩
      cases is
      exact ⟨next,by simpa [payloads,Reply.outputs,Call.rows] using all⟩
  | next finish =>
    rcases nextSpec arrow c finish with ⟨o,g',ok,emits⟩ | ⟨ok,-⟩ | ⟨ok,-⟩
    · rw [call,ok]
      refine ⟨⟨by simpa [Reply.outputs] using emits.exact,fun g'' is => ?_⟩,by simp⟩
      cases is
      exact ⟨emits.consistent,by simpa [payloads,Reply.outputs,Call.rows] using emits.rows.symm⟩
    · rw [call,ok]
      simp only
      split
      · exact ⟨⟨by simp [Reply.outputs],nofun⟩,by simp⟩
      refine ⟨⟨by simp [Reply.outputs],fun g' is => ?_⟩,by simp⟩
      cases is
      exact ⟨c,by simp [payloads,Reply.outputs,Call.rows]⟩
    · rw [call,ok]
      exact ⟨⟨by simp [failed,Reply.outputs],nofun⟩,by simp [failed]⟩

theorem runClosed (calls : List Call) : (run arrow none calls).1 = none ∧ ∀ reply ∈ (run arrow none calls).2, reply = .fallback := by
  induction calls with
  | nil => exact ⟨rfl,by simp [run]⟩
  | cons x calls ih => exact ⟨ih.1,forall_mem_cons.mpr ⟨rfl,ih.2⟩⟩

theorem Keeps.then {g g' h first second before after}
    (one : Keeps g first (some g') before) (two : Keeps g' second h after) : Keeps g (first ++ second) h (before ++ after) := by
  refine ⟨fun o mem => (mem_append.mp mem).elim (one.exact o) (two.exact o),fun g'' is => ?_⟩
  obtain ⟨-,rows⟩ := one.held g' rfl
  obtain ⟨consistent,more⟩ := two.held g'' is
  refine ⟨consistent,?_⟩
  rw [payloadsAppend,append_assoc]
  refine (more.append_left _).trans ?_
  rw [← append_assoc,← append_assoc]
  exact rows.append_right _

theorem runKeeps (c : g.Consistent) (calls : List Call) :
    Keeps g (calls.flatMap Call.rows) (run arrow (some g) calls).1 ((run arrow (some g) calls).2.flatMap Reply.outputs) ∧
      Reply.underflow ∉ (run arrow (some g) calls).2 := by
  induction calls generalizing g with
  | nil =>
    refine ⟨⟨by simp [run],fun g' is => ?_⟩,by simp [run]⟩
    cases is
    exact ⟨c,by simp [payloads,run]⟩
  | cons x calls ih =>
    obtain ⟨keeps,safe⟩ := callKeeps arrow c x
    simp only [run,flatMap_cons]
    cases next : (call arrow (some g) x).1 with
    | none =>
      obtain ⟨closed,replies⟩ := runClosed arrow calls
      have silent : (run arrow none calls).2.flatMap Reply.outputs = [] :=
        flatMap_eq_nil_iff.mpr (fun reply mem => by rw [replies reply mem]; rfl)
      rw [silent,append_nil]
      refine ⟨⟨keeps.exact,fun g' is => ?_⟩,fun mem => ?_⟩
      · rw [closed] at is
        cases is
      rcases mem_cons.mp mem with here | later
      · exact safe here.symm
      · cases replies _ later
    | some g' =>
      rw [next] at keeps
      obtain ⟨rest,restSafe⟩ := ih (keeps.held g' rfl).1
      exact ⟨keeps.then rest,fun mem => (mem_cons.mp mem).elim (fun here => safe here.symm) restSafe⟩

theorem drainKeeps (c : g.Consistent) (finish : Bool) {fuel} (enough : g.heldBatches < fuel) :
    ∃ h outputs last, drain arrow finish fuel (some g) = some (h,outputs,last) ∧ Keeps g [] h outputs ∧ last ≠ .underflow ∧
      (last = .done → (payloads outputs).Perm g.heldRows) ∧ (last = .none → ∃ g', h = some g') ∧
      (finish = true → (∀ batches, arrow.writes batches = true) → last = .done) := by
  induction fuel generalizing g with
  | zero => exact absurd enough (Nat.not_lt_zero _)
  | succ fuel ih =>
    obtain ⟨keeps,safe⟩ := callKeeps arrow c (.next finish)
    rcases nextSpec arrow c finish with ⟨o,g',ok,emits⟩ | ⟨ok,empty⟩ | ⟨ok,batches,refused⟩
    · have reply : call arrow (some g) (.next finish) = (some g',.output o) := by rw [call,ok]
      rw [reply] at keeps
      obtain ⟨h,outputs,last,rest,more,restSafe,all,opened,finishes⟩ := ih emits.consistent (by have := emits.fewer; omega)
      refine ⟨h,o::outputs,last,?_,keeps.then more,restSafe,fun done => ?_,opened,finishes⟩
      · simp only [drain,reply,rest]
        rfl
      · refine List.Perm.trans ?_ emits.rows.symm
        exact (all done).append_left _
    · have reply : call arrow (some g) (.next finish) = if finish then (none,.done) else (some g,.none) := by rw [call,ok]
      cases finish with
      | true =>
        have nothing : g.heldRows = [] := by simp [Grouper.heldRows,entryRows,empty rfl]
        exact ⟨none,[],.done,by simp only [drain,reply]; rfl,⟨by simp,nofun⟩,by simp,
          fun _ => by simp [payloads,nothing],nofun,fun _ _ => rfl⟩
      | false =>
        refine ⟨some g,[],.none,by simp only [drain,reply]; rfl,⟨by simp,fun g' is => ?_⟩,by simp,nofun,
          fun _ => ⟨g,rfl⟩,nofun⟩
        cases is
        exact ⟨c,by simp [payloads]⟩
    · have reply : call arrow (some g) (.next finish) = (none,.fallback) := by rw [call,ok]; rfl
      exact ⟨none,[],.fallback,by simp only [drain,reply],⟨by simp,nofun⟩,by simp,nofun,nofun,
        fun _ writes => absurd (writes batches) (by simp [refused])⟩

variable {put : Output → Bool} {outputs : List Output}

theorem drainAllKeeps (c : g.Consistent) {finish expected h}
    (ok : drainAll arrow put finish (some g) expected = some (h,outputs)) :
    Keeps g [] h outputs ∧ (expected = .done → (payloads outputs).Perm g.heldRows) ∧ (expected = .none → ∃ g', h = some g') := by
  obtain ⟨h',outputs',last,drained,keeps,-,all,opened,-⟩ := drainKeeps arrow c finish (Nat.lt_succ_self _)
  have fuel : Handle.batches (some g) = g.heldBatches := rfl
  simp only [drainAll,fuel,drained,bind,Option.bind] at ok
  split at ok
  · rename_i good
    cases ok
    exact ⟨keeps,fun done => all (good.2.trans done),fun none => opened (good.2.trans none)⟩
  · cases ok

def Source.rows (s : Source) : List Row := sourceRows (s.fetched.getD [])

theorem addSourcesKeeps (c : g.Consistent) {sources : List Source} {h}
    (ok : addSources arrow put (some g) sources = some (h,outputs)) :
    ∃ g', h = some g' ∧ Keeps g (sources.flatMap Source.rows) h outputs := by
  induction sources generalizing g outputs with
  | nil =>
    cases ok
    refine ⟨g,rfl,by simp,fun g' is => ?_⟩
    cases is
    exact ⟨c,by simp [payloads]⟩
  | cons s sources ih =>
    obtain ⟨blob,fetched,ok⟩ := Option.bind_eq_some_iff.mp ok
    obtain ⟨keeps,-⟩ := callKeeps arrow c (.add blob)
    have own : s.rows = sourceRows blob := by rw [Source.rows,fetched]; rfl
    cases added : g.add arrow blob with
    | error e => simp [call,added,addNoUnderflow added,failed] at ok
    | ok result =>
      obtain ⟨rows,g'⟩ := result
      simp only [call,added] at ok keeps
      split at ok
      · obtain ⟨⟨drained,during⟩,first,ok⟩ := Option.bind_eq_some_iff.mp ok
        obtain ⟨⟨last,more⟩,rest,same⟩ := Option.bind_eq_some_iff.mp ok
        cases same
        obtain ⟨held,-,opened⟩ := drainAllKeeps arrow (keeps.held g' rfl).1 first
        obtain ⟨g'',rfl⟩ := opened rfl
        obtain ⟨final,is,tail⟩ := ih (held.held g'' rfl).1 rest
        refine ⟨final,is,?_⟩
        rw [flatMap_cons,own]
        simpa [Call.rows,Reply.outputs] using (keeps.then held).then tail
      · cases ok

/- An hour's outputs, from all its drains, hold exactly the rows of its sources. -/
theorem buildKeeps (c : g.Consistent) {sources} (ok : build arrow put g sources = some outputs) :
    (payloads outputs).Perm (g.heldRows ++ sources.flatMap Source.rows) ∧ ∀ o ∈ outputs, Exact o := by
  obtain ⟨⟨h,before⟩,added,ok⟩ := Option.bind_eq_some_iff.mp ok
  obtain ⟨⟨rest,after⟩,drained,same⟩ := Option.bind_eq_some_iff.mp ok
  cases same
  obtain ⟨g',rfl,keeps⟩ := addSourcesKeeps arrow c added
  obtain ⟨consistent,rows⟩ := keeps.held g' rfl
  obtain ⟨last,all,-⟩ := drainAllKeeps arrow consistent drained
  refine ⟨?_,fun o mem => (mem_append.mp mem).elim (keeps.exact o) (last.exact o)⟩
  rw [payloadsAppend]
  exact ((all rfl).append_left _).trans rows

end Runs

/- No row is lost or doubled in any sequence of calls that ends by draining. -/
theorem regroupingKeepsRows (arrow : Arrow) (targetRows targetBytes packBytes maxHeld : Nat) (calls : List Call) (h : Handle)
    (replies : List Reply) (ran : run arrow (some (Grouper.new targetRows targetBytes packBytes maxHeld)) calls = (h,replies)) :
    (∀ g, h = some g → g.Consistent ∧ ∀ finish o g', g.next arrow finish = .ok (some o,g') →
      OneGroup o.payload ∨ WholeGroups o.payload g') ∧
    Reply.underflow ∉ replies ∧ (∀ o ∈ replies.flatMap Reply.outputs, Exact o) ∧
    ∃ rest outputs last, drain arrow true (h.batches + 1) h = some (rest,outputs,last) ∧ last ≠ .underflow ∧
      (∀ o ∈ outputs, Exact o) ∧
      (last = .done → (payloads (replies.flatMap Reply.outputs ++ outputs)).Perm (calls.flatMap Call.rows)) ∧
      (h ≠ none → (∀ batches, arrow.writes batches = true) → last = .done) := by
  obtain ⟨keeps,safe⟩ := runKeeps arrow (newConsistent targetRows targetBytes packBytes maxHeld) calls
  rw [ran] at keeps safe
  refine ⟨fun g is => ⟨(keeps.held g is).1,fun finish o g' next => ?_⟩,safe,keeps.exact,?_⟩
  · rcases nextSpec arrow (keeps.held g is).1 finish with ⟨o',g'',ok,emits⟩ | ⟨ok,-⟩ | ⟨ok,-⟩
    · cases ok.symm.trans next
      exact emits.groups
    · cases ok.symm.trans next
    · cases ok.symm.trans next
  · cases h with
    | none => exact ⟨none,[],.fallback,rfl,by simp,by simp,nofun,fun opened => absurd rfl opened⟩
    | some g =>
      obtain ⟨consistent,rows⟩ := keeps.held g rfl
      obtain ⟨rest,outputs,last,drained,held,lastSafe,all,-,finishes⟩ := drainKeeps arrow consistent true (Nat.lt_succ_self _)
      refine ⟨rest,outputs,last,drained,lastSafe,held.exact,fun done => ?_,fun _ => finishes rfl⟩
      rw [payloadsAppend]
      exact ((all done).append_left _).trans rows

namespace Sample

def arrow : Arrow := ⟨List.length,id,fun _ => .refl _,fun _ => true⟩

def line (service : Option Bytes) (ts : Nat) (small : ts ≤ 100) : Row :=
  ⟨service,ascii "r",some ts,0,fun t is => by cases is; simp only [i64Min,i64Max]; omega⟩

def api : Option Bytes := some (ascii "api")
def web : Option Bytes := some (ascii "web")

-- two segments of one hour: three lines of one service fill a target, a line without one is packed
def calls : List Call :=
  [.add [some ⟨[line api 1 (by decide),line none 2 (by decide),line api 3 (by decide)],9⟩],.next false,
    .add [some ⟨[line api 4 (by decide),line web 5 (by decide)],7⟩],.next false]

def ran : Handle × List Reply := run arrow (some (Grouper.new 3 100 50 1000)) calls
def sources : List Source := [⟨some 2,some [some ⟨[line api 1 (by decide),line web 2 (by decide)],9⟩]⟩]

end Sample

theorem regroupingKeepsRowsHour :
    ∃ rest outputs, drain Sample.arrow true (Handle.batches Sample.ran.1 + 1) Sample.ran.1 = some (rest,outputs,.done) ∧
      (payloads (Sample.ran.2.flatMap Reply.outputs ++ outputs)).Perm (Sample.calls.flatMap Call.rows) := by
  obtain ⟨-,-,-,rest,outputs,last,drained,-,-,rows,finishes⟩ :=
    regroupingKeepsRows Sample.arrow 3 100 50 1000 Sample.calls Sample.ran.1 Sample.ran.2 rfl
  have done : last = .done := finishes (by decide +kernel) (fun _ => rfl)
  exact ⟨rest,outputs,done ▸ drained,rows done⟩

theorem buildKeepsHour : ∃ outputs, build Sample.arrow (fun _ => true) (Grouper.new 3 100 50 1000) Sample.sources = some outputs ∧
    (payloads outputs).Perm (Sample.sources.flatMap Source.rows) := by
  have built : (build Sample.arrow (fun _ => true) (Grouper.new 3 100 50 1000) Sample.sources).isSome = true := by decide +kernel
  obtain ⟨outputs,ok⟩ := Option.isSome_iff_exists.mp built
  exact ⟨outputs,ok,(buildKeeps Sample.arrow (newConsistent 3 100 50 1000) ok).1⟩

end Pulso.LogTiers
