import Pulso.MetricAccumulate
import Pulso.MetricPlan

/-! Finalizing an hour in passes, one per range of metric-name hashes. Every row of the
sources comes out of exactly one pass, once, on its own side of the hour. -/
namespace Pulso.MetricTiers
open Pulso.Metric Pulso.Lists List

/- A segment of the hour as the manifest lists it: its names are complete or unknown. -/
structure Source where
  batches : List Batch
  rowCount : Option Nat
  names : Option (List Bytes)
  summarized : names = none ∨ names = metricNames ((batches.flatMap Batch.rows).map Row.labels)

def Source.rows (s : Source) : List Row := s.batches.flatMap Batch.rows

structure Options where
  targetRows : Nat
  maxRows : Nat

def hourNs : Int := 3600000000000

inductive Failure
  | tooLarge | invalidSegment | encodeFailed | badArgument | unreadable | notStored
  deriving DecidableEq, Repr

def TierError.failure : TierError → Failure
  | .invalid => .invalidSegment
  | .tooLarge => .tooLarge
  | .encode => .encodeFailed

/- What each pass meets: its sources arrive in any order, reads, encodings and uploads may fail. -/
structure Surroundings where
  arrivals : Nat → Nat → List Source → List Source
  anyOrder : ∀ count index sources, (arrivals count index sources).Perm sources
  readable : Nat → Nat → Source → Bool
  encodes : Nat → Nat → Nat → Bool
  stores : Nat → Nat → Nat → Bool

def partitions (samples : List Source) (opts : Options) : Nat :=
  let rows := (samples.map (fun s => s.rowCount.getD 0)).sum
  let budget := max (opts.maxRows * 3 / 4) 1
  max ((rows + budget - 1) / budget) 1

-- one pass over everything when the hour fits
def passOf (index count : Nat) : Option (Nat × Nat) := if count > 1 then some (index,count) else none

def partitionSource (partition : Option (Nat × Nat)) (source : Source) : Bool :=
  match partition,source.names with
  | none,_ => true
  | some _,none => true
  | some (index,count),some names => names.any (fun name => namePartition name count = index)

def metricFinalizeNew (start finish : Int) (maxRows : Nat) (partition : Option (Nat × Nat)) : Except Failure Builder :=
  if ¬(-2 ^ 63 ≤ start ∧ finish < 2 ^ 63) then .error .badArgument
  else match partition with
    | none => if start ≥ finish ∨ maxRows = 0 then .error .encodeFailed else .ok (.new start finish maxRows none)
    | some (index,count) =>
      if count < 2 ^ 32 ∧ 0 < count ∧ index < count then
        if start ≥ finish ∨ maxRows = 0 then .error .encodeFailed
        else .ok (.new start finish maxRows (some (UInt32.ofNat index,UInt32.ofNat count)))
      else .error .encodeFailed

variable (env : Surroundings) (count index : Nat)

def addSource (b : Builder) (source : Source) : Except Failure Builder :=
  if env.readable count index source then (b.add source.batches).mapError TierError.failure else .error .unreadable

def uploadNext (b : Builder) : List (Kind × Nat × Nat) → List Output → Except Failure (List Output)
  | [],acc => .ok acc.reverse
  | (kind,range)::pending,acc => do
    let output ← (b.encodeRange kind range).mapError TierError.failure
    if env.encodes count index acc.length then
      if env.stores count index acc.length then uploadNext b pending (output::acc) else .error .notStored
    else .error .encodeFailed

def build (start : Int) (sources : List Source) (partition : Option (Nat × Nat)) (opts : Options) :
    Except Failure (List Output) := do
  let b ← metricFinalizeNew start (start + hourNs) opts.maxRows partition
  let b ← (env.arrivals count index sources).foldlM (addSource env count index) b
  uploadNext env count index b (b.prepare opts.targetRows 128) []

def pass (start : Int) (samples : List Source) (opts : Options) (uploaded : List Output) (index : Nat) :
    Except Failure (List Output) := do
  let sources := samples.filter (partitionSource (passOf index count))
  let outputs ← build env count index start sources (passOf index count) opts
  .ok (outputs ++ uploaded)

def passes (start : Int) (samples : List Source) (count : Nat) (opts : Options) : Except Failure (List Output) :=
  (List.range count).foldlM (pass env count start samples opts) []

/- A pass over `maxRows` restarts the hour with twice the partitions, up to 256. -/
def buildPartitions (start : Int) (samples : List Source) (count : Nat) (opts : Options) :
    Except Failure (Nat × List Output) :=
  match _result : passes env start samples count opts with
  | .ok outputs => .ok (count,outputs)
  | .error failure =>
    if failure = .tooLarge ∧ count < 256 then buildPartitions start samples (count * 2) opts else .error failure
termination_by 256 - count
decreasing_by
  rcases Nat.eq_zero_or_pos count with none | some
  · subst none
    simp [passes,pure,Except.pure] at _result
  · omega

def nativePartition : Option (Nat × Nat) → Option (UInt32 × UInt32)
  | none => none
  | some (index,count) => some (UInt32.ofNat index,UInt32.ofNat count)

def keepsRow (index count : Nat) (row : Row) : Bool := inPartition (nativePartition (passOf index count)) row

variable {env : Surroundings} {count index : Nat} {start : Int}

theorem keepsRowIff (bound : index < count) (words : count < 2 ^ 32) (row : Row) :
    keepsRow index count row = true ↔ namePartition row.labels.metricName count = index := by
  unfold keepsRow passOf
  split
  · have ofCount : (UInt32.ofNat count).toNat = count := UInt32.toNat_ofNat_of_lt' words
    have ofIndex : (UInt32.ofNat index).toNat = index := UInt32.toNat_ofNat_of_lt' (bound.trans words)
    have positive : 0 < UInt32.ofNat count := by
      rw [UInt32.lt_iff_toNat_lt,ofCount]
      exact Nat.zero_lt_of_lt bound
    have same := namePartitionWords row.labels.metricName positive
    rw [ofCount] at same
    simp only [nativePartition,inPartition,decide_eq_true_eq]
    rw [← UInt32.toNat_inj,ofIndex,same]
  · have one : count = 1 := by omega
    subst one
    have first := namePartitionBound row.labels.metricName (Nat.zero_lt_one)
    simp only [nativePartition,inPartition,true_iff]
    omega

theorem passUnique (positive : 0 < count) (words : count < 2 ^ 32) (row : Row) :
    ∃! index, index < count ∧ keepsRow index count row = true := by
  refine ⟨namePartition row.labels.metricName count,⟨namePartitionBound _ positive,?_⟩,?_⟩
  · exact (keepsRowIff (namePartitionBound _ positive) words row).mpr rfl
  · rintro other ⟨bound,kept⟩
    exact ((keepsRowIff bound words row).mp kept).symm

theorem sourceRead (bound : index < count) (words : count < 2 ^ 32) {source row}
    (mem : row ∈ source.rows) (kept : keepsRow index count row = true) :
    partitionSource (passOf index count) source = true := by
  have named := (keepsRowIff bound words row).mp kept
  unfold passOf partitionSource
  split
  · rfl
  · rfl
  rename_i i c names one listed
  split at one
  · cases one
    rcases source.summarized with unknown | complete
    · simp [unknown] at listed
    rw [listed] at complete
    have found := metricNamesListed complete.symm (mem_map_of_mem mem)
    exact any_eq_true.mpr ⟨_,found,by simpa using named⟩
  · cases one

theorem selectedRows (bound : index < count) (words : count < 2 ^ 32) (samples : List Source) :
    ((samples.filter (partitionSource (passOf index count))).flatMap Source.rows).filter (keepsRow index count) =
      (samples.flatMap Source.rows).filter (keepsRow index count) := by
  induction samples with
  | nil => rfl
  | cons source rest ih =>
    rw [flatMap_cons,filter_append,← ih]
    by_cases read : partitionSource (passOf index count) source = true
    · rw [filter_cons_of_pos read,flatMap_cons,filter_append]
    have none : source.rows.filter (keepsRow index count) = [] := by
      rw [filter_eq_nil_iff]
      exact fun row mem kept => read (sourceRead bound words mem kept)
    rw [filter_cons_of_neg read,none,nil_append]

structure Sided (start : Int) (o : Output) : Prop where
  bounds : ∀ row ∈ o.rows, o.minTs ≤ row.ts ∧ row.ts ≤ o.maxTs
  inside : o.kind = .final → start ≤ o.minTs ∧ o.maxTs < start + hourNs
  outside : o.kind ≠ .final → o.maxTs < start ∨ start + hourNs ≤ o.minTs

variable {b : Builder} {o : Output}

namespace Builder

theorem rowTs {c : CompactRow} {row : Row} (h : b.row c = some row) : row.ts = c.ts := by
  simp only [Builder.row,bind,Option.bind_eq_some_iff] at h
  obtain ⟨_,_,_,_,_,_,last⟩ := h
  cases last
  rfl

variable {range : Nat × Nat}

theorem readableSorted (wf : b.Wf) : ∀ c ∈ slice b.sorted range, ∃ row, b.row c = some row := by
  intro c mem
  exact wf.readable c (b.sortedPerm.subset (mem_of_mem_drop (mem_of_mem_take mem)))

theorem extremes {xs : List Int} (some : xs ≠ []) :
    xs.min?.getD 0 ∈ xs ∧ xs.max?.getD 0 ∈ xs ∧ ∀ x ∈ xs, xs.min?.getD 0 ≤ x ∧ x ≤ xs.max?.getD 0 := by
  obtain ⟨low,min⟩ := Option.isSome_iff_exists.mp (isSome_min?_iff.mpr some)
  obtain ⟨high,max⟩ := Option.isSome_iff_exists.mp (isSome_max?_iff.mpr some)
  obtain ⟨lowMem,least⟩ := min?_eq_some_iff.mp min
  obtain ⟨highMem,greatest⟩ := max?_eq_some_iff.mp max
  rw [min,max]
  exact ⟨lowMem,highMem,fun x mem => ⟨least x mem,greatest x mem⟩⟩

theorem insideOf {ts : Int} (h : b.timeClass ts = kindClass .final) : b.start ≤ ts ∧ ts < b.finish := by
  unfold timeClass at h
  split at h
  · cases h
  split at h
  · cases h
  · omega

variable {kind : Kind}

theorem outsideOf {ts : Int} (other : kind ≠ .final) (h : b.timeClass ts = kindClass kind) :
    kind = .before ∧ ts < b.start ∨ kind = .after ∧ b.finish ≤ ts := by
  unfold timeClass at h
  cases kind with
  | final => exact absurd rfl other
  | before =>
    split at h
    · exact .inl ⟨rfl,by assumption⟩
    · split at h <;> cases h
  | after =>
    split at h
    · cases h
    split at h
    · exact .inr ⟨rfl,by assumption⟩
    · cases h

theorem encodeRangeCases (h : b.encodeRange kind range = .ok o) :
    o.kind = kind ∧ o.rows = (slice b.sorted range).filterMap b.row ∧
      o.minTs = (o.rows.map Row.ts).min?.getD 0 ∧ o.maxTs = (o.rows.map Row.ts).max?.getD 0 := by
  unfold encodeRange at h
  simp only at h
  split at h
  · cases h
  rename_i rows read
  cases h
  exact ⟨rfl,mapMFilterMap read,rfl,rfl⟩

theorem encodeRangeOk (wf : b.Wf) (kind : Kind) (range : Nat × Nat) : ∃ o, b.encodeRange kind range = .ok o := by
  have all : ∀ c ∈ slice b.sorted range, ∃ row, b.row c = some row := readableSorted wf
  obtain ⟨rows,read⟩ := mapMTotal all
  unfold encodeRange
  simp only [read]
  exact ⟨_,rfl⟩

theorem planSided (wf : b.Wf) (hour : b.start = start ∧ b.finish = start + hourNs) {target names : Nat}
    (planned : (kind,range) ∈ b.prepare target names)
    (h : b.encodeRange kind range = .ok o) : Sided start o := by
  obtain ⟨sameKind,rows,low,high⟩ := encodeRangeCases h
  have ranges : range ∈ (b.prepare target names).map Prod.snd := mem_map_of_mem planned
  have nonempty : o.rows.map Row.ts ≠ [] := by
    obtain ⟨c,mem⟩ := exists_mem_of_ne_nil _ (tilesNonempty (b.prepareTile target names) ranges)
    obtain ⟨row,read⟩ := readableSorted wf c mem
    have found : row ∈ o.rows := rows ▸ mem_filterMap.mpr ⟨c,mem,read⟩
    exact ne_nil_of_mem (mem_map_of_mem found)
  obtain ⟨least,greatest,between⟩ := extremes nonempty
  rw [← low,← high] at between
  rw [← low] at least
  rw [← high] at greatest
  have side : ∀ ts ∈ o.rows.map Row.ts, b.timeClass ts = kindClass kind := by
    intro ts mem
    obtain ⟨row,found,rfl⟩ := mem_map.mp mem
    rw [rows] at found
    obtain ⟨c,inRange,read⟩ := mem_filterMap.mp found
    rw [rowTs read]
    exact b.prepareClass planned c inRange
  have first := side _ least
  have last := side _ greatest
  refine ⟨fun row mem => between _ (mem_map_of_mem mem),?_,?_⟩
  · intro final
    rw [← sameKind,final] at first last
    have low := (insideOf first).1
    have high := (insideOf last).2
    exact ⟨hour.1 ▸ low,hour.2 ▸ high⟩
  · intro other
    rw [sameKind] at other
    rcases outsideOf other first with ⟨before,_⟩ | ⟨_,late⟩
    · rcases outsideOf other last with ⟨_,early⟩ | ⟨after,_⟩
      · exact .inl (hour.1 ▸ early)
      · cases before.symm.trans after
    · exact .inr (hour.2 ▸ late)

end Builder

variable {pending : List (Kind × Nat × Nat)} {outputs : List Output}

theorem uploadCases {acc} (h : uploadNext env count index b pending acc = .ok outputs) :
    ∃ new, outputs = acc.reverse ++ new ∧ List.Forall₂ (fun p o => b.encodeRange p.1 p.2 = .ok o) pending new := by
  induction pending generalizing acc with
  | nil =>
    cases h
    exact ⟨[],by simp,.nil⟩
  | cons p pending ih =>
    obtain ⟨kind,range⟩ := p
    unfold uploadNext at h
    cases encoded : b.encodeRange kind range with
    | error e => simp [encoded,Except.mapError,bind,Except.bind] at h
    | ok o =>
      simp only [encoded,Except.mapError,bind,Except.bind] at h
      split at h
      · split at h
        · obtain ⟨new,same,rest⟩ := ih h
          exact ⟨o::new,by simp [same],.cons encoded rest⟩
        · cases h
      · cases h

theorem uploadOk (wf : b.Wf) (encodes : ∀ k, env.encodes count index k = true)
    (stores : ∀ k, env.stores count index k = true) (pending : List (Kind × Nat × Nat)) (acc : List Output) :
    ∃ outputs, uploadNext env count index b pending acc = .ok outputs := by
  induction pending generalizing acc with
  | nil => exact ⟨_,rfl⟩
  | cons p pending ih =>
    obtain ⟨kind,range⟩ := p
    obtain ⟨o,encoded⟩ := b.encodeRangeOk wf kind range
    unfold uploadNext
    simp only [encoded,Except.mapError,bind,Except.bind,encodes,stores,if_true]
    exact ih _

variable (h : List.Forall₂ (fun p o => b.encodeRange p.1 p.2 = .ok o) pending outputs)
include h

theorem encodedRows :
    outputs.flatMap Output.rows = ((pending.map Prod.snd).flatMap (slice b.sorted)).filterMap b.row := by
  induction h with
  | nil => rfl
  | cons first rest ih =>
    rw [flatMap_cons,map_cons,flatMap_cons,filterMap_append,ih,(Builder.encodeRangeCases first).2.1]

theorem encodedPlanned (mem : o ∈ outputs) : ∃ p ∈ pending, b.encodeRange p.1 p.2 = .ok o := by
  induction h with
  | nil => cases mem
  | cons first rest ih =>
    cases mem with
    | head => exact ⟨_,mem_cons_self,first⟩
    | tail _ mem =>
      obtain ⟨p,planned,encoded⟩ := ih mem
      exact ⟨p,mem_cons_of_mem _ planned,encoded⟩

omit h

theorem sourcesAccumulate : Builder.Accumulates (addSource env count index) id Source.rows Builder.Wf where
  wf := id
  adds := by
    intro b source b' wf h
    unfold addSource at h
    split at h
    · cases added : b.add source.batches with
      | error e => simp [added,Except.mapError] at h
      | ok next =>
        simp only [added,Except.mapError] at h
        cases h
        have adds := Builder.addCases wf added
        exact ⟨adds,adds.wf⟩
    · cases h

theorem addSourceOk (readable : ∀ source, env.readable count index source = true) {source}
    (wf : b.Wf) (fits : b.Fits source.rows) : ∃ b', addSource env count index b source = .ok b' := by
  obtain ⟨b',added⟩ := Builder.addOk wf fits
  refine ⟨b',?_⟩
  unfold addSource
  rw [if_pos (readable source),added]
  rfl

theorem finalizeNewCases {finish maxRows partition} (h : metricFinalizeNew start finish maxRows partition = .ok b) :
    b = .new start finish maxRows (nativePartition partition) := by
  unfold metricFinalizeNew at h
  split at h
  · cases h
  split at h
  · split at h <;> cases h
    rfl
  split at h
  · split at h <;> cases h
    rfl
  · cases h

structure Holds (start : Int) (outputs : List Output) (rows : List Row) : Prop where
  rows : (outputs.flatMap Output.rows).Perm rows
  sided : ∀ o ∈ outputs, Sided start o

theorem planHolds (wf : b.Wf) (hour : b.start = start ∧ b.finish = start + hourNs) {target names}
    (h : List.Forall₂ (fun p o => b.encodeRange p.1 p.2 = .ok o) (b.prepare target names) outputs) :
    Holds start outputs b.stored := by
  refine ⟨?_,?_⟩
  · rw [encodedRows h,tilesFlatMap b.sorted (b.prepareTile target names)]
    have whole : slice b.sorted (0,b.sorted.length) = b.sorted := by simp [slice]
    rw [whole]
    exact b.sortedPerm.filterMap b.row
  · intro o mem
    obtain ⟨p,planned,encoded⟩ := encodedPlanned h mem
    exact Builder.planSided wf hour planned encoded

variable {opts : Options}

theorem buildHolds {sources partition} (h : build env count index start sources partition opts = .ok outputs) :
    Holds start outputs ((sources.flatMap Source.rows).filter (inPartition (nativePartition partition))) := by
  obtain ⟨empty,opened,h⟩ := Results.bindOk h
  obtain ⟨b,read,h⟩ := Results.bindOk h
  have new := finalizeNewCases opened
  have fresh : empty.Wf := new ▸ Builder.newWf ..
  obtain ⟨adds,wf⟩ := sourcesAccumulate.run fresh read
  obtain ⟨outs,same,encoded⟩ := uploadCases h
  subst same
  have hour : b.start = start ∧ b.finish = start + hourNs := by
    have bounds := adds.grows.bounds
    rw [id,id,new] at bounds
    exact ⟨bounds.1,bounds.2.1⟩
  have holds := planHolds wf hour encoded
  have stored := adds.stored
  rw [id,id,new] at stored
  refine ⟨holds.rows.trans ?_,holds.sided⟩
  have arrived := (env.anyOrder count index sources).flatMap_right Source.rows
  rw [stored]
  exact arrived.filter _

variable {rows : List Row}

theorem Holds.append {xs ys more} (first : Holds start xs rows)
    (second : Holds start ys more) : Holds start (ys ++ xs) (rows ++ more) where
  rows := by
    rw [flatMap_append]
    exact (second.rows.append first.rows).trans perm_append_comm
  sided := by
    intro o mem
    rcases mem_append.mp mem with here | there
    · exact second.sided o here
    · exact first.sided o there

variable {samples : List Source}

theorem passHolds (bound : index < count) (words : count < 2 ^ 32) {uploaded} (before : Holds start uploaded rows)
    (h : pass env count start samples opts uploaded index = .ok outputs) :
    Holds start outputs (rows ++ (samples.flatMap Source.rows).filter (keepsRow index count)) := by
  unfold pass at h
  obtain ⟨new,built,h⟩ := Results.bindOk h
  cases h
  have holds := buildHolds built
  change Holds start new (((samples.filter _).flatMap Source.rows).filter (keepsRow index count)) at holds
  rw [selectedRows bound words samples] at holds
  exact before.append holds

theorem passesFrom (words : count < 2 ^ 32) {indexes : List Nat} (bound : ∀ index ∈ indexes, index < count) {uploaded}
    (before : Holds start uploaded rows)
    (h : indexes.foldlM (pass env count start samples opts) uploaded = .ok outputs) :
    Holds start outputs
      (rows ++ indexes.flatMap (fun index => (samples.flatMap Source.rows).filter (keepsRow index count))) := by
  induction indexes generalizing uploaded rows with
  | nil =>
    cases h
    rw [flatMap_nil,append_nil]
    exact before
  | cons index rest ih =>
    obtain ⟨next,first,h⟩ := Results.bindOk h
    have here := passHolds (bound index mem_cons_self) words before first
    rw [flatMap_cons,← append_assoc]
    exact ih (forall_mem_cons.mp bound).2 here h

theorem passesHold (words : count < 2 ^ 32) (positive : 0 < count)
    (h : passes env start samples count opts = .ok outputs) :
    Holds start outputs (samples.flatMap Source.rows) := by
  have none : Holds start [] [] := ⟨.refl [],by simp⟩
  have holds := passesFrom words (fun _ => mem_range.mp) none h
  have classes := classesPerm (fun row : Row => namePartition row.labels.metricName count)
    (fun row (_ : row ∈ samples.flatMap Source.rows) => namePartitionBound _ positive)
  have same : (List.range count).flatMap (fun index => (samples.flatMap Source.rows).filter (keepsRow index count)) =
      (List.range count).flatMap (fun index =>
        (samples.flatMap Source.rows).filter (fun row => namePartition row.labels.metricName count = index)) := by
    apply flatMap_congr
    intro index mem
    apply filter_congr
    intro row _
    rw [Bool.eq_iff_iff,keepsRowIff (mem_range.mp mem) words,decide_eq_true_eq]
  rw [nil_append,same] at holds
  exact ⟨holds.rows.trans classes,holds.sided⟩

structure Undisturbed (env : Surroundings) (start : Int) (samples : List Source) (count : Nat) (opts : Options) : Prop where
  readable : ∀ index source, env.readable count index source = true
  encodes : ∀ index k, env.encodes count index k = true
  stores : ∀ index k, env.stores count index k = true
  times : -2 ^ 63 ≤ start ∧ start + hourNs < 2 ^ 63
  limit : 0 < opts.maxRows ∧ opts.maxRows ≤ maxSeries
  started : ∀ row ∈ samples.flatMap Source.rows, row.start ≠ some 0
  room : ∀ index < count, ((samples.flatMap Source.rows).filter (keepsRow index count)).length ≤ opts.maxRows

theorem finalizeNewOk (times : -2 ^ 63 ≤ start ∧ start + hourNs < 2 ^ 63) (limit : 0 < opts.maxRows)
    (bound : index < count) (words : count < 2 ^ 32) :
    metricFinalizeNew start (start + hourNs) opts.maxRows (passOf index count) =
      .ok (.new start (start + hourNs) opts.maxRows (nativePartition (passOf index count))) := by
  have sane : ¬(start ≥ start + hourNs ∨ opts.maxRows = 0) := by
    unfold hourNs
    omega
  have whole : count < 2 ^ 32 ∧ 0 < count ∧ index < count := ⟨words,Nat.zero_lt_of_lt bound,bound⟩
  unfold metricFinalizeNew
  rw [if_neg (not_not.mpr times)]
  by_cases many : count > 1
  · have part : passOf index count = some (index,count) := if_pos many
    simp only [part,if_pos whole,if_neg sane,nativePartition]
  · have all : passOf index count = none := if_neg many
    simp only [all,if_neg sane,nativePartition]

theorem buildOk (calm : Undisturbed env start samples count opts) (bound : index < count) (words : count < 2 ^ 32) :
    ∃ outputs, build env count index start (samples.filter (partitionSource (passOf index count))) (passOf index count) opts =
      .ok outputs := by
  have opened := finalizeNewOk calm.times calm.limit.1 bound words
  have arrived := (env.anyOrder count index (samples.filter (partitionSource (passOf index count)))).flatMap_right Source.rows
  have fits : (Builder.new start (start + hourNs) opts.maxRows (nativePartition (passOf index count))).Fits
      ((env.arrivals count index (samples.filter (partitionSource (passOf index count)))).flatMap Source.rows) := by
    refine ⟨calm.limit.2,?_,?_⟩
    · intro row mem
      obtain ⟨source,selected,found⟩ := mem_flatMap.mp (arrived.subset mem)
      exact calm.started row (mem_flatMap.mpr ⟨source,(mem_filter.mp selected).1,found⟩)
    have kept := (arrived.filter (keepsRow index count)).length_eq
    rw [selectedRows bound words samples] at kept
    have := calm.room index bound
    change 0 + (List.filter (keepsRow index count) _).length ≤ opts.maxRows
    omega
  obtain ⟨b,read⟩ := sourcesAccumulate.runs (addSourceOk (calm.readable index)) (Builder.newWf ..) fits
  obtain ⟨_,wf⟩ := sourcesAccumulate.run (Builder.newWf ..) read
  obtain ⟨outputs,uploaded⟩ := uploadOk wf (calm.encodes index) (calm.stores index) (b.prepare opts.targetRows 128) []
  refine ⟨outputs,?_⟩
  unfold build
  simp only [opened,read,bind,Except.bind]
  exact uploaded

theorem passesOk (calm : Undisturbed env start samples count opts)
    (words : count < 2 ^ 32) : ∃ outputs, passes env start samples count opts = .ok outputs := by
  have run : ∀ (indexes : List Nat) (uploaded : List Output), (∀ index ∈ indexes, index < count) →
      ∃ outputs, indexes.foldlM (pass env count start samples opts) uploaded = .ok outputs := by
    intro indexes
    induction indexes with
    | nil => exact fun uploaded _ => ⟨uploaded,rfl⟩
    | cons index rest ih =>
      intro uploaded bound
      obtain ⟨new,built⟩ := buildOk calm (bound index mem_cons_self) words
      obtain ⟨outputs,later⟩ := ih (new ++ uploaded) (forall_mem_cons.mp bound).2
      refine ⟨outputs,?_⟩
      rw [foldlM_cons]
      simpa only [pass,built,bind,Except.bind] using later
  exact run (List.range count) [] (fun _ => mem_range.mp)

theorem buildPartitionsHolds {used}
    (positive : 0 < count) (h : buildPartitions env start samples count opts = .ok (used,outputs)) :
    0 < used ∧ passes env start samples used opts = .ok outputs := by
  fun_induction buildPartitions env start samples count opts with
  | case1 count outputs' done =>
    cases h
    exact ⟨positive,done⟩
  | case2 count failure failed again ih => exact ih (by omega) h
  | case3 => cases h

theorem passesWords (positive : 0 < count)
    (h : passes env start samples count opts = .ok outputs) : count < 2 ^ 32 := by
  by_contra wide
  have part : passOf 0 count = some (0,count) := if_pos (by omega)
  have refused : ∃ failure, metricFinalizeNew start (start + hourNs) opts.maxRows (passOf 0 count) = .error failure := by
    unfold metricFinalizeNew
    rw [part]
    split
    · exact ⟨_,rfl⟩
    · exact ⟨.encodeFailed,if_neg (fun small => wide small.1)⟩
  obtain ⟨failure,refused⟩ := refused
  obtain ⟨rest,order⟩ : ∃ rest, List.range count = 0::rest := by
    obtain ⟨n,rfl⟩ := Nat.exists_eq_succ_of_ne_zero positive.ne'
    exact ⟨_,range_succ_eq_map⟩
  simp [passes,order,foldlM_cons,pass,build,refused,bind,Except.bind] at h

structure Finalized (start : Int) (rows : List Row) (outputs : List Output) : Prop where
  everyRow : (outputs.flatMap Output.rows).Perm rows
  hourInFinals : ((outputs.filter (fun o => o.kind = .final)).flatMap Output.rows).Perm
    (rows.filter (fun row => start ≤ row.ts ∧ row.ts < start + hourNs))
  edgesApart : ∀ o ∈ outputs, o.kind ≠ .final → o.maxTs < start ∨ start + hourNs ≤ o.minTs

theorem Holds.finalized (h : Holds start outputs rows) : Finalized start rows outputs := by
  refine ⟨h.rows,?_,fun o mem => (h.sided o mem).outside⟩
  have sorted : ∀ outputs : List Output, (∀ o ∈ outputs, Sided start o) →
      (outputs.filter (fun o => o.kind = .final)).flatMap Output.rows =
        (outputs.flatMap Output.rows).filter (fun row => start ≤ row.ts ∧ row.ts < start + hourNs) := by
    intro outputs sided
    induction outputs with
    | nil => rfl
    | cons o rest ih =>
      have side := sided o mem_cons_self
      rw [flatMap_cons,filter_append,← ih (forall_mem_cons.mp sided).2]
      by_cases final : o.kind = .final
      · have all : o.rows.filter (fun row => start ≤ row.ts ∧ row.ts < start + hourNs) = o.rows := by
          rw [filter_eq_self]
          intro row mem
          have inside := side.inside final
          have bounds := side.bounds row mem
          simp only [decide_eq_true_eq]
          omega
        rw [filter_cons_of_pos (by simpa using final),flatMap_cons,all]
      · have none : o.rows.filter (fun row => start ≤ row.ts ∧ row.ts < start + hourNs) = [] := by
          rw [filter_eq_nil_iff]
          intro row mem
          have outside := side.outside final
          have bounds := side.bounds row mem
          simp only [decide_eq_true_eq]
          omega
        rw [filter_cons_of_neg (by simpa using final),none,nil_append]
  rw [sorted outputs h.sided]
  exact h.rows.filter _

theorem finalizationKeepsEveryRow (samples : List Source) (start : Int) (count : Nat) (positive : 0 < count)
    (words : count < 2 ^ 32) :
    (∀ name, (Native.namePartition name (UInt32.ofNat count)).toNat = namePartition name count) ∧
    (∀ row, ∃! index, index < count ∧ keepsRow index count row = true) ∧
    (∀ index < count, ∀ source ∈ samples, ∀ row ∈ source.rows, keepsRow index count row = true →
      partitionSource (passOf index count) source = true) ∧
    (∀ env opts outputs, passes env start samples count opts = .ok outputs →
      Finalized start (samples.flatMap Source.rows) outputs) ∧
    (∀ env opts, Undisturbed env start samples count opts → ∃ outputs, passes env start samples count opts = .ok outputs) ∧
    (∀ env opts used outputs, buildPartitions env start samples count opts = .ok (used,outputs) →
      Finalized start (samples.flatMap Source.rows) outputs) := by
  refine ⟨?_,passUnique positive words,?_,?_,?_,?_⟩
  · intro name
    have exact32 : (UInt32.ofNat count).toNat = count := UInt32.toNat_ofNat_of_lt' words
    have nonzero : 0 < UInt32.ofNat count := by
      rw [UInt32.lt_iff_toNat_lt,exact32]
      exact positive
    rw [namePartitionWords name nonzero,exact32]
  · intro index bound source _ row mem kept
    exact sourceRead bound words mem kept
  · intro env opts outputs h
    exact (passesHold words positive h).finalized
  · intro env opts calm
    exact passesOk calm words
  · intro env opts used outputs h
    obtain ⟨some,done⟩ := buildPartitionsHolds positive h
    exact (passesHold (passesWords some done) some done).finalized

def upLabels : Labels := ⟨[(nameLabel,ascii "up")],by decide +kernel,by decide +kernel⟩

def upSource : Source where
  batches := [⟨[upLabels],[⟨⟨none,none,none,none⟩,0,7,1800000000000,1⟩]⟩]
  rowCount := some 1
  names := some [ascii "up"]
  summarized := by decide +kernel

theorem finalizationKeepsEveryRowTwoPasses : 0 < 2 ∧ 2 < 2 ^ 32 ∧ upSource.rows ≠ [] ∧
    ∀ env opts outputs, passes env 0 [upSource] 2 opts = .ok outputs → Finalized 0 ([upSource].flatMap Source.rows) outputs :=
  ⟨by decide,by decide,by decide +kernel,(finalizationKeepsEveryRow [upSource] 0 2 (by decide) (by decide)).2.2.2.1⟩

end Pulso.MetricTiers
