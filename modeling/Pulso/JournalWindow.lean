import Pulso.JournalQuery
import Pulso.TracePruning

/-! A limited scan plans the first candidates of a root, in the order it reads them. -/
namespace Pulso.Journal

def QueryOptions.windowed {engine : Logs.RegexEngine} (o : QueryOptions engine) (signal : Signal) (order : Direction) (n : Nat) :
    QueryOptions engine :=
  match signal with
  | .logs => { o with logWindow := some (order,n) }
  | .traces => { o with traceWindow := some n }
  | .metrics => o

theorem windowedPlan {engine} {o : QueryOptions engine} {signal order n}
    (planned : planWindow signal o = some (order,n)) (m : Nat) : planWindow signal (o.windowed signal order m) = some (order,m) := by
  cases signal with
  | logs => rfl
  | metrics => cases planned
  | traces =>
    simp only [planWindow,Option.map_eq_some_iff,Prod.mk.injEq] at planned
    obtain ⟨-,-,rfl,-⟩ := planned
    rfl

theorem windowedMatching {engine} (regex : Traces.Regex) (hash : Traces.Hash) (ctx : Context)
    (o : QueryOptions engine) (root : Root) (d : Disk) (signal : Signal) (order : Direction) (n : Nat) :
    matching regex hash ctx (o.windowed signal order n) root d = matching regex hash ctx o root d := by
  cases signal <;> rfl

/- The window is the first `n` of all candidates in rank order, and a larger window of the same
root begins with it. A window of at least one is always planned while the pages read back. -/
theorem windowFirstCandidates {engine : Logs.RegexEngine} (regex : Traces.Regex) (hash : Traces.Hash) {ctx : Context} {s s' : State}
    (begins : Begins ctx s) (run : Reaches ctx Honest s s') (root : Root) (published : root ∈ s'.past) (env : Env)
    (same : env.toContext = ctx) (o : QueryOptions engine) (order : Direction) (n : Nat)
    (planned : planWindow ctx.scope.signal o = some (order,n)) :
    (∀ result, query regex hash env o root s'.disk = .ok result →
      result = Ranked.first order.Ahead n (matching regex hash ctx o root s'.disk) ∧
      ∀ m more, n ≤ m → query regex hash env (o.windowed ctx.scope.signal order m) root s'.disk = .ok more → result = more.take n) ∧
    (1 ≤ n → (∀ r ∈ root.refs, Readable env s'.disk r.h r) → ∃ result, query regex hash env o root s'.disk = .ok result) := by
  subst same
  have proper := (reachHealthy (beginsHealthy begins) (fun _ _ honest => honest) run).roots root published
  refine ⟨fun result ok => ?_,fun some readable => queryTotal proper some planned readable⟩
  have exact := queryWindow proper planned ok
  refine ⟨exact,fun m more larger again => ?_⟩
  have all := queryWindow proper (windowedPlan planned m) again
  rw [windowedMatching] at all
  rw [exact,all,Ranked.firstFewer larger]

namespace Sample

def noRegex : Logs.RegexEngine := ⟨Empty,fun _ => none,fun r _ => nomatch r⟩

def everything (window : Option (Direction × Nat)) (traceWindow : Option Nat) (id : Option Bytes) : QueryOptions noRegex where
  startTs := none
  endTs := none
  metrics _ := true
  logs := ⟨false,none,[],Dict.empty⟩
  traces := ⟨id,none,none,none,none,none,false,[]⟩
  contextHashes := none
  logWindow := window
  traceWindow := traceWindow
  tempoSearch := false
  traceSearch := false
  tempoDiscovery := false
  limit := none
  maxScanSegments := none

def founded : Root × Disk := ((convert bulky flat.listing).done Disk.blank).get (by decide +kernel)
def paginated : Root × Disk := ((sealRoot bulky founded.1).done founded.2).get (by decide +kernel)
def extended : Root × Disk := ((register bulky paginated.1 [second]).done paginated.2).get (by decide +kernel)

def foundation : State := ⟨founded.2,founded.1,[founded.1],[]⟩
def extension : State := (foundation.publish paginated.1 paginated.2 []).publish extended.1 extended.2 []

theorem foundationBegins : Begins bulky.toContext foundation :=
  .converted rfl blankAllocated (by decide +kernel : ∀ x ∈ flat.listing.segments, x.EncodesBounds) (Op.doneOk _)

theorem extensionReached : Reaches bulky.toContext Honest foundation extension := by
  have sealed : Reaches bulky.toContext Honest foundation (foundation.publish paginated.1 paginated.2 []) :=
    .single ⟨.sealed,trivial,.sealed rfl (Op.doneOk _)⟩
  exact sealed.next (.register rfl (Op.doneOk _)) ⟨by decide +kernel,by decide +kernel⟩

def newest (n : Nat) : QueryOptions noRegex := everything (some (.backward,n)) none none
def anyText : Traces.Regex := fun _ _ => none

end Sample

theorem windowFirstCandidatesNewest :
    query Sample.anyText Traces.Sample.hash Sample.bulky (Sample.newest 1) Sample.extended.1 Sample.extended.2 =
        .ok [Sample.second] ∧
      query Sample.anyText Traces.Sample.hash Sample.bulky (Sample.newest 2) Sample.extended.1 Sample.extended.2 =
        .ok [Sample.second,Sample.first] ∧
      [Sample.second] = [Sample.second,Sample.first].take 1 := by
  have one : query Sample.anyText Traces.Sample.hash Sample.bulky (Sample.newest 1) Sample.extended.1 Sample.extended.2 =
      .ok [Sample.second] := by decide +kernel
  have both : query Sample.anyText Traces.Sample.hash Sample.bulky (Sample.newest 2) Sample.extended.1 Sample.extended.2 =
      .ok [Sample.second,Sample.first] := by decide +kernel
  have spec := windowFirstCandidates Sample.anyText Traces.Sample.hash Sample.foundationBegins Sample.extensionReached
    Sample.extended.1 List.mem_cons_self Sample.bulky rfl (Sample.newest 1) .backward 1 rfl
  exact ⟨one,both,(spec.1 _ one).2 2 _ (by decide) both⟩

namespace Sample

def tracing : Env := .calm ⟨ascii "t",.traces⟩ 10 5 (fun root => 100 + 140000 * root.size)

-- two ids whose digests agree modulo the 128 bits of a small bloom and nowhere else
def digests : Traces.Hash := fun id => if id = Traces.Sample.failing.traceId then ⟨0,1,2,3⟩ else ⟨128,129,130,131⟩
def otherId : Bytes := List.replicate 32 50

def traced : Segment where
  key := tracing.scope.path ++ ascii "00000000000000000001-00000000000000000002-det-a.parquet"
  minTs := 1
  maxTs := 2
  byteSize := none
  metricNames := none
  metricNameBloom := none
  metricLabels := none
  logServices := none
  logLabels := none
  traceSummary := some (Traces.build Traces.segmentBytes tracing.sizes.toSummarySizes digests [Traces.Sample.failing]
    ([Traces.Sample.failing].all Traces.Span.metadataSafe))

def traces : Flat := ⟨⟨[traced],Dict.empty⟩,by decide +kernel⟩
def received : Root × Disk := ((convert tracing traces.listing).done Disk.blank).get (by decide +kernel)
def shelved : Root × Disk := ((sealRoot tracing received.1).done received.2).get (by decide +kernel)
def tracingBase : State := ⟨received.2,received.1,[received.1],[]⟩
def lookingFor : QueryOptions noRegex := everything none (some 1) (some otherId)

end Sample

/- The bloom of the segment takes another trace id for its own, the bloom of the page does not:
the segment passes its own test and is not planned. -/
theorem windowSkipsFalsePositive : Begins Sample.tracing.toContext Sample.tracingBase ∧
      Reaches Sample.tracing.toContext Honest Sample.tracingBase (Sample.tracingBase.publish Sample.shelved.1 Sample.shelved.2 []) ∧
      planWindow Sample.tracing.scope.signal Sample.lookingFor = some (.backward,1) ∧
      Sample.traced ∈ segmentsOf Sample.shelved.2 Sample.shelved.1 ∧
      accepts Sample.anyText Sample.digests Sample.tracing.toContext Sample.lookingFor Sample.shelved.1 Sample.traced = true ∧
      query Sample.anyText Sample.digests Sample.tracing Sample.lookingFor Sample.shelved.1 Sample.shelved.2 = .ok [] := by
  have dated : ∀ x ∈ Sample.traces.listing.segments, x.EncodesBounds := by decide +kernel
  exact ⟨.converted rfl Sample.blankAllocated dated (Op.doneOk _),.single ⟨.sealed,trivial,.sealed rfl (Op.doneOk _)⟩,rfl,
    by decide +kernel,by decide +kernel,by decide +kernel⟩

end Pulso.Journal
