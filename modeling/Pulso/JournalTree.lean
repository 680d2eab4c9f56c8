import Mathlib.Data.List.TakeWhile
import Pulso.JournalStore

/-! Spilling: entries in key-time order are cut into leaves, appended to the tree, and
every sixteen references of one height are packed into an index page. -/
namespace Pulso.Journal
open List

inductive Value where
  | segment (s : Segment)
  | retirement (r : Retirement)

structure Entry where
  ts : Int
  key : Key
  value : Value

namespace Entry

def ofSegment (s : Segment) : Entry := ⟨s.maxTs,s.key,.segment s⟩
def ofRetirement (e : Key × Retirement) : Entry := ⟨e.1.maxTs?.getD 0,e.1,.retirement e.2⟩

def segment? (x : Entry) : Option Segment :=
  match x.value with
  | .segment s => some s
  | .retirement _ => none

def retirement? (x : Entry) : Option (Key × Retirement) :=
  match x.value with
  | .segment _ => none
  | .retirement r => some (x.key,r)

def item (x : Entry) : Item :=
  match x.value with
  | .segment s => .active s.key
  | .retirement r => .retired (x.key,r)

def Before (a b : Entry) : Prop := a.ts < b.ts ∨ (a.ts = b.ts ∧ a.key ≤ b.key)
instance : DecidableRel Before := fun a b => by unfold Before; infer_instance

def bytes (sizes : Sizes) (x : Entry) : Nat :=
  match x.value with
  | .segment s => sizes.segment s
  | .retirement _ => x.key.length + 48

end Entry

def entries (l : Listing) : List Entry := l.segments.map Entry.ofSegment ++ l.retired.entries.map Entry.ofRetirement

-- `items/1` needs the time bound of every retired key
def items (l : Listing) : Except Fail (List Entry) :=
  if Dated l.retired then .ok (entries l) else .error .invalidSegmentKey

def chunkFrom (sizes : Sizes) : List Entry → List Entry → Nat → Nat → List (List Entry)
  | [],current,_,_ => if current = [] then [] else [current.reverse]
  | x::rest,current,count,bytes =>
    let size := x.bytes sizes
    if current ≠ [] ∧ (leafEntries ≤ count ∨ leafBytes < bytes + size) then
      current.reverse::chunkFrom sizes rest [x] 1 size
    else chunkFrom sizes rest (x::current) (count + 1) (bytes + size)

def leafOf (chunk : List Entry) : Listing :=
  ⟨Lists.sortDesc Segment.maxTs (chunk.filterMap Entry.segment?),Dict.ofList (chunk.filterMap Entry.retirement?)⟩

def chunk (sizes : Sizes) (xs : List Entry) : List Listing :=
  (chunkFrom sizes (xs.insertionSort Entry.Before) [] 0 0).map leafOf

def putLeaves (env : Env) (leaves : List Listing) : Op (List Ref) := Op.each (leafRef env) leaves

-- the newest references, newest first, that share the last one's height
def trailing (refs : List Ref) : List Ref :=
  match refs.reverse with
  | [] => []
  | last::older => last::older.takeWhile (fun r => r.h = last.h)

/- Every round packs sixteen references into one, so `refs.length` rounds are enough. -/
def carry (env : Env) : Nat → List Ref → Op (List Ref)
  | 0,refs => pure refs
  | fuel+1,refs =>
    if fanout ≤ (trailing refs).length then do
      let packed ← indexRef env (refs.drop (refs.length - fanout))
      carry env fuel (refs.take (refs.length - fanout) ++ [packed])
    else pure refs

def push (env : Env) (refs : List Ref) (ref : Ref) : Op (List Ref) := carry env (refs.length + 1) (refs ++ [ref])

def pushAll (env : Env) : List Ref → List Ref → Op (List Ref)
  | refs,[] => pure refs
  | refs,leaf::rest => do
    let refs ← push env refs leaf
    pushAll env refs rest

def groups : Nat → List Ref → List (List Ref)
  | 0,_ => []
  | q+1,refs => refs.take fanout::groups q (refs.drop fanout)

/- Bottom-up packing of a whole history: full groups move up, the newest remainder stays. -/
def build (env : Env) : Nat → List Ref → Op (List Ref)
  | 0,refs => pure refs
  | fuel+1,refs =>
    let full := refs.length / fanout
    if full = 0 then pure refs
    else do
      let parents ← Op.each (indexRef env) (groups full refs)
      let packed ← build env fuel parents
      pure (packed ++ refs.drop (full * fanout))

theorem chunkFromFlatten (sizes : Sizes) (xs current : List Entry) (count bytes : Nat) :
    (chunkFrom sizes xs current count bytes).flatten = current.reverse ++ xs := by
  induction xs generalizing current count bytes with
  | nil =>
    unfold chunkFrom
    split
    · simp_all
    · simp
  | cons x rest ih =>
    unfold chunkFrom
    dsimp only
    split
    · simp [ih]
    · simp [ih]

theorem chunkFromBounds {sizes xs current count bytes} (counted : current.length = count) (few : count ≤ leafEntries) :
    ∀ c ∈ chunkFrom sizes xs current count bytes, c ≠ [] ∧ c.length ≤ leafEntries := by
  induction xs generalizing current count bytes with
  | nil =>
    intro c mem
    unfold chunkFrom at mem
    split at mem
    · simp at mem
    rename_i nonempty
    rw [mem_singleton] at mem
    subst mem
    exact ⟨by simpa using nonempty,by simpa [counted] using few⟩
  | cons x rest ih =>
    intro c mem
    unfold chunkFrom at mem
    dsimp only at mem
    split at mem
    · rename_i cut
      rcases mem_cons.mp mem with rfl | later
      · exact ⟨by simpa using cut.1,by simpa [counted] using few⟩
      · exact ih rfl (by simp [leafEntries]) c later
    rename_i stay
    refine ih (by simp [counted]) ?_ c mem
    by_cases empty : current = []
    · subst empty
      have zero : count = 0 := counted.symm
      subst zero
      decide
    · have room : ¬ leafEntries ≤ count := fun full => stay ⟨empty,.inl full⟩
      omega

theorem splitItems (c : List Entry) : ((c.filterMap Entry.segment?).map (fun s => Item.active s.key) ++
      (c.filterMap Entry.retirement?).map Item.retired).Perm (c.map Entry.item) := by
  induction c with
  | nil => simp
  | cons x rest ih =>
    cases x with
    | mk ts key value =>
      cases value with
      | segment s =>
        exact ih.cons _
      | retirement r =>
        exact perm_middle.trans (ih.cons _)

theorem ofListEntries {es : List (Key × Retirement)} (distinct : (es.map Prod.fst).Nodup) :
    (Dict.ofList es).entries = es := by
  have fresh : ∀ e ∈ es, e.1 ∉ (Dict.empty : Dict Key Retirement).keys := by simp [Dict.keys,Dict.empty]
  simpa [Dict.ofList,Dict.empty] using Dict.putAllFresh fresh distinct

theorem leafOfCatalog {c : List Entry} (distinct : ((c.filterMap Entry.retirement?).map Prod.fst).Nodup) :
    (leafOf c).catalog.Perm (c.map Entry.item) := by
  have actives : ((leafOf c).activeKeys.map Item.active).Perm
      ((c.filterMap Entry.segment?).map (fun s => Item.active s.key)) := by
    simpa [Listing.activeKeys,leafOf,Function.comp_def] using
      (Lists.sortDescPerm Segment.maxTs (c.filterMap Entry.segment?)).map (fun s => Item.active s.key)
  have retired : (leafOf c).retired.entries = c.filterMap Entry.retirement? := ofListEntries distinct
  unfold Listing.catalog
  rw [retired]
  exact (actives.append_right _).trans (splitItems c)

theorem leafOfSize {c} (distinct : ((c.filterMap Entry.retirement?).map Prod.fst).Nodup) :
    (leafOf c).size = c.length := by
  have same := (leafOfCatalog distinct).length_eq
  simpa [Listing.catalog,Listing.activeKeys,Listing.size,Dict.size] using same

theorem entriesRetirements (l : Listing) : (entries l).filterMap Entry.retirement? = l.retired.entries := by
  have none : (l.segments.map Entry.ofSegment).filterMap Entry.retirement? = [] := by
    rw [filterMap_eq_nil_iff]
    intro x mem
    obtain ⟨s,_,rfl⟩ := mem_map.mp mem
    rfl
  rw [entries,filterMap_append,none,nil_append,filterMap_map]
  exact filterMap_some

theorem entriesItems (l : Listing) : (entries l).map Entry.item = l.catalog := by
  simp [entries,Listing.catalog,Listing.activeKeys,Entry.ofSegment,Entry.ofRetirement,Entry.item,Function.comp_def]

structure ChunkOf (l : Listing) (c : List Entry) : Prop where
  nonempty : c ≠ []
  few : c.length ≤ leafEntries
  inside : ∀ x ∈ c, x ∈ entries l
  distinct : ((c.filterMap Entry.retirement?).map Prod.fst).Nodup

theorem chunkSpec (sizes : Sizes) (l : Listing) :
    ∃ cs : List (List Entry), chunk sizes (entries l) = cs.map leafOf ∧ cs.flatten.Perm (entries l) ∧
      ∀ c ∈ cs, ChunkOf l c := by
  let sorted := (entries l).insertionSort Entry.Before
  have order : sorted.Perm (entries l) := perm_insertionSort _ _
  have flat : (chunkFrom sizes sorted [] 0 0).flatten = sorted := by
    simpa using chunkFromFlatten sizes sorted [] 0 0
  refine ⟨chunkFrom sizes sorted [] 0 0,rfl,flat.symm ▸ order,?_⟩
  intro c mem
  have bounds := chunkFromBounds rfl (Nat.zero_le _) c mem
  have part : c.Sublist sorted := flat ▸ sublist_flatten_of_mem mem
  refine ⟨bounds.1,bounds.2,fun x hx => order.mem_iff.mp (part.subset hx),?_⟩
  have whole : ((sorted.filterMap Entry.retirement?).map Prod.fst).Nodup := by
    have same := ((order.filterMap Entry.retirement?).map Prod.fst).nodup_iff
    rw [same,entriesRetirements]
    exact l.retired.distinct
  exact whole.sublist ((part.filterMap _).map _)

theorem chunkCatalog (sizes : Sizes) (l : Listing) :
    ((chunk sizes (entries l)).flatMap Listing.catalog).Perm l.catalog := by
  obtain ⟨cs,same,flat,each⟩ := chunkSpec sizes l
  rw [same,flatMap_map,← entriesItems]
  have pieces : (cs.flatMap (fun c => (leafOf c).catalog)).Perm (cs.flatMap (fun c => c.map Entry.item)) :=
    List.Perm.flatMap_left cs (fun c mem => leafOfCatalog (each c mem).distinct)
  have joined : cs.flatMap (fun c => c.map Entry.item) = cs.flatten.map Entry.item := by
    rw [map_flatten,flatMap_def]
  exact pieces.trans (joined ▸ flat.map Entry.item)

def Tops (d : Disk) (refs refs' : List Ref) : Prop := ∀ r ∈ refs', r.k ∈ refs.map (fun r => r.k) ∨ d.next ≤ r.k.sha

theorem Tops.same (d : Disk) (refs : List Ref) : Tops d refs refs := fun _ mem => .inl (mem_map_of_mem mem)

theorem Tops.trans {d d' a b c} (x : Tops d a b) (y : Tops d' b c) (le : d.next ≤ d'.next) : Tops d a c := by
  intro r mem
  rcases y r mem with old | new
  · obtain ⟨q,hq,same⟩ := mem_map.mp old
    rw [← same]
    exact x q hq
  · exact .inr (le.trans new)

structure Packs (ctx : Context) (d d' : Disk) (refs refs' : List Ref) (written : List PageKey) : Prop where
  grows : Grows d d'
  sound : AllSound ctx d' refs'
  leaves : forestLeaves d' refs' = forestLeaves d refs
  keys : (forestKeys d' refs').Perm (forestKeys d refs ++ written)
  wrote : Wrote d d' written
  tops : Tops d refs refs'

theorem Packs.same {ctx d refs} (s : AllSound ctx d refs) : Packs ctx d d refs refs [] :=
  ⟨.refl _,s,rfl,by simp,.none _ _,.same _ _⟩

theorem Packs.trans {ctx d₁ d₂ d₃ a b c w w'} (x : Packs ctx d₁ d₂ a b w) (y : Packs ctx d₂ d₃ b c w') :
    Packs ctx d₁ d₃ a c (w ++ w') := by
  refine ⟨x.grows.trans y.grows,y.sound,y.leaves.trans x.leaves,?_,x.wrote.append y.wrote x.grows.next y.grows.next,
    x.tops.trans y.tops x.grows.next⟩
  rw [← append_assoc]
  exact y.keys.trans (x.keys.append_right _)

theorem Packs.beside {ctx d d' a b w rest} (x : Packs ctx d d' a b w) (s : AllSound ctx d rest) :
    Packs ctx d d' (a ++ rest) (b ++ rest) w := by
  refine ⟨x.grows,x.sound.append (s.grows x.grows),?_,?_,x.wrote,?_⟩
  · rw [forestLeavesAppend,x.leaves,s.leavesGrow x.grows,forestLeavesAppend]
  · rw [forestKeysAppend,s.keysGrow x.grows,forestKeysAppend,append_assoc]
    refine (x.keys.append_right _).trans ?_
    rw [append_assoc]
    exact perm_append_comm.append_left _
  · intro r mem
    rw [map_append]
    rcases mem_append.mp mem with packed | other
    · exact (x.tops r packed).imp_left (fun h => mem_append_left _ h)
    · exact .inl (mem_append_right _ (mem_map_of_mem other))

theorem trailingSame {refs} (full : fanout ≤ (trailing refs).length) :
    ∃ m, (∀ r ∈ refs.drop (refs.length - fanout), r.h = m) ∧ fanout ≤ refs.length := by
  unfold trailing at full
  cases back : refs.reverse with
  | nil => simp [back,fanout] at full
  | cons last older =>
    rw [back] at full
    let run := last::older.takeWhile (fun r => r.h = last.h)
    have start : run <+: refs.reverse := by
      rw [back]; exact prefix_cons_inj last |>.mpr ( takeWhile_prefix _)
    have long : fanout ≤ refs.length := by
      have := start.length_le
      rw [length_reverse] at this
      exact full.trans this
    refine ⟨last.h,?_,long⟩
    intro r mem
    have reversed : (refs.drop (refs.length - fanout)).reverse = refs.reverse.take fanout := by
      rw [reverse_drop]; congr 1; omega
    have early : r ∈ refs.reverse.take fanout := by rw [← reversed]; simpa using mem
    have inRun : r ∈ run := by
      obtain ⟨rest,split⟩ := start
      rw [← split,take_append_of_le_length full] at early
      exact mem_of_mem_take early
    rcases mem_cons.mp inRun with rfl | later
    · rfl
    · simpa using mem_takeWhile_imp later

theorem carrySpec {env fuel refs refs' d d'} (a : d.Allocated) (s : AllSound env.toContext d refs)
    (ok : carry env fuel refs d = (.ok refs',d')) : ∃ w, Packs env.toContext d d' refs refs' w := by
  induction fuel generalizing refs d with
  | zero => obtain ⟨rfl,rfl⟩ := Op.pureOk.mp ok; exact ⟨[],.same s⟩
  | succ fuel ih =>
    unfold carry at ok
    split at ok
    · rename_i full
      obtain ⟨m,level,long⟩ := trailingSame full
      simp only [Op.bindOk] at ok
      obtain ⟨parent,d₁,made,rest⟩ := ok
      have below : ∀ c ∈ refs.drop (refs.length - fanout), Sound env.toContext d m c := by
        intro c mem
        have sound := s c (mem_of_mem_drop mem)
        rwa [level c mem] at sound
      have spec := indexRefSpec a below (by rw [length_drop]; omega) made
      have older : AllSound env.toContext d (refs.take (refs.length - fanout)) := fun r mem => s r (mem_of_mem_take mem)
      have height := spec.sound.height
      have split : refs.take (refs.length - fanout) ++ refs.drop (refs.length - fanout) = refs := take_append_drop _ _
      have packed : Packs env.toContext d d₁ refs (refs.take (refs.length - fanout) ++ [parent]) [parent.k] := by
        refine ⟨spec.grows,(older.grows spec.grows).append ?_,?_,?_,spec.wrote,?_⟩
        · intro r mem; rw [mem_singleton] at mem; subst mem; rw [height]; exact spec.sound
        · conv_rhs => rw [← split]
          rw [forestLeavesAppend,forestLeavesAppend,older.leavesGrow spec.grows]
          simp only [forestLeaves,flatMap_cons,flatMap_nil,append_nil,height,spec.leaves]
          congr 1
          exact flatMap_congr (fun c mem => by rw [level c mem])
        · have keys : forestKeys d₁ [parent] = parent.k::forestKeys d (refs.drop (refs.length - fanout)) := by
            simp only [forestKeys,flatMap_cons,flatMap_nil,append_nil,height,spec.keys]
            congr 1
            exact flatMap_congr (fun c mem => by rw [level c mem])
          conv_rhs => rw [← split]
          rw [forestKeysAppend,forestKeysAppend,older.keysGrow spec.grows,keys,append_assoc]
          exact (perm_append_singleton _ _).symm.append_left _
        · intro r mem
          rcases mem_append.mp mem with old | new
          · exact .inl (mem_map_of_mem (mem_of_mem_take old))
          · rw [mem_singleton] at new
            exact .inr (new ▸ (spec.wrote.fresh _ (mem_singleton.mpr rfl)).1)
      obtain ⟨w,next⟩ := ih (spec.grows.allocated a) packed.sound rest
      exact ⟨_,packed.trans next⟩
    · obtain ⟨rfl,rfl⟩ := Op.pureOk.mp ok; exact ⟨[],.same s⟩

theorem pushAllSpec {env refs leaves refs' d d'} (a : d.Allocated) (s : AllSound env.toContext d (refs ++ leaves))
    (ok : pushAll env refs leaves d = (.ok refs',d')) : ∃ w, Packs env.toContext d d' (refs ++ leaves) refs' w := by
  induction leaves generalizing refs d with
  | nil => obtain ⟨rfl,rfl⟩ := Op.pureOk.mp ok; exact ⟨[],by simpa using Packs.same s⟩
  | cons leaf rest ih =>
    simp only [pushAll,Op.bindOk] at ok
    obtain ⟨next,d₁,pushed,more⟩ := ok
    have head : AllSound env.toContext d (refs ++ [leaf]) := fun r mem => s r (by
      rcases mem_append.mp mem with h | h
      · exact mem_append_left _ h
      · exact mem_append_right _ (mem_cons.mpr (.inl (mem_singleton.mp h))))
    have tail : AllSound env.toContext d rest := fun r mem => s r (mem_append_right _ (mem_cons_of_mem _ mem))
    obtain ⟨w,one⟩ := carrySpec a head pushed
    have lifted : Packs env.toContext d d₁ (refs ++ leaf::rest) (next ++ rest) w := by
      simpa using one.beside tail
    obtain ⟨w',others⟩ := ih (one.grows.allocated a) lifted.sound more
    exact ⟨_,lifted.trans others⟩

theorem forall₂FlatMap {α β γ : Type} {R f} {g : β → List γ} {xs : List α} {ys : List β}
    (pairs : List.Forall₂ R xs ys) (same : ∀ x y, R x y → g y = f x) : ys.flatMap g = xs.flatMap f := by
  induction pairs with
  | nil => rfl
  | cons head _ ih => simp [same _ _ head,ih]

structure LeavesSpec (env : Env) (d d' : Disk) (leaves : List Listing) (refs : List Ref) : Prop where
  grows : Grows d d'
  sound : ∀ r ∈ refs, Sound env.toContext d' 0 r
  content : forestLeaves d' refs = leaves.map (Listing.persisted env.sizes.toSummarySizes)
  keys : forestKeys d' refs = refs.map (fun r => r.k)
  wrote : Wrote d d' (refs.map (fun r => r.k))

theorem putLeavesSpec {env leaves refs d d'} (a : d.Allocated) (ok : putLeaves env leaves d = (.ok refs,d')) :
    LeavesSpec env d d' leaves refs := by
  have each := Op.eachSpec (fun r : Ref => [r.k]) (fun (l : Listing) r e =>
      Sound env.toContext e 0 r ∧ leavesAt e 0 r.k = [l.persisted env.sizes.toSummarySizes]) a
    (fun l _ e r e' _ alloc made => by
      have spec := leafRefSpec alloc made
      exact ⟨spec.grows,spec.wrote,spec.sound,spec.leaves⟩)
    (fun l _ r e e' h g => ⟨h.1.grows g,(h.1.leavesGrow g).trans h.2⟩) ok
  obtain ⟨grows,wrote,pairs⟩ := each
  have sound : ∀ r ∈ refs, Sound env.toContext d' 0 r := by
    intro r mem
    obtain ⟨i,hi,rfl⟩ := mem_iff_getElem.mp mem
    have at_i := pairs.get (by rw [pairs.length_eq]; exact hi) hi
    exact at_i.1
  refine ⟨grows,sound,?_,?_,by rw [map_eq_flatMap]; exact wrote⟩
  · have flat : forestLeaves d' refs = refs.flatMap (fun r => leavesAt d' 0 r.k) :=
      flatMap_congr (fun r mem => by rw [(sound r mem).height])
    rw [flat,map_eq_flatMap]
    exact forall₂FlatMap pairs (fun _ _ h => h.2)
  · rw [forestKeys,map_eq_flatMap]
    exact flatMap_congr (fun r mem => by rw [(sound r mem).height]; rfl)

theorem groupsSpec {q refs} (long : q * fanout ≤ refs.length) :
    (groups q refs).flatten = refs.take (q * fanout) ∧ ∀ g ∈ groups q refs, g.length = fanout := by
  induction q generalizing refs with
  | zero => simp [groups]
  | succ q ih =>
    have shorter : q * fanout ≤ (refs.drop fanout).length := by rw [length_drop]; rw [Nat.succ_mul] at long; omega
    have rest := ih shorter
    refine ⟨?_,forall_mem_cons.mpr ⟨?_,rest.2⟩⟩
    · rw [groups,flatten_cons,rest.1,Nat.succ_mul,Nat.add_comm,take_add]
    · rw [Nat.succ_mul] at long; rw [length_take]; omega

theorem groupsLength (q : Nat) (refs : List Ref) : (groups q refs).length = q := by
  induction q generalizing refs with
  | zero => rfl
  | succ q ih => rw [groups,length_cons,ih]

theorem indexRefHeight {env children d d' h ref} (level : ∀ c ∈ children, c.h = h) (some : children ≠ [])
    (ok : indexRef env children d = (.ok ref,d')) : ref.h = h + 1 := by
  simp only [indexRef,Op.bindOk,Op.liftOk,Op.pureOk] at ok
  obtain ⟨stub,d₁,put,stats,d₂,⟨-,rfl⟩,rfl,rfl⟩ := ok
  cases children with
  | nil => exact absurd rfl some
  | cons c rest => simp [level c mem_cons_self]

theorem forall₂Heads {α : Type} {F G xs ys}
    {R : α → Ref → Prop} (pairs : List.Forall₂ R xs ys) (same : ∀ x y, R x y → G y = y.k::F x) :
    (ys.flatMap G).Perm (xs.flatMap F ++ ys.map (fun y => y.k)) := by
  induction pairs with
  | nil => exact .refl _
  | @cons x y xs ys head _ ih =>
    simp only [flatMap_cons,map_cons,same _ _ head,cons_append]
    refine ((ih.append_left (F x)).cons y.k).trans ?_
    rw [← append_assoc]
    exact perm_middle.symm

theorem parentsSpec {env gs parents d d' h} (a : d.Allocated)
    (below : ∀ g ∈ gs, g.length ≤ fanout ∧ ∀ c ∈ g, Sound env.toContext d h c)
    (ok : Op.each (indexRef env) gs d = (.ok parents,d')) :
    Packs env.toContext d d' gs.flatten parents (parents.map (fun r => r.k)) ∧
      ∀ r ∈ parents, Sound env.toContext d' (h+1) r := by
  have each := Op.eachSpec (fun r : Ref => [r.k]) (fun (g : List Ref) r e => Sound env.toContext e (h+1) r ∧
      keysAt e (h+1) r.k = r.k::g.flatMap (fun c => keysAt d h c.k) ∧
      leavesAt e (h+1) r.k = g.flatMap (fun c => leavesAt d h c.k)) a
    (fun g mem e r e' grown alloc made => by
      have spec := indexRefSpec alloc (fun c hc => ((below g mem).2 c hc).grows grown) (below g mem).1 made
      refine ⟨spec.grows,spec.wrote,spec.sound,?_,?_⟩
      · rw [spec.keys]
        exact congrArg _ (flatMap_congr (fun c hc => ((below g mem).2 c hc).keysGrow grown))
      · rw [spec.leaves]
        exact flatMap_congr (fun c hc => ((below g mem).2 c hc).leavesGrow grown))
    (fun g _ r e e' h g => ⟨h.1.grows g,(h.1.keysGrow g).trans h.2.1,(h.1.leavesGrow g).trans h.2.2⟩) ok
  obtain ⟨grows,wrote,pairs⟩ := each
  have sound : ∀ r ∈ parents, Sound env.toContext d' (h+1) r := by
    intro r mem
    obtain ⟨i,hi,rfl⟩ := mem_iff_getElem.mp mem
    exact (pairs.get (by rw [pairs.length_eq]; exact hi) hi).1
  have level : ∀ c ∈ gs.flatten, c.h = h := by
    intro c mem
    obtain ⟨g,hg,hc⟩ := mem_flatten.mp mem
    exact ((below g hg).2 c hc).height
  have written : Wrote d d' (parents.map (fun r => r.k)) := by rw [map_eq_flatMap]; exact wrote
  refine ⟨⟨grows,fun r mem => (sound r mem).height ▸ sound r mem,?_,?_,written,?_⟩,sound⟩
  · have parentsAt : forestLeaves d' parents = parents.flatMap (fun r => leavesAt d' (h+1) r.k) :=
      flatMap_congr (fun r mem => by rw [(sound r mem).height])
    have childrenAt : forestLeaves d gs.flatten = gs.flatMap (fun g => g.flatMap (fun c => leavesAt d h c.k)) := by
      rw [forestLeaves,flatMap_congr (fun c mem => by rw [level c mem]),flatten_eq_flatMap,flatMap_assoc]
      rfl
    rw [parentsAt,childrenAt]
    exact forall₂FlatMap pairs (fun _ _ h => h.2.2)
  · have parentsAt : forestKeys d' parents = parents.flatMap (fun r => keysAt d' (h+1) r.k) :=
      flatMap_congr (fun r mem => by rw [(sound r mem).height])
    have childrenAt : forestKeys d gs.flatten = gs.flatMap (fun g => g.flatMap (fun c => keysAt d h c.k)) := by
      rw [forestKeys,flatMap_congr (fun c mem => by rw [level c mem]),flatten_eq_flatMap,flatMap_assoc]
      rfl
    rw [parentsAt,childrenAt]
    exact forall₂Heads pairs (fun _ _ h => h.2.1)
  · intro r mem
    exact .inr (written.fresh r.k (mem_map_of_mem mem)).1

theorem buildPacks {env fuel refs refs' d d' h} (a : d.Allocated) (s : ∀ r ∈ refs, Sound env.toContext d h r)
    (ok : build env fuel refs d = (.ok refs',d')) : ∃ w, Packs env.toContext d d' refs refs' w ∧ w.length ≤ refs.length := by
  induction fuel generalizing refs refs' d h with
  | zero =>
    obtain ⟨rfl,rfl⟩ := Op.pureOk.mp ok
    exact ⟨[],.same (fun r mem => (s r mem).height ▸ s r mem),Nat.zero_le _⟩
  | succ fuel ih =>
    unfold build at ok
    dsimp only at ok
    split at ok
    · obtain ⟨rfl,rfl⟩ := Op.pureOk.mp ok
      exact ⟨[],.same (fun r mem => (s r mem).height ▸ s r mem),Nat.zero_le _⟩
    simp only [Op.bindOk,Op.pureOk] at ok
    obtain ⟨parents,d₁,made,packed,d₂,rest,rfl,rfl⟩ := ok
    have cut := groupsSpec (Nat.div_mul_le_self refs.length fanout)
    have below : ∀ g ∈ groups (refs.length / fanout) refs,
        g.length ≤ fanout ∧ ∀ c ∈ g, Sound env.toContext d h c := by
      intro g mem
      refine ⟨(cut.2 g mem).le,fun c hc => s c ?_⟩
      have inside : c ∈ (groups (refs.length / fanout) refs).flatten := mem_flatten.mpr ⟨g,mem,hc⟩
      rw [cut.1] at inside
      exact mem_of_mem_take inside
    obtain ⟨first,sound⟩ := parentsSpec a below made
    obtain ⟨w,second,few⟩ := ih (first.grows.allocated a) sound rest
    have remainder : AllSound env.toContext d (refs.drop (refs.length / fanout * fanout)) :=
      fun r mem => (s r (mem_of_mem_drop mem)).height ▸ s r (mem_of_mem_drop mem)
    have whole := (first.trans second).beside remainder
    rw [cut.1,take_append_drop] at whole
    refine ⟨_,whole,?_⟩
    have level : parents.length = refs.length / fanout := (Op.eachLength made).trans (groupsLength _ _)
    rw [length_append,length_map]
    simp only [fanout] at level
    omega

theorem buildSpec {env fuel refs refs' d d' h} (a : d.Allocated) (s : ∀ r ∈ refs, Sound env.toContext d h r)
    (ok : build env fuel refs d = (.ok refs',d')) : ∃ w, Packs env.toContext d d' refs refs' w := by
  obtain ⟨w,packs,-⟩ := buildPacks a s ok
  exact ⟨w,packs⟩

theorem buildHeights {env fuel refs refs' d d' h k} (level : ∀ r ∈ refs, r.h = h) (few : refs.length < fanout ^ (k+1))
    (ok : build env fuel refs d = (.ok refs',d')) : ∀ r ∈ refs', r.h ≤ h + k := by
  induction fuel generalizing refs refs' d d' h k with
  | zero =>
    obtain ⟨rfl,-⟩ := Op.pureOk.mp ok
    exact fun r mem => by rw [level r mem]; exact Nat.le_add_right h k
  | succ fuel ih =>
    unfold build at ok
    dsimp only at ok
    split at ok
    · obtain ⟨rfl,-⟩ := Op.pureOk.mp ok
      exact fun r mem => by rw [level r mem]; exact Nat.le_add_right h k
    rename_i full
    simp only [Op.bindOk,Op.pureOk] at ok
    obtain ⟨parents,d₁,made,packed,d₂,rest,rfl,rfl⟩ := ok
    have count : parents.length = refs.length / fanout := (Op.eachLength made).trans (groupsLength _ _)
    have cut := groupsSpec (Nat.div_mul_le_self refs.length fanout)
    have above : ∀ r ∈ parents, r.h = h + 1 := by
      intro r mem
      obtain ⟨g,hg,e,e',one⟩ := Op.eachMem made r mem
      have inside : ∀ c ∈ g, c.h = h := fun c hc => level c (mem_of_mem_take (cut.1 ▸ mem_flatten.mpr ⟨g,hg,hc⟩))
      have some : g ≠ [] := by
        rintro rfl
        have long := cut.2 [] hg
        simp [fanout] at long
      exact indexRefHeight inside some one
    cases k with
    | zero =>
      have none : refs.length / fanout = 0 := Nat.div_eq_of_lt (by simpa using few)
      exact absurd none full
    | succ k =>
      have fewer : parents.length < fanout ^ (k+1) := by
        rw [count]
        exact Nat.div_lt_of_lt_mul (by rwa [Nat.pow_succ,Nat.mul_comm] at few)
      have packedLow := ih above fewer rest
      intro r mem
      rcases mem_append.mp mem with up | stay
      · have := packedLow r up
        omega
      · rw [level r (mem_of_mem_drop stay)]
        exact Nat.le_add_right h _

end Pulso.Journal
