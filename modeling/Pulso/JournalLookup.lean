import Pulso.JournalCatalog

/-! Descending by time range misses nothing: lookup and materialization see exactly the
catalog of a root whose keys carry their bounds. -/
namespace Pulso.Journal
open List

def Shows (items : List Item) (key : Key) : Found → Prop
  | .active => Item.active key ∈ items
  | .retired r => Item.retired (key,r) ∈ items
  | .absent => key ∉ names items

theorem itemUnique {items} (distinct : (names items).Nodup) {a b} (left : a ∈ items) (right : b ∈ items)
    (same : a.key = b.key) : a = b := inj_on_of_nodup_map distinct left right same

variable {key : Key}

theorem Shows.unique {items x y} (distinct : (names items).Nodup) (hx : Shows items key x)
    (hy : Shows items key y) : x = y := by
  have named : ∀ {i : Item}, i ∈ items → i.key = key → key ∈ names items := fun mem same => same ▸ mem_map_of_mem mem
  cases x <;> cases y <;> simp only [Shows] at hx hy
  · rfl
  · exact absurd (itemUnique distinct hx hy rfl) (by simp [Item.active,Item.retired])
  · exact absurd (named hx rfl) hy
  · exact absurd (itemUnique distinct hx hy rfl) (by simp [Item.active,Item.retired])
  · have same := itemUnique distinct hx hy rfl
    simp only [Item.retired,Item.mk.injEq,Option.some.injEq,true_and] at same
    rw [same]
  · exact absurd (named hx rfl) hy
  · exact absurd (named hy rfl) hx
  · exact absurd (named hy rfl) hx
  · rfl

variable {found : Found}

theorem findListedSome {l} (h : findListed l key = some found) : found ≠ .absent ∧ Shows l.catalog key found := by
  unfold findListed at h
  split at h
  · rename_i active
    cases h
    exact ⟨by simp,mem_append_left _ (mem_map_of_mem active)⟩
  · obtain ⟨r,got,rfl⟩ := Option.map_eq_some_iff.mp h
    refine ⟨by simp,mem_append_right _ (mem_map_of_mem (Dict.getIff.mp got))⟩

theorem findListedNone {l} : findListed l key = none ↔ key ∉ names l.catalog := by
  rw [names,Listing.catalogKeys,mem_append,not_or]
  unfold findListed
  split
  · rename_i active; simp [active]
  · rename_i inactive; simp [inactive,Dict.getNone]

def Finds (ls : List Listing) (key : Key) : Option Found → Prop
  | none => ∀ l ∈ ls, key ∉ names l.catalog
  | some found => found ≠ .absent ∧ ∃ l ∈ ls, Shows l.catalog key found

theorem findFirstOk {α : Type} {f leaves} {xs : List α}
    {found : Option Found} (each : ∀ x ∈ xs, ∀ r, f x = .ok r → Finds (leaves x) key r)
    (ok : findFirst f xs = .ok found) : Finds (xs.flatMap leaves) key found := by
  induction xs with
  | nil => cases ok; intro l mem; simp at mem
  | cons x xs ih =>
    unfold findFirst at ok
    split at ok
    · simp at ok
    · rename_i hit first
      cases ok
      obtain ⟨known,l,mem,shows⟩ := each x mem_cons_self _ first
      exact ⟨known,l,mem_flatMap.mpr ⟨x,mem_cons_self,mem⟩,shows⟩
    rename_i first
    have head := each x mem_cons_self _ first
    have tail := ih (forall_mem_cons.mp each).2 ok
    cases found with
    | none =>
      intro l mem
      rcases mem_append.mp mem with here | there
      · exact head l here
      · exact tail l there
    | some hit =>
      obtain ⟨known,l,mem,shows⟩ := tail
      exact ⟨known,l,mem_append_right _ mem,shows⟩

variable {ts : Int}

theorem coverFinds {ctx d h r} (s : Sound ctx d h r) (keyed : ∀ l ∈ leavesAt d h r.k, l.Keyed)
    (date : stampOf key = ts) (miss : covers r ts = false) : Finds (leavesAt d h r.k) key none := by
  intro l mem listed
  obtain ⟨i,hi,rfl⟩ := mem_map.mp listed
  exact uncovered s miss l mem (date ▸ stampMem (keyed l mem) hi)

variable {env : Env}

theorem findInOk {h ref d found} (s : Sound env.toContext d h ref)
    (keyed : ∀ l ∈ leavesAt d h ref.k, l.Keyed) (date : stampOf key = ts)
    (ok : findIn env key ts h ref d = .ok found) : Finds (leavesAt d h ref.k) key found := by
  induction h generalizing ref found with
  | zero =>
    unfold findIn at ok
    split at ok
    · simp at ok
    rename_i leaf read
    cases ok
    have content : leavesAt d 0 ref.k = [leaf] := PageTree.leavesAtLeaf (by simp [Disk.view,(readLeafOk read).1])
    rw [content]
    cases listed : findListed leaf key with
    | none => simpa [Finds] using findListedNone.mp listed
    | some hit =>
      have spec := findListedSome listed
      exact ⟨spec.1,leaf,mem_singleton.mpr rfl,spec.2⟩
  | succ h ih =>
    obtain ⟨-,-,children,placed,-,-,below⟩ := id s
    unfold findIn at ok
    split at ok
    · simp at ok
    rename_i listed read
    have page := (readIndexOk read).1
    rw [placed.stored] at page
    cases page
    have leaves : leavesAt d (h+1) ref.k = children.flatMap (fun c => leavesAt d h c.k) :=
      PageTree.leavesAtIndex placed.indexView
    rw [leaves] at keyed ⊢
    refine findFirstOk (fun c mem r found => ?_) ok
    have inner : ∀ l ∈ leavesAt d h c.k, l.Keyed := fun l hl => keyed l (mem_flatMap.mpr ⟨c,mem,hl⟩)
    split at found
    · exact ih (below c mem) inner found
    rename_i miss
    cases found
    exact coverFinds (below c mem) inner date (by simpa using miss)

theorem Finds.shows {ls found} (h : Finds ls key found) :
    Shows (ls.flatMap Listing.catalog) key (found.getD .absent) := by
  cases found with
  | none =>
    intro listed
    rw [names,map_flatMap] at listed
    obtain ⟨l,hl,hk⟩ := mem_flatMap.mp listed
    exact h l hl hk
  | some hit =>
    obtain ⟨known,l,hl,shows⟩ := h
    cases hit with
    | active => exact mem_flatMap.mpr ⟨l,hl,shows⟩
    | retired r => exact mem_flatMap.mpr ⟨l,hl,shows⟩
    | absent => exact absurd rfl known

variable {refs : List Ref} {d : Disk}

theorem findOk
    (s : AllSound env.toContext d refs) (keyed : ∀ l ∈ forestLeaves d refs, l.Keyed) (date : stampOf key = ts)
    (ok : find env refs key ts d = .ok found) : Shows (paged d refs) key found := by
  unfold find at ok
  split at ok
  · simp at ok
  rename_i hit first
  cases ok
  refine Finds.shows (findFirstOk (fun r mem out got => ?_) first)
  have inner : ∀ l ∈ leavesAt d r.h r.k, l.Keyed := fun l hl => keyed l (mem_flatMap.mpr ⟨r,mem,hl⟩)
  split at got
  · exact findInOk (s r mem) inner date got
  rename_i miss
  cases got
  exact coverFinds (s r mem) inner date (by simpa using miss)

theorem lookupOk {root}
    (s : AllSound env.toContext d root.refs) (keyed : ∀ l ∈ forestLeaves d root.refs, l.Keyed) (date : stampOf key = ts)
    (ok : lookup env root key ts d = .ok found) : Shows (catalog d root) key found := by
  unfold lookup at ok
  split at ok
  · rename_i hit listed
    cases ok
    obtain ⟨known,shows⟩ := findListedSome listed
    cases found with
    | active => exact mem_append_left _ shows
    | retired r => exact mem_append_left _ shows
    | absent => exact absurd rfl known
  · rename_i missing
    have outside := findListedNone.mp missing
    have below := findOk s keyed date ok
    cases found with
    | active => exact mem_append_right _ below
    | retired r => exact mem_append_right _ below
    | absent =>
      rw [Shows,catalog,namesAppend,mem_append,not_or]
      exact ⟨outside,below⟩

theorem indexChildren {ref children} (s : Sound env.toContext d ref.h ref)
    (inner : ref.h ≠ 0) (read : readIndex env ref d = .ok children) :
    (∀ c ∈ children, Sound env.toContext d c.h c ∧ c.h + 1 = ref.h) ∧ forestLeaves d children = leavesAt d ref.h ref.k := by
  obtain ⟨h,height⟩ : ∃ h, ref.h = h + 1 := ⟨ref.h - 1,by omega⟩
  rw [height] at s ⊢
  obtain ⟨-,-,stored,placed,-,-,below⟩ := s
  have page := (readIndexOk read).1
  rw [placed.stored] at page
  cases page
  have level : ∀ c ∈ children, c.h = h := fun c mem => (below c mem).height
  refine ⟨fun c mem => ⟨level c mem ▸ below c mem,by rw [level c mem]⟩,?_⟩
  rw [leavesAt,PageTree.leavesAtIndex placed.indexView]
  exact flatMap_congr (fun c mem => by rw [level c mem])

theorem childrenSound {lists} (s : AllSound env.toContext d refs) (inner : ∀ r ∈ refs, r.h ≠ 0)
    (reads : List.Forall₂ (fun r cs => readIndex env r d = .ok cs) refs lists) :
    AllSound env.toContext d lists.flatten ∧ ∀ c ∈ lists.flatten, ∃ r ∈ refs, c.h + 1 = r.h := by
  constructor
  all_goals
    intro c mem
    obtain ⟨children,listed,inside⟩ := mem_flatten.mp mem
    obtain ⟨r,here,read⟩ := Lists.forall₂Left reads listed
    obtain ⟨sound,level⟩ := (indexChildren (s r here) (inner r here) read).1 c inside
  · exact sound
  · exact ⟨r,here,level⟩

theorem flattenHold {α : Type} {hold : Ref → List α} {lists}
    (index : ∀ r ∈ refs, ∀ cs, readIndex env r d = .ok cs → hold r = cs.flatMap hold)
    (reads : List.Forall₂ (fun r cs => readIndex env r d = .ok cs) refs lists) : lists.flatten.flatMap hold = refs.flatMap hold := by
  induction reads with
  | nil => rfl
  | @cons r cs rs css here _ ih =>
    rw [flatten_cons,flatMap_append,flatMap_cons,index r mem_cons_self cs here,ih (forall_mem_cons.mp index).2]

theorem collectLeavesHold {α : Type} (hold : Ref → List α) {select : Ref → Bool} {fuel ls}
    (s : AllSound env.toContext d refs) (tall : ∀ r ∈ refs, r.h < fuel)
    (index : ∀ r cs, Sound env.toContext d r.h r → r.h ≠ 0 → readIndex env r d = .ok cs → hold r = cs.flatMap hold)
    (skip : ∀ r, Sound env.toContext d r.h r → select r = false → hold r = [])
    (ok : collectLeaves env select fuel refs d = .ok ls) :
    (∀ r ∈ ls, Sound env.toContext d 0 r ∧ select r = true) ∧ (ls.flatMap hold).Perm (refs.flatMap hold) := by
  induction fuel generalizing refs ls with
  | zero =>
    cases refs with
    | nil => cases ok; exact ⟨by simp,.refl _⟩
    | cons r rest => exact absurd (tall r mem_cons_self) (by omega)
  | succ fuel ih =>
    obtain ⟨lists,read,ok⟩ := Results.bindOk ok
    obtain ⟨deeper,more,ok⟩ := Results.bindOk ok
    cases ok
    have reads := Lists.mapMOk read
    let chosen := refs.filter select
    let inner := chosen.filter (fun r => r.h ≠ 0)
    have chosenMem : ∀ r ∈ chosen, r ∈ refs ∧ select r = true := fun r mem => mem_filter.mp mem
    have innerSound : AllSound env.toContext d inner := fun r mem => s r (chosenMem r (mem_filter.mp mem).1).1
    have innerTall : ∀ r ∈ inner, r.h ≠ 0 := fun r mem => by simpa using (mem_filter.mp mem).2
    obtain ⟨sound,level⟩ := childrenSound innerSound innerTall reads
    obtain ⟨deep,rest⟩ := ih sound (fun c mem => by
      obtain ⟨r,hr,step⟩ := level c mem
      have := tall r (chosenMem r (mem_filter.mp hr).1).1
      omega) more
    constructor
    · intro r mem
      rcases mem_append.mp mem with here | there
      · have height : r.h = 0 := by simpa using (mem_filter.mp here).2
        obtain ⟨listed,selected⟩ := chosenMem r (mem_filter.mp here).1
        exact ⟨height ▸ s r listed,selected⟩
      · exact deep r there
    have pages : lists.flatten.flatMap hold = inner.flatMap hold :=
      flattenHold (fun r mem cs here => index r cs (innerSound r mem) (innerTall r mem) here) reads
    have levels : (chosen.filter (fun r => r.h = 0) ++ inner).Perm chosen := by
      simpa [inner] using filter_append_perm (fun r : Ref => decide (r.h = 0)) chosen
    have rejected : (refs.filter (fun r => !select r)).flatMap hold = [] := by
      refine flatMap_eq_nil_iff.mpr (fun r mem => ?_)
      obtain ⟨listed,out⟩ := mem_filter.mp mem
      exact skip r (s r listed) (by simpa using out)
    have all : (chosen ++ refs.filter (fun r => !select r)).Perm refs := filter_append_perm _ _
    rw [flatMap_append]
    refine (rest.append_left _).trans ?_
    rw [pages,← flatMap_append]
    refine (levels.flatMap_right hold).trans ?_
    have joined := all.flatMap_right hold
    rwa [flatMap_append,rejected,append_nil] at joined

theorem belowRounds (refs : List Ref) : ∀ r ∈ refs, r.h < rounds refs := by
  intro r mem
  have bound : ∀ hs : List Nat, ∀ h ∈ hs, h ≤ hs.foldr max 0 := by
    intro hs
    induction hs with
    | nil => simp
    | cons x xs ih =>
      exact forall_mem_cons.mpr ⟨Nat.le_max_left _ _,fun h later => (ih h later).trans (Nat.le_max_right _ _)⟩
  exact Nat.lt_succ_of_le (bound _ _ (mem_map_of_mem mem))

variable {pages : List Listing}

theorem readLeavesOk (s : ∀ r ∈ refs, Sound env.toContext d 0 r)
    (reads : List.Forall₂ (fun r l => readLeaf env r d = .ok l) refs pages) : forestLeaves d refs = pages := by
  induction reads with
  | nil => rfl
  | @cons r l rs ls read _ ih =>
    have content : leavesAt d 0 r.k = [l] := PageTree.leavesAtLeaf (by simp [Disk.view,(readLeafOk read).1])
    have head : leavesAt d r.h r.k = [l] := by rw [(s r mem_cons_self).height]; exact content
    rw [forestLeaves,flatMap_cons,head]
    exact congrArg (l::·) (ih (forall_mem_cons.mp s).2)

theorem mergeRetirements {retired : Dict Key Retirement}
    (distinct : (retired.keys ++ pages.flatMap (fun l => l.retired.keys)).Nodup) :
    (pages.foldl (fun retired page => retired.merge page.retired) retired).entries =
      retired.entries ++ pages.flatMap (fun l => l.retired.entries) := by
  induction pages generalizing retired with
  | nil => simp
  | cons l rest ih =>
    rw [flatMap_cons,← append_assoc] at distinct
    have here := (nodup_append.mp distinct).1
    have merged : (retired.merge l.retired).entries = retired.entries ++ l.retired.entries := by
      refine Dict.putAllFresh (fun e mem old => ?_) l.retired.distinct
      exact (nodup_append.mp here).2.2 _ old _ (mem_map_of_mem mem) rfl
    have keys : (retired.merge l.retired).keys = retired.keys ++ l.retired.keys := by
      rw [Dict.keys,merged,map_append]; rfl
    rw [foldl_cons,ih (by rw [keys]; exact distinct),merged,flatMap_cons,append_assoc]

theorem retiredNames (items : List Listing) :
    (items.flatMap (fun l => l.retired.keys)).Sublist (names (items.flatMap Listing.catalog)) := by
  rw [names,map_flatMap]
  refine flatMapSublist (fun l _ => ?_)
  rw [Listing.catalogKeys]
  exact sublist_append_right _ _

theorem gatherCatalog {tail : Listing} (distinct : (names (tail.catalog ++ pages.flatMap Listing.catalog)).Nodup) :
    (⟨Lists.sortDesc Segment.maxTs (tail.segments ++ pages.flatMap Listing.segments),
      pages.foldl (fun retired page => retired.merge page.retired) tail.retired⟩ : Listing).catalog.Perm
      (tail.catalog ++ pages.flatMap Listing.catalog) := by
  have keys : (tail.retired.keys ++ pages.flatMap (fun l => l.retired.keys)).Nodup := by
    refine distinct.sublist ?_
    rw [namesAppend]
    refine List.Sublist.append ?_ (retiredNames pages)
    rw [names,Listing.catalogKeys]
    exact sublist_append_right _ _
  have actives : ((Lists.sortDesc Segment.maxTs (tail.segments ++ pages.flatMap Listing.segments)).map Segment.key).Perm
      (tail.activeKeys ++ pages.flatMap Listing.activeKeys) := by
    refine ((Lists.sortDescPerm _ _).map _).trans (.of_eq ?_)
    rw [map_append,map_flatMap]
    rfl
  have split : ∀ ls : List Listing, (ls.flatMap Listing.catalog).Perm
      ((ls.flatMap Listing.activeKeys).map Item.active ++ (ls.flatMap (fun l => l.retired.entries)).map Item.retired) := by
    intro ls
    induction ls with
    | nil => exact .refl _
    | cons l rest ih =>
      simp only [flatMap_cons,map_append,Listing.catalog]
      refine (ih.append_left _).trans ?_
      simp only [append_assoc]
      refine List.Perm.append_left _ ?_
      rw [← append_assoc,← append_assoc]
      exact perm_append_comm.append_right _
  refine List.Perm.trans ?_ ((split pages).append_left _).symm
  unfold Listing.catalog
  rw [mergeRetirements keys,map_append]
  refine ((actives.map Item.active).append_right _).trans ?_
  simp only [map_append,append_assoc]
  refine List.Perm.append_left _ ?_
  rw [← append_assoc,← append_assoc]
  exact perm_append_comm.append_right _

theorem materializeOk {root maxBytes m}
    (s : AllSound env.toContext d root.refs) (distinct : (names (catalog d root)).Nodup)
    (ok : materialize env root maxBytes d = .ok m) : m.catalog.Perm (catalog d root) := by
  obtain ⟨leaves,collected,ok⟩ := Results.bindOk ok
  split at ok
  · cases ok
  obtain ⟨pages,read,ok⟩ := Results.bindOk ok
  cases ok
  obtain ⟨sound,total⟩ := collectLeavesHold (fun r => leavesAt d r.h r.k) s (belowRounds root.refs)
    (fun r cs here inner got => (indexChildren here inner got).2.symm) (fun r _ out => by simp at out) collected
  have content : (forestLeaves d leaves).Perm (forestLeaves d root.refs) := total
  rw [readLeavesOk (fun r mem => (sound r mem).1) (Lists.mapMOk read)] at content
  have same : (root.toListing.catalog ++ pages.flatMap Listing.catalog).Perm (catalog d root) :=
    (content.flatMap_right _).append_left _
  exact (gatherCatalog ((same.map _).nodup_iff.mpr distinct)).trans same

end Pulso.Journal
