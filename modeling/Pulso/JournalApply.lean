import Pulso.JournalRewrite

/-! Applying planned changes to the current references, and the garbage lists that record
the pages a change superseded. -/
namespace Pulso.Journal
open PageTree (Exchange)
open List

section Substitute
variable {ctx : Context} {R : Listing → Option Listing → Prop} {d : Disk} {refs : List Ref} {changes : List Change}

theorem memApplied {c} : c ∈ appliedTo refs changes ↔ c ∈ changes ∧ c.key ∈ refs.map (fun r => r.k) := by
  simp [appliedTo]

theorem splitChanges (refs : List Ref) (changes : List Change) :
    (appliedTo refs changes ++ staleFor refs changes).Perm changes := filter_append_perm _ _

theorem replacementOf (keys : (changes.map Change.key).Nodup) {r} (mem : r ∈ refs) :
    (r.k ∉ changes.map Change.key ∧ replacement (appliedTo refs changes) r = [r]) ∨
      ∃ c ∈ changes, c.key = r.k ∧ replacement (appliedTo refs changes) r = c.ref.toList := by
  let pairs := (appliedTo refs changes).map (fun c => (c.key,c.ref))
  have names : pairs.map Prod.fst = (appliedTo refs changes).map Change.key := by simp [pairs,Function.comp_def]
  have entries : (Dict.ofList pairs).entries = pairs := by
    have fresh : ∀ e ∈ pairs, e.1 ∉ (Dict.empty : Dict PageKey (Option Ref)).keys := by simp [Dict.keys,Dict.empty]
    have unique : (pairs.map Prod.fst).Nodup := names ▸ keys.sublist (filter_sublist.map _)
    simpa [Dict.ofList,Dict.empty] using Dict.putAllFresh fresh unique
  by_cases planned : r.k ∈ changes.map Change.key
  · obtain ⟨c,hc,same⟩ := mem_map.mp planned
    have applied : c ∈ appliedTo refs changes := memApplied.mpr ⟨hc,same ▸ mem_map_of_mem mem⟩
    refine .inr ⟨c,hc,same,?_⟩
    have found : (Dict.ofList pairs).get? r.k = some c.ref := by
      rw [Dict.getIff,entries,← same]
      exact mem_map.mpr ⟨c,applied,rfl⟩
    simp only [replacement]
    rw [found]
  · refine .inl ⟨planned,?_⟩
    have missing : (Dict.ofList pairs).get? r.k = none := by
      rw [Dict.getNone,Dict.keys,entries,names]
      intro listed
      obtain ⟨c,hc,same⟩ := mem_map.mp listed
      exact planned (same ▸ mem_map_of_mem (memApplied.mp hc).1)
    simp only [replacement]
    rw [missing]

def changeAt (changes : List Change) (r : Ref) : Option Change := changes.find? (fun c => decide (c.key = r.k))

theorem changeAtSome (keys : (changes.map Change.key).Nodup) {c r} (mem : c ∈ changes) (same : c.key = r.k) :
    changeAt changes r = some c := by
  cases found : changeAt changes r with
  | none => exact absurd same (by simpa using find?_eq_none.mp found c mem)
  | some c' =>
    have key : c'.key = r.k := by simpa using find?_some found
    have equal := inj_on_of_nodup_map keys (mem_of_find?_eq_some found) mem (key.trans same.symm)
    rw [equal]

theorem changeAtNone {r} (absent : r.k ∉ changes.map Change.key) : changeAt changes r = none := by
  refine find?_eq_none.mpr (fun c mem => ?_)
  simp only [decide_eq_true_eq]
  exact fun same => absent (same ▸ mem_map_of_mem mem)

theorem changeAtMem {c r} (found : changeAt changes r = some c) : c ∈ changes ∧ c.key = r.k :=
  ⟨mem_of_find?_eq_some found,by simpa using find?_some found⟩

theorem appliedPerm (keys : (changes.map Change.key).Nodup) (distinct : (refs.map (fun r => r.k)).Nodup) :
    (refs.filterMap (changeAt changes)).Perm (appliedTo refs changes) := by
  have names : ((refs.filterMap (changeAt changes)).map Change.key).Sublist (refs.map (fun r => r.k)) :=
    (Carries.filterMap (changeAt changes) refs).sublist (fun r _ c h => (changeAtMem h.symm).2)
  refine (perm_ext_iff_of_nodup (List.Nodup.of_map _ (distinct.sublist names))
    ((List.Nodup.of_map _ keys).filter _)).mpr (fun c => ?_)
  rw [← appliedTo,memApplied,mem_filterMap]
  constructor
  · rintro ⟨r,mem,found⟩
    have at_r := changeAtMem found
    exact ⟨at_r.1,at_r.2 ▸ mem_map_of_mem mem⟩
  rintro ⟨mem,listed⟩
  obtain ⟨r,hr,same⟩ := mem_map.mp listed
  exact ⟨r,hr,changeAtSome keys mem same.symm⟩

structure SubstituteSpec (ctx : Context) (R : Listing → Option Listing → Prop) (d : Disk) (refs refs' : List Ref)
    (changes : List Change) : Prop where
  sound : AllSound ctx d refs'
  exchange : Exchange (forestKeys d refs) (forestKeys d refs')
    ((appliedTo refs changes).flatMap Change.superseded) ((appliedTo refs changes).flatMap Change.written)
  leaves : ∀ S : Listing → Option Listing → Prop, (∀ l o, R l o → S l o) →
    (∀ r ∈ refs, r.k ∉ changes.map Change.key → Carries S (leavesAt d r.h r.k) (leavesAt d r.h r.k)) →
    Carries S (forestLeaves d refs) (forestLeaves d refs')
  heights : (refs'.map (fun r => r.h)).Sublist (refs.map (fun r => r.h))
  tops : ∀ r ∈ refs', (r ∈ refs ∧ r.k ∉ changes.map Change.key) ∨ r.k ∈ changes.flatMap Change.written

theorem flatMapSublist {α β : Type} {f g : α → List β} {xs : List α} (each : ∀ x ∈ xs, (f x).Sublist (g x)) :
    (xs.flatMap f).Sublist (xs.flatMap g) := by
  induction xs with
  | nil => exact .slnil
  | cons x xs ih =>
    simp only [flatMap_cons]
    exact (each x mem_cons_self).append (ih (forall_mem_cons.mp each).2)

theorem flatMapFilterMap {α β γ : Type} (f : α → Option β) (g : β → List γ) (xs : List α) :
    (xs.filterMap f).flatMap g = xs.flatMap (fun x => (f x).toList.flatMap g) :=
  (Carries.filterMap f xs).flatMapEq (fun x _ y h => by simp [← h]) (fun x _ h => by simp [← h])

theorem substituteSpec (s : AllSound ctx d refs) (distinct : (refs.map (fun r => r.k)).Nodup)
    (plan : PlanOk ctx R d changes) :
    SubstituteSpec ctx R d refs (refs.flatMap (replacement (appliedTo refs changes))) changes := by
  have at_ref : ∀ r ∈ refs, (changeAt changes r = none ∧ replacement (appliedTo refs changes) r = [r] ∧
        r.k ∉ changes.map Change.key) ∨
      ∃ c, changeAt changes r = some c ∧ replacement (appliedTo refs changes) r = c.ref.toList ∧
        ChangeSpec ctx R d r c := by
    intro r mem
    rcases replacementOf plan.keys mem with ⟨absent,same⟩ | ⟨c,hc,key,same⟩
    · exact .inl ⟨changeAtNone absent,same,absent⟩
    · exact .inr ⟨c,changeAtSome plan.keys hc key,same,(plan.each c hc).at (s r mem) key⟩
  have applied := appliedPerm plan.keys distinct
  refine ⟨?_,?_,?_,?_,?_⟩
  · intro new mem
    obtain ⟨r,hr,hn⟩ := mem_flatMap.mp mem
    rcases at_ref r hr with ⟨_,same,_⟩ | ⟨c,_,same,spec⟩
    · rw [same,mem_singleton] at hn; exact hn ▸ s r hr
    · rw [same] at hn; exact spec.sound new hn
  · have each : ∀ r ∈ refs, Exchange (keysAt d r.h r.k) (forestKeys d (replacement (appliedTo refs changes) r))
        ((changeAt changes r).toList.flatMap Change.superseded) ((changeAt changes r).toList.flatMap Change.written) := by
      intro r mem
      rcases at_ref r mem with ⟨none,same,_⟩ | ⟨c,found,same,spec⟩
      · rw [none,same]; simpa [forestKeys] using Exchange.refl (keysAt d r.h r.k)
      · rw [found,same]; simpa using spec.exchange
    have total := Exchange.flatMap each
    rw [← flatMapFilterMap,← flatMapFilterMap] at total
    have swapped : Exchange (forestKeys d refs) (refs.flatMap (fun r => forestKeys d (replacement (appliedTo refs changes) r)))
        ((appliedTo refs changes).flatMap Change.superseded) ((appliedTo refs changes).flatMap Change.written) :=
      ((applied.flatMap_right _).append_right _).symm.trans (List.Perm.trans total ((applied.flatMap_right _).append_left _))
    simpa [forestKeys,flatMap_assoc] using swapped
  · intro S le quiet
    rw [forestLeaves,forestLeaves,flatMap_assoc]
    refine Carries.flatMap (fun r mem => ?_)
    rcases at_ref r mem with ⟨_,same,absent⟩ | ⟨c,_,same,spec⟩
    · rw [same]
      simpa using quiet r mem absent
    · rw [same]
      exact spec.leaves.mono (fun l _ o h => le l o h)
  · rw [map_flatMap,map_eq_flatMap]
    refine flatMapSublist (fun r mem => ?_)
    rcases at_ref r mem with ⟨_,same,_⟩ | ⟨c,_,same,spec⟩
    · rw [same]; exact List.Sublist.refl _
    rw [same]
    cases new : c.ref with
    | none => exact nil_sublist _
    | some n => simp [spec.height n (by simp [new])]
  · intro new mem
    obtain ⟨r,hr,hn⟩ := mem_flatMap.mp mem
    rcases at_ref r hr with ⟨_,same,absent⟩ | ⟨c,found,same,spec⟩
    · rw [same,mem_singleton] at hn
      exact .inl ⟨hn ▸ hr,hn ▸ absent⟩
    · rw [same] at hn
      exact .inr (mem_flatMap.mpr ⟨c,(changeAtMem found).1,spec.top new hn⟩)

end Substitute
def listed (d : Disk) (r : GcRef) : List PageKey :=
  match d.pages r.k with
  | some ⟨.gc keys,_⟩ => keys
  | _ => []

def garbage (d : Disk) (p : Paging) : List PageKey := p.g.map GcEntry.key ++ p.gr.flatMap (listed d)

structure GcPlaced (ctx : Context) (d : Disk) (r : GcRef) : Prop where
  stored : ∃ keys, d.pages r.k = some ⟨.gc keys,r.b⟩
  digest : r.k.sha = r.sha
  kind : r.k.kind = .gc
  journal : r.k.In ctx.scope
  bytes : 1 ≤ r.b ∧ r.b ≤ pageLimit

def GcSound (ctx : Context) (d : Disk) (gr : List GcRef) : Prop := ∀ r ∈ gr, GcPlaced ctx d r

theorem GcSound.grows {ctx d d' gr} (s : GcSound ctx d gr) (g : Grows d d') : GcSound ctx d' gr := by
  intro r mem
  obtain ⟨⟨keys,page⟩,rest⟩ := s r mem
  exact ⟨⟨keys,g.pages _ _ page⟩,‹_›,‹_›,‹_›,‹_›⟩

theorem GcSound.listedGrow {ctx d d' gr} (s : GcSound ctx d gr) (g : Grows d d') :
    gr.flatMap (listed d') = gr.flatMap (listed d) := by
  refine flatMap_congr (fun r mem => ?_)
  obtain ⟨keys,page⟩ := (s r mem).stored
  simp [listed,page,g.pages _ _ page]

theorem garbageGrow {ctx d d' p} (s : GcSound ctx d p.gr) (g : Grows d d') : garbage d' p = garbage d p := by
  simp [garbage,s.listedGrow g]

structure Frame (p p' : Paging) : Prop where
  nonce : p'.nonce = p.nonce
  cc : p'.cc = p.cc
  rc : p'.rc = p.rc
  rf : p'.rf = p.rf

structure SupersedeSpec (ctx : Context) (d d' : Disk) (root root' : Root) (keys : List PageKey) : Prop where
  grows : Grows d d'
  listing : root'.toListing = root.toListing
  refs : root'.paging.refs = root.paging.refs
  frame : Frame root.paging root'.paging
  gc : GcSound ctx d' root'.paging.gr
  garbage : (garbage d' root'.paging).Perm (garbage d root.paging ++ keys)

theorem supersedeSpec {env root root' keys deadline d d'} (a : d.Allocated) (s : GcSound env.toContext d root.paging.gr)
    (ok : supersede env root keys deadline d = (.ok root',d')) :
    SupersedeSpec env.toContext d d' root root' keys := by
  unfold supersede at ok
  split at ok
  · rename_i none
    obtain ⟨rfl,rfl⟩ := Op.pureOk.mp ok
    exact ⟨.refl _,rfl,rfl,⟨rfl,rfl,rfl,rfl⟩,s,by simp [none]⟩
  dsimp only at ok
  split at ok
  · obtain ⟨rfl,rfl⟩ := Op.pureOk.mp ok
    refine ⟨.refl _,rfl,rfl,⟨rfl,rfl,rfl,rfl⟩,s,?_⟩
    simp only [garbage,map_append,map_map,Function.comp_def,map_id',append_assoc]
    exact perm_append_comm.append_left _
  simp only [Op.bindOk,Op.requireOk,Op.pureOk] at ok
  obtain ⟨stub,d₁,put,_,d₂,⟨room,rfl⟩,rfl,rfl⟩ := ok
  have spec := putPageSpec a put
  have page := spec.stored
  refine ⟨spec.grows,rfl,rfl,⟨rfl,rfl,rfl,rfl⟩,?_,?_⟩
  · intro r mem
    rcases mem_append.mp mem with old | new
    · exact (s.grows spec.grows) r old
    rw [mem_singleton] at new
    subst new
    exact ⟨⟨_,page⟩,by rw [spec.key,spec.sha],by rw [spec.key],by rw [PageKey.In,spec.key],spec.bytes⟩
  · simp only [garbage,map_nil,nil_append,flatMap_append,s.listedGrow spec.grows,flatMap_cons,flatMap_nil,append_nil]
    simp only [listed,page,map_append,map_map,Function.comp_def,map_id']
    rw [append_assoc]
    refine perm_append_comm.trans ?_
    rw [append_assoc]
    exact perm_append_comm.append_left _

end Pulso.Journal
