import Pulso.JournalTree

/-! Packing a history at once and appending its leaves one by one give the same tree: on either way the full
groups of sixteen are packed a height up, and fewer than sixteen references stay behind on each height. -/
namespace Pulso.Journal
open List

inductive Tree where
  | leaf (ref : Ref)
  | index (children : List Tree)

def Shaped (d : Disk) : Nat → Tree → Ref → Prop
  | 0,t,ref => ref.h = 0 ∧ t = .leaf ref
  | h+1,t,ref => ref.h = h+1 ∧ ∃ ts children, t = .index ts ∧ d.view ref.k = some (.index children) ∧
      List.Forall₂ (Shaped d h) ts children

inductive Packed (d : Disk) : Nat → List Tree → List Ref → Prop where
  | nil {h} : Packed d h [] []
  | level {h} {groups : List (List Tree)} {rest : List Tree} {above refs : List Ref}
      (full : ∀ g ∈ groups, g.length = fanout) (few : rest.length < fanout)
      (here : List.Forall₂ (Shaped d h) rest refs) (up : Packed d (h+1) (groups.map .index) above) :
      Packed d h (groups.flatten ++ rest) (above ++ refs)

variable {env : Env} {d d' : Disk} {h fuel : Nat} {t : Tree} {ts : List Tree} {r : Ref} {refs refs' : List Ref}

theorem Shaped.height (s : Shaped d h t r) : r.h = h := by
  cases h with
  | zero => exact s.1
  | succ h => exact s.1

theorem Shaped.grows (g : Grows d d') (s : Shaped d h t r) : Shaped d' h t r := by
  induction h generalizing t r with
  | zero => exact s
  | succ h ih =>
    obtain ⟨height,ts,children,rfl,page,below⟩ := s
    exact ⟨height,ts,children,rfl,g.view _ _ page,below.imp (fun _ _ s => ih s)⟩

theorem Packed.grows (g : Grows d d') (p : Packed d h ts refs) : Packed d' h ts refs := by
  induction p with
  | nil => exact .nil
  | level full few here _ ih => exact .level full few (here.imp (fun _ _ s => s.grows g)) ih

theorem Packed.few (few : ts.length < fanout) (s : List.Forall₂ (Shaped d h) ts refs) : Packed d h ts refs :=
  .level (by simp : ∀ g ∈ ([] : List (List Tree)), _) few s .nil

theorem shapedHeights (s : List.Forall₂ (Shaped d h) ts refs) : ∀ r ∈ refs, r.h = h := by
  intro r mem
  obtain ⟨i,inside,rfl⟩ := mem_iff_getElem.mp mem
  exact (s.get (s.length_eq ▸ inside) inside).height

theorem indexRefShaped (a : d.Allocated) (s : List.Forall₂ (Shaped d h) ts refs) (some : refs ≠ [])
    (ok : indexRef env refs d = (.ok r,d')) : Grows d d' ∧ Shaped d' (h+1) (.index ts) r := by
  have height := indexRefHeight (shapedHeights s) some ok
  simp only [indexRef,Op.bindOk,Op.liftOk,Op.pureOk] at ok
  obtain ⟨stub,d₁,put,stats,d₂,⟨-,rfl⟩,rfl,rfl⟩ := ok
  have spec := putPageSpec a put
  refine ⟨spec.grows,height,ts,refs,rfl,by simp [Disk.view,spec.stored],?_⟩
  exact s.imp (fun _ _ s => s.grows spec.grows)

theorem unflatten {gs} (s : List.Forall₂ (Shaped d h) ts gs.flatten) :
    ∃ tss, ts = tss.flatten ∧ List.Forall₂ (List.Forall₂ (Shaped d h)) tss gs := by
  induction gs generalizing ts with
  | nil => exact ⟨[],by simpa using s,.nil⟩
  | cons g gs ih =>
    obtain ⟨tss,rest,groups⟩ := ih (forall₂_drop_append _ _ _ s)
    exact ⟨_,by rw [flatten_cons,← rest,take_append_drop],.cons (forall₂_take_append _ _ _ s) groups⟩

theorem parentsShaped {gs tss} (a : d.Allocated)
    (long : ∀ g ∈ gs, g.length = fanout) (s : List.Forall₂ (List.Forall₂ (Shaped d h)) tss gs)
    (ok : Op.each (indexRef env) gs d = (.ok refs,d')) :
    Grows d d' ∧ List.Forall₂ (Shaped d' (h+1)) (tss.map .index) refs := by
  induction gs generalizing d refs tss with
  | nil =>
    obtain ⟨rfl,rfl⟩ := Op.pureOk.mp ok
    cases s
    exact ⟨.refl _,.nil⟩
  | cons g gs ih =>
    obtain _ | ⟨head,tail⟩ := s
    simp only [Op.each,Op.bindOk,Op.pureOk] at ok
    obtain ⟨r,d₁,made,rest,d₂,ok,rfl,rfl⟩ := ok
    have some : g ≠ [] := ne_nil_of_length_pos (by rw [long g mem_cons_self]; decide)
    obtain ⟨grows,shaped⟩ := indexRefShaped a head some made
    have later := tail.imp (fun _ _ s => s.imp (fun _ _ s => Shaped.grows grows s))
    obtain ⟨more,parents⟩ := ih (grows.allocated a) (forall_mem_cons.mp long).2 later ok
    exact ⟨grows.trans more,.cons (shaped.grows more) parents⟩

theorem buildPacked (a : d.Allocated) (s : List.Forall₂ (Shaped d h) ts refs) (enough : refs.length ≤ fuel)
    (ok : build env fuel refs d = (.ok refs',d')) : Grows d d' ∧ Packed d' h ts refs' := by
  induction fuel generalizing ts refs refs' d h with
  | zero =>
    obtain ⟨rfl,rfl⟩ := Op.pureOk.mp ok
    cases eq_nil_of_length_eq_zero (Nat.le_zero.mp enough)
    cases s
    exact ⟨.refl _,.nil⟩
  | succ fuel ih =>
    unfold build at ok
    dsimp only at ok
    split at ok
    · rename_i none
      obtain ⟨rfl,rfl⟩ := Op.pureOk.mp ok
      exact ⟨.refl _,.few (s.length_eq ▸ Nat.lt_of_div_eq_zero (by decide) none) s⟩
    simp only [Op.bindOk,Op.pureOk] at ok
    obtain ⟨parents,d₁,made,packed,d₂,rest,rfl,rfl⟩ := ok
    obtain ⟨cut,long⟩ := groupsSpec (Nat.div_mul_le_self refs.length fanout)
    obtain ⟨tss,front,groups⟩ := unflatten (by rw [cut]; exact forall₂_take _ s)
    obtain ⟨first,shaped⟩ := parentsShaped a long groups made
    have fewer : parents.length ≤ fuel := by
      rw [Op.eachLength made,groupsLength]
      simp only [fanout] at *
      omega
    obtain ⟨second,up⟩ := ih (first.allocated a) shaped fewer rest
    have grows := first.trans second
    rw [← take_append_drop (refs.length / fanout * fanout) ts,front]
    refine ⟨grows,.level (fun g mem => ?_) ?_ ((forall₂_drop _ s).imp (fun _ _ s => s.grows grows)) up⟩
    · obtain ⟨i,inside,rfl⟩ := mem_iff_getElem.mp mem
      have inside' := groups.length_eq ▸ inside
      exact (groups.get inside inside').length_eq.trans (long _ (getElem_mem inside'))
    rw [length_drop,s.length_eq]
    simp only [fanout]
    omega

theorem trailingLength {above} (low : ∀ x ∈ refs, x.h = h) (new : r.h = h) (high : ∀ x ∈ above, h < x.h) :
    (trailing (above ++ (refs ++ [r]))).length = refs.length + 1 := by
  have stops : above.reverse.takeWhile (fun x => x.h = h) = [] := by
    rw [takeWhile_eq_nil_iff]
    intro some
    have more := high _ (mem_reverse.mp (getElem_mem some))
    simpa using more.ne'
  have run : ∀ x ∈ refs.reverse, decide (x.h = h) = true := by simpa using low
  simp [trailing,new,takeWhile_append_of_pos run,stops]

theorem Packed.high (p : Packed d h ts refs) : ∀ r ∈ refs, h ≤ r.h := by
  induction p with
  | nil => simp
  | level _ _ here _ ih =>
    intro r mem
    rcases mem_append.mp mem with above | low
    · exact Nat.le_of_succ_le (ih r above)
    · exact (shapedHeights here r low).ge

theorem carryPacked {e} (p : Packed d h ts refs) (g : Grows d e) (a : e.Allocated) (s : Shaped e h t r)
    (enough : refs.length < fuel) (ok : carry env fuel (refs ++ [r]) e = (.ok refs',d')) :
    Grows e d' ∧ Packed d' h (ts ++ [t]) refs' := by
  induction p generalizing t r fuel e with
  | nil =>
    obtain _ | fuel := fuel
    · simp at enough
    unfold carry at ok
    rw [if_neg (by simp [trailing,fanout])] at ok
    obtain ⟨rfl,rfl⟩ := Op.pureOk.mp ok
    exact ⟨.refl _,.few (by simp [fanout]) (.cons s .nil)⟩
  | @level h groups rest above refs full few here up ih =>
    obtain _ | fuel := fuel
    · simp at enough
    have here := here.imp (fun _ _ s => Shaped.grows g s)
    have last := rel_append here (.cons s .nil)
    have count := here.length_eq
    rw [append_assoc] at ok ⊢
    unfold carry at ok
    rw [trailingLength (shapedHeights here) s.height up.high] at ok
    split at ok
    · rename_i more
      have full' : refs.length + 1 = fanout := by omega
      have split : (above ++ (refs ++ [r])).length - fanout = above.length := by simp [full']
      simp only [Op.bindOk,split,drop_left,take_left] at ok
      obtain ⟨parent,d₁,made,ok⟩ := ok
      obtain ⟨first,shaped⟩ := indexRefShaped a last (by simp) made
      simp only [length_append,fanout] at enough full'
      obtain ⟨second,packed⟩ := ih (g.trans first) (first.allocated a) shaped (by omega) ok
      have whole : groups.flatten ++ (rest ++ [t]) = (groups ++ [rest ++ [t]]).flatten ++ [] := by simp
      have long : ∀ g ∈ groups ++ [rest ++ [t]], g.length = fanout := by
        intro g mem
        rcases mem_append.mp mem with old | new
        · exact full g old
        · rw [mem_singleton.mp new,length_append,count,fanout]
          exact full'
      rw [whole,← append_nil refs']
      exact ⟨first.trans second,.level long (by decide) .nil (by simpa using packed)⟩
    · rename_i less
      obtain ⟨rfl,rfl⟩ := Op.pureOk.mp ok
      exact ⟨.refl _,.level full (by simp; omega) last (up.grows g)⟩

theorem pushAllPacked {leaves} (a : d.Allocated) (p : Packed d 0 ts refs) (level : ∀ r ∈ leaves, r.h = 0)
    (ok : pushAll env refs leaves d = (.ok refs',d')) : Packed d' 0 (ts ++ leaves.map .leaf) refs' := by
  induction leaves generalizing ts refs d with
  | nil =>
    obtain ⟨rfl,rfl⟩ := Op.pureOk.mp ok
    simpa using p
  | cons leaf leaves ih =>
    simp only [pushAll,Op.bindOk] at ok
    obtain ⟨refs₁,d₁,pushed,ok⟩ := ok
    have shaped : Shaped d 0 (.leaf leaf) leaf := ⟨level leaf mem_cons_self,rfl⟩
    obtain ⟨grows,packed⟩ := carryPacked p (.refl d) a shaped (Nat.lt_succ_self _) pushed
    simpa using ih (grows.allocated a) packed (forall_mem_cons.mp level).2 ok

theorem groupsUnique {gs gs' : List (List Tree)} {rest rest'} (full : ∀ g ∈ gs, g.length = fanout)
    (full' : ∀ g ∈ gs', g.length = fanout) (few : rest.length < fanout) (few' : rest'.length < fanout)
    (same : gs.flatten ++ rest = gs'.flatten ++ rest') : gs = gs' ∧ rest = rest' := by
  induction gs generalizing gs' with
  | nil =>
    cases gs' with
    | nil => exact ⟨rfl,same⟩
    | cons g gs' =>
      have count := congrArg List.length same
      simp [full' g mem_cons_self] at count
      omega
  | cons g gs ih =>
    have long := full g mem_cons_self
    cases gs' with
    | nil =>
      have count := congrArg List.length same
      simp [long] at count
      omega
    | cons g' gs' =>
      simp only [flatten_cons,append_assoc] at same
      obtain ⟨rfl,tails⟩ := append_inj same (long.trans (full' g' mem_cons_self).symm)
      obtain ⟨rfl,rfl⟩ := ih (forall_mem_cons.mp full).2 (fun g mem => full' g (mem_cons_of_mem _ mem)) tails
      exact ⟨rfl,rfl⟩

theorem Packed.empty (p : Packed d h ts refs) (none : ts = []) : refs = [] := by
  induction p with
  | nil => rfl
  | level full few here up ih =>
    obtain ⟨rfl,rfl⟩ := groupsUnique full (by simp : ∀ g ∈ ([] : List (List Tree)), _) few (by decide : [].length < fanout) none
    cases here
    rw [ih rfl,append_nil]

def Alike (d d' : Disk) (r r' : Ref) : Prop := ∃ t, Shaped d r.h t r ∧ Shaped d' r.h t r'

theorem alikeLevel (s : List.Forall₂ (Shaped d h) ts refs) (s' : List.Forall₂ (Shaped d' h) ts refs') :
    List.Forall₂ (Alike d d') refs refs' := by
  induction s generalizing refs' with
  | nil =>
    cases s'
    exact .nil
  | cons head _ ih =>
    obtain _ | ⟨head',tail'⟩ := s'
    have height := head.height
    exact .cons ⟨_,height ▸ head,height ▸ head'⟩ (ih tail')

theorem Packed.alike {ts' : List Tree} (p : Packed d h ts refs) (p' : Packed d' h ts' refs') (same : ts = ts') :
    List.Forall₂ (Alike d d') refs refs' := by
  induction p generalizing ts' refs' with
  | nil =>
    rw [p'.empty same.symm]
    exact .nil
  | level full few here up ih =>
    cases p' with
    | nil =>
      rw [(Packed.level full few here up).empty same]
      exact .nil
    | level full' few' here' up' =>
      obtain ⟨rfl,rfl⟩ := groupsUnique full full' few few' same
      exact rel_append (ih up' rfl) (alikeLevel here here')

theorem Packed.descends (p : Packed d h ts refs) : refs.Pairwise (fun r r' => r'.h ≤ r.h) := by
  induction p with
  | nil => exact .nil
  | level _ _ here up ih =>
    have low := shapedHeights here
    refine pairwise_append.mpr ⟨ih,pairwise_of_forall_mem_list ?_,?_⟩
    · intro r mem r' mem'
      exact ((low r' mem').trans (low r mem).symm).le
    · intro r mem r' mem'
      exact (low r' mem').trans_le (Nat.le_of_succ_le (up.high r mem))

theorem Packed.fewEach (p : Packed d h ts refs) (k : Nat) : refs.countP (fun r => r.h = k) < fanout := by
  induction p with
  | nil => simp [fanout]
  | @level h _ rest above refs _ few here up ih =>
    rw [countP_append]
    by_cases here_ : k = h
    · have none : above.countP (fun r => r.h = k) = 0 := by
        refine countP_eq_zero.mpr (fun r mem => ?_)
        have := up.high r mem
        simp; omega
      have some := countP_le_length (p := fun r : Ref => r.h = k) (l := refs)
      have count := here.length_eq
      omega
    · have none : refs.countP (fun r => r.h = k) = 0 := by
        refine countP_eq_zero.mpr (fun r mem => ?_)
        rw [shapedHeights here r mem]
        simpa using Ne.symm here_
      omega

/-- Build and repeated push return references of the same heights over the same leaves in the same groups, with
non-increasing heights and fewer than sixteen of each. -/
theorem buildIsPushed {env env' : Env} {d d₁ e e₁ : Disk} {leaves built pushed : List Ref} (level : ∀ r ∈ leaves, r.h = 0)
    (a : d.Allocated) (a' : e.Allocated) (whole : build env leaves.length leaves d = (.ok built,d₁))
    (single : pushAll env' [] leaves e = (.ok pushed,e₁)) :
    List.Forall₂ (Alike d₁ e₁) built pushed ∧ built.Pairwise (fun r r' => r'.h ≤ r.h) ∧
      ∀ h, built.countP (fun r => r.h = h) < fanout := by
  have shaped : List.Forall₂ (Shaped d 0) (leaves.map .leaf) leaves := by
    rw [forall₂_map_left_iff,forall₂_same]
    exact fun r mem => ⟨level r mem,rfl⟩
  obtain ⟨-,packed⟩ := buildPacked a shaped (Nat.le_refl _) whole
  exact ⟨packed.alike (pushAllPacked a' .nil level single) rfl,packed.descends,packed.fewEach⟩

namespace Sample

def shelf : List Ref := List.replicate 17 ⟨⟨⟨[],0,.leaf⟩,1,0⟩,⟨0,1,1,none,none,0,0,none,none⟩,0,none⟩
def open_ : Env := .calm ⟨ascii "t",.logs⟩ 0 0 (fun _ => 0)

end Sample

theorem buildIsPushedSeventeen : ∃ built pushed d e, build Sample.open_ 17 Sample.shelf .blank = (.ok built,d) ∧
    built.length = 2 ∧ pushAll Sample.open_ [] Sample.shelf .blank = (.ok pushed,e) ∧ List.Forall₂ (Alike d e) built pushed := by
  have blank : Disk.blank.Allocated := by simp [Disk.Allocated,Disk.blank]
  have whole := Op.doneOk (x := build Sample.open_ 17 Sample.shelf) (d := .blank) (by decide +kernel)
  have single := Op.doneOk (x := pushAll Sample.open_ [] Sample.shelf) (d := .blank) (by decide +kernel)
  exact ⟨_,_,_,_,whole,by decide +kernel,single,(buildIsPushed (by decide) blank blank whole single).1⟩

end Pulso.Journal
