import Pulso.IssuerNode
import Pulso.Results

/-! Verdicts with and without the cache of verified claims. A cached entry speaks for a signature
that was verified, but not for its key still being the only one of its kid. -/
namespace Pulso.Auth
open Pulso.Results List

variable {keys : List Key} {key : Key} {jwt : Bytes} {status : Option Status} {claims : Object}

section Verification
variable {p : Platform}

theorem selectKeyOk {alg kid} (ok : selectKey keys alg kid = .ok key) :
    keys.filter (fun k => k.kid = kid) = [key] ∧ key.kid = kid ∧ key.alg = alg := by
  unfold selectKey at ok
  split at ok
  case h_1 found =>
    split at ok
    · rename_i same
      cases ok
      have mem : key ∈ keys.filter (fun k => k.kid = kid) := found ▸ mem_cons_self
      exact ⟨found,of_decide_eq_true (mem_filter.mp mem).2,same⟩
    · cases ok
  · cases ok
  · cases ok

theorem selectHeld (mem : key ∈ keys) : selectKey keys key.alg key.kid =
      if 1 < (keys.filter (fun k => k.kid = key.kid)).length then .error .ambiguousKey else .ok key := by
  have listed : key ∈ keys.filter (fun k => k.kid = key.kid) := mem_filter.mpr ⟨mem,by simp⟩
  unfold selectKey
  generalize keys.filter (fun k => k.kid = key.kid) = found at listed ⊢
  rcases found with _ | ⟨first,_ | ⟨second,rest⟩⟩
  · cases listed
  · rw [mem_singleton] at listed
    simp [listed]
  · simp

structure Signed (p : Platform) (jwt : Bytes) (types : List Bytes) (key : Key) (claims : Object) : Prop where
  verified : ∃ header input signature, p.split jwt = some (header,input,signature) ∧
    checkHeader p header types = .ok (key.alg,key.kid) ∧ signed p key input signature = true ∧
    claimsOf p input = .ok claims

theorem verifySignedOk {types} (ok : verifySigned p jwt types keys status = .ok (key,claims)) :
    Signed p jwt types key claims ∧ key.kid ∉ revokedKids status ∧ keys.filter (fun k => k.kid = key.kid) = [key] := by
  unfold verifySigned at ok
  split at ok
  · cases ok
  rename_i header input signature parts
  obtain ⟨⟨alg,kid⟩,checked,rest⟩ := bindOk ok
  dsimp only at rest
  split at rest
  · cases rest
  rename_i unrevoked
  obtain ⟨chosen,selected,rest⟩ := bindOk rest
  split at rest
  case isTrue valid =>
    obtain ⟨found,decoded,same⟩ := bindOk rest
    cases same
    obtain ⟨only,rfl,rfl⟩ := selectKeyOk selected
    exact ⟨⟨header,input,signature,parts,checked,valid,decoded⟩,unrevoked,only⟩
  · cases rest

theorem verifyAgain {types}
    (genuine : Signed p jwt types key claims) (unrevoked : key.kid ∉ revokedKids status) (mem : key ∈ keys) :
    verifySigned p jwt types keys status =
      if 1 < (keys.filter (fun k => k.kid = key.kid)).length then .error .ambiguousKey else .ok (key,claims) := by
  obtain ⟨header,input,signature,parts,checked,valid,decoded⟩ := genuine
  unfold verifySigned
  rw [parts]
  simp only [checked,bind,Except.bind,if_neg unrevoked,selectHeld mem]
  by_cases many : 1 < (keys.filter (fun k => k.kid = key.kid)).length
  · simp only [if_pos many]
  · simp only [if_neg many,valid,decoded,if_true]

end Verification

variable {kind : Kind} {now : Int} {node : Node}

section Cache
variable {p : Platform} {config : Config}

def Genuine (p : Platform) (claims : Claims) : Prop :=
  ∀ id entry, claims.get? id = some entry → ∃ jwt, p.digest jwt = id.2 ∧ Signed p jwt (typ id.1) entry.key entry.claims

variable {claims : Claims}

theorem rememberGenuine {found} (genuine : Genuine p claims) (valid : Signed p jwt (typ kind) key found) :
    Genuine p (remember config claims (kind,p.digest jwt) key found now) := by
  unfold remember
  split
  · split
    · intro id entry got
      by_cases same : id = (kind,p.digest jwt)
      · subst same
        rw [Dict.getPutSame] at got
        cases got
        exact ⟨jwt,rfl,valid⟩
      · rw [Dict.getPutOther _ _ same] at got
        exact genuine id entry got
    · exact genuine
  · exact genuine

theorem verifyAndCacheGenuine (genuine : Genuine p claims) (jwt : Bytes) (kind : Kind) (keys : List Key)
    (status : Option Status) (now : Int) : Genuine p (verifyAndCache p config claims jwt kind keys status now).2 := by
  unfold verifyAndCache
  split
  · exact genuine
  case h_2 ok => exact rememberGenuine genuine (verifySignedOk ok).1

theorem verifiedClaimsGenuine (genuine : Genuine p claims) (jwt : Bytes) (kind : Kind) (keys : List Key)
    (status : Option Status) (now : Int) : Genuine p (verifiedClaims p config claims jwt kind keys status now).2 := by
  unfold verifiedClaims
  split
  · split
    · exact genuine
    split
    · exact genuine
    · exact verifyAndCacheGenuine genuine jwt kind keys status now
  · exact verifyAndCacheGenuine genuine jwt kind keys status now

theorem stepGenuine (genuine : Genuine p node.claims) (act : Act) : Genuine p (step p config node act).claims := by
  cases act with
  | attempt jwt kind now clock =>
    simp only [step,run]
    split
    · exact genuine
    case h_2 keys status _ => exact verifiedClaimsGenuine genuine jwt kind keys status now
  | prune now =>
    intro id entry got
    exact genuine id entry (Dict.getFilter.mp got).1
  | start => exact genuine
  | finish answers =>
    simp only [step]
    split <;> exact genuine
  | crash => exact genuine

theorem freshGenuine : Genuine p Node.fresh.claims := by
  intro id entry got
  simp [Node.fresh,Dict.get?,Dict.empty] at got

theorem historyGenuine (acts : List Act) : Genuine p (history p config acts).claims :=
  List.foldlRecOn (motive := fun node => Genuine p node.claims) acts (step p config) freshGenuine
    (fun _ genuine act _ => stepGenuine genuine act)

def Node.uncached (node : Node) : Node := { node with claims := Dict.empty }

variable {entry : Entry}

theorem liveSome {id} (found : live claims id now = some entry) : claims.get? id = some entry := by
  exact (Option.filter_eq_some_iff.mp found).1

theorem liveEmpty (id : Kind × Bytes) (now : Int) : live Dict.empty id now = none := by
  simp [live,Dict.get?,Dict.empty]

theorem verifyAndCacheVerdict (claims : Claims) (jwt : Bytes) (kind : Kind) (keys : List Key) (status : Option Status)
    (now : Int) :
    (verifyAndCache p config claims jwt kind keys status now).1 = (verifySigned p jwt (typ kind) keys status).map Prod.snd := by
  unfold verifyAndCache
  cases verifySigned p jwt (typ kind) keys status <;> rfl

theorem uncachedVerdict (jwt : Bytes) (kind : Kind) (keys : List Key) (status : Option Status) (now : Int) :
    (verifiedClaims p config Dict.empty jwt kind keys status now).1 =
      (verifySigned p jwt (typ kind) keys status).map Prod.snd := by
  simp only [verifiedClaims,liveEmpty,verifyAndCacheVerdict]

/- A live entry that is answered from although its kid has become ambiguous. -/
structure Stale (p : Platform) (claims : Claims) (jwt : Bytes) (kind : Kind) (keys : List Key) (status : Option Status)
    (now : Int) (entry : Entry) : Prop where
  found : live claims (kind,p.digest jwt) now = some entry
  unrevoked : entry.key.kid ∉ revokedKids status
  current : entry.key ∈ keys
  ambiguous : 1 < (keys.filter (fun k => k.kid = entry.key.kid)).length

section Lookup
variable {claims : Claims} {jwt : Bytes} {kind : Kind} {keys : List Key} {status : Option Status} {now : Int}

theorem entrySigned (distinct : Function.Injective p.digest) (genuine : Genuine p claims)
    (found : live claims (kind,p.digest jwt) now = some entry) : Signed p jwt (typ kind) entry.key entry.claims := by
  obtain ⟨jwt',same,signed⟩ := genuine _ entry (liveSome found)
  rw [distinct same] at signed
  exact signed

theorem staleClaims (config : Config) (distinct : Function.Injective p.digest) (genuine : Genuine p claims)
    (stale : Stale p claims jwt kind keys status now entry) :
    (verifiedClaims p config claims jwt kind keys status now).1 = .ok entry.claims ∧
      verifySigned p jwt (typ kind) keys status = .error .ambiguousKey := by
  obtain ⟨found,unrevoked,current,ambiguous⟩ := stale
  constructor
  · simp only [verifiedClaims,found,if_neg unrevoked,if_pos current]
  · rw [verifyAgain (entrySigned distinct genuine found) unrevoked current,if_pos ambiguous]

theorem revokedSigned (signed : Signed p jwt (typ kind) entry.key entry.claims)
    (revoked : entry.key.kid ∈ revokedKids status) : verifySigned p jwt (typ kind) keys status = .error .revokedKid := by
  obtain ⟨header,input,signature,parts,checked,-,-⟩ := signed
  unfold verifySigned
  rw [parts]
  simp only [checked,bind,Except.bind,if_pos revoked]

theorem freshClaims (distinct : Function.Injective p.digest) (genuine : Genuine p claims)
    (fresh : ∀ entry, ¬Stale p claims jwt kind keys status now entry) :
    (verifiedClaims p config claims jwt kind keys status now).1 = (verifySigned p jwt (typ kind) keys status).map Prod.snd := by
  unfold verifiedClaims
  split
  case h_2 => exact verifyAndCacheVerdict ..
  rename_i entry found
  have signed := entrySigned distinct genuine found
  by_cases revoked : entry.key.kid ∈ revokedKids status
  · rw [if_pos revoked,revokedSigned signed revoked]
    rfl
  rw [if_neg revoked]
  by_cases current : entry.key ∈ keys
  · have single : ¬1 < (keys.filter (fun k => k.kid = entry.key.kid)).length :=
      fun many => fresh entry ⟨found,revoked,current,many⟩
    rw [if_pos current,verifyAgain signed revoked current,if_neg single]
    rfl
  · rw [if_neg current]
    exact verifyAndCacheVerdict ..

end Lookup

end Cache

section Settling
variable {p : Platform} {config : Config}

theorem firstFailureListed {checks e} (failed : firstFailure checks = .error e) : e ∈ checks.map Prod.fst := by
  unfold firstFailure at failed
  split at failed
  · cases failed
  rename_i check found
  cases failed
  exact mem_map_of_mem (mem_of_find?_eq_some found)

theorem rejectUnknown {α : Type} {x : Except Reject α} (unknown : reject x = .error .unknownKid) : x = .error .unknownKid := by
  unfold reject at unknown
  split at unknown
  · cases unknown
  · rfl
  · cases unknown

theorem principalKnown : principal p config claims kind ≠ .error .unknownKid := by
  intro failed
  rcases Results.bindError failed with found | ⟨_,_,failed⟩
  · have listed := firstFailureListed found
    simp at listed
  · cases failed

theorem timesKnown : times config claims kind now ≠ .error .unknownKid := by
  intro failed
  rcases Results.bindError failed with found | ⟨_,_,failed⟩
  · unfold timeClaims at found
    split at found <;> cases found
  rcases Results.bindError failed with found | ⟨_,_,failed⟩
  · have listed := firstFailureListed found
    simp at listed
  split at failed
  · cases failed
  · split at failed <;> cases failed

theorem expiredOrKnown {principal x} (known : x ≠ .error .unknownKid) : expiredOr principal x ≠ .error .unknownKid := by
  intro unknown
  unfold expiredOr at unknown
  split at unknown
  · cases unknown
  · exact known (rejectUnknown unknown)

theorem statusKnown {principal} : statusChecks principal status ≠ .error .unknownKid := by
  unfold statusChecks
  split
  · nofun
  split
  · nofun
  split
  · nofun
  · split <;> nofun

theorem settleKnown : settle p config kind status now claims ≠ .error .unknownKid := by
  intro unknown
  rcases Results.bindError unknown with read | ⟨who,_,unknown⟩
  · exact principalKnown (rejectUnknown read)
  rcases Results.bindError unknown with timed | ⟨_,_,unknown⟩
  · exact expiredOrKnown timesKnown timed
  rcases Results.bindError unknown with checked | ⟨_,_,unknown⟩
  · exact statusKnown checked
  · cases unknown

end Settling

section Requests
variable {p : Platform} {config : Config}

def Spared (status : Option Status) (who : Principal) : Prop :=
  ∀ held ∈ status, who.tenant ∉ held.suspendedTenants ∧ (∀ jti ∈ who.jti, jti ∉ held.revokedCredentials) ∧
    revokedSince held who = false

structure Accepted (p : Platform) (config : Config) (held : Held) (jwt : Bytes) (kind : Kind) (now clock : Int)
    (who : Principal) : Prop where
  grounds : ∃ keys status key claims, material config held clock = some (keys,status) ∧
    Signed p jwt (typ kind) key claims ∧ keys.filter (fun k => k.kid = key.kid) = [key] ∧
    key.kid ∉ revokedKids status ∧ principal p config claims kind = .ok who ∧
    times config claims kind now = .ok () ∧ Spared status who

def Shadowed (p : Platform) (config : Config) (node : Node) (jwt : Bytes) (kind : Kind) (now clock : Int) : Prop :=
  ∃ keys status entry, material config node.held clock = some (keys,status) ∧
    Stale p node.claims jwt kind keys status now entry ∧
    settle p config kind status now entry.claims ≠ .error .invalidToken

def Clear (p : Platform) (config : Config) (node later : Node) (token : Bytes) (now clock : Int) : Prop :=
  token.length ≤ maxTokenBytes →
    ¬Shadowed p config node (credential token).2 (credential token).1 now clock ∧
      ((run p config node (credential token).2 (credential token).1 now clock).1 = .error .unknownKid →
        ¬Shadowed p config later (credential token).2 (credential token).1 now clock)

variable {who : Principal}

section Runs
variable {node : Node} {jwt : Bytes} {kind : Kind} {now clock : Int}
variable (held : material config node.held clock = some (keys,status))
include held

theorem runMaterial : (run p config node jwt kind now clock).1 =
      (reject (verifiedClaims p config node.claims jwt kind keys status now).1).bind (settle p config kind status now) := by
  simp only [run,held]
  rfl

theorem uncachedMaterial : (run p config node.uncached jwt kind now clock).1 =
      (reject ((verifySigned p jwt (typ kind) keys status).map Prod.snd)).bind (settle p config kind status now) := by
  have same : material config node.uncached.held clock = some (keys,status) := held
  rw [runMaterial same]
  exact congrArg (fun x => (reject x).bind _) (uncachedVerdict jwt kind keys status now)

omit held

theorem runFresh (distinct : Function.Injective p.digest) (genuine : Genuine p node.claims)
    (clear : ¬Shadowed p config node jwt kind now clock) :
    (run p config node jwt kind now clock).1 = (run p config node.uncached jwt kind now clock).1 := by
  rcases held : material config node.held clock with _ | ⟨keys,status⟩
  · have same : material config node.uncached.held clock = none := held
    simp only [run,held,same]
  rw [runMaterial held,uncachedMaterial held]
  by_cases stale : ∃ entry, Stale p node.claims jwt kind keys status now entry
  · obtain ⟨entry,stale⟩ := stale
    have refused : settle p config kind status now entry.claims = .error .invalidToken :=
      not_not.mp (fun other => clear ⟨keys,status,entry,held,stale,other⟩)
    obtain ⟨cached,verified⟩ := staleClaims config distinct genuine stale
    rw [cached,verified]
    exact refused
  · rw [freshClaims distinct genuine (not_exists.mp stale)]

theorem runShadowed (distinct : Function.Injective p.digest) (genuine : Genuine p node.claims)
    (shadowed : Shadowed p config node jwt kind now clock) :
    (run p config node.uncached jwt kind now clock).1 = .error .invalidToken ∧
      (run p config node jwt kind now clock).1 ≠ .error .invalidToken ∧
      (run p config node jwt kind now clock).1 ≠ .error .unknownKid := by
  obtain ⟨keys,status,entry,held,stale,other⟩ := shadowed
  obtain ⟨cached,verified⟩ := staleClaims config distinct genuine stale
  have answered : (run p config node jwt kind now clock).1 = settle p config kind status now entry.claims := by
    rw [runMaterial held,cached]
    rfl
  rw [uncachedMaterial held,verified,answered]
  exact ⟨rfl,other,settleKnown⟩

theorem statusSpared (ok : statusChecks who status = .ok ()) : Spared status who := by
  rintro held rfl
  unfold statusChecks at ok
  dsimp only at ok
  split at ok
  · cases ok
  rename_i tenant
  split at ok
  · cases ok
  rename_i credential
  split at ok
  · cases ok
  rename_i since
  refine ⟨tenant,?_,by simpa using since⟩
  intro jti mem revoked
  exact credential (by simp [Option.mem_def.mp mem,revoked])

theorem rejectOk {α : Type} {x} {a : α} (ok : reject x = .ok a) : x = .ok a := by
  unfold reject at ok
  split at ok
  · cases ok
    rfl
  · cases ok
  · cases ok

theorem expiredOrOk {x : Except Reject Unit} (ok : expiredOr who x = .ok ()) : x = .ok () := by
  unfold expiredOr at ok
  split at ok
  · cases ok
  · exact rejectOk ok

theorem uncachedAccepted (ok : (run p config node.uncached jwt kind now clock).1 = .ok who) :
    Accepted p config node.held jwt kind now clock who := by
  rcases held : material config node.held clock with _ | ⟨keys,status⟩
  · have same : material config node.uncached.held clock = none := held
    simp only [run,same] at ok
    cases ok
  rw [uncachedMaterial held] at ok
  obtain ⟨claims,verified,ok⟩ := bindOk ok
  rcases found : verifySigned p jwt (typ kind) keys status with e | ⟨key,claims'⟩
  · rw [found] at verified
    cases rejectOk verified
  rw [found] at verified
  cases rejectOk verified
  obtain ⟨signed,unrevoked,only⟩ := verifySignedOk found
  obtain ⟨who',read,ok⟩ := bindOk ok
  obtain ⟨_,timed,ok⟩ := bindOk ok
  obtain ⟨_,checked,ok⟩ := bindOk ok
  cases ok
  exact ⟨keys,status,key,claims',held,signed,only,unrevoked,rejectOk read,expiredOrOk timed,statusSpared checked⟩

/- What every accepted token has, from the cache or not; the key need not be the only one of its kid. -/
def Grounded (p : Platform) (config : Config) (held : Held) (jwt : Bytes) (kind : Kind) (now clock : Int) (who : Principal) :
    Prop :=
  ∃ keys status key claims, material config held clock = some (keys,status) ∧ Signed p jwt (typ kind) key claims ∧
    key ∈ keys ∧ key.kid ∉ revokedKids status ∧ principal p config claims kind = .ok who ∧
    times config claims kind now = .ok () ∧ Spared status who

theorem runGrounded (distinct : Function.Injective p.digest) (genuine : Genuine p node.claims)
    (ok : (run p config node jwt kind now clock).1 = .ok who) : Grounded p config node.held jwt kind now clock who := by
  by_cases shadowed : Shadowed p config node jwt kind now clock
  · obtain ⟨keys,status,entry,held,stale,-⟩ := shadowed
    rw [runMaterial held,(staleClaims config distinct genuine stale).1] at ok
    obtain ⟨_,verified,ok⟩ := bindOk ok
    cases rejectOk verified
    obtain ⟨who',read,ok⟩ := bindOk ok
    obtain ⟨_,timed,ok⟩ := bindOk ok
    obtain ⟨_,checked,ok⟩ := bindOk ok
    cases ok
    exact ⟨keys,status,entry.key,entry.claims,held,entrySigned distinct genuine stale.found,stale.current,stale.unrevoked,
      rejectOk read,expiredOrOk timed,statusSpared checked⟩
  · rw [runFresh distinct genuine shadowed] at ok
    obtain ⟨keys,status,key,claims,held,signed,only,rest⟩ := (uncachedAccepted ok).grounds
    have mem : key ∈ keys.filter (fun k => k.kid = key.kid) := only ▸ mem_singleton_self key
    exact ⟨keys,status,key,claims,held,signed,(mem_filter.mp mem).1,rest⟩

end Runs

section Authentication
variable {node later : Node} {token : Bytes} {now clock : Int}

theorem authenticateSame (distinct : Function.Injective p.digest) (genuine : Genuine p node.claims)
    (genuineLater : Genuine p later.claims) (clear : Clear p config node later token now clock) :
    authenticate p config node later token now clock =
      authenticate p config node.uncached later.uncached token now clock := by
  unfold authenticate
  by_cases long : maxTokenBytes < token.length
  · simp only [if_pos long]
  obtain ⟨now',then'⟩ := clear (by omega)
  simp only [if_neg long]
  rw [← runFresh distinct genuine now']
  split
  case h_1 unknown => rw [runFresh distinct genuineLater (then' unknown)]
  · rfl

theorem authenticateDiffers (distinct : Function.Injective p.digest) (genuine : Genuine p node.claims)
    (genuineLater : Genuine p later.claims)
    (same : authenticate p config node later token now clock =
      authenticate p config node.uncached later.uncached token now clock) : Clear p config node later token now clock := by
  intro short
  unfold authenticate at same
  have long : ¬maxTokenBytes < token.length := by omega
  simp only [if_neg long] at same
  have first : ¬Shadowed p config node (credential token).2 (credential token).1 now clock := by
    intro shadowed
    obtain ⟨uncached,other,known⟩ := runShadowed distinct genuine shadowed
    simp only [uncached] at same
    exact other same
  refine ⟨first,?_⟩
  intro unknown shadowed
  have uncached := (runFresh distinct genuine first).symm.trans unknown
  simp only [unknown,uncached] at same
  obtain ⟨refused,other,known⟩ := runShadowed distinct genuineLater shadowed
  simp only [refused] at same
  exact other same

theorem uncachedGrounds (ok : authenticate p config node.uncached later.uncached token now clock = .ok who) :
    Accepted p config node.held (credential token).2 (credential token).1 now clock who ∨
      Accepted p config later.held (credential token).2 (credential token).1 now clock who := by
  unfold authenticate at ok
  split at ok
  · cases ok
  dsimp only at ok
  split at ok
  · split at ok
    · cases ok
    · exact .inr (uncachedAccepted ok)
  · exact .inl (uncachedAccepted ok)

end Authentication

end Requests

section Versions
variable {p : Platform} {config : Config}

def Later (before after : Option Status) : Prop :=
  ∀ status ∈ before, ∃ next ∈ after, status.version ≤ next.version

theorem Later.refl (status : Option Status) : Later status status := fun s mem => ⟨s,mem,le_refl _⟩

theorem Later.trans {a b c} (first : Later a b) (second : Later b c) : Later a c := by
  intro s mem
  obtain ⟨t,memT,le⟩ := first s mem
  obtain ⟨u,memU,le'⟩ := second t memT
  exact ⟨u,memU,le.trans le'⟩

variable {status : Status}

theorem statusFieldsVersion {extras version}
    (ok : statusFields extras claims version = .ok status) : status.version = version := by
  unfold statusFields at ok
  dsimp only at ok
  split at ok
  · split at ok
    · cases ok
      rfl
    · cases ok
  · cases ok

theorem newerOk {version current} (ok : newer version current = .ok ()) :
    ∀ status ∈ current, status.version ≤ version := by
  rintro status rfl
  unfold newer at ok
  dsimp only at ok
  split at ok
  case isTrue le => exact le
  · cases ok

theorem parseStatusNewer {extras current}
    (ok : parseStatus p config extras jwt keys current now = .ok status) : Later current (some status) := by
  obtain ⟨⟨key,claims⟩,-,ok⟩ := bindOk ok
  obtain ⟨version,-,ok⟩ := bindOk ok
  obtain ⟨_,newer,ok⟩ := bindOk ok
  obtain ⟨parsed,fields,ok⟩ := bindOk ok
  split at ok
  · cases ok
  cases ok
  intro s mem
  exact ⟨_,rfl,statusFieldsVersion fields ▸ newerOk newer s mem⟩

theorem fetchStatusNewer {snapshot a}
    (fetched : fetchStatus p config snapshot keys a = some status) : Later snapshot.status (some status) := by
  unfold fetchStatus at fetched
  split at fetched
  · cases fetched
  split at fetched
  case h_1 parsed ok =>
    split at fetched
    · cases fetched
    cases fetched
    obtain ⟨jwt,-,ok⟩ := Option.map_eq_some_iff.mp ok
    exact parseStatusNewer ok
  · split at fetched
    · cases fetched
    rename_i none
    intro s mem
    exact absurd (by simp [Option.mem_def.mp mem]) none

structure Node.Next (before node : Node) : Prop where
  snapshot : ∀ held ∈ node.task, held.status = node.held.status
  later : Later before.held.status node.held.status

theorem finishNext {before : Node} (next : before.Next node) (answers : Answers) :
    before.Next (step p config node (.finish answers)) := by
  simp only [step]
  split
  case h_2 => exact next
  rename_i snapshot running
  refine ⟨nofun,next.later.trans ?_⟩
  simp only [refresh]
  rcases fetched : fetchStatus p config snapshot _ answers with _ | status
  · exact .refl _
  · rw [← next.snapshot snapshot running]
    exact fetchStatusNewer fetched

theorem stepNext {before : Node} (next : before.Next node) (act : Act) : before.Next (step p config node act) := by
  cases act with
  | attempt jwt kind now clock => exact { next with }
  | prune now => exact { next with }
  | start =>
    refine ⟨?_,next.later⟩
    intro held running
    rcases task : node.task with _ | held'
    · simp only [step,task,Option.none_or,Option.mem_some_iff] at running
      exact running ▸ rfl
    · simp only [step,task,Option.some_or,Option.mem_some_iff] at running
      exact running ▸ next.snapshot held' task
  | finish answers => exact finishNext next answers
  | crash => exact ⟨nofun,next.later⟩

theorem freshNext : Node.Next .fresh .fresh := by
  refine ⟨?_,.refl _⟩
  intro held running
  cases running

theorem historySnapshot (acts : List Act) :
    ∀ held ∈ (history p config acts).task, held.status = (history p config acts).held.status :=
  (List.foldlRecOn (motive := Node.Next .fresh) acts (step p config) freshNext
    (fun _ next act _ => stepNext next act)).snapshot

theorem versionGrows (acts more : List Act) :
    Later (history p config acts).held.status (history p config (acts ++ more)).held.status := by
  have start : (history p config acts).Next (history p config acts) := ⟨historySnapshot acts,.refl _⟩
  have run := List.foldlRecOn (motive := (history p config acts).Next) more (step p config) start
    (fun _ next act _ => stepNext next act)
  unfold history at run ⊢
  rw [foldl_append]
  exact run.later

end Versions

namespace Sample

def platform : Platform where
  split := fun token => some ([(ascii "alg",.text (ascii "EdDSA")),(ascii "typ",.text (ascii "at+jwt")),
    (ascii "kid",.text (ascii "k"))],token,List.replicate 64 0)
  payload := fun _ => some (.object [(ascii "iss",.text (ascii "issuer")),(ascii "aud",.text (ascii "pulso")),
    (ascii "sub",.text (ascii "ada")),(ascii "tenant",.text (ascii "acme")),(ascii "scope",.text (ascii "read")),
    (ascii "exp",.int 1000),(ascii "iat",.int 100)])
  trim := id
  downcase := id
  words := fun b => [b]
  digest := id
  rsa := fun _ _ _ _ => true
  ecdsa := fun _ _ _ => true
  eddsa := fun _ _ _ => true

def config : Config := ⟨ascii "issuer",[ascii "pulso"],false,86400,0,3600,3600⟩

def answers (keys : List Key) : Answers := ⟨100,some keys,none,none,none,fun _ => true⟩

def old : Key := ⟨ascii "k",.ed [1]⟩
def new : Key := ⟨ascii "k",.ed [2]⟩

def rotated : List Act :=
  [.start,.finish (answers [old]),.attempt (ascii "t") .access 200 200,.start,.finish (answers [old,new])]

theorem cachedClear : Clear platform config (history platform config (rotated.take 3))
    (history platform config (rotated.take 3 ++ [])) (ascii "t") 200 200 := by
  have single : ∀ jwt kind, ¬Shadowed platform config (history platform config (rotated.take 3)) jwt kind 200 200 := by
    rintro jwt kind ⟨keys,status,entry,held,stale,-⟩
    cases held
    have few := length_filter_le (fun k : Key => k.kid = entry.key.kid) [old]
    exact absurd stale.ambiguous (not_lt.mpr few)
  exact fun _ => ⟨single _ _,fun _ => single _ _⟩

end Sample

end Pulso.Auth
