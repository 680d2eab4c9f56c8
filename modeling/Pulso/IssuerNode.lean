import Pulso.Dict
import Pulso.IssuerToken

/-! A node that trusts the issuer: the keys and the status list it holds, the claims of tokens
whose signatures it has verified, and the refresh that replaces keys and status list. -/
namespace Pulso.Auth

inductive Failure
  | invalidToken | forbidden | authUnavailable
  | expired (principal : Principal)
  | unknownKid

abbrev Verdict := Except Failure Principal

structure Held where
  keys : Option (List Key × Int)
  status : Option Status

structure Entry where
  key : Key
  claims : Object
  expiresAt : Int

abbrev Claims := Dict (Kind × Bytes) Entry

structure Node where
  held : Held
  claims : Claims
  task : Option Held

def cacheEntries : Nat := 10000
def cacheSeconds : Int := 3600

section Requests
variable (p : Platform) (config : Config)

def material (held : Held) (clock : Int) : Option (List Key × Option Status) :=
  match held.keys with
  | none => none
  | some (keys,fetchedAt) =>
    if clock - fetchedAt ≤ config.keyRetention then
      match held.status with
      | some status => some (keys,some status)
      | none => if config.statusUrl then none else some (keys,none)
    else none

def live (claims : Claims) (id : Kind × Bytes) (now : Int) : Option Entry :=
  (claims.get? id).filter (fun entry => now < entry.expiresAt)

def remember (claims : Claims) (id : Kind × Bytes) (key : Key) (found : Object) (now : Int) : Claims :=
  match field found (ascii "exp") with
  | .int exp =>
    if claims.size < cacheEntries then
      claims.put id ⟨key,found,min (exp + config.expiredGrace + skew) (now + cacheSeconds)⟩
    else claims
  | _ => claims

def verifyAndCache (claims : Claims) (jwt : Bytes) (kind : Kind) (keys : List Key) (status : Option Status) (now : Int) :
    Except Reject Object × Claims :=
  match verifySigned p jwt (typ kind) keys status with
  | .error e => (.error e,claims)
  | .ok (key,found) => (.ok found,remember config claims (kind,p.digest jwt) key found now)

def verifiedClaims (claims : Claims) (jwt : Bytes) (kind : Kind) (keys : List Key) (status : Option Status) (now : Int) :
    Except Reject Object × Claims :=
  match live claims (kind,p.digest jwt) now with
  | some entry =>
    if entry.key.kid ∈ revokedKids status then (.error .revokedKid,claims)
    else if entry.key ∈ keys then (.ok entry.claims,claims)
    else verifyAndCache p config claims jwt kind keys status now
  | none => verifyAndCache p config claims jwt kind keys status now

-- every reason but an unknown kid is reported as an invalid token
def reject {α : Type} : Except Reject α → Except Failure α
  | .ok a => .ok a
  | .error .unknownKid => .error .unknownKid
  | .error _ => .error .invalidToken

def expiredOr (principal : Principal) : Except Reject Unit → Except Failure Unit
  | .error .expired => .error (.expired principal)
  | other => reject other

def revokedSince (status : Status) (principal : Principal) : Bool :=
  match principal.iat with
  | .int iat => iat < ((status.revokedBefore.find? (fun r => r.1 = principal.tenant)).map Prod.snd).getD 0
  | _ => false

def statusChecks (principal : Principal) : Option Status → Except Failure Unit
  | none => .ok ()
  | some status =>
    if principal.tenant ∈ status.suspendedTenants then .error .forbidden
    else if principal.jti.any (· ∈ status.revokedCredentials) then .error .invalidToken
    else if revokedSince status principal then .error .invalidToken
    else .ok ()

def settle (kind : Kind) (status : Option Status) (now : Int) (claims : Object) : Verdict := do
  let principal ← reject (principal p config claims kind)
  expiredOr principal (times config claims kind now)
  statusChecks principal status
  .ok principal

def run (node : Node) (jwt : Bytes) (kind : Kind) (now clock : Int) : Verdict × Claims :=
  match material config node.held clock with
  | none => (.error .authUnavailable,node.claims)
  | some (keys,status) =>
    let (verified,claims) := verifiedClaims p config node.claims jwt kind keys status now
    (do settle p config kind status now (← reject verified),claims)

def maxTokenBytes : Nat := 8192
def ingestKeyPrefix : Bytes := ascii "pulso_ik_"

def credential (token : Bytes) : Kind × Bytes :=
  if ingestKeyPrefix.isPrefixOf token then (.ingestKey,token.drop ingestKeyPrefix.length) else (.access,token)

/- An unknown kid asks for a refresh; the token is then tried again on the node as it is `later`. -/
def authenticate (node later : Node) (token : Bytes) (now clock : Int) : Verdict :=
  if maxTokenBytes < token.length then .error .invalidToken
  else
    let (kind,jwt) := credential token
    match (run p config node jwt kind now clock).1 with
    | .error .unknownKid =>
      match (run p config later jwt kind now clock).1 with
      | .error .unknownKid => .error .invalidToken
      | verdict => verdict
    | verdict => verdict

def prune (claims : Claims) (now : Int) : Claims := claims.filter (fun entry => now < entry.2.expiresAt)

end Requests

section Refresh
variable (p : Platform) (config : Config)

def statusClaims (claims : Object) (now : Int) : Except Reject Int :=
  if (field claims (ascii "iss")).bytes ≠ some config.issuer then .error .badIssuer
  else if !isAudience config.audiences (field claims (ascii "aud")) then .error .badAudience
  else match field claims (ascii "version") with
    | .int version =>
      if version < 0 then .error .badVersion
      else match field claims (ascii "iat"),field claims (ascii "exp") with
        | .int iat,.int exp =>
          if iat > now + skew then .error .notYetValid
          else if exp ≤ now then .error .expired
          else .ok version
        | _,_ => .error .badTimeClaims
    | _ => .error .badVersion

def newer (version : Int) : Option Status → Except Reject Unit
  | none => .ok ()
  | some current => if current.version ≤ version then .ok () else .error .staleVersion

def idList : Json → Option (List Bytes)
  | .list items => items.mapM (fun item => item.bytes.filter (fun b => 1 ≤ b.length && b.length ≤ 256))
  | _ => none

def timeMap : Json → Option (List (Bytes × Int))
  | .object fields => fields.mapM (fun f => if isId (.text f.1) then f.2.integer.map (f.1,·) else none)
  | _ => none

-- projects and quotas are checked by `extras`
def statusFields (extras : Object → Bool) (claims : Object) (version : Int) : Except Reject Status :=
  let ids := fun name => idList ((lookup claims name).getD (.list []))
  match ids (ascii "revoked_kids"),ids (ascii "revoked_credentials"),ids (ascii "suspended_tenants"),
      timeMap ((lookup claims (ascii "revoked_before")).getD (.object [])) with
  | some kids,some credentials,some tenants,some before =>
    if extras claims then .ok ⟨version,kids,credentials,tenants,before⟩ else .error .invalidStatus
  | _,_,_,_ => .error .invalidStatus

def jwtKid (jwt : Bytes) : Option Bytes := (p.split (p.trim jwt)).bind (fun parts => (field parts.1 (ascii "kid")).bytes)

def parseStatus (extras : Object → Bool) (jwt : Bytes) (keys : List Key) (current : Option Status) (now : Int) :
    Except Reject Status := do
  let (_,claims) ← verifySigned p (p.trim jwt) [ascii "pulso-status+jwt"] keys current
  let version ← statusClaims config claims now
  newer version current
  let status ← statusFields extras claims version
  if (jwtKid p jwt).any (· ∈ status.revokedKids) then .error .revokedKid else .ok status

structure Answers where
  now : Int
  keys : Option (List Key)
  mirroredKeys : Option (List Key × Int)
  status : Option Bytes
  mirroredStatus : Option Bytes
  extras : Object → Bool

def fetchKeys (snapshot : Held) (a : Answers) : Option (List Key × Int) :=
  match a.keys with
  | some keys => some (keys,a.now)
  | none => if snapshot.keys.isNone then a.mirroredKeys else none

def fetchStatus (snapshot : Held) (keys : List Key) (a : Answers) : Option Status :=
  if !config.statusUrl then none
  else
    match a.status.map (fun jwt => parseStatus p config a.extras jwt keys snapshot.status a.now) with
    | some (.ok status) => if snapshot.status.any (fun held => held.version = status.version) then none else some status
    | _ =>
      if snapshot.status.isSome then none
      else match a.mirroredStatus.map (fun jwt => parseStatus p config a.extras jwt keys none a.now) with
        | some (.ok status) => some status
        | _ => none

/- A refresh on the snapshot taken when it started, applied to what is held when it ends. -/
def refresh (snapshot held : Held) (a : Answers) : Held :=
  let keys := fetchKeys snapshot a
  let verifying := ((keys.or snapshot.keys).map Prod.fst).getD []
  let status := fetchStatus p config snapshot verifying a
  ⟨keys.or held.keys,status.or held.status⟩

end Refresh

/- What happens on a node, in any order: requests, pruning, and refreshes that start, end or crash. -/
inductive Act
  | attempt (jwt : Bytes) (kind : Kind) (now clock : Int)
  | prune (now : Int)
  | start
  | finish (answers : Answers)
  | crash

def step (p : Platform) (config : Config) (node : Node) : Act → Node
  | .attempt jwt kind now clock => { node with claims := (run p config node jwt kind now clock).2 }
  | .prune now => { node with claims := Auth.prune node.claims now }
  | .start => { node with task := node.task.or (some node.held) }
  | .finish answers =>
    match node.task with
    | some snapshot => { node with held := refresh p config snapshot node.held answers,task := none }
    | none => node
  | .crash => { node with task := none }

def Node.fresh : Node := ⟨⟨none,none⟩,Dict.empty,none⟩

def history (p : Platform) (config : Config) (acts : List Act) : Node := acts.foldl (step p config) .fresh

end Pulso.Auth
