import Pulso.Key

/-! Credentials of the trusted issuer: signed tokens, what their headers and claims must hold, and
the times and status list they are checked against. Decoding and cryptography are given. -/
namespace Pulso.Auth

/- Decoded JSON; a float is kept as its bits. -/
inductive Json
  | null
  | flag (value : Bool)
  | int (value : Int)
  | float (bits : UInt64)
  | text (bytes : Bytes)
  | list (items : List Json)
  | object (fields : List (Bytes × Json))

abbrev Object := List (Bytes × Json)

def lookup (o : Object) (name : Bytes) : Option Json := (o.find? (fun p => p.1 = name)).map Prod.snd

-- a missing field reads as null
def field (o : Object) (name : Bytes) : Json := (lookup o name).getD .null

def Json.isNull : Json → Bool
  | .null => true
  | _ => false

def Json.bytes : Json → Option Bytes
  | .text b => some b
  | _ => none

def Json.integer : Json → Option Int
  | .int n => some n
  | _ => none

inductive Algorithm
  | rs256 | es256 | edDsa
  deriving DecidableEq

inductive KeyMaterial
  | rsa (n e : Bytes) (size : Nat)
  | ec (point : Bytes)
  | ed (x : Bytes)
  deriving DecidableEq

structure Key where
  kid : Bytes
  material : KeyMaterial
  deriving DecidableEq

def Key.alg (key : Key) : Algorithm :=
  match key.material with
  | .rsa .. => .rs256
  | .ec .. => .es256
  | .ed .. => .edDsa

inductive Kind
  | access | ingestKey
  deriving DecidableEq

inductive Reject
  | malformedToken | unsupportedAlgorithm | unsupportedHeader | wrongType | missingKid
  | revokedKid | unknownKid | algorithmMismatch | ambiguousKey | invalidSignature
  | badIssuer | badAudience | badSubject | badTenant | missingScope | ingestKeyScope | missingJti | badJti
  | badActor | badPrincipalType
  | badTimeClaims | tokenNotYetValid | tokenTtlExceeded | expired | tokenExpired
  | badVersion | notYetValid | staleVersion | invalidStatus
  deriving DecidableEq

structure Status where
  version : Int
  revokedKids : List Bytes
  revokedCredentials : List Bytes
  suspendedTenants : List Bytes
  revokedBefore : List (Bytes × Int)

/- Decoding, digests and signatures of the platform. -/
structure Platform where
  split : Bytes → Option (Object × Bytes × Bytes)
  payload : Bytes → Option Json
  trim : Bytes → Bytes
  downcase : Bytes → Bytes
  words : Bytes → List Bytes
  digest : Bytes → Bytes
  rsa : (n e input signature : Bytes) → Bool
  ecdsa : (point input signature : Bytes) → Bool
  eddsa : (x input signature : Bytes) → Bool

structure Config where
  issuer : Bytes
  audiences : List Bytes
  statusUrl : Bool
  keyRetention : Int
  expiredGrace : Int
  maxAccessTtl : Int
  maxIngestKeyTtl : Int

def skew : Int := 60

section Signature
variable (p : Platform)

def typ : Kind → List Bytes
  | .access => [ascii "at+jwt",ascii "application/at+jwt"]
  | .ingestKey => [ascii "pulso-ik+jwt"]

def algorithm : Json → Option Algorithm
  | .text b =>
    if b = ascii "RS256" then some .rs256
    else if b = ascii "ES256" then some .es256
    else if b = ascii "EdDSA" then some .edDsa
    else none
  | _ => none

def derInteger (bytes : Bytes) : Bytes :=
  let trimmed := match bytes.dropWhile (· = 0) with
    | [] => [0]
    | b::rest => if b ≥ 128 then 0::b::rest else b::rest
  [2,UInt8.ofNat trimmed.length] ++ trimmed

def derSignature (r s : Bytes) : Bytes :=
  let body := derInteger r ++ derInteger s
  [48,UInt8.ofNat body.length] ++ body

def signed (key : Key) (input signature : Bytes) : Bool :=
  match key.material with
  | .rsa n e size => signature.length = size && p.rsa n e input signature
  | .ec point => signature.length = 64 && p.ecdsa point input (derSignature (signature.take 32) (signature.drop 32))
  | .ed x => signature.length = 64 && p.eddsa x input signature

def checkHeader (header : Object) (types : List Bytes) : Except Reject (Algorithm × Bytes) :=
  match algorithm (field header (ascii "alg")) with
  | none => .error .unsupportedAlgorithm
  | some alg =>
    if (lookup header (ascii "crit")).isSome then .error .unsupportedHeader
    else if ¬((field header (ascii "typ")).bytes.any (fun t => p.downcase t ∈ types)) then .error .wrongType
    else match (field header (ascii "kid")).bytes with
      | some kid => if kid = [] then .error .missingKid else .ok (alg,kid)
      | none => .error .missingKid

def revokedKids : Option Status → List Bytes
  | some status => status.revokedKids
  | none => []

def selectKey (keys : List Key) (alg : Algorithm) (kid : Bytes) : Except Reject Key :=
  match keys.filter (fun key => key.kid = kid) with
  | [key] => if key.alg = alg then .ok key else .error .algorithmMismatch
  | [] => .error .unknownKid
  | _ => .error .ambiguousKey

def claimsOf (input : Bytes) : Except Reject Object :=
  match p.payload input with
  | some (.object claims) => .ok claims
  | _ => .error .malformedToken

def verifySigned (jwt : Bytes) (types : List Bytes) (keys : List Key) (status : Option Status) :
    Except Reject (Key × Object) :=
  match p.split jwt with
  | none => .error .malformedToken
  | some (header,input,signature) => do
    let (alg,kid) ← checkHeader p header types
    if kid ∈ revokedKids status then .error .revokedKid
    else
      let key ← selectKey keys alg kid
      if signed p key input signature then do .ok (key,← claimsOf p input) else .error .invalidSignature

end Signature

structure Principal where
  tenant : Bytes
  subject : Bytes
  type : Bytes
  act : Option Bytes
  scopes : List Bytes
  kind : Kind
  jti : Option Bytes
  iat : Json

section Claims
variable (p : Platform) (config : Config)

def idByte (b : UInt8) : Bool :=
  (65 ≤ b && b ≤ 90) || (97 ≤ b && b ≤ 122) || (48 ≤ b && b ≤ 57) || b = 95 || b = 46 || b = 45

def isId : Json → Bool
  | .text b => 1 ≤ b.length && b.length ≤ 128 && b.all idByte
  | _ => false

def isTenant (value : Json) : Bool :=
  isId value && !value.bytes.any (fun b => b = ascii "." || b = ascii "..")

def isActor : Json → Bool
  | .null => true
  | .object fields => isId (field fields (ascii "sub"))
  | _ => false

def isAudience (accepted : List Bytes) : Json → Bool
  | .text b => b ∈ accepted
  | .list items => items.any (fun item => item.bytes.any (· ∈ accepted))
  | _ => false

def firstFailure (checks : List (Reject × Bool)) : Except Reject Unit :=
  match checks.find? (fun check => !check.2) with
  | none => .ok ()
  | some check => .error check.1

def principalTypes : List Bytes := [ascii "human",ascii "agent",ascii "service"]

def principal (claims : Object) (kind : Kind) : Except Reject Principal := do
  let scopes := match field claims (ascii "scope") with
    | .text b => p.words b
    | _ => []
  let act := field claims (ascii "act")
  let jti := field claims (ascii "jti")
  let given := match act with
    | .null | .flag false => ascii "service"
    | _ => ascii "agent"
  let type := (lookup claims (ascii "principal_type")).getD (.text given)
  firstFailure [
    (.badIssuer,(field claims (ascii "iss")).bytes = some config.issuer),
    (.badAudience,isAudience config.audiences (field claims (ascii "aud"))),
    (.badSubject,isId (field claims (ascii "sub"))),
    (.badTenant,isTenant (field claims (ascii "tenant"))),
    (.missingScope,scopes ≠ []),
    (.ingestKeyScope,kind ≠ .ingestKey || scopes = [ascii "ingest"]),
    (.missingJti,kind ≠ .ingestKey || isId jti),
    (.badJti,jti.isNull || isId jti),
    (.badActor,isActor act),
    (.badPrincipalType,type.bytes.any (· ∈ principalTypes))]
  .ok {
    tenant := (field claims (ascii "tenant")).bytes.getD []
    subject := (field claims (ascii "sub")).bytes.getD []
    type := type.bytes.getD []
    act := match act with
      | .object fields => (field fields (ascii "sub")).bytes
      | _ => none
    scopes := scopes.eraseDups
    kind := kind
    jti := jti.bytes
    iat := field claims (ascii "iat") }

def timeClaims (claims : Object) : Except Reject (Int × Int × Int) :=
  match field claims (ascii "exp"),field claims (ascii "iat"),(lookup claims (ascii "nbf")).getD (field claims (ascii "iat")) with
  | .int exp,.int iat,.int nbf => .ok (exp,iat,nbf)
  | _,_,_ => .error .badTimeClaims

def times (claims : Object) (kind : Kind) (now : Int) : Except Reject Unit := do
  let maxTtl := if kind = .ingestKey then config.maxIngestKeyTtl else config.maxAccessTtl
  let (exp,iat,nbf) ← timeClaims claims
  firstFailure [(.tokenNotYetValid,max iat nbf ≤ now + skew),(.tokenTtlExceeded,iat ≤ exp && exp - iat ≤ maxTtl)]
  if now - skew < exp then .ok ()
  else if now - exp ≤ config.expiredGrace then .error .expired
  else .error .tokenExpired

end Claims

end Pulso.Auth
