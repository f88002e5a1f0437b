import RhypeDb.Authz.Rules
import RhypeDb.Basic.ByteOrder
import RhypeDb.Basic.Fallible

/-! The tokens of `jose.rs` and `principal.rs`. Base64, JSON and Ed25519 are parameters. Nothing
of what `verify` checks moves with the clock but the two time claims. -/

namespace RhypeDb.Authz

namespace Jose

open Fallible

def algEddsa : String := "EdDSA"

structure Header where
  alg : String
  typ : String
  kid : String

structure Claims (F : Type) where
  iss : String
  sub : String
  aud : String
  iat : Nat
  exp : Nat
  jti : String
  claims : Option (Json F)

structure Jwk where
  kty : String
  crv : String
  use : String
  alg : String
  kid : String
  x : String

structure Jwks where
  keys : List Jwk

def Jwks.find (jwks : Jwks) (kid : String) : Option Jwk :=
  jwks.keys.find? fun k => decide (k.kid = kid)

structure VerifyOptions where
  now : Nat
  leewaySecs : Nat
  expectedIss : Option String
  expectedAud : Option String

/-- `VerifyOptions::at`. -/
def VerifyOptions.atTime (now : Nat) : VerifyOptions :=
  { now, leewaySecs := 60, expectedIss := none, expectedAud := none }

structure VerifiedToken (F : Type) where
  kid : String
  claims : Claims F

inductive VerifyError
  | malformed
  | unsupportedAlg
  | unknownKid
  | badKey
  | badSignature
  | expired
  | notYetValid
  | issuerMismatch
  | audienceMismatch
  deriving DecidableEq, Repr

/-- What `verify` takes from `base64`, `serde_json` and `ed25519_dalek`. -/
structure Crypto (F : Type) where
  Key : Type
  Sig : Type
  decode : String → Option Bytes
  headerFromSlice : Bytes → Option Header
  claimsFromSlice : Bytes → Option (Claims F)
  keyFromBytes : Bytes → Option Key
  sigFromSlice : Bytes → Option Sig
  verifyStrict : Key → String → Sig → Bool

section

variable {F : Type} (crypto : Crypto F)

def Jwk.verifyingKey (jwk : Jwk) : Except VerifyError crypto.Key := do
  require (jwk.kty = "OKP" ∧ jwk.crv = "Ed25519") .badKey
  let raw ← (crypto.decode jwk.x).elim (.error .badKey) .ok
  require (raw.length = 32) .badKey
  (crypto.keyFromBytes raw).elim (.error .badKey) .ok

def segments (token : String) : Except VerifyError (String × String × String) :=
  match (token.toList.splitOn '.').map String.ofList with
  | [h, c, s] => if h ≠ "" ∧ c ≠ "" then .ok (h, c, s) else .error .malformed
  | _ => .error .malformed

/-- The part of `verify` before the claims are held against the clock: segments, algorithm, key,
signature. -/
def authenticate (token : String) (jwks : Jwks) : Except VerifyError (VerifiedToken F) := do
  let (headerB64, claimsB64, sigB64) ← segments token
  let header ← ((crypto.decode headerB64).bind crypto.headerFromSlice).elim (.error .malformed) .ok
  require (header.alg = algEddsa) .unsupportedAlg
  let jwk ← (jwks.find header.kid).elim (.error .unknownKid) .ok
  let vk ← jwk.verifyingKey crypto
  let sigBytes ← (crypto.decode sigB64).elim (.error .malformed) .ok
  let sig ← (crypto.sigFromSlice sigBytes).elim (.error .malformed) .ok
  let signingInput := headerB64 ++ "." ++ claimsB64
  require (crypto.verifyStrict vk signingInput sig = true) .badSignature
  let claims ← ((crypto.decode claimsB64).bind crypto.claimsFromSlice).elim (.error .malformed) .ok
  pure { kid := header.kid, claims }

def verify (token : String) (jwks : Jwks) (opts : VerifyOptions) :
    Except VerifyError (VerifiedToken F) := do
  let v ← authenticate crypto token jwks
  require (opts.now ≤ saturatingAdd v.claims.exp opts.leewaySecs) .expired
  require (v.claims.iat ≤ saturatingAdd opts.now opts.leewaySecs) .notYetValid
  require (∀ iss ∈ opts.expectedIss, v.claims.iss = iss) .issuerMismatch
  require (∀ aud ∈ opts.expectedAud, v.claims.aud = aud) .audienceMismatch
  pure v

def Claims.InWindow (claims : Claims F) (leeway now : Nat) : Prop :=
  now ≤ saturatingAdd claims.exp leeway ∧ claims.iat ≤ saturatingAdd now leeway

variable {crypto}

variable {opts : VerifyOptions} {token : String} {jwks : Jwks} {v : VerifiedToken F}

theorem verify_eq_ok :
    verify crypto token jwks opts = .ok v ↔
      authenticate crypto token jwks = .ok v ∧ v.claims.InWindow opts.leewaySecs opts.now ∧
        (∀ iss ∈ opts.expectedIss, v.claims.iss = iss) ∧
        ∀ aud ∈ opts.expectedAud, v.claims.aud = aud := by
  unfold verify Claims.InWindow
  simp only [bind_eq_ok, require_eq_ok, pure_eq_ok, exists_const]
  constructor
  · rintro ⟨w, hauth, hexp, hiat, hiss, haud, hw⟩
    subst hw
    exact ⟨hauth, ⟨hexp, hiat⟩, hiss, haud⟩
  · rintro ⟨hauth, ⟨hexp, hiat⟩, hiss, haud⟩
    exact ⟨v, hauth, hexp, hiat, hiss, haud, rfl⟩

theorem verify_again (h : verify crypto token jwks opts = .ok v) (now : Nat) :
    (∃ w, verify crypto token jwks { opts with now } = .ok w) ↔
      v.claims.InWindow opts.leewaySecs now := by
  rw [verify_eq_ok] at h
  obtain ⟨hauth, -, hiss, haud⟩ := h
  constructor
  · rintro ⟨w, hw⟩
    rw [verify_eq_ok, hauth] at hw
    obtain ⟨heq, hwindow, -⟩ := hw
    cases heq
    exact hwindow
  · intro hwindow
    exact ⟨v, verify_eq_ok.mpr ⟨hauth, hwindow, hiss, haud⟩⟩

theorem verify_unique {w : VerifiedToken F} {now : Nat} (h : verify crypto token jwks opts = .ok v)
    (h' : verify crypto token jwks { opts with now } = .ok w) : w = v := by
  rw [verify_eq_ok] at h h'
  have heq := h.1.symm.trans h'.1
  cases heq
  rfl

end

end Jose

open Jose

variable {F : Type}

def Principal.fromVerified (v : VerifiedToken F) : Principal F :=
  { authenticated := true
    uid := some v.claims.sub
    claims := v.claims.claims.getD .null }

structure JwtSource where
  jwks : Jwks
  leewaySecs : Nat
  expectedIss : Option String
  expectedAud : Option String

/-- The options `principal_at` verifies under. -/
def JwtSource.policy (source : JwtSource) (now : Nat) : VerifyOptions :=
  { VerifyOptions.atTime now with
    leewaySecs := source.leewaySecs
    expectedIss := source.expectedIss
    expectedAud := source.expectedAud }

def JwtSource.principalAt (crypto : Crypto F) (source : JwtSource) (bearer : Option String)
    (now : Nat) : Principal F :=
  match bearer with
  | none => .anonymous
  | some token =>
    match verify crypto token source.jwks (source.policy now) with
    | .ok v => .fromVerified v
    | .error _ => .anonymous

theorem JwtSource.principalAt_cases (crypto : Crypto F) (source : JwtSource) (bearer : Option String)
    (now : Nat) :
    source.principalAt crypto bearer now = .anonymous ∨
      ∃ token v, bearer = some token ∧ verify crypto token source.jwks (source.policy now) = .ok v ∧
        source.principalAt crypto bearer now = .fromVerified v := by
  unfold principalAt
  cases bearer with
  | none => exact .inl rfl
  | some token =>
    dsimp only
    cases h : verify crypto token source.jwks (source.policy now) with
    | error e => exact .inl rfl
    | ok v => exact .inr ⟨token, v, rfl, h, rfl⟩

end RhypeDb.Authz
