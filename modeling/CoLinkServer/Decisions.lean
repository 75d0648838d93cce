import CoLinkServer.TaskData
import Mathlib.Algebra.Group.Int.Defs
import Mathlib.Algebra.Group.Nat.Defs
import Mathlib.Data.Int.Notation

/-! Signing a decision and checking one. The elliptic curve operations and the hash functions
are parameters: parsing may fail with a message, and so may verification. -/
namespace CoLinkServer

structure Primitives where
  PublicKey : Type
  SecretKey : Type
  Signature : Type
  sha256 : Bytes → Bytes
  keccak256 : Bytes → Bytes
  publicKeyFromSlice : Bytes → Except String PublicKey
  publicKeySerialize : PublicKey → Bytes
  signatureFromCompact : Bytes → Except String Signature
  signatureSerializeCompact : Signature → Bytes
  signEcdsa : Bytes → SecretKey → Signature
  verifyEcdsa : Bytes → Signature → PublicKey → Except String Unit
  /-- Parse a recoverable signature and recover the key that made it. -/
  recoverableFromCompact : Bytes → ℕ → Except String Signature
  recoverEcdsa : Bytes → Signature → Except String PublicKey

/-- The keys of one core. -/
structure Keys (P : Primitives) where
  publicKey : P.PublicKey
  secretKey : P.SecretKey

def hexDigit (n : ℕ) : Char := if n < 10 then .ofNat (n + 48) else .ofNat (n + 87)

def hexEncode (bs : Bytes) : String :=
  .ofList (bs.flatMap fun b => [hexDigit (b.toNat / 16),hexDigit (b.toNat % 16)])

def hexValue (c : Char) : Option ℕ :=
  if '0' ≤ c ∧ c ≤ '9' then some (c.toNat - 48)
  else if 'a' ≤ c ∧ c ≤ 'f' then some (c.toNat - 87)
  else if 'A' ≤ c ∧ c ≤ 'F' then some (c.toNat - 55)
  else none

def hexDecodeChars : List Char → Option Bytes
  | [] => some []
  | [_] => none
  | c :: d :: cs => do
    let hi ← hexValue c
    let lo ← hexValue d
    let rest ← hexDecodeChars cs
    return .ofNat (16 * hi + lo) :: rest

def hexDecode (s : String) : Option Bytes := hexDecodeChars s.toList

theorem hexValue_hexDigit : ∀ n < 16, hexValue (hexDigit n) = some n := by decide

theorem hexDecode_hexEncode (bs : Bytes) : hexDecode (hexEncode bs) = some bs := by
  unfold hexDecode hexEncode
  rw [String.toList_ofList]
  induction bs with
  | nil => rfl
  | cons b bs ih =>
    have hb : b.toNat < 256 := b.toNat_lt
    have hhi := hexValue_hexDigit (b.toNat / 16) (by omega)
    have hlo := hexValue_hexDigit (b.toNat % 16) (by omega)
    have hsum : 16 * (b.toNat / 16) + b.toNat % 16 = b.toNat := by omega
    rw [List.flatMap_cons,List.cons_append,List.cons_append,List.nil_append,hexDecodeChars,hhi,hlo,
      ih]
    simp only [Option.bind_eq_bind,Option.bind_some,hsum,UInt8.ofNat_toNat]
    rfl

def stringBytes (s : String) : Bytes := s.toUTF8.data.toList

/-- `i64::to_le_bytes` -/
def i64LeBytes (z : ℤ) : Bytes :=
  (List.range 8).map fun i => .ofNat ((z % 2 ^ 64).toNat / 256 ^ i % 256)

/-- The consent of a user to be served by the core with this public key, at time `now`.
An empty public key selects the wallet format, in which the key is recovered. -/
def checkUserConsent (P : Primitives) (now : ℤ) (userConsent : UserConsent)
    (corePublicKeyVec : Bytes) : Except Abort Bytes :=
  if now > userConsent.expirationTimestamp then
    .error (.internal "User consent has expired.")
  else if userConsent.publicKey ≠ [] then
    match P.signatureFromCompact userConsent.signature with
    | .error e => .error (.invalidArgument
        ("The user consent signature could not be decoded in ECDSA: " ++ e))
    | .ok userConsentSignature =>
      match P.publicKeyFromSlice userConsent.publicKey with
      | .error e => .error (.invalidArgument
          ("The public key could not be decoded in compressed serialized format: " ++ e))
      | .ok userPublicKey =>
        match P.verifyEcdsa (P.sha256 (userConsent.publicKey ++
            i64LeBytes userConsent.signatureTimestamp ++
            i64LeBytes userConsent.expirationTimestamp ++ corePublicKeyVec))
            userConsentSignature userPublicKey with
        | .ok () => .ok userConsent.publicKey
        | .error e => .error (.invalidArgument ("Invalid User Consent Signature: " ++ e))
  else
    let msg := "sigTime: " ++ toString userConsent.signatureTimestamp ++ "\nexpTime: " ++
      toString userConsent.expirationTimestamp ++ "\ncorePubKey: " ++
      hexEncode corePublicKeyVec ++ "\n"
    let msg := P.keccak256
      (stringBytes ("\x19Ethereum Signed Message:\n" ++ toString msg.utf8ByteSize ++ msg))
    match userConsent.signature[64]? with
    | none => .error .panic
    | some v =>
      if v.toNat < 27 ∨ 30 < v.toNat then .error .panic
      else
        match P.recoverableFromCompact (userConsent.signature.take 64) (v.toNat - 27) with
        | .error e => .error (.invalidArgument
            ("The user consent signature could not be decoded in ECDSA: " ++ e))
        | .ok signature =>
          match P.recoverEcdsa msg signature with
          | .ok publicKey => .ok (P.publicKeySerialize publicKey)
          | .error e => .error (.invalidArgument ("Invalid User Consent Signature: " ++ e))

/-- The bytes that are signed: the terms of the task, the flags and the reason of the
decision, and the encoded consent. -/
def signedBytes (M : Prost) (task : Task) (decision : Decision) (userConsentBytes : Bytes) : Bytes :=
  M.task.encode task.terms ++
    M.decision.encode
      { isApproved := decision.isApproved, isRejected := decision.isRejected,
        reason := decision.reason } ++
    userConsentBytes

/-- Only the signatures are checked, and that the two flags are not both set. -/
def checkDecision (P : Primitives) (M : Prost) (now : ℤ) (decision : Decision) (userId : String)
    (task : Task) : Except Abort Unit :=
  if decision.signature = [] then .error (.invalidArgument "The signature is empty")
  else
    match P.publicKeyFromSlice decision.corePublicKey with
    | .error e => .error (.invalidArgument
        ("The core public key could not be decoded in compressed serialized format: " ++ e))
    | .ok corePublicKey =>
      match P.signatureFromCompact decision.signature with
      | .error e => .error (.invalidArgument
          ("The signature could not be decoded in ECDSA: " ++ e))
      | .ok signature =>
        match decision.userConsent with
        | none => .error .panic
        | some userConsent =>
          match P.verifyEcdsa
              (P.sha256 (signedBytes M task decision (M.userConsent.encode userConsent)))
              signature corePublicKey with
          | .error e => .error (.invalidArgument ("Invalid Signature: " ++ e))
          | .ok () =>
            match checkUserConsent P now userConsent decision.corePublicKey with
            | .error e => .error e
            | .ok userPublicKeyVecFromUserConsent =>
              match hexDecode userId with
              | none => .error .panic
              | some userPublicKeyVecFromUserId =>
                if userPublicKeyVecFromUserId ≠ userPublicKeyVecFromUserConsent then
                  .error (.invalidArgument "UserConsent is not for the current participant")
                else if decision.isApproved && decision.isRejected then
                  .error (.invalidArgument
                    "The decision's is_approved and is_rejected are true at the same time.")
                else .ok ()

/-- The part of `generate_decision` after the stored consent has been read. -/
def makeDecision (P : Primitives) (M : Prost) (keys : Keys P) (isApproved isRejected : Bool)
    (reason : String) (task : Task) (userConsentBytes : Bytes) : Except Abort Decision :=
  let decision : Decision := { isApproved := isApproved, isRejected := isRejected, reason := reason }
  let signature := P.signEcdsa (P.sha256 (signedBytes M task decision userConsentBytes)) keys.secretKey
  match M.userConsent.decode userConsentBytes with
  | none => .error .panic
  | some userConsent => .ok { decision with
      userConsent := some userConsent
      corePublicKey := P.publicKeySerialize keys.publicKey
      signature := P.signatureSerializeCompact signature }

theorem makeDecision_flags {P : Primitives} {M : Prost} {keys : Keys P} {a r : Bool}
    {reason : String} {task : Task} {bs : Bytes} {d : Decision}
    (h : makeDecision P M keys a r reason task bs = .ok d) :
    d.isApproved = a ∧ d.isRejected = r ∧ d.reason = reason := by
  unfold makeDecision at h
  cases hd : M.userConsent.decode bs with
  | none => simp [hd] at h
  | some c =>
    simp only [hd,Except.ok.injEq] at h
    subst h
    exact ⟨rfl,rfl,rfl⟩

end CoLinkServer
