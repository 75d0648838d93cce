import CoLinkServer.TaskData
import Mathlib.Data.Finset.Basic
import Mathlib.Data.Int.Notation
import Mathlib.Logic.Function.Basic

/-! How a request is told whose it is. An interceptor turns the authorization token of a request
into two entries of its metadata, and the handlers read these. -/
namespace CoLinkServer

/-- The first value under each key. An insertion removes the values that were there. -/
abbrev MetadataMap : Type := String → Option MetadataValue

structure AuthContent where
  privilege : String
  userId : String
  exp : ℤ
deriving DecidableEq

/-- The library that makes and verifies tokens. Verification depends on the time, and a token that
is accepted says what was put into it. -/
structure Jwt where
  Secret : Type
  encode : Secret → AuthContent → String
  decode : Secret → ℤ → String → Except String AuthContent
  decode_encode : ∀ secret now claims claims',
    decode secret now (encode secret claims) = .ok claims' → claims' = claims

namespace Authorization

def insert (metadata : MetadataMap) (key value : String) : MetadataMap :=
  Function.update metadata key (some ⟨some value⟩)

/-- `get(key).unwrap().to_str().unwrap()` -/
def getKeyFromMetadata (metadata : MetadataMap) (key : String) : Except Abort String :=
  match (metadata key).bind (·.toStr) with
  | some s => .ok s
  | none => .error .panic

/-- `CheckAuthInterceptor::call` -/
def intercept (J : Jwt) (secret : J.Secret) (now : ℤ) (metadata : MetadataMap) :
    Except Abort MetadataMap :=
  match metadata "authorization" with
  | none => .error (.unauthenticated "No valid auth token")
  | some value =>
    match value.toStr with
    | none => .error .panic
    | some token =>
      if token = "" then .ok (insert metadata "privilege" "anonymous")
      else
        match J.decode secret now token with
        | .ok claims =>
          .ok (insert (insert metadata "privilege" claims.privilege) "user_id" claims.userId)
        | .error e => .error (.unauthenticated
            ("Debug: wrong secret or token has expired. " ++ e))

def checkPrivilegeIn (importedUsers : Finset String) (metadata : MetadataMap)
    (privileges : List String) : Except Abort Unit := do
  let privilege ← getKeyFromMetadata metadata "privilege"
  if privilege ∈ privileges then
    let userId ← getKeyFromMetadata metadata "user_id"
    if privilege ∈ ["user","guest"] ∧ userId ∉ importedUsers then
      .error (.permissionDenied ("User " ++ userId ++
        " in the JWT is created before the latest server start."))
    else .ok ()
  else
    .error (.permissionDenied ("This procedure requires specific privileges[[" ++
      ", ".intercalate (privileges.map fun p => "\"" ++ p ++ "\"") ++
      "]], while you provide[" ++ privilege ++ "]."))

/-- The handlers of the server, and the privileges that each of them asks for. -/
inductive Handler
  | generateToken | importUser | createEntry | readEntries | updateEntry | deleteEntry | readKeys
  | createTask | confirmTask | finishTask | requestInfo | subscribe | unsubscribe
  | interCoreSyncTask | interCoreSyncTaskWithReverseConnection | startProtocolOperator
  | stopProtocolOperator

def privileges : Handler → List String
  | .generateToken => ["user"]
  | .importUser => ["host"]
  | .createTask => ["user"]
  | .confirmTask => ["user"]
  | .finishTask => ["user"]
  | .interCoreSyncTask => ["user","guest"]
  | .interCoreSyncTaskWithReverseConnection => ["user","guest"]
  | _ => ["user","host"]

variable {J : Jwt} {secret : J.Secret} {now : ℤ} {metadata metadata' : MetadataMap} {token : String}

@[simp] theorem getKey_insert (metadata : MetadataMap) (key value : String) :
    getKeyFromMetadata (insert metadata key value) key = .ok value := by
  simp [getKeyFromMetadata,insert]

@[simp] theorem getKey_insert_of_ne (metadata : MetadataMap) {key key' : String} (value : String)
    (h : key' ≠ key) : getKeyFromMetadata (insert metadata key value) key' =
      getKeyFromMetadata metadata key' := by
  simp [getKeyFromMetadata,insert,h]

theorem intercept_token (ht : metadata "authorization" = some ⟨some token⟩) (hne : token ≠ "")
    (h : intercept J secret now metadata = .ok metadata') : ∃ claims,
      J.decode secret now token = .ok claims ∧
      getKeyFromMetadata metadata' "privilege" = .ok claims.privilege ∧
      getKeyFromMetadata metadata' "user_id" = .ok claims.userId := by
  unfold intercept at h
  rw [ht] at h
  dsimp only at h
  rw [if_neg hne] at h
  cases hd : J.decode secret now token with
  | error e => simp [hd] at h
  | ok claims =>
    rw [hd] at h
    obtain rfl := Except.ok.inj h
    refine ⟨claims,rfl,?_,getKey_insert _ _ _⟩
    rw [getKey_insert_of_ne _ _ (by decide)]
    exact getKey_insert _ _ _

theorem intercept_anonymous (ht : metadata "authorization" = some ⟨some ""⟩)
    (h : intercept J secret now metadata = .ok metadata') :
    getKeyFromMetadata metadata' "privilege" = .ok "anonymous" := by
  unfold intercept at h
  rw [ht] at h
  obtain rfl := Except.ok.inj h
  exact getKey_insert _ _ _

theorem authorization_of_intercept (h : intercept J secret now metadata = .ok metadata') :
    ∃ token, metadata "authorization" = some ⟨some token⟩ := by
  unfold intercept at h
  cases ha : metadata "authorization" with
  | none => simp [ha] at h
  | some value =>
    rw [ha] at h
    cases hv : value.toStr with
    | none => simp [hv] at h
    | some token => exact ⟨token,congrArg some (congrArg MetadataValue.mk hv)⟩

theorem checkPrivilegeIn_ok {importedUsers : Finset String} {privileges : List String} {p u : String}
    (hp : getKeyFromMetadata metadata "privilege" = .ok p)
    (hu : getKeyFromMetadata metadata "user_id" = .ok u) :
    checkPrivilegeIn importedUsers metadata privileges = .ok () ↔
      p ∈ privileges ∧ (p ∈ ["user","guest"] → u ∈ importedUsers) := by
  unfold checkPrivilegeIn
  rw [hp,hu]
  simp only [bind,Except.bind]
  split_ifs with h₁ h₂
  · simp only [false_iff,not_and]
    exact fun _ hi => h₂.2 (hi h₂.1)
  · simp only [true_iff]
    exact ⟨h₁,fun hg => by_contra fun hn => h₂ ⟨hg,hn⟩⟩
  · simp [h₁]

theorem of_checkPrivilegeIn {importedUsers : Finset String} {privileges : List String}
    (h : checkPrivilegeIn importedUsers metadata privileges = .ok ()) :
    ∃ p ∈ privileges, getKeyFromMetadata metadata "privilege" = .ok p ∧ ∃ u,
      getKeyFromMetadata metadata "user_id" = .ok u ∧
      (p ∈ ["user","guest"] → u ∈ importedUsers) := by
  cases hp : getKeyFromMetadata metadata "privilege" with
  | error e => simp [checkPrivilegeIn,hp,bind,Except.bind] at h
  | ok p =>
    cases hu : getKeyFromMetadata metadata "user_id" with
    | error e =>
      by_cases hm : p ∈ privileges <;> simp [checkPrivilegeIn,hp,hu,hm,bind,Except.bind] at h
    | ok u =>
      obtain ⟨hm,hi⟩ := (checkPrivilegeIn_ok hp hu).mp h
      exact ⟨p,hm,rfl,u,rfl,hi⟩

theorem anonymous_denied (importedUsers : Finset String) (handler : Handler)
    (hp : getKeyFromMetadata metadata "privilege" = .ok "anonymous") :
    ∃ message, checkPrivilegeIn importedUsers metadata (privileges handler) =
      .error (.permissionDenied message) := by
  have hno : "anonymous" ∉ privileges handler := by cases handler <;> decide
  unfold checkPrivilegeIn
  rw [hp]
  simp only [bind,Except.bind,if_neg hno]
  exact ⟨_,rfl⟩

end Authorization
end CoLinkServer
