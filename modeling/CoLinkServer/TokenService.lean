import CoLinkServer.Authorization
import CoLinkServer.BasicStorage
import CoLinkServer.Decisions

/-! The requests that give out tokens. A token is given for a user that the host has imported,
against a token of this user or against a consent that the user has signed. -/
namespace CoLinkServer

structure GenerateTokenRequest where
  privilege : String := ""
  expirationTime : ℤ := 0
  userConsent : Option UserConsent := none

namespace TokenService

open Authorization BasicStorage

/-- The libraries a core uses, its keys and the secret for its tokens. `timestampInRange` tells
for which numbers of seconds `timestamp_opt` has a result. -/
structure Core where
  P : Primitives
  M : Prost
  J : Jwt
  keys : Keys P
  secret : J.Secret
  timestampInRange : ℤ → Bool

/-- The times at which a request reads the clock, and what comes of telling the message queue that a
key has changed. -/
structure Circumstances where
  verifiedAt : ℤ
  importedAtNanos : ℤ
  checkedAt : ℤ
  storedAtNanos : String → ℤ
  publishChange : String → String → Except UpdateError Unit

structure ServerState where
  maps : StorageMap Bytes
  importedUsers : Finset String

/-- What a request does to the state is kept when it fails. -/
abbrev Action : Type → Type := ExceptT Abort (StateM ServerState)

variable (core : Core) (c : Circumstances)

def Core.publicKeyVec (core : Core) : Bytes := core.P.publicKeySerialize core.keys.publicKey

def getHostId : String := hexEncode core.publicKeyVec

def token (claims : AuthContent) : String := core.J.encode core.secret claims

/-- `StorageWithMQSubscription::update` -/
def storageUpdate (userId keyName : String) (payload : Bytes) : Action Unit := do
  let state ← get
  let (result,maps) := update state.maps userId keyName payload (c.storedAtNanos keyName)
  set { state with maps := maps }
  match result with
  | .error e => throw (.internal e)
  | .ok _ =>
    match c.publishChange userId keyName with
    | .error e => throw e.abort
    | .ok () => return ()

def internalStorageUpdate (userId keyName : String) (payload : Bytes) : Action Unit :=
  storageUpdate c userId ("_internal:" ++ keyName) payload

def hostStorageUpdate (keyName : String) (payload : Bytes) : Action Unit :=
  storageUpdate c (getHostId core) keyName payload

def internalStorageRead (userId keyName : String) : Action Bytes := do
  match readKeyName (← get).maps userId ("_internal:" ++ keyName) with
  | .ok payload => return payload
  | .error e => throw (.internal e)

/-- The user id in the consent, after the stored consent has been replaced by a longer one. -/
def userOfConsent (userConsent : UserConsent) : Action String := do
  let userPublicKeyVec ← checkUserConsent core.P c.checkedAt userConsent core.publicKeyVec
  match core.P.publicKeyFromSlice userPublicKeyVec with
  | .error _ => throw .panic
  | .ok userPublicKey =>
    let userId := hexEncode (core.P.publicKeySerialize userPublicKey)
    if userId ∈ (← get).importedUsers then
      let oldUserConsent ← internalStorageRead userId "user_consent"
      match core.M.userConsent.decode oldUserConsent with
      | none => throw .panic
      | some oldUserConsent =>
        if userConsent.expirationTimestamp > oldUserConsent.expirationTimestamp then
          internalStorageUpdate c userId "user_consent" (core.M.userConsent.encode userConsent)
        return userId
    else
      throw (.permissionDenied ("User " ++ userId ++ " in the consent does not exist."))

/-- Whatever the reason why the privilege check fails, a consent is tried next. -/
def requestingUser (metadata : MetadataMap) (userConsent : Option UserConsent) : Action String := do
  match checkPrivilegeIn (← get).importedUsers metadata (privileges .generateToken) with
  | .ok () => getKeyFromMetadata metadata "user_id"
  | .error .panic => throw .panic
  | .error (.status e) =>
    match userConsent with
    | some userConsent => userOfConsent core c userConsent
    | none => throw (.status e)

def generateToken (metadata : MetadataMap) (body : GenerateTokenRequest) : Action String := do
  let userId ← requestingUser core c metadata body.userConsent
  if body.privilege ∉ ["user","guest"] then
    throw (.permissionDenied ("generating token with " ++ body.privilege ++
      " privilege is not allowed."))
  else
    return token core ⟨body.privilege,userId,body.expirationTime⟩

/-- The distance of a time in seconds from one in nanoseconds, in full seconds. -/
def secondsFrom (timestamp nowNanos : ℤ) : ℤ := (timestamp * 1000000000 - nowNanos).tdiv 1000000000

def importUser (metadata : MetadataMap) (body : UserConsent) : Action String := do
  checkPrivilegeIn (← get).importedUsers metadata (privileges .importUser)
  if !core.timestampInRange body.signatureTimestamp then throw .panic
  else if (secondsFrom body.signatureTimestamp c.importedAtNanos).natAbs > 10 * 60 then
    throw (.unauthenticated "the timestamp is more than 10 minutes before the current time")
  else
    let userPublicKeyVec ← checkUserConsent core.P c.checkedAt body core.publicKeyVec
    match core.P.publicKeyFromSlice userPublicKeyVec with
    | .error e => throw (.invalidArgument
        ("The public key could not be decoded in compressed serialized format: " ++ e))
    | .ok userPublicKey =>
      let userId := hexEncode (core.P.publicKeySerialize userPublicKey)
      internalStorageUpdate c userId "user_consent" (core.M.userConsent.encode body)
      let jwt := token core ⟨"user",userId,body.expirationTimestamp⟩
      hostStorageUpdate core c ("users:" ++ userId ++ ":user_jwt") (stringBytes jwt)
      internalStorageUpdate c userId "_is_initialized" [0]
      modify fun state => { state with importedUsers := insert userId state.importedUsers }
      return jwt

section After

variable {α β : Type} {s : ServerState}

def After (x : Action α) (s : ServerState) (Q : Except Abort α → ServerState → Prop) : Prop :=
  Q (x s).1 (x s).2

theorem After.mono {x : Action α} {Q Q' : Except Abort α → ServerState → Prop}
    (h : After x s Q) (hq : ∀ r s', Q r s' → Q' r s') : After x s Q' := hq _ _ h

theorem After.bind {x : Action α} {f : α → Action β} {R : Except Abort α → ServerState → Prop}
    {Q : Except Abort β → ServerState → Prop} (h : After x s R)
    (hok : ∀ a s', R (.ok a) s' → After (f a) s' Q)
    (herr : ∀ e s', R (.error e) s' → Q (.error e) s') : After (x >>= f) s Q := by
  have hx : (x >>= f) s = ExceptT.bindCont f (x s).1 (x s).2 := rfl
  unfold After at h ⊢
  rw [hx]
  generalize x s = p at h
  obtain ⟨r,s'⟩ := p
  cases r with
  | ok a => exact hok a s' h
  | error e => exact herr e s' h

theorem After.bind_lift {x : Except Abort α} {f : α → Action β}
    {Q : Except Abort β → ServerState → Prop} (hok : ∀ a, x = .ok a → After (f a) s Q)
    (herr : ∀ e, x = .error e → Q (.error e) s) : After ((liftM x : Action α) >>= f) s Q := by
  cases hx : x with
  | ok a => exact hok a hx
  | error e => exact herr e hx

theorem After.bind_get {f : ServerState → Action β} {Q : Except Abort β → ServerState → Prop}
    (h : After (f s) s Q) : After (get >>= f) s Q := h

theorem After.bind_set {s' : ServerState} {f : PUnit → Action β}
    {Q : Except Abort β → ServerState → Prop} (h : After (f ⟨⟩) s' Q) :
    After (set s' >>= f) s Q := h

theorem After.bind_modify {g : ServerState → ServerState} {f : PUnit → Action β}
    {Q : Except Abort β → ServerState → Prop} (h : After (f ⟨⟩) (g s) Q) :
    After (modify g >>= f) s Q := h

theorem After.pure {a : α} {Q : Except Abort α → ServerState → Prop} (h : Q (.ok a) s) :
    After (Pure.pure a) s Q := h

theorem After.throw {e : Abort} {Q : Except Abort α → ServerState → Prop} (h : Q (.error e) s) :
    After (throw e) s Q := h

theorem After.lift {x : Except Abort α} {Q : Except Abort α → ServerState → Prop} (h : Q x s) :
    After (liftM x : Action α) s Q := by
  cases x <;> exact h

end After

section Parts

variable {core : Core} {c : Circumstances} {s : ServerState} {metadata : MetadataMap}

/-- The consent is accepted for the user at that time. -/
def ConsentFor (core : Core) (now : ℤ) (userConsent : UserConsent) (userId : String) : Prop :=
  ∃ vec pk, checkUserConsent core.P now userConsent core.publicKeyVec = .ok vec ∧
    core.P.publicKeyFromSlice vec = .ok pk ∧ userId = hexEncode (core.P.publicKeySerialize pk)

theorem after_storageUpdate (u k : String) (payload : Bytes) :
    After (storageUpdate c u k payload) s fun _ s' => s'.importedUsers = s.importedUsers := by
  apply After.bind_get
  generalize update s.maps u k payload (c.storedAtNanos k) = p
  obtain ⟨r,maps⟩ := p
  apply After.bind_set
  cases r with
  | error e => rfl
  | ok _ =>
    dsimp only
    cases c.publishChange u k <;> rfl

theorem after_storageUpdate_value {u u' : String} (hu : NoColon u) (hu' : NoColon u')
    (k k' : String) (payload : Bytes) :
    After (storageUpdate c u k payload) s fun _ s' =>
      value s'.maps u' k' = if u' = u ∧ k' = k then some payload else value s.maps u' k' := by
  have hv : value (update s.maps u k payload (c.storedAtNanos k)).2 u' k' =
      if u' = u ∧ k' = k then some payload else value s.maps u' k' := by
    split_ifs with he
    · rw [he.1,he.2,value_update_self]
    · rw [value_update_of_ne _ hu hu' he]
  apply After.bind_get
  generalize update s.maps u k payload (c.storedAtNanos k) = p at hv
  obtain ⟨r,maps⟩ := p
  apply After.bind_set
  cases r with
  | error e => exact hv
  | ok _ =>
    dsimp only
    cases c.publishChange u k <;> exact hv

theorem after_internalStorageRead (u k : String) :
    After (internalStorageRead u k) s fun _ s' => s' = s := by
  apply After.bind_get
  cases readKeyName s.maps u ("_internal:" ++ k) <;> rfl

theorem after_userOfConsent (userConsent : UserConsent) :
    After (userOfConsent core c userConsent) s fun r s' => s'.importedUsers = s.importedUsers ∧
      ∀ u, r = .ok u → u ∈ s.importedUsers ∧ ConsentFor core c.checkedAt userConsent u := by
  refine After.bind_lift (fun vec hvec => ?_) fun e _ => ⟨rfl,by simp⟩
  cases hpk : core.P.publicKeyFromSlice vec with
  | error e => exact After.throw ⟨rfl,by simp⟩
  | ok pk =>
    apply After.bind_get
    split_ifs with hu
    · refine (after_internalStorageRead _ _).bind (fun old s₁ hs₁ => ?_)
        fun e s₁ hs₁ => ⟨congrArg _ hs₁,by simp⟩
      subst hs₁
      have hfor : ConsentFor core c.checkedAt userConsent
          (hexEncode (core.P.publicKeySerialize pk)) := ⟨vec,pk,hvec,hpk,rfl⟩
      cases core.M.userConsent.decode old with
      | none => exact After.throw ⟨rfl,by simp⟩
      | some old =>
        have hpure {s₂ : ServerState} (h₂ : s₂.importedUsers = s₁.importedUsers) :
            After (pure (hexEncode (core.P.publicKeySerialize pk)) : Action String) s₂
              fun r s' => s'.importedUsers = s₁.importedUsers ∧ ∀ u, r = .ok u →
                u ∈ s₁.importedUsers ∧ ConsentFor core c.checkedAt userConsent u := by
          refine After.pure ⟨h₂,fun u he => ?_⟩
          obtain rfl := Except.ok.inj he
          exact ⟨hu,hfor⟩
        dsimp only
        split_ifs with hlater
        · exact (after_storageUpdate _ _ _).bind (fun _ _ h₂ => hpure h₂)
            fun e _ h₂ => ⟨h₂,by simp⟩
        · exact hpure rfl
    · exact After.throw ⟨rfl,by simp⟩

/-- The user a token is asked for is imported, and asks with a token or with a consent. -/
theorem after_requestingUser (userConsent : Option UserConsent) :
    After (requestingUser core c metadata userConsent) s fun r s' =>
      s'.importedUsers = s.importedUsers ∧ ∀ u, r = .ok u → u ∈ s.importedUsers ∧
        ((getKeyFromMetadata metadata "privilege" = .ok "user" ∧
            getKeyFromMetadata metadata "user_id" = .ok u) ∨
          ∃ consent, userConsent = some consent ∧ ConsentFor core c.checkedAt consent u) := by
  apply After.bind_get
  cases hc : checkPrivilegeIn s.importedUsers metadata (privileges .generateToken) with
  | ok _ =>
    refine After.lift ⟨rfl,fun u hu => ?_⟩
    obtain ⟨p,hm,hp,u',hu',hi⟩ := of_checkPrivilegeIn hc
    obtain rfl := List.mem_singleton.mp hm
    obtain rfl := Except.ok.inj (hu'.symm.trans hu)
    exact ⟨hi (by simp),.inl ⟨hp,hu⟩⟩
  | error e =>
    cases e with
    | panic => exact After.throw ⟨rfl,by simp⟩
    | status e =>
      cases userConsent with
      | none => exact After.throw ⟨rfl,by simp⟩
      | some consent =>
        refine (after_userOfConsent consent).mono fun r s' h => ⟨h.1,fun u hu => ?_⟩
        exact ⟨(h.2 u hu).1,.inr ⟨consent,rfl,(h.2 u hu).2⟩⟩

theorem after_generateToken (body : GenerateTokenRequest) :
    After (generateToken core c metadata body) s fun r s' => s'.importedUsers = s.importedUsers ∧
      ∀ t, r = .ok t → body.privilege ∈ ["user","guest"] ∧ ∃ u ∈ s.importedUsers,
        t = token core ⟨body.privilege,u,body.expirationTime⟩ ∧
        ((getKeyFromMetadata metadata "privilege" = .ok "user" ∧
            getKeyFromMetadata metadata "user_id" = .ok u) ∨
          ∃ consent, body.userConsent = some consent ∧ ConsentFor core c.checkedAt consent u) := by
  refine (after_requestingUser _).bind (fun u s₁ h => ?_) fun e s₁ h => ⟨h.1,by simp⟩
  split_ifs with hp
  · refine After.pure ⟨h.1,fun t ht => ?_⟩
    obtain rfl := Except.ok.inj ht
    exact ⟨hp,u,(h.2 u rfl).1,rfl,(h.2 u rfl).2⟩
  · exact After.throw ⟨h.1,by simp⟩

/-- A user becomes imported when a host presents the user's consent. -/
theorem after_importUser (body : UserConsent) :
    After (importUser core c metadata body) s fun r s' =>
      (∀ e, r = .error e → s'.importedUsers = s.importedUsers) ∧
      ∀ t, r = .ok t → getKeyFromMetadata metadata "privilege" = .ok "host" ∧
        (∃ host, getKeyFromMetadata metadata "user_id" = .ok host) ∧ ∃ u,
        t = token core ⟨"user",u,body.expirationTimestamp⟩ ∧
        ConsentFor core c.checkedAt body u ∧ s'.importedUsers = insert u s.importedUsers := by
  apply After.bind_get
  refine After.bind_lift (fun _ hc => ?_) fun e _ => ⟨fun _ _ => rfl,by simp⟩
  dsimp only
  split_ifs with hr ht
  · exact After.throw ⟨fun _ _ => rfl,by simp⟩
  · exact After.throw ⟨fun _ _ => rfl,by simp⟩
  refine After.bind_lift (fun vec hvec => ?_) fun e _ => ⟨fun _ _ => rfl,by simp⟩
  cases hpk : core.P.publicKeyFromSlice vec with
  | error e => exact After.throw ⟨fun _ _ => rfl,by simp⟩
  | ok pk =>
    refine (after_storageUpdate _ _ _).bind (fun _ s₁ h₁ => ?_) fun e s₁ h₁ =>
      ⟨fun _ _ => h₁,by simp⟩
    refine (after_storageUpdate _ _ _).bind (fun _ s₂ h₂ => ?_) fun e s₂ h₂ =>
      ⟨fun _ _ => h₂.trans h₁,by simp⟩
    refine (after_storageUpdate _ _ _).bind (fun _ s₃ h₃ => ?_) fun e s₃ h₃ =>
      ⟨fun _ _ => h₃.trans (h₂.trans h₁),by simp⟩
    apply After.bind_modify
    obtain ⟨p,hm,hp,host,hh,-⟩ := of_checkPrivilegeIn hc
    refine After.pure ⟨by simp,fun t ht => ⟨?_,⟨host,hh⟩,_,?_,⟨vec,pk,hvec,hpk,rfl⟩,?_⟩⟩
    · rw [hp,List.mem_singleton.mp hm]
    · exact (Except.ok.inj ht).symm
    · simp only [h₁,h₂,h₃]

end Parts

/-- The requests of clients. What is not about tokens may change the storage in any way. -/
inductive ClientRequest
  | generateToken (body : GenerateTokenRequest)
  | importUser (body : UserConsent)
  | other (handler : Handler) (maps : StorageMap Bytes)

/-- The response, with the token in it, and the state after a request that was let in. -/
def serve (metadata : MetadataMap) (state : ServerState) :
    ClientRequest → Except Abort (Option String) × ServerState
  | .generateToken body => (generateToken core c metadata body state).map (·.map some) id
  | .importUser body => (importUser core c metadata body state).map (·.map some) id
  | .other _ maps => (.ok none,{ state with maps := maps })

structure Entry where
  circumstances : Circumstances
  metadata : MetadataMap
  request : ClientRequest
  importedBefore : Finset String
  response : Except Abort (Option String)

def receive (state : ServerState) (metadata : MetadataMap) (request : ClientRequest) :
    Entry × ServerState :=
  let (response,state') := match intercept core.J core.secret c.verifiedAt metadata with
    | .error e => (.error e,state)
    | .ok metadata => serve core c metadata state request
  (⟨c,metadata,request,state.importedUsers,response⟩,state')

def start : ServerState := ⟨empty,∅⟩

def run (requests : List (Circumstances × MetadataMap × ClientRequest)) :
    ServerState × List Entry :=
  requests.foldl (fun (state,log) (c,metadata,request) =>
    let (entry,state) := receive core c state metadata request
    (state,log ++ [entry])) (start,[])

section Runs

variable {core : Core}

/-- A token in the metadata that the core verifies, and what it says. -/
def Presents (core : Core) (e : Entry) (privilege userId : String) : Prop :=
  ∃ t claims, e.metadata "authorization" = some ⟨some t⟩ ∧ t ≠ "" ∧
    core.J.decode core.secret e.circumstances.verifiedAt t = .ok claims ∧
    claims.privilege = privilege ∧ claims.userId = userId

/-- The response carries a token that the core would verify, and what it says. -/
def Issues (core : Core) (e : Entry) (claims : AuthContent) : Prop :=
  ∃ t now, e.response = .ok (some t) ∧ core.J.decode core.secret now t = .ok claims

/-- The handlers decide by what the token of the request says, and let nobody in without one. -/
structure Decided (core : Core) (e : Entry) : Prop where
  verified : ∀ t metadata', e.metadata "authorization" = some ⟨some t⟩ → t ≠ "" →
    intercept core.J core.secret e.circumstances.verifiedAt e.metadata = .ok metadata' → ∃ claims,
      core.J.decode core.secret e.circumstances.verifiedAt t = .ok claims ∧
      getKeyFromMetadata metadata' "privilege" = .ok claims.privilege ∧
      getKeyFromMetadata metadata' "user_id" = .ok claims.userId ∧
      ∀ (importedUsers : Finset String) (handler : Handler),
        checkPrivilegeIn importedUsers metadata' (privileges handler) = .ok () ↔
          claims.privilege ∈ privileges handler ∧
            (claims.privilege ∈ ["user","guest"] → claims.userId ∈ importedUsers)
  anonymous : ∀ metadata', e.metadata "authorization" = some ⟨some ""⟩ →
    intercept core.J core.secret e.circumstances.verifiedAt e.metadata = .ok metadata' →
      ∀ (importedUsers : Finset String) (handler : Handler),
        checkPrivilegeIn importedUsers metadata' (privileges handler) ≠ .ok ()

/-- What a request shows for the token it is given. -/
structure Justified (core : Core) (e : Entry) : Prop where
  privilege : ∀ claims, Issues core e claims → claims.privilege ∈ ["user","guest"]
  generated : ∀ body claims, e.request = .generateToken body → Issues core e claims →
    claims.userId ∈ e.importedBefore ∧ (Presents core e "user" claims.userId ∨
      ∃ consent, body.userConsent = some consent ∧
        ConsentFor core e.circumstances.checkedAt consent claims.userId)
  imported : ∀ body claims, e.request = .importUser body → Issues core e claims →
    (∃ u, Presents core e "host" u) ∧
      ConsentFor core e.circumstances.checkedAt body claims.userId

theorem decided (e : Entry) : Decided core e where
  verified t metadata' ht hne hi := by
    obtain ⟨claims,hd,hp,hu⟩ := intercept_token ht hne hi
    exact ⟨claims,hd,hp,hu,fun importedUsers handler => checkPrivilegeIn_ok hp hu⟩
  anonymous metadata' ht hi importedUsers handler := by
    obtain ⟨message,hm⟩ := anonymous_denied importedUsers handler (intercept_anonymous ht hi)
    simp [hm]

theorem presents_of_intercept {e : Entry} {metadata' : MetadataMap} {p u : String}
    (hi : intercept core.J core.secret e.circumstances.verifiedAt e.metadata = .ok metadata')
    (hp : getKeyFromMetadata metadata' "privilege" = .ok p) (hne : p ≠ "anonymous")
    (hu : getKeyFromMetadata metadata' "user_id" = .ok u) : Presents core e p u := by
  obtain ⟨t,ht⟩ := authorization_of_intercept hi
  by_cases h0 : t = ""
  · subst h0
    exact absurd (Except.ok.inj (hp.symm.trans (intercept_anonymous ht hi))) hne
  · obtain ⟨claims,hd,hp',hu'⟩ := intercept_token ht h0 hi
    exact ⟨t,claims,ht,h0,hd,Except.ok.inj (hp'.symm.trans hp),Except.ok.inj (hu'.symm.trans hu)⟩

theorem eq_of_issues {e : Entry} {claims claims' : AuthContent}
    (hr : e.response = .ok (some (token core claims))) (h : Issues core e claims') :
    claims' = claims := by
  obtain ⟨t,now,ht,hd⟩ := h
  have he : t = token core claims := by simpa [ht] using hr
  exact core.J.decode_encode _ _ _ _ (he ▸ hd)

theorem justified_of_no_token {e : Entry} (h : ∀ t, e.response ≠ .ok (some t)) :
    Justified core e where
  privilege _ hi := absurd hi.choose_spec.choose_spec.1 (h _)
  generated _ _ _ hi := absurd hi.choose_spec.choose_spec.1 (h _)
  imported _ _ _ hi := absurd hi.choose_spec.choose_spec.1 (h _)

theorem justified_receive (c : Circumstances) (state : ServerState) (metadata : MetadataMap)
    (request : ClientRequest) : Justified core (receive core c state metadata request).1 := by
  unfold receive
  cases hi : intercept core.J core.secret c.verifiedAt metadata with
  | error a => exact justified_of_no_token (by simp)
  | ok metadata' =>
    cases request with
    | other handler maps => exact justified_of_no_token (by simp [serve])
    | generateToken body =>
      have hh := @after_generateToken core c state metadata' body
      unfold After at hh
      simp only [serve]
      generalize generateToken core c metadata' body state = p at hh ⊢
      obtain ⟨r,s'⟩ := p
      cases r with
      | error a => exact justified_of_no_token (by simp [Except.map])
      | ok t =>
        obtain ⟨hp,u,hu,rfl,hw⟩ := hh.2 t rfl
        refine ⟨fun claims hc => ?_,fun body' claims hb hc => ?_,by simp⟩
        · rwa [eq_of_issues rfl hc]
        · rw [eq_of_issues rfl hc]
          obtain rfl := ClientRequest.generateToken.inj hb
          refine ⟨hu,hw.imp (fun ⟨hp,hi'⟩ => ?_) id⟩
          exact presents_of_intercept hi hp (by decide) hi'
    | importUser body =>
      have hh := @after_importUser core c state metadata' body
      unfold After at hh
      simp only [serve]
      generalize importUser core c metadata' body state = p at hh ⊢
      obtain ⟨r,s'⟩ := p
      cases r with
      | error a => exact justified_of_no_token (by simp [Except.map])
      | ok t =>
        obtain ⟨hp,⟨host,hhost⟩,u,rfl,hc,-⟩ := hh.2 t rfl
        refine ⟨fun claims hi' => ?_,by simp,fun body' claims hb hi' => ?_⟩
        · rw [eq_of_issues rfl hi']
          simp
        · rw [eq_of_issues rfl hi']
          obtain rfl := ClientRequest.importUser.inj hb
          exact ⟨⟨host,presents_of_intercept hi hp (by decide) hhost⟩,hc⟩

theorem run_concat (core : Core) (requests : List (Circumstances × MetadataMap × ClientRequest))
    (c : Circumstances) (metadata : MetadataMap) (request : ClientRequest) :
    run core (requests ++ [(c,metadata,request)]) =
      ((receive core c (run core requests).1 metadata request).2,
        (run core requests).2 ++ [(receive core c (run core requests).1 metadata request).1]) := by
  simp [run]

/-- The host imports the user of a consent. -/
def Imports (core : Core) (e : Entry) (userId : String) : Prop :=
  ∃ body host, e.request = .importUser body ∧ Presents core e "host" host ∧
    ConsentFor core e.circumstances.checkedAt body userId

theorem imports_of_receive {c : Circumstances} {state : ServerState} {metadata : MetadataMap}
    {request : ClientRequest} {u : String}
    (h : u ∈ (receive core c state metadata request).2.importedUsers) :
    u ∈ state.importedUsers ∨ Imports core (receive core c state metadata request).1 u := by
  unfold receive at h ⊢
  cases hi : intercept core.J core.secret c.verifiedAt metadata with
  | error a => exact .inl (by simpa [hi] using h)
  | ok metadata' =>
    rw [hi] at h
    cases request with
    | other handler maps => exact .inl h
    | generateToken body =>
      have hh := @after_generateToken core c state metadata' body
      exact .inl (hh.1 ▸ h)
    | importUser body =>
      have hh := @after_importUser core c state metadata' body
      unfold After at hh
      simp only [serve] at h
      generalize importUser core c metadata' body state = p at hh h
      obtain ⟨r,s'⟩ := p
      cases r with
      | error a => exact .inl (hh.1 a rfl ▸ h)
      | ok t =>
        obtain ⟨hp,⟨host,hhost⟩,u',-,hc,hs⟩ := hh.2 t rfl
        have hu : u = u' ∨ u ∈ state.importedUsers := Finset.mem_insert.mp (hs ▸ h)
        rcases hu with rfl | hu
        · exact .inr ⟨body,host,rfl,presents_of_intercept hi hp (by decide) hhost,hc⟩
        · exact .inl hu

theorem imported_by_host (core : Core)
    (requests : List (Circumstances × MetadataMap × ClientRequest)) {u : String}
    (hu : u ∈ (run core requests).1.importedUsers) :
    ∃ e ∈ (run core requests).2, Imports core e u := by
  induction requests using List.reverseRecOn with
  | nil => simp [run,start] at hu
  | append_singleton requests r ih =>
    rw [run_concat] at hu ⊢
    rcases imports_of_receive hu with hu | hu
    · obtain ⟨e,he,hi⟩ := ih hu
      exact ⟨e,List.mem_append_left _ he,hi⟩
    · exact ⟨_,List.mem_append_right _ (List.mem_singleton_self _),hu⟩

/-- No sequence of requests leads to a token that a client has no right to. -/
theorem tokens_justified (core : Core)
    (requests : List (Circumstances × MetadataMap × ClientRequest)) :
    ∀ e ∈ (run core requests).2, Justified core e ∧ Decided core e ∧
      ∀ u ∈ e.importedBefore, ∃ e' ∈ (run core requests).2, Imports core e' u := by
  induction requests using List.reverseRecOn with
  | nil => simp [run]
  | append_singleton requests r ih =>
    rw [run_concat]
    intro e he
    rcases List.mem_append.mp he with he | he
    · obtain ⟨hj,hd,hi⟩ := ih e he
      refine ⟨hj,hd,fun u hu => ?_⟩
      obtain ⟨e',he',hu'⟩ := hi u hu
      exact ⟨e',List.mem_append_left _ he',hu'⟩
    · obtain rfl := List.mem_singleton.mp he
      refine ⟨justified_receive _ _ _ _,decided _,fun u hu => ?_⟩
      obtain ⟨e',he',hu'⟩ := imported_by_host core requests hu
      exact ⟨e',List.mem_append_left _ he',hu'⟩

end Runs

def plainJwt : Jwt where
  Secret := Unit
  encode _ claims := hexEncode ((Code.string.pair (Code.string.pair Code.int)).enc
    (claims.privilege,claims.userId,claims.exp))
  decode _ now t :=
    match (hexDecode t).bind (Code.string.pair (Code.string.pair Code.int)).decode with
    | none => .error "InvalidToken"
    | some (privilege,userId,exp) =>
      if now ≤ exp then .ok ⟨privilege,userId,exp⟩ else .error "ExpiredSignature"
  decode_encode _ now claims claims' h := by
    simp only [hexDecode_hexEncode,Option.bind_some,Code.decode_enc] at h
    split_ifs at h
    exact (Except.ok.inj h).symm

/-- Ideal signatures with keys that can be written in two ways: behind 2 or 3 the first coordinate,
behind 4 both of them. -/
def twoForms : Primitives where
  PublicKey := Bool × Bytes
  SecretKey := Bool × Bytes
  Signature := Bytes
  sha256 := id
  keccak256 := id
  publicKeyFromSlice
    | 2 :: x => .ok (false,x)
    | 3 :: x => .ok (true,x)
    | 4 :: xy => .ok (decide (xy.getLast?.getD 0 % 2 = 1),xy.take 32)
    | _ => .error "malformed public key"
  publicKeySerialize key := (if key.1 then 3 else 2) :: key.2
  signatureFromCompact := .ok
  signatureSerializeCompact := id
  signEcdsa message key := (if key.1 then 3 else 2) :: key.2 ++ message
  verifyEcdsa message signature key :=
    if signature = (if key.1 then 3 else 2) :: key.2 ++ message then .ok ()
    else .error "signature failed verification"
  recoverableFromCompact signature _ := .ok signature
  recoverEcdsa _ _ := .error "recovery failed"

def sampleCore : Core where
  P := twoForms
  M := .selfDelimiting
  J := plainJwt
  keys := ⟨(false,[9]),(false,[9])⟩
  secret := ()
  timestampInRange _ := true

/-- The consent of a user whose key is written in this way. -/
def sampleConsentOf (publicKey : Bytes) : UserConsent :=
  let message := publicKey ++ i64LeBytes 0 ++ i64LeBytes 1000 ++ [2,9]
  let key := 2 :: (List.replicate 32 7 : Bytes)
  ⟨publicKey,0,1000,key ++ message⟩

def compressed : Bytes := 2 :: List.replicate 32 7

def sampleCircumstances : Circumstances := ⟨0,0,0,fun _ => 5,fun _ _ => .ok ()⟩

def sampleImport (publicKey : Bytes) : Circumstances × MetadataMap × ClientRequest :=
  (sampleCircumstances,
    insert (fun _ => none) "authorization" (token sampleCore ⟨"host",getHostId sampleCore,100⟩),
    .importUser (sampleConsentOf publicKey))

/-- The host imports a user, who gets a token. -/
theorem tokens_justified_sample : ∃ e ∈ (run sampleCore [sampleImport compressed]).2,
    e.response = .ok (some (token sampleCore ⟨"user",hexEncode compressed,1000⟩)) ∧
    Justified sampleCore e := by
  have hin : (receive sampleCore sampleCircumstances start (sampleImport compressed).2.1
      (.importUser (sampleConsentOf compressed))).1 ∈ (run sampleCore [sampleImport compressed]).2 :=
    List.mem_singleton_self _
  refine ⟨_,hin,?_,(tokens_justified sampleCore _ _ hin).1⟩
  decide +kernel

end TokenService
end CoLinkServer
