import CoLinkServer.Schedules
import CoLinkServer.SignedDecisions
import CoLinkServer.ThreadTraces
import Mathlib.Order.Bounds.Basic

/-! Clients of one user that present consents at the same time. A request reads the stored consent,
compares and stores in steps of their own, with the steps of other requests between them. -/
namespace CoLinkServer

namespace ConsentRefresh

open Interleaving Authorization
open BasicStorage (value readKeyName readKeyName_eq_ok)
open TokenService (ServerState Circumstances ConsentFor)
open SignedDecisions (hexEncode_noColon noColon_of_consentFor)

inductive Op
  | checkPrivilegeIn (metadata : MetadataMap) (privileges : List String)
  | now
  | importedUsersContains (userId : String)
  | storageRead (userId keyName : String)
  | storageUpdate (userId keyName : String) (payload : Bytes)

def Res : Op → Type
  | .checkPrivilegeIn _ _ => Except Abort Unit
  | .now => ℤ
  | .importedUsersContains _ => Bool
  | .storageRead _ _ => Except String Bytes
  | .storageUpdate _ _ _ => Except UpdateError Unit

abbrev Service (α : Type) : Type := Prog Op Res Abort α

def perform (o : Op) : Service (Res o) := .call o .ret

structure Request where
  metadata : MetadataMap
  body : GenerateTokenRequest

variable (core : TokenService.Core)

def internalStorageRead (userId keyName : String) : Service Bytes := do
  match ← perform (.storageRead userId ("_internal:" ++ keyName)) with
  | .ok payload => .ret payload
  | .error e => .fail (.internal e)

def internalStorageUpdate (userId keyName : String) (payload : Bytes) : Service Unit := do
  match ← perform (.storageUpdate userId ("_internal:" ++ keyName) payload) with
  | .ok () => .ret ()
  | .error e => .fail e.abort

def refresh (userConsent : UserConsent) (userId : String) : Service String := do
  let oldUserConsent ← internalStorageRead userId "user_consent"
  match core.M.userConsent.decode oldUserConsent with
  | none => .fail .panic
  | some oldUserConsent =>
    if userConsent.expirationTimestamp > oldUserConsent.expirationTimestamp then do
      internalStorageUpdate userId "user_consent" (core.M.userConsent.encode userConsent)
      .ret userId
    else .ret userId

def userOfConsent (userConsent : UserConsent) : Service String := do
  let now : ℤ ← perform .now
  let userPublicKeyVec ←
    Prog.ofExcept (checkUserConsent core.P now userConsent core.publicKeyVec)
  match core.P.publicKeyFromSlice userPublicKeyVec with
  | .error _ => .fail .panic
  | .ok userPublicKey =>
    let userId := hexEncode (core.P.publicKeySerialize userPublicKey)
    let imported : Bool ← perform (.importedUsersContains userId)
    if imported then refresh core userConsent userId
    else .fail (.permissionDenied ("User " ++ userId ++ " in the consent does not exist."))

def requestingUser (metadata : MetadataMap) (userConsent : Option UserConsent) :
    Service String := do
  match ← perform (.checkPrivilegeIn metadata (privileges .generateToken)) with
  | .ok () => Prog.ofExcept (getKeyFromMetadata metadata "user_id")
  | .error .panic => .fail .panic
  | .error (.status e) =>
    match userConsent with
    | some userConsent => userOfConsent core userConsent
    | none => .fail (.status e)

def generateToken (q : Request) : Service String := do
  let userId ← requestingUser core q.metadata q.body.userConsent
  if q.body.privilege ∉ ["user","guest"] then
    .fail (.permissionDenied ("generating token with " ++ q.body.privilege ++
      " privilege is not allowed."))
  else .ret (TokenService.token core ⟨q.body.privilege,userId,q.body.expirationTime⟩)

/-- What an operation answers and what it leaves. -/
def answer (c : Circumstances) (s : ServerState) : (o : Op) → Res o × ServerState
  | .checkPrivilegeIn metadata privileges => (checkPrivilegeIn s.importedUsers metadata privileges,s)
  | .now => (c.checkedAt,s)
  | .importedUsersContains userId => (decide (userId ∈ s.importedUsers),s)
  | .storageRead userId keyName => (readKeyName s.maps userId keyName,s)
  | .storageUpdate userId keyName payload =>
    let (result,maps) := BasicStorage.update s.maps userId keyName payload (c.storedAtNanos keyName)
    (match result with
      | .error e => .error (.failed e)
      | .ok _ => c.publishChange userId keyName,
    { s with maps := maps })

/-- The requests take turns between operations, and the circumstances may change with each. -/
def system : System Op Res Abort Request String ServerState where
  body := generateToken core
  exec _ _ o s r y := ∃ c, answer c s.shared o = (r,y)
  start _ _ s y := y = s.shared
  env _ _ := False

def alone (c : Circumstances) {α : Type} : Service α → ServerState → Except Abort α × ServerState
  | .ret a,s => (.ok a,s)
  | .fail e,s => (.error e,s)
  | .call o k,s => alone c (k (answer c s o).1) (answer c s o).2

section Alone

variable {core} {c : Circumstances} {α β : Type}

/-- The program does in one go what the action does. -/
def SameAs (c : Circumstances) (p : Service α) (x : TokenService.Action α) : Prop :=
  ∀ s, alone c p s = x s

theorem SameAs.bind {p : Service α} {x : TokenService.Action α} {f : α → Service β}
    {g : α → TokenService.Action β} (hp : SameAs c p x) (hf : ∀ a, SameAs c (f a) (g a)) :
    SameAs c (p >>= f) (x >>= g) := by
  intro s
  have hbind : (x >>= g) s = ExceptT.bindCont g (x s).1 (x s).2 := rfl
  rw [hbind,← hp s]
  clear hbind hp
  induction p generalizing s with
  | ret a => exact hf a s
  | fail e => rfl
  | call o k ih => exact ih _ _

theorem sameAs_ret (a : α) : SameAs c (.ret a) (pure a) := fun _ => rfl

theorem sameAs_fail (e : Abort) : SameAs c (.fail e : Service α) (throw e) := fun _ => rfl

theorem sameAs_ofExcept (r : Except Abort α) : SameAs c (Prog.ofExcept r) (liftM r) := by
  intro s
  cases r <;> rfl

theorem sameAs_get {p : Service α} {f : ServerState → TokenService.Action α}
    (h : ∀ s, alone c p s = f s s) : SameAs c p (get >>= f) := h

theorem alone_perform (o : Op) (k : Res o → Service α) (s : ServerState) :
    alone c (perform o >>= k) s = alone c (k (answer c s o).1) (answer c s o).2 := rfl

theorem sameAs_internalStorageRead (userId keyName : String) :
    SameAs c (internalStorageRead userId keyName)
      (TokenService.internalStorageRead userId keyName) := by
  refine sameAs_get fun s => ?_
  rw [internalStorageRead,alone_perform]
  simp only [answer]
  cases readKeyName s.maps userId ("_internal:" ++ keyName) <;> rfl

theorem sameAs_internalStorageUpdate (userId keyName : String) (payload : Bytes) :
    SameAs c (internalStorageUpdate userId keyName payload)
      (TokenService.internalStorageUpdate c userId keyName payload) := by
  refine sameAs_get fun s => ?_
  rw [internalStorageUpdate,alone_perform]
  simp only [answer]
  generalize BasicStorage.update s.maps userId ("_internal:" ++ keyName) payload
    (c.storedAtNanos ("_internal:" ++ keyName)) = p
  obtain ⟨r,maps⟩ := p
  cases r with
  | error e => rfl
  | ok _ =>
    dsimp only
    have hset (x : TokenService.Action Unit) : (set { s with maps := maps } >>= fun _ => x) s =
        x { s with maps := maps } := rfl
    rw [hset]
    cases c.publishChange userId ("_internal:" ++ keyName) <;> rfl

theorem sameAs_userOfConsent (userConsent : UserConsent) :
    SameAs c (userOfConsent core userConsent) (TokenService.userOfConsent core c userConsent) := by
  intro s
  show alone c (Prog.ofExcept (checkUserConsent core.P c.checkedAt userConsent core.publicKeyVec) >>= _)
    s = _
  refine (sameAs_ofExcept _).bind (fun vec => ?_) s
  cases core.P.publicKeyFromSlice vec with
  | error e => exact sameAs_fail _
  | ok pk =>
    refine sameAs_get fun s => ?_
    show alone c (if decide (hexEncode (core.P.publicKeySerialize pk) ∈ s.importedUsers) = true then _
      else _) s = _
    simp only [decide_eq_true_eq]
    split_ifs with hu
    · refine (sameAs_internalStorageRead _ _).bind (fun old => ?_) s
      cases core.M.userConsent.decode old with
      | none => exact sameAs_fail _
      | some old =>
        dsimp only
        split_ifs
        · exact (sameAs_internalStorageUpdate _ _ _).bind fun _ => sameAs_ret _
        · exact sameAs_ret _
    · rfl

theorem sameAs_requestingUser (metadata : MetadataMap) (userConsent : Option UserConsent) :
    SameAs c (requestingUser core metadata userConsent)
      (TokenService.requestingUser core c metadata userConsent) := by
  refine sameAs_get fun s => ?_
  rw [requestingUser,alone_perform]
  simp only [answer]
  cases checkPrivilegeIn s.importedUsers metadata (privileges .generateToken) with
  | ok _ => exact sameAs_ofExcept _ s
  | error e =>
    cases e with
    | panic => rfl
    | status e =>
      cases userConsent with
      | none => rfl
      | some userConsent => exact sameAs_userOfConsent userConsent s

theorem sameAs_generateToken (q : Request) :
    SameAs c (generateToken core q) (TokenService.generateToken core c q.metadata q.body) := by
  refine (sameAs_requestingUser _ _).bind fun userId => ?_
  split_ifs
  · exact sameAs_ret _
  · exact sameAs_fail _

end Alone

def consentKey : String := "_internal:user_consent"

/-- A consent is stored by a request that presents it, that has found it valid for the user, and
that has read one that expires earlier. -/
def Justified (q : Request) : List (Event Op Res) → Prop
  | ⟨.storageUpdate userId keyName payload,_⟩ :: past => keyName = consentKey ∧
      ∃ userConsent, q.body.userConsent = some userConsent ∧
        payload = core.M.userConsent.encode userConsent ∧
        (∃ now : ℤ, ⟨.now,now⟩ ∈ past ∧ ConsentFor core now userConsent userId) ∧
        ∃ old oldConsent, ⟨.storageRead userId consentKey,(.ok old : Except String Bytes)⟩ ∈ past ∧
          core.M.userConsent.decode old = some oldConsent ∧
          oldConsent.expirationTimestamp < userConsent.expirationTimestamp
  | _ => True

/-- The end of a request that has presented a valid consent of the user. -/
def Settled (q : Request) (past : List (Event Op Res)) : Prop :=
  ∀ userConsent (now : ℤ) userId, q.body.userConsent = some userConsent → ⟨.now,now⟩ ∈ past →
    ConsentFor core now userConsent userId →
      ⟨.importedUsersContains userId,false⟩ ∈ past ∨
      ∃ r : Except String Bytes, ⟨.storageRead userId consentKey,r⟩ ∈ past ∧
        ∀ old oldConsent, r = .ok old → core.M.userConsent.decode old = some oldConsent →
          userConsent.expirationTimestamp ≤ oldConsent.expirationTimestamp ∨
          ∃ r', ⟨.storageUpdate userId consentKey (core.M.userConsent.encode userConsent),r'⟩ ∈ past

section Traces

variable {core}

theorem consentFor_unique {now : ℤ} {userConsent : UserConsent} {u u' : String}
    (h : ConsentFor core now userConsent u) (h' : ConsentFor core now userConsent u') : u = u' := by
  obtain ⟨vec,pk,hvec,hpk,rfl⟩ := h
  obtain ⟨vec',pk',hvec',hpk',rfl⟩ := h'
  obtain rfl := Except.ok.inj (hvec.symm.trans hvec')
  rw [Except.ok.inj (hpk.symm.trans hpk')]

theorem traced_internalStorageRead {q : Request} (userId : String) (past : List (Event Op Res)) :
    (internalStorageRead userId "user_consent").Traced (Justified core q) past fun r h =>
      ∃ r' : Except String Bytes, h = ⟨.storageRead userId consentKey,r'⟩ :: past ∧
        match r with
        | .ok payload => r' = .ok payload
        | .error _ => ∃ e, r' = .error e := by
  intro r
  refine ⟨trivial,?_⟩
  cases r with
  | ok payload => exact ⟨_,rfl,rfl⟩
  | error e => exact ⟨_,rfl,e,rfl⟩

theorem traced_internalStorageUpdate {q : Request} {userId : String} {payload : Bytes}
    {past : List (Event Op Res)} (h : ∀ r : Except UpdateError Unit,
      Justified core q (⟨.storageUpdate userId consentKey payload,r⟩ :: past)) :
    (internalStorageUpdate userId "user_consent" payload).Traced (Justified core q) past
      fun _ h => ∃ r : Except UpdateError Unit,
        h = ⟨.storageUpdate userId consentKey payload,r⟩ :: past := by
  intro r
  refine ⟨h r,?_⟩
  cases r <;> exact ⟨_,rfl⟩

theorem mem_now_cons {o : Op} {r : Res o} {now : ℤ} {past : List (Event Op Res)} (ho : o ≠ .now) :
    (⟨.now,now⟩ : Event Op Res) ∈ ⟨o,r⟩ :: past ↔ (⟨.now,now⟩ : Event Op Res) ∈ past := by
  refine ⟨fun h => ?_,List.mem_cons_of_mem _⟩
  rcases List.mem_cons.mp h with h | h
  · exact absurd (congrArg Sigma.fst h).symm ho
  · exact h

theorem traced_refresh {q : Request} {userConsent : UserConsent} {now : ℤ} {userId : String}
    {past : List (Event Op Res)} (hq : q.body.userConsent = some userConsent)
    (hpast : ∀ now' : ℤ, ⟨.now,now'⟩ ∈ past ↔ now' = now)
    (hfor : ConsentFor core now userConsent userId) :
    (refresh core userConsent userId).Traced (Justified core q) past
      fun _ => Settled core q := by
  have hsettled {past' : List (Event Op Res)} (hp : ∀ now' : ℤ, ⟨.now,now'⟩ ∈ past' ↔ now' = now)
      {r : Except String Bytes} (hr : ⟨.storageRead userId consentKey,r⟩ ∈ past')
      (h : ∀ old oldConsent, r = .ok old → core.M.userConsent.decode old = some oldConsent →
        userConsent.expirationTimestamp ≤ oldConsent.expirationTimestamp ∨ ∃ r',
          ⟨.storageUpdate userId consentKey (core.M.userConsent.encode userConsent),r'⟩ ∈ past') :
      Settled core q past' := by
    intro userConsent' now' userId' hq' hnow' hfor'
    obtain rfl := Option.some.inj (hq.symm.trans hq')
    obtain rfl := (hp now').mp hnow'
    obtain rfl := consentFor_unique hfor hfor'
    exact .inr ⟨r,hr,h⟩
  refine Prog.Traced.bind ((traced_internalStorageRead userId past).mono ?_)
  rintro r h ⟨r',rfl,hr⟩
  have hread : (⟨.storageRead userId consentKey,r'⟩ : Event Op Res) ∈
      ⟨.storageRead userId consentKey,r'⟩ :: past := List.mem_cons_self ..
  have hpast' (now' : ℤ) : (⟨.now,now'⟩ : Event Op Res) ∈
      ⟨.storageRead userId consentKey,r'⟩ :: past ↔ now' = now :=
    (mem_now_cons (by simp)).trans (hpast now')
  cases r with
  | error e =>
    obtain ⟨e',rfl⟩ := hr
    exact hsettled hpast' hread fun _ _ h => by cases h
  | ok old =>
    subst hr
    dsimp only
    cases hold : core.M.userConsent.decode old with
    | none =>
      refine hsettled hpast' hread fun old' oldConsent h hd => ?_
      obtain rfl := Except.ok.inj h
      rw [hold] at hd
      cases hd
    | some oldConsent =>
      dsimp only
      split_ifs with hlater
      · refine Prog.Traced.bind ((traced_internalStorageUpdate fun r => ?_).mono ?_)
        · exact ⟨rfl,userConsent,hq,rfl,⟨now,(hpast' now).mpr rfl,hfor⟩,old,oldConsent,hread,hold,hlater⟩
        · rintro r h ⟨r',rfl⟩
          have hend := hsettled (fun now' => (mem_now_cons (by simp)).trans (hpast' now'))
            (List.mem_cons_of_mem _ hread)
            fun old' oldConsent' _ _ => .inr ⟨r',List.mem_cons_self ..⟩
          cases r <;> exact hend
      · refine hsettled hpast' hread fun old' oldConsent' h hd => .inl ?_
        obtain rfl := Except.ok.inj h
        obtain rfl := Option.some.inj (hold.symm.trans hd)
        omega

theorem traced_userOfConsent {q : Request} {userConsent : UserConsent}
    {past : List (Event Op Res)} (hq : q.body.userConsent = some userConsent)
    (hpast : ∀ now : ℤ, ⟨.now,now⟩ ∉ past) :
    (userOfConsent core userConsent).Traced (Justified core q) past fun _ => Settled core q := by
  intro now
  refine ⟨trivial,?_⟩
  have hnow (now' : ℤ) : (⟨.now,now'⟩ : Event Op Res) ∈ ⟨.now,now⟩ :: past ↔ now' = now := by
    refine ⟨fun h => ?_,fun h => h ▸ List.mem_cons_self ..⟩
    rcases List.mem_cons.mp h with h | h
    · exact eq_of_heq (Sigma.mk.inj h).2
    · exact absurd h (hpast now')
  -- As long as the consent is not valid for anybody, there is nothing to settle.
  have hnobody (h : ∀ u, ¬ConsentFor core now userConsent u) :
      Settled core q (⟨.now,now⟩ :: past) := by
    intro userConsent' now' u hq' hnow' hfor
    obtain rfl := Option.some.inj (hq.symm.trans hq')
    obtain rfl := (hnow now').mp hnow'
    exact absurd hfor (h u)
  refine Prog.Traced.bind (p := Prog.ofExcept _) (Prog.Traced.ofExcept ?_)
  cases hvec : checkUserConsent core.P now userConsent core.publicKeyVec with
  | error e =>
    refine hnobody fun u ⟨vec,pk,hvec',_,_⟩ => ?_
    rw [hvec] at hvec'
    cases hvec'
  | ok vec =>
    dsimp only
    cases hpk : core.P.publicKeyFromSlice vec with
    | error e =>
      refine hnobody fun u ⟨vec',pk,hvec',hpk',_⟩ => ?_
      obtain rfl := Except.ok.inj (hvec.symm.trans hvec')
      rw [hpk] at hpk'
      cases hpk'
    | ok pk =>
      intro imported
      refine ⟨trivial,?_⟩
      have hfor : ConsentFor core now userConsent (hexEncode (core.P.publicKeySerialize pk)) :=
        ⟨vec,pk,hvec,hpk,rfl⟩
      cases imported with
      | false =>
        intro userConsent' now' u hq' hnow' hfor'
        obtain rfl := Option.some.inj (hq.symm.trans hq')
        obtain rfl := (hnow now').mp ((mem_now_cons (by simp)).mp hnow')
        obtain rfl := consentFor_unique hfor hfor'
        exact .inl (List.mem_cons_self ..)
      | true => exact traced_refresh hq (fun now' => (mem_now_cons (by simp)).trans (hnow now')) hfor

theorem traced_generateToken (q : Request) : (generateToken core q).Traced (Justified core q) []
    fun _ => Settled core q := by
  have huser : (requestingUser core q.metadata q.body.userConsent).Traced (Justified core q) []
      fun _ => Settled core q := by
    intro checked
    refine ⟨trivial,?_⟩
    have hnow : ∀ now : ℤ, (⟨.now,now⟩ : Event Op Res) ∉
        [⟨.checkPrivilegeIn q.metadata (privileges .generateToken),checked⟩] := by
      intro now h
      rw [mem_now_cons (by simp)] at h
      cases h
    have hnothing : Settled core q
        [⟨.checkPrivilegeIn q.metadata (privileges .generateToken),checked⟩] :=
      fun _ now _ _ h => absurd h (hnow now)
    cases checked with
    | ok _ => exact Prog.Traced.ofExcept hnothing
    | error e =>
      cases e with
      | panic => exact hnothing
      | status e =>
        cases hq : q.body.userConsent with
        | none => exact hnothing
        | some userConsent => exact traced_userOfConsent hq hnow
  refine Prog.Traced.bind (huser.mono fun r h hh => ?_)
  cases r with
  | error e => exact hh
  | ok userId =>
    dsimp only
    split_ifs <;> exact hh

end Traces

abbrev History := List (Interleaving.Action Op Res Request)

abbrev Configuration := Config Op Res Abort Request String ServerState

def Reach (x : ServerState) (c : Configuration) : Prop := (system core).Reach (· = x) c

def expirationOf (payload : Bytes) : Option ℤ :=
  (core.M.userConsent.decode payload).map (·.expirationTimestamp)

def storedExpiration (state : ServerState) (userId : String) : Option ℤ :=
  (value state.maps userId consentKey).bind (expirationOf core)

/-- The expiration that a step stores for the user. -/
def written (userId : String) : Interleaving.Action Op Res Request → Option ℤ
  | .op _ _ (.storageUpdate u k payload) _ =>
    if u = userId ∧ k = consentKey then expirationOf core payload else none
  | _ => none

def expirations (userId : String) (e₀ : ℤ) (h : History) : List ℤ :=
  h.filterMap (written core userId) ++ [e₀]

/-- A request has presented a consent of the user that was valid when it was checked and expires at
that time. The consent next to a token that is accepted is not checked, and does not count. -/
def Presented (userId : String) (h : History) (expiration : ℤ) : Prop :=
  ∃ t q, ∃ now : ℤ, ∃ userConsent, .op t q .now now ∈ h ∧ q.body.userConsent = some userConsent ∧
    ConsentFor core now userConsent userId ∧ userConsent.expirationTimestamp = expiration

def Returned (c : Configuration) : Prop := ∀ t q p, c.threads t = some (q,p) → ∃ r, p = .ofExcept r

/-- No step of the run has moved the expiration of the stored consent backwards. -/
def NeverBackwards (x : ServerState) (userId : String) (c : Configuration) : Prop :=
  ∀ c₀ a c₁, Reach core x c₀ → (system core).Step c₀ a c₁ → c₁.state.history <:+ c.state.history →
    ∃ e₀ e₁, storedExpiration core c₀.state.shared userId = some e₀ ∧
      storedExpiration core c₁.state.shared userId = some e₁ ∧ e₀ ≤ e₁

/-- The condition: when a request stores a consent, nobody has stored one that expires later since
the request has read the stored one. -/
def InOrder (userId : String) (a : Interleaving.Action Op Res Request) (h : History) : Prop :=
  ∀ t e, a.thread = some t → written core userId a = some e → ∀ between q r before,
    h = between ++ .op t q (.storageRead userId consentKey) r :: before →
      ∀ b ∈ between, ∀ e', written core userId b = some e' → e' ≤ e

section Runs

variable {core} {x : ServerState} {c : Configuration} {userId : String} {e₀ : ℤ}

theorem justified_op (hc : Reach core x c) {t : ℕ} {q : Request} {o : Op} {r : Res o} {h : History}
    (hs : .op t q o r :: h <:+ c.state.history) : Justified core q (⟨o,r⟩ :: events t h) :=
  System.Reach.traced_op traced_generateToken hc hs

theorem storedExpiration_run (hc : Reach core x c) (hu : NoColon userId)
    (h₀ : storedExpiration core x userId = some e₀) :
    storedExpiration core c.state.shared userId =
      (expirations core userId e₀ c.state.history).head? := by
  induction hc with
  | init h => rw [h,h₀]; rfl
  | @step c c' a hc s ih =>
    have hkept {y : ServerState} (hy : y = c.state.shared) {b : Interleaving.Action Op Res Request}
        (hb : written core userId b = none) : storedExpiration core y userId =
          (expirations core userId e₀ (b :: c.state.history)).head? := by
      rw [hy,ih,expirations,expirations,List.filterMap_cons_none hb]
    have hwritten := hc.step s
    cases s with
    | start fresh begins => exact hkept begins rfl
    | env moves => exact absurd moves id
    | @op t q o k r y runs does =>
      obtain ⟨circumstances,hdoes⟩ := does
      cases o with
      | storageUpdate u k payload =>
        obtain ⟨rfl,userConsent,-,rfl,⟨now,-,hfor⟩,-⟩ := justified_op hwritten List.suffix_rfl
        obtain rfl := (Prod.mk.inj hdoes).2
        show (value (BasicStorage.update _ _ _ _ _).2 userId consentKey).bind _ = _
        by_cases he : userId = u
        · subst he
          rw [BasicStorage.value_update_self]
          simp [expirations,written,expirationOf]
        · rw [BasicStorage.value_update_of_ne _ (noColon_of_consentFor hfor) hu (fun h => he h.1)]
          exact hkept rfl (if_neg fun h => he h.1.symm)
      | _ => exact hkept (Prod.mk.inj hdoes).2.symm rfl

theorem importedUsers_run (hc : Reach core x c) :
    c.state.shared.importedUsers = x.importedUsers := by
  induction hc with
  | init h => rw [h]
  | step hc s ih =>
    cases s with
    | start fresh begins => rwa [begins]
    | env moves => exact absurd moves id
    | @op t q o k r y runs does =>
      obtain ⟨circumstances,hdoes⟩ := does
      obtain rfl := (Prod.mk.inj hdoes).2
      cases o <;> exact ih

theorem answer_before (hc : Reach core x c) {t : ℕ} {q : Request} {o : Op} {r : Res o}
    {past : History} (hs : .op t q o r :: past <:+ c.state.history) : ∃ c₀ circumstances,
      Reach core x c₀ ∧ c₀.state.history = past ∧ (answer circumstances c₀.state.shared o).1 = r := by
  obtain ⟨c₀,c₁,hc₀,hpast,hstep,-⟩ := System.Reach.before hc hs
  cases hstep with
  | op runs does =>
    obtain ⟨circumstances,hdoes⟩ := does
    exact ⟨c₀,circumstances,hc₀,hpast,congrArg Prod.fst hdoes⟩

theorem read_latest (hc : Reach core x c) (hu : NoColon userId)
    (h₀ : storedExpiration core x userId = some e₀) {t : ℕ} {q : Request}
    {r : Except String Bytes} {past : History}
    (hs : .op t q (.storageRead userId consentKey) r :: past <:+ c.state.history) :
    ∃ old oldConsent, r = .ok old ∧ core.M.userConsent.decode old = some oldConsent ∧
      (expirations core userId e₀ past).head? = some oldConsent.expirationTimestamp := by
  obtain ⟨c₀,circumstances,hc₀,rfl,hr⟩ := answer_before hc hs
  have hstored := storedExpiration_run hc₀ hu h₀
  obtain ⟨e,he⟩ : ∃ e, (expirations core userId e₀ c₀.state.history).head? = some e :=
    Option.isSome_iff_exists.mp (by simp [expirations])
  rw [he,storedExpiration,Option.bind_eq_some_iff] at hstored
  obtain ⟨old,hold,hexp⟩ := hstored
  obtain ⟨oldConsent,hdecode,rfl⟩ := Option.map_eq_some_iff.mp hexp
  exact ⟨old,oldConsent,hr.symm.trans (readKeyName_eq_ok.mpr hold),hdecode,he⟩

theorem mem_expirations {h : History} {e : ℤ} : e ∈ expirations core userId e₀ h ↔
    (∃ a ∈ h, written core userId a = some e) ∨ e = e₀ := by
  simp [expirations]

/-- A step that stores a consent is made by a request that has read an earlier one. -/
theorem read_of_written (hc : Reach core x c) (hu : NoColon userId)
    (h₀ : storedExpiration core x userId = some e₀) {a : Interleaving.Action Op Res Request}
    {past : History} (hs : a :: past <:+ c.state.history) {e : ℤ}
    (hw : written core userId a = some e) : Presented core userId past e ∧
      ∃ t q r between before old, a.thread = some t ∧
        past = between ++ .op t q (.storageRead userId consentKey) r :: before ∧
        (expirations core userId e₀ before).head? = some old ∧ old < e := by
  unfold written at hw
  split at hw
  · next t q u k payload r =>
    split_ifs at hw with hk
    obtain ⟨rfl,rfl⟩ := hk
    obtain ⟨-,userConsent,hq,rfl,⟨now,hnow,hfor⟩,old,oldConsent,hread,hold,hlt⟩ := justified_op hc hs
    obtain rfl : userConsent.expirationTimestamp = e := by simpa [expirationOf] using hw
    have hmem : Action.op t q (.storageUpdate u consentKey (core.M.userConsent.encode userConsent)) r ∈
        c.state.history := hs.subset (List.mem_cons_self ..)
    have hpast {b : Interleaving.Action Op Res Request} (hb : b ∈ past) : b ∈ c.state.history :=
      hs.subset (List.mem_cons_of_mem _ hb)
    obtain ⟨q',hnow⟩ := mem_events.mp hnow
    obtain rfl := System.Reach.same_request hc (hpast hnow) hmem
    obtain ⟨q'',hread⟩ := mem_events.mp hread
    obtain ⟨between,before,rfl⟩ := List.append_of_mem hread
    obtain ⟨old',oldConsent',hr,hold',hhead⟩ := read_latest hc hu h₀
      ((List.suffix_append _ _).trans ((List.suffix_cons _ _).trans hs))
    obtain rfl := Except.ok.inj hr
    obtain rfl := Option.some.inj (hold.symm.trans hold')
    exact ⟨⟨t,q',now,userConsent,hnow,hq,hfor,rfl⟩,t,q'',_,between,before,_,rfl,rfl,hhead,hlt⟩
  · cases hw

theorem expirations_cons_some {a : Interleaving.Action Op Res Request} {e : ℤ} (h : History)
    (hw : written core userId a = some e) : expirations core userId e₀ (a :: h) =
      e :: expirations core userId e₀ h := by
  rw [expirations,List.filterMap_cons_some hw]
  rfl

theorem expirations_cons_none {a : Interleaving.Action Op Res Request} (h : History)
    (hw : written core userId a = none) : expirations core userId e₀ (a :: h) =
      expirations core userId e₀ h := by
  rw [expirations,List.filterMap_cons_none hw]
  rfl

theorem le_head {h : History} (hsorted : (expirations core userId e₀ h).Pairwise (· ≥ ·)) {e : ℤ}
    (he : (expirations core userId e₀ h).head? = some e) :
    ∀ e' ∈ expirations core userId e₀ h, e' ≤ e := by
  obtain ⟨es,hes⟩ := List.head?_eq_some_iff.mp he
  rw [hes] at hsorted ⊢
  intro e' he'
  rcases List.mem_cons.mp he' with rfl | he'
  · exact le_rfl
  · exact List.rel_of_pairwise_cons hsorted he'

theorem sorted_suffix {h h' : History} (hs : h' <:+ h)
    (hsorted : (expirations core userId e₀ h).Pairwise (· ≥ ·)) :
    (expirations core userId e₀ h').Pairwise (· ≥ ·) :=
  hsorted.sublist (((hs.filterMap _).sublist).append_right _)

theorem sorted_iff_inOrder (hc : Reach core x c) (hu : NoColon userId)
    (h₀ : storedExpiration core x userId = some e₀) :
    (expirations core userId e₀ c.state.history).Pairwise (· ≥ ·) ↔
      Everywhere (InOrder core userId) c.state.history := by
  constructor
  · refine fun hsorted => everywhere_iff.mpr fun a past hs t e _ hw between q r before hb b hmem e' he' => ?_
    have hlatest := sorted_suffix hs hsorted
    rw [expirations_cons_some _ hw] at hlatest
    exact List.rel_of_pairwise_cons hlatest
      (mem_expirations.mpr (.inl ⟨b,hb ▸ List.mem_append_left _ hmem,he'⟩))
  · intro horder
    have hall (h : History) (hs : h <:+ c.state.history) :
        (expirations core userId e₀ h).Pairwise (· ≥ ·) := by
      induction h with
      | nil => simp [expirations]
      | cons a past ih =>
        have hsorted := ih ((List.suffix_cons _ _).trans hs)
        cases hw : written core userId a with
        | none => rwa [expirations_cons_none _ hw]
        | some e =>
          rw [expirations_cons_some _ hw]
          refine List.pairwise_cons.mpr ⟨fun e' he' => ?_,hsorted⟩
          obtain ⟨-,t,q,r,between,before,old,ht,rfl,hold,hlt⟩ := read_of_written hc hu h₀ hs hw
          have hbefore := le_head (sorted_suffix
            ((List.suffix_cons _ _).trans (List.suffix_append _ _)) hsorted) hold
          rcases mem_expirations.mp he' with ⟨b,hb,hbw⟩ | rfl
          · rcases List.mem_append.mp hb with hb | hb
            · exact everywhere_iff.mp horder a _ hs t e ht hw between q r before rfl b hb e' hbw
            · rcases List.mem_cons.mp hb with rfl | hb
              · cases hbw
              · exact (hbefore e' (mem_expirations.mpr (.inl ⟨b,hb,hbw⟩))).trans hlt.le
          · exact (hbefore e' (mem_expirations.mpr (.inr rfl))).trans hlt.le
    exact hall _ List.suffix_rfl

theorem neverBackwards_iff_sorted (hc : Reach core x c) (hu : NoColon userId)
    (h₀ : storedExpiration core x userId = some e₀) : NeverBackwards core x userId c ↔
      (expirations core userId e₀ c.state.history).Pairwise (· ≥ ·) := by
  constructor
  · intro hnever
    have hall (h : History) (hs : h <:+ c.state.history) :
        (expirations core userId e₀ h).Pairwise (· ≥ ·) := by
      induction h with
      | nil => simp [expirations]
      | cons a past ih =>
        have hsorted := ih ((List.suffix_cons _ _).trans hs)
        cases hw : written core userId a with
        | none => rwa [expirations_cons_none _ hw]
        | some e =>
          obtain ⟨c₁,c₂,hc₁,rfl,hstep,hafter⟩ := System.Reach.before hc hs
          obtain ⟨e₁,e₂,h₁,h₂,hle⟩ := hnever c₁ a c₂ hc₁ hstep (hafter ▸ hs)
          rw [storedExpiration_run hc₁ hu h₀] at h₁
          rw [storedExpiration_run (hc₁.step hstep) hu h₀,hafter,expirations_cons_some _ hw] at h₂
          obtain rfl := Option.some.inj h₂
          rw [expirations_cons_some _ hw]
          exact List.pairwise_cons.mpr ⟨fun e' he' => (le_head hsorted h₁ e' he').trans hle,hsorted⟩
    exact hall _ List.suffix_rfl
  · intro hsorted c₁ a c₂ hc₁ hstep hs
    have hlast := sorted_suffix hs hsorted
    have hexists (h : History) : ∃ e, (expirations core userId e₀ h).head? = some e :=
      Option.isSome_iff_exists.mp (by simp [expirations])
    obtain ⟨e₁,h₁⟩ := hexists c₁.state.history
    obtain ⟨e₂,h₂⟩ := hexists c₂.state.history
    refine ⟨e₁,e₂,(storedExpiration_run hc₁ hu h₀).trans h₁,
      (storedExpiration_run (hc₁.step hstep) hu h₀).trans h₂,le_head hlast h₂ _ ?_⟩
    have hmem := List.mem_of_head? h₁
    rw [mem_expirations] at hmem ⊢
    rw [hstep.history]
    exact hmem.imp_left fun ⟨b,hb,hbw⟩ => ⟨b,List.mem_cons_of_mem _ hb,hbw⟩

/-- If the stored expiration has never moved backwards, it is in the end the latest of all. -/
theorem longest_of_sorted (hc : Reach core x c) (hu : NoColon userId)
    (himported : userId ∈ x.importedUsers) (h₀ : storedExpiration core x userId = some e₀)
    (hsorted : (expirations core userId e₀ c.state.history).Pairwise (· ≥ ·)) (hreturned : Returned c) :
    ∃ e, storedExpiration core c.state.shared userId = some e ∧
      IsGreatest {e | e = e₀ ∨ Presented core userId c.state.history e} e := by
  obtain ⟨e,he⟩ : ∃ e, (expirations core userId e₀ c.state.history).head? = some e :=
    Option.isSome_iff_exists.mp (by simp [expirations])
  have hlatest := le_head hsorted he
  refine ⟨e,(storedExpiration_run hc hu h₀).trans he,?_,?_⟩
  · rcases mem_expirations.mp (List.mem_of_head? he) with ⟨a,ha,hw⟩ | rfl
    · obtain ⟨past,hs⟩ := suffix_of_mem ha
      obtain ⟨⟨t,q,now,userConsent,hnow,h⟩,-⟩ := read_of_written hc hu h₀ hs hw
      exact .inr ⟨t,q,now,userConsent,hs.subset (List.mem_cons_of_mem _ hnow),h⟩
    · exact .inl rfl
  · rintro e' (rfl | ⟨t,q,now,userConsent,hnow,hq,hfor,rfl⟩)
    · exact hlatest _ (mem_expirations.mpr (.inr rfl))
    · have hthread := System.Reach.history_thread hc t
      cases ht : c.threads t with
      | none => exact absurd rfl (hthread.1 ht _ hnow)
      | some p =>
        obtain ⟨q',p⟩ := p
        obtain rfl := (hthread.2 q' p ht).2 q _ _ hnow
        obtain ⟨r,rfl⟩ := hreturned t q p ht
        have hsettled := System.Reach.traced_end traced_generateToken hc ht
        rcases hsettled userConsent now userId hq (mem_events.mpr ⟨q,hnow⟩) hfor with
          hmissing | ⟨r,hread,hcases⟩
        · obtain ⟨q',hmissing⟩ := mem_events.mp hmissing
          obtain ⟨past,hs⟩ := suffix_of_mem hmissing
          obtain ⟨c₀,circumstances,hc₀,-,hanswer⟩ := answer_before hc hs
          have hnot := of_decide_eq_false hanswer
          rw [importedUsers_run hc₀] at hnot
          exact absurd himported hnot
        · obtain ⟨q',hread⟩ := mem_events.mp hread
          obtain ⟨past,hs⟩ := suffix_of_mem hread
          obtain ⟨old,oldConsent,rfl,hdecode,hhead⟩ := read_latest hc hu h₀ hs
          rcases hcases old oldConsent rfl hdecode with hle | ⟨r',hupdate⟩
          · refine hle.trans (hlatest _ ?_)
            have hmem := List.mem_of_head? hhead
            rw [mem_expirations] at hmem ⊢
            exact hmem.imp_left fun ⟨b,hb,hbw⟩ => ⟨b,hs.subset (List.mem_cons_of_mem _ hb),hbw⟩
          · obtain ⟨q'',hupdate⟩ := mem_events.mp hupdate
            exact hlatest _ (mem_expirations.mpr (.inl ⟨_,hupdate,by simp [written,expirationOf]⟩))

end Runs

def userIdOf (userPublicKey : core.P.PublicKey) : String :=
  hexEncode (core.P.publicKeySerialize userPublicKey)

/-- The stored consent of a user moves forwards only, in every run, exactly if requests store what
they store in order; and then the one stored after all requests expires last. -/
theorem refreshed_iff {x : ServerState} {userPublicKey : core.P.PublicKey} {e₀ : ℤ}
    (himported : userIdOf core userPublicKey ∈ x.importedUsers)
    (h₀ : storedExpiration core x (userIdOf core userPublicKey) = some e₀) {c : Configuration}
    (hc : Reach core x c) :
    (NeverBackwards core x (userIdOf core userPublicKey) c ↔
      Everywhere (InOrder core (userIdOf core userPublicKey)) c.state.history) ∧
    (Everywhere (InOrder core (userIdOf core userPublicKey)) c.state.history → Returned c → ∃ e,
      storedExpiration core c.state.shared (userIdOf core userPublicKey) = some e ∧
        IsGreatest {e | e = e₀ ∨ Presented core (userIdOf core userPublicKey) c.state.history e} e) := by
  have hu : NoColon (userIdOf core userPublicKey) := hexEncode_noColon _
  have hsorted := sorted_iff_inOrder hc hu h₀
  exact ⟨(neverBackwards_iff_sorted hc hu h₀).trans hsorted,
    fun horder => longest_of_sorted hc hu himported h₀ (hsorted.mpr horder)⟩

open TokenService (sampleCore sampleCircumstances compressed)

/-- The operations answer under the same circumstances at all times. -/
def player : Player (system core) Request where
  answer _ _ s o := some (answer sampleCircumstances s.shared o)
  does h := ⟨sampleCircumstances,Option.some.inj h⟩
  serves _ q s := some (q,s.shared)
  begins h := (Prod.mk.inj (Option.some.inj h)).2.symm

def consentUntil (expiration : ℤ) : UserConsent :=
  let message := compressed ++ i64LeBytes 0 ++ i64LeBytes expiration ++ [2,9]
  ⟨compressed,0,expiration,compressed ++ message⟩

def imported (expiration : ℤ) : ServerState where
  maps := (BasicStorage.update BasicStorage.empty (hexEncode compressed) consentKey
    (sampleCore.M.userConsent.encode (consentUntil expiration)) 1).2
  importedUsers := {hexEncode compressed}

def presenting (expiration : ℤ) : Request where
  metadata := insert (fun _ => none) "privilege" "anonymous"
  body := { privilege := "user", userConsent := some (consentUntil expiration) }

abbrev sampleUserId : String := userIdOf sampleCore (false,List.replicate 32 7)

/-- Both requests read the stored consent, and the one with the longer consent stores last. -/
def ascendingSchedule : List (Turn Request) :=
  .start 0 (presenting 20) :: .start 1 (presenting 30) ::
    (List.replicate 4 (.step 1) ++ List.replicate 5 (.step 0) ++ [.step 1])

def ascending : Configuration := (player sampleCore).play (imported 10) ascendingSchedule

theorem refreshed_iff_ascending : ∃ e,
    storedExpiration sampleCore ascending.state.shared sampleUserId = some e ∧
      IsGreatest {e | e = 10 ∨ Presented sampleCore sampleUserId ascending.state.history e} e := by
  have hc : Reach sampleCore (imported 10) ascending :=
    (player sampleCore).reach_play (· = imported 10) rfl _
  have hu : NoColon sampleUserId := hexEncode_noColon _
  have h₀ : storedExpiration sampleCore (imported 10) sampleUserId = some 10 := by decide +kernel
  have hexp : expirations sampleCore sampleUserId 10 ascending.state.history = [30,20,10] := by
    decide +kernel
  refine (refreshed_iff sampleCore (by decide +kernel) h₀ hc).2
    ((sorted_iff_inOrder hc hu h₀).mp (by rw [hexp]; decide)) ?_
  exact (player sampleCore).ended_play (by decide +kernel)

/-- Both requests read the stored consent, and the one with the longer consent stores first. -/
def overtakenSchedule : List (Turn Request) :=
  .start 0 (presenting 20) :: .start 1 (presenting 30) ::
    (List.replicate 4 (.step 0) ++ List.replicate 5 (.step 1) ++ [.step 0])

def overtaken : Configuration := (player sampleCore).play (imported 10) overtakenSchedule

/-- In the end the consent is stored that expires first. -/
theorem longest_overtaken : Reach sampleCore (imported 10) overtaken ∧ Returned overtaken ∧
    storedExpiration sampleCore (imported 10) sampleUserId = some 10 ∧
    Presented sampleCore sampleUserId overtaken.state.history 30 ∧
    storedExpiration sampleCore overtaken.state.shared sampleUserId = some 20 ∧
    ¬NeverBackwards sampleCore (imported 10) sampleUserId overtaken := by
  have hc : Reach sampleCore (imported 10) overtaken := (player sampleCore).reach_play (· = imported 10) rfl _
  have hu : NoColon sampleUserId := hexEncode_noColon _
  have h₀ : storedExpiration sampleCore (imported 10) sampleUserId = some 10 := by decide +kernel
  have hexp : expirations sampleCore sampleUserId 10 overtaken.state.history = [20,30,10] := by
    decide +kernel
  refine ⟨hc,(player sampleCore).ended_play (by decide +kernel),h₀,?_,by decide +kernel,?_⟩
  · have hwritten : (overtaken.state.history.drop 1).head?.bind
        (written sampleCore sampleUserId) = some 30 := by decide +kernel
    obtain ⟨a,ha,hw⟩ := Option.bind_eq_some_iff.mp hwritten
    obtain ⟨past,hpast⟩ := List.head?_eq_some_iff.mp ha
    have hs : a :: past <:+ overtaken.state.history := hpast ▸ List.drop_suffix 1 _
    obtain ⟨⟨t,q,now,userConsent,hnow,h⟩,-⟩ := read_of_written hc hu h₀ hs hw
    exact ⟨t,q,now,userConsent,hs.subset (List.mem_cons_of_mem _ hnow),h⟩
  · rw [neverBackwards_iff_sorted hc hu h₀,hexp]
    decide

end ConsentRefresh
end CoLinkServer
