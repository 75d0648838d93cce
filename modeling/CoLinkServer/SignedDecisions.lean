import CoLinkServer.TokenService

/-! Whether a decision that a core makes is accepted elsewhere. The signer signs the bytes of the
stored consent and the verifier encodes the consent again; at the end the verifier compares the key
in the consent, as it is written there, with the user id. -/
namespace CoLinkServer

namespace SignedDecisions

open Authorization TokenService
open BasicStorage (value readKeyName)

/-- What is assumed of the library: the signatures of the core verify, and keys can be read back
from their compressed form. -/
structure Lawful (core : TokenService.Core) : Prop where
  verify_sign : ∀ message, core.P.verifyEcdsa (core.P.sha256 message)
    (core.P.signEcdsa (core.P.sha256 message) core.keys.secretKey) core.keys.publicKey = .ok ()
  signature_nonempty : ∀ message, core.P.signatureSerializeCompact
    (core.P.signEcdsa (core.P.sha256 message) core.keys.secretKey) ≠ []
  signature_round : ∀ s, core.P.signatureFromCompact (core.P.signatureSerializeCompact s) = .ok s
  publicKey_round : ∀ pk, core.P.publicKeyFromSlice (core.P.publicKeySerialize pk) = .ok pk

/-- The consent is in the wallet format, or it has its key in the compressed form. -/
def Canonical (P : Primitives) (userConsent : UserConsent) : Prop :=
  userConsent.publicKey = [] ∨ ∃ pk, P.publicKeyFromSlice userConsent.publicKey = .ok pk ∧
    userConsent.publicKey = P.publicKeySerialize pk

/-- `generate_decision` -/
def generateDecision (core : TokenService.Core) (state : ServerState) (isApproved isRejected : Bool)
    (reason userId : String) (task : Task) : Except Abort Decision :=
  match readKeyName state.maps userId "_internal:user_consent" with
  | .error e => .error (.internal e)
  | .ok userConsentBytes =>
    makeDecision core.P core.M core.keys isApproved isRejected reason task userConsentBytes

section Consents

variable {core : TokenService.Core} {userConsent : UserConsent} {now now' : ℤ} {vec : Bytes} {u : String}

theorem checkUserConsent_later
    (h : checkUserConsent core.P now userConsent core.publicKeyVec = .ok vec)
    (hnow : now' ≤ userConsent.expirationTimestamp) :
    checkUserConsent core.P now' userConsent core.publicKeyVec = .ok vec := by
  unfold checkUserConsent at h ⊢
  by_cases he : now > userConsent.expirationTimestamp
  · simp [he] at h
  · rw [if_neg he] at h
    rwa [if_neg (by omega : ¬now' > userConsent.expirationTimestamp)]

/-- The check answers the key as it is written, or the compressed form of a recovered key. -/
theorem vec_of_checkUserConsent
    (h : checkUserConsent core.P now userConsent core.publicKeyVec = .ok vec) :
    if userConsent.publicKey = [] then ∃ pk, vec = core.P.publicKeySerialize pk
    else vec = userConsent.publicKey := by
  unfold checkUserConsent at h
  by_cases he : now > userConsent.expirationTimestamp
  · simp [he] at h
  rw [if_neg he] at h
  by_cases hk : userConsent.publicKey = []
  · simp only [hk,ne_eq,not_true_eq_false,if_false,if_true] at h ⊢
    split at h
    · cases h
    · split_ifs at h
      split at h
      · cases h
      · split at h
        · exact ⟨_,(Except.ok.inj h).symm⟩
        · cases h
  · simp only [hk,ne_eq,not_false_eq_true,if_true,if_false] at h ⊢
    split at h
    · cases h
    · split at h
      · cases h
      · split at h
        · exact (Except.ok.inj h).symm
        · cases h

theorem canonical_iff (hl : Lawful core) {pk : core.P.PublicKey}
    (h : checkUserConsent core.P now userConsent core.publicKeyVec = .ok vec)
    (hpk : core.P.publicKeyFromSlice vec = .ok pk) :
    core.P.publicKeySerialize pk = vec ↔ Canonical core.P userConsent := by
  have hv := vec_of_checkUserConsent h
  split_ifs at hv with hk
  · obtain ⟨pk',rfl⟩ := hv
    have he : pk' = pk := Except.ok.inj ((hl.publicKey_round pk').symm.trans hpk)
    simp [Canonical,hk,he]
  · subst hv
    constructor
    · exact fun he => .inr ⟨pk,hpk,he.symm⟩
    · rintro (he | ⟨pk',hpk',he⟩)
      · exact absurd he hk
      · obtain rfl := Except.ok.inj (hpk'.symm.trans hpk)
        exact he.symm

/-- A decision made from a stored consent is accepted if and only if the consent is canonical. -/
theorem checkDecision_makeDecision (hl : Lawful core) (hc : ConsentFor core now userConsent u)
    {a r : Bool} (hflags : (a && r) = false) (reason : String) (task : Task) : ∃ d,
      makeDecision core.P core.M core.keys a r reason task
        (core.M.userConsent.encode userConsent) = .ok d ∧
      ∀ task' now', task'.terms = task.terms → now' ≤ userConsent.expirationTimestamp →
        (checkDecision core.P core.M now' d u task' = .ok () ↔ Canonical core.P userConsent) := by
  obtain ⟨vec,pk,hvec,hpk,rfl⟩ := hc
  unfold makeDecision
  simp only [Message.decode_encode,Except.ok.injEq,exists_eq_left']
  intro task' now' hterms hnow
  have hlater := checkUserConsent_later hvec hnow
  unfold checkDecision
  have hbytes (d : Decision) (ha : d.isApproved = a) (hr : d.isRejected = r)
      (hm : d.reason = reason) : signedBytes core.M task' d (core.M.userConsent.encode userConsent) =
        signedBytes core.M task { isApproved := a, isRejected := r, reason := reason }
          (core.M.userConsent.encode userConsent) := by
    simp only [signedBytes,hterms,ha,hr,hm]
  have hvec' : checkUserConsent core.P now' userConsent
      (core.P.publicKeySerialize core.keys.publicKey) = .ok vec := hlater
  simp only [if_neg (hl.signature_nonempty _),hl.publicKey_round,hl.signature_round]
  rw [hbytes _ rfl rfl rfl,hl.verify_sign]
  simp only [hvec',hexDecode_hexEncode,hflags,Bool.false_eq_true,if_false]
  rw [← canonical_iff hl hvec hpk]
  by_cases he : core.P.publicKeySerialize pk = vec
  · simp [he]
  · simp [he]

end Consents

theorem hexEncode_noColon (bs : Bytes) : NoColon (hexEncode bs) := by
  have hd : ∀ n < 16, hexDigit n ≠ ':' := by decide
  intro h
  simp only [hexEncode,String.toList_ofList,List.mem_flatMap,List.mem_cons,List.not_mem_nil,
    or_false] at h
  obtain ⟨b,-,h | h⟩ := h
  · exact hd (b.toNat / 16) (by have := b.toNat_lt; omega) h.symm
  · exact hd (b.toNat % 16) (by omega) h.symm

/-- The stored consent has been accepted for the user at some time. -/
def HoldsConsent (core : TokenService.Core) (u : String) (state : ServerState) : Prop :=
  ∃ userConsent, value state.maps u "_internal:user_consent" =
    some (core.M.userConsent.encode userConsent) ∧ ∃ now, ConsentFor core now userConsent u

section Stored

variable {core : TokenService.Core} {c : Circumstances} {s : ServerState} {metadata : MetadataMap} {u : String}

theorem noColon_of_consentFor {now : ℤ} {userConsent : UserConsent}
    (h : ConsentFor core now userConsent u) : NoColon u := by
  obtain ⟨vec,pk,-,-,rfl⟩ := h
  exact hexEncode_noColon _

theorem HoldsConsent.noColon (h : HoldsConsent core u s) : NoColon u := by
  obtain ⟨consent,-,now,hc⟩ := h
  exact noColon_of_consentFor hc

theorem after_storageUpdate_other (h : HoldsConsent core u s) {u' k : String} (hu' : NoColon u')
    (hk : k ≠ "_internal:user_consent") (payload : Bytes) :
    After (storageUpdate c u' k payload) s fun _ s' => HoldsConsent core u s' := by
  refine (after_storageUpdate_value hu' h.noColon k "_internal:user_consent" payload).mono
    fun r s' hv => ?_
  rw [if_neg fun he => hk he.2.symm] at hv
  obtain ⟨consent,hs,hc⟩ := h
  exact ⟨consent,hv.trans hs,hc⟩

theorem after_storageUpdate_consent {u' : String} {userConsent : UserConsent}
    (hc : ConsentFor core c.checkedAt userConsent u') :
    After (internalStorageUpdate c u' "user_consent" (core.M.userConsent.encode userConsent)) s
      fun _ s' => HoldsConsent core u' s' ∧ (HoldsConsent core u s → HoldsConsent core u s') := by
  have hu' := noColon_of_consentFor hc
  have hself : After (internalStorageUpdate c u' "user_consent"
      (core.M.userConsent.encode userConsent)) s fun _ s' => HoldsConsent core u' s' := by
    refine (after_storageUpdate_value hu' hu' _ "_internal:user_consent" _).mono fun r s' hv => ?_
    rw [if_pos ⟨rfl,by decide⟩] at hv
    exact ⟨userConsent,hv,_,hc⟩
  refine ⟨hself,fun h => ?_⟩
  by_cases he : u = u'
  · exact he ▸ hself
  · have hv := after_storageUpdate_value (c := c) (s := s) hu' h.noColon
      ("_internal:" ++ "user_consent") "_internal:user_consent"
      (core.M.userConsent.encode userConsent)
    unfold After at hv
    rw [if_neg fun hh => he hh.1] at hv
    obtain ⟨consent,hs,hc'⟩ := h
    exact ⟨consent,hv.trans hs,hc'⟩

theorem after_userOfConsent_consent (h : HoldsConsent core u s) (userConsent : UserConsent) :
    After (userOfConsent core c userConsent) s fun _ s' => HoldsConsent core u s' := by
  refine After.bind_lift (fun vec hvec => ?_) fun e _ => h
  cases hpk : core.P.publicKeyFromSlice vec with
  | error e => exact After.throw h
  | ok pk =>
    have hfor : ConsentFor core c.checkedAt userConsent
        (hexEncode (core.P.publicKeySerialize pk)) := ⟨vec,pk,hvec,hpk,rfl⟩
    apply After.bind_get
    split_ifs with hu
    · refine (after_internalStorageRead _ _).bind (fun old s₁ hs₁ => ?_)
        fun e s₁ hs₁ => hs₁ ▸ h
      subst hs₁
      cases core.M.userConsent.decode old with
      | none => exact After.throw h
      | some old =>
        dsimp only
        split_ifs with hlater
        · exact (after_storageUpdate_consent hfor).bind
            (fun _ s₂ h₂ => After.pure (h₂.2 h)) fun e s₂ h₂ => h₂.2 h
        · exact After.pure h
    · exact After.throw h

theorem after_generateToken_consent (h : HoldsConsent core u s) (body : GenerateTokenRequest) :
    After (generateToken core c metadata body) s fun _ s' => HoldsConsent core u s' := by
  have huser : After (requestingUser core c metadata body.userConsent) s
      fun _ s' => HoldsConsent core u s' := by
    apply After.bind_get
    cases checkPrivilegeIn s.importedUsers metadata (privileges .generateToken) with
    | ok _ => exact After.lift h
    | error e =>
      cases e with
      | panic => exact After.throw h
      | status e =>
        cases body.userConsent with
        | none => exact After.throw h
        | some consent => exact after_userOfConsent_consent h consent
  refine huser.bind (fun u' s₁ h₁ => ?_) fun e s₁ h₁ => h₁
  split_ifs with hp
  · exact After.pure h₁
  · exact After.throw h₁

theorem after_importUser_consent (body : UserConsent) :
    After (importUser core c metadata body) s fun r s' =>
      (HoldsConsent core u s → HoldsConsent core u s') ∧
      ∀ t, r = .ok t → ConsentFor core c.checkedAt body u → HoldsConsent core u s' := by
  apply After.bind_get
  refine After.bind_lift (fun _ hc => ?_) fun e _ => ⟨id,by simp⟩
  split_ifs with hr ht
  · exact After.throw ⟨id,by simp⟩
  · exact After.throw ⟨id,by simp⟩
  refine After.bind_lift (fun vec hvec => ?_) fun e _ => ⟨id,by simp⟩
  cases hpk : core.P.publicKeyFromSlice vec with
  | error e => exact After.throw ⟨id,by simp⟩
  | ok pk =>
    have hfor : ConsentFor core c.checkedAt body (hexEncode (core.P.publicKeySerialize pk)) :=
      ⟨vec,pk,hvec,hpk,rfl⟩
    have huser : ConsentFor core c.checkedAt body u →
        u = hexEncode (core.P.publicKeySerialize pk) := by
      rintro ⟨vec',pk',hvec',hpk',rfl⟩
      obtain rfl := Except.ok.inj (hvec'.symm.trans hvec)
      rw [Except.ok.inj (hpk'.symm.trans hpk)]
    have hother {s₁ : ServerState} {u' k : String} {payload : Bytes} (hu' : NoColon u')
        (hk : k ≠ "_internal:user_consent")
        (h : HoldsConsent core (hexEncode (core.P.publicKeySerialize pk)) s₁ ∧
          (HoldsConsent core u s → HoldsConsent core u s₁)) :
        After (storageUpdate c u' k payload) s₁ fun _ s' =>
          HoldsConsent core (hexEncode (core.P.publicKeySerialize pk)) s' ∧
            (HoldsConsent core u s → HoldsConsent core u s') :=
      ⟨after_storageUpdate_other h.1 hu' hk payload,
        fun hs => after_storageUpdate_other (h.2 hs) hu' hk payload⟩
    have hjwt : "users:" ++ hexEncode (core.P.publicKeySerialize pk) ++ ":user_jwt" ≠
        "_internal:user_consent" := by
      intro he
      have hh := congrArg (fun s => s.toList.head?) he
      simp at hh
    refine (after_storageUpdate_consent hfor).bind (fun _ s₁ h₁ => ?_) fun e s₁ h₁ => ⟨h₁.2,by simp⟩
    refine (hother (hexEncode_noColon _) hjwt h₁).bind (fun _ s₂ h₂ => ?_) fun e s₂ h₂ =>
      ⟨h₂.2,by simp⟩
    refine (hother (hexEncode_noColon _) (by decide) h₂).bind (fun _ s₃ h₃ => ?_) fun e s₃ h₃ =>
      ⟨h₃.2,by simp⟩
    apply After.bind_modify
    exact After.pure ⟨h₃.2,fun t _ hc => huser hc ▸ h₃.1⟩

end Stored

/-- After the user has been imported, the other requests leave the stored consent alone. -/
def Undisturbed (core : TokenService.Core) (u : String)
    (before after : List (Circumstances × MetadataMap × ClientRequest)) : Prop :=
  ∀ mid c metadata handler maps rest, after = mid ++ (c,metadata,.other handler maps) :: rest →
    value maps u "_internal:user_consent" =
      value (run core (before ++ mid)).1.maps u "_internal:user_consent"

theorem holdsConsent_run {core : TokenService.Core} {u : String}
    {before after : List (Circumstances × MetadataMap × ClientRequest)}
    (hstart : HoldsConsent core u (run core before).1) (hkeep : Undisturbed core u before after) :
    HoldsConsent core u (run core (before ++ after)).1 := by
  induction after using List.reverseRecOn with
  | nil => simpa using hstart
  | append_singleton after r ih =>
    obtain ⟨c,metadata,request⟩ := r
    have hmid := ih fun mid c metadata handler maps rest he =>
      hkeep mid c metadata handler maps (rest ++ [_]) (by rw [he,List.append_assoc]; rfl)
    rw [← List.append_assoc,run_concat]
    unfold receive
    cases hi : intercept core.J core.secret c.verifiedAt metadata with
    | error a => exact hmid
    | ok metadata' =>
      cases request with
      | generateToken body => exact after_generateToken_consent hmid body
      | importUser body => exact (after_importUser_consent body).1 hmid
      | other handler maps =>
        obtain ⟨consent,hs,hc⟩ := hmid
        exact ⟨consent,(hkeep after c metadata handler maps [] rfl).trans hs,hc⟩

/-- A decision for an imported user is accepted everywhere if and only if the stored consent is
canonical. -/
theorem decisions_verify_iff {core : TokenService.Core} (hl : Lawful core)
    {before after : List (Circumstances × MetadataMap × ClientRequest)} {c : Circumstances}
    {metadata : MetadataMap} {body : UserConsent} {u t : String}
    (hin : (receive core c (run core before).1 metadata (.importUser body)).1.response =
      .ok (some t))
    (hu : ConsentFor core c.checkedAt body u)
    (hkeep : Undisturbed core u (before ++ [(c,metadata,.importUser body)]) after) :
    ∃ consent, value (run core (before ++ [(c,metadata,.importUser body)] ++ after)).1.maps u
        "_internal:user_consent" = some (core.M.userConsent.encode consent) ∧
      ∀ (isApproved isRejected : Bool) (reason : String) (task : Task),
        (isApproved && isRejected) = false → ∃ decision,
        generateDecision core (run core (before ++ [(c,metadata,.importUser body)] ++ after)).1
          isApproved isRejected reason u task = .ok decision ∧
        ∀ task' now, task'.terms = task.terms → now ≤ consent.expirationTimestamp →
          (checkDecision core.P core.M now decision u task' = .ok () ↔
            Canonical core.P consent) := by
  have hstart : HoldsConsent core u (run core (before ++ [(c,metadata,.importUser body)])).1 := by
    rw [run_concat]
    unfold receive at hin ⊢
    cases hi : intercept core.J core.secret c.verifiedAt metadata with
    | error a => simp [hi] at hin
    | ok metadata' =>
      have hh := @after_importUser_consent core c (run core before).1 metadata' u body
      rw [hi] at hin
      simp only [serve] at hin ⊢
      unfold After at hh
      generalize importUser core c metadata' body (run core before).1 = p at hh hin
      obtain ⟨r,s'⟩ := p
      cases r with
      | error a => simp [Except.map] at hin
      | ok t => exact hh.2 t rfl hu
  obtain ⟨consent,hs,now,hc⟩ := holdsConsent_run hstart hkeep
  refine ⟨consent,hs,fun a r reason task hf => ?_⟩
  have hread := BasicStorage.readKeyName_eq_ok.mpr hs
  obtain ⟨d,hd,hcheck⟩ := checkDecision_makeDecision hl hc hf reason task
  refine ⟨d,?_,hcheck⟩
  rw [generateDecision,hread]
  exact hd

theorem sampleCore_lawful : Lawful sampleCore where
  verify_sign message := by simp [sampleCore,twoForms]
  signature_nonempty message := by simp [sampleCore,twoForms]
  signature_round s := rfl
  publicKey_round pk := by
    obtain ⟨odd,x⟩ := pk
    cases odd <;> rfl

def uncompressed : Bytes := 4 :: (List.replicate 32 7 ++ List.replicate 32 6)

/-- What becomes of a decision of the user. -/
def sampleCheck (publicKey : Bytes) : Except Abort Unit :=
  match generateDecision sampleCore (run sampleCore [sampleImport publicKey]).1 true false ""
      (hexEncode compressed) { taskId := "id" } with
  | .error e => .error e
  | .ok d => checkDecision twoForms .selfDelimiting 0 d (hexEncode compressed) { taskId := "id" }

theorem sampleConsent_for (publicKey : Bytes) (h : publicKey ∈ [compressed,uncompressed]) :
    ConsentFor sampleCore 0 (sampleConsentOf publicKey) (hexEncode compressed) := by
  have hall : ∀ publicKey ∈ [compressed,uncompressed],
      checkUserConsent twoForms 0 (sampleConsentOf publicKey) [2,9] = .ok publicKey := by
    decide +kernel
  have hpk : twoForms.publicKeyFromSlice publicKey = .ok (false,List.replicate 32 7) := by
    rcases List.mem_pair.mp h with rfl | rfl <;> rfl
  exact ⟨publicKey,_,hall _ h,hpk,by decide +kernel⟩

/-- With the compressed form of the key the decision is accepted. -/
theorem decisions_verify_iff_sample : ∃ consent decision,
    value (run sampleCore [sampleImport compressed]).1.maps (hexEncode compressed)
      "_internal:user_consent" = some (sampleCore.M.userConsent.encode consent) ∧
    (0 ≤ consent.expirationTimestamp →
      (checkDecision twoForms .selfDelimiting 0 decision (hexEncode compressed)
        { taskId := "id" } = .ok () ↔ Canonical twoForms consent)) := by
  have hin : (receive sampleCore sampleCircumstances (run sampleCore []).1
      (sampleImport compressed).2.1 (.importUser (sampleConsentOf compressed))).1.response =
      .ok (some (token sampleCore ⟨"user",hexEncode compressed,1000⟩)) := by
    decide +kernel
  have hkeep : Undisturbed sampleCore (hexEncode compressed) ([] ++ [sampleImport compressed]) [] := by
    intro mid c metadata handler maps rest he
    simp at he
  obtain ⟨consent,hs,hd⟩ := decisions_verify_iff sampleCore_lawful hin
    (sampleConsent_for compressed (by simp)) hkeep
  obtain ⟨d,-,hcheck⟩ := hd true false "" { taskId := "id" } rfl
  exact ⟨consent,d,hs,hcheck { taskId := "id" } 0 rfl⟩

/-- The host imports the user with a key of 65 bytes, and no core accepts the user's decisions. -/
theorem uncompressed_key_rejected : Lawful sampleCore ∧
    ConsentFor sampleCore 0 (sampleConsentOf uncompressed) (hexEncode compressed) ∧
    (run sampleCore [sampleImport uncompressed]).1.importedUsers = {hexEncode compressed} ∧
    sampleCheck uncompressed =
      .error (.invalidArgument "UserConsent is not for the current participant") :=
  ⟨sampleCore_lawful,sampleConsent_for uncompressed (by simp),by decide +kernel,by decide +kernel⟩

end SignedDecisions
end CoLinkServer
