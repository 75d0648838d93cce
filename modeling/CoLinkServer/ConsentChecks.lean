import CoLinkServer.SeparatedText
import CoLinkServer.TokenService

/-! Checking a consent that anybody may have sent. In both formats the text that is signed
determines the two timestamps and the key of the core; the wallet format is read without a look at
the length of the signature. -/
namespace CoLinkServer

namespace ConsentChecks

open Authorization SeparatedText TokenService

/-- What the library promises of verification and recovery, for the relation between a message, a
signature and the key that made it. -/
structure Documented (P : Primitives) (Valid : Bytes → P.Signature → P.PublicKey → Prop) : Prop where
  verified : ∀ message signature pk, P.verifyEcdsa message signature pk = .ok () →
    Valid message signature pk
  recovered : ∀ message signature pk, P.recoverEcdsa message signature = .ok pk →
    Valid message signature pk
  publicKey_round : ∀ pk, P.publicKeyFromSlice (P.publicKeySerialize pk) = .ok pk

/-- A signature with a recovery id behind it. -/
def Recoverable (signature : Bytes) : Prop :=
  ∃ v, signature[64]? = some v ∧ 27 ≤ v.toNat ∧ v.toNat ≤ 30

def walletText (userConsent : UserConsent) (corePublicKeyVec : Bytes) : String :=
  "sigTime: " ++ toString userConsent.signatureTimestamp ++ "\nexpTime: " ++
    toString userConsent.expirationTimestamp ++ "\ncorePubKey: " ++ hexEncode corePublicKeyVec ++ "\n"

/-- The bytes that are hashed, in the format that the consent is in. -/
def consentText (userConsent : UserConsent) (corePublicKeyVec : Bytes) : Bytes :=
  if userConsent.publicKey ≠ [] then
    userConsent.publicKey ++ i64LeBytes userConsent.signatureTimestamp ++
      i64LeBytes userConsent.expirationTimestamp ++ corePublicKeyVec
  else
    stringBytes ("\x19Ethereum Signed Message:\n" ++
      toString (walletText userConsent corePublicKeyVec).utf8ByteSize ++
      walletText userConsent corePublicKeyVec)

def consentDigest (P : Primitives) (userConsent : UserConsent) (corePublicKeyVec : Bytes) : Bytes :=
  if userConsent.publicKey ≠ [] then P.sha256 (consentText userConsent corePublicKeyVec)
  else P.keccak256 (consentText userConsent corePublicKeyVec)

/-- The signature in the consent, read in its format. -/
def ReadsAs (P : Primitives) (userConsent : UserConsent) (signature : P.Signature) : Prop :=
  if userConsent.publicKey ≠ [] then P.signatureFromCompact userConsent.signature = .ok signature
  else ∃ v, userConsent.signature[64]? = some v ∧
    P.recoverableFromCompact (userConsent.signature.take 64) (v.toNat - 27) = .ok signature

/-- The owner of the key has signed the consent for this core. -/
def SignedBy (P : Primitives) (Valid : Bytes → P.Signature → P.PublicKey → Prop)
    (userConsent : UserConsent) (corePublicKeyVec vec : Bytes) : Prop :=
  (userConsent.publicKey ≠ [] → vec = userConsent.publicKey) ∧ ∃ signature pk,
    ReadsAs P userConsent signature ∧ P.publicKeyFromSlice vec = .ok pk ∧
    Valid (consentDigest P userConsent corePublicKeyVec) signature pk

def InI64 (z : ℤ) : Prop := -2 ^ 63 ≤ z ∧ z < 2 ^ 63

theorem length_i64LeBytes (z : ℤ) : (i64LeBytes z).length = 8 := by simp [i64LeBytes]

theorem eq_of_digits {n m m' : ℕ} (hm : m < 256 ^ n) (hm' : m' < 256 ^ n)
    (h : ∀ i < n, m / 256 ^ i % 256 = m' / 256 ^ i % 256) : m = m' := by
  induction n generalizing m m' with
  | zero => omega
  | succ n ih =>
    have hlow := h 0 (by omega)
    have hhigh : m / 256 = m' / 256 := by
      refine ih ?_ ?_ fun i hi => ?_
      · exact Nat.div_lt_of_lt_mul (by rwa [pow_succ'] at hm)
      · exact Nat.div_lt_of_lt_mul (by rwa [pow_succ'] at hm')
      · have hi' := h (i+1) (by omega)
        rwa [pow_succ',← Nat.div_div_eq_div_mul,← Nat.div_div_eq_div_mul] at hi'
    simp only [pow_zero,Nat.div_one] at hlow
    omega

theorem i64LeBytes_inj {z z' : ℤ} (hz : InI64 z) (hz' : InI64 z')
    (h : i64LeBytes z = i64LeBytes z') : z = z' := by
  have hdigit (i : ℕ) (hi : i < 8) : (z % 2 ^ 64).toNat / 256 ^ i % 256 =
      (z' % 2 ^ 64).toNat / 256 ^ i % 256 := by
    have hi' := congrArg (fun bs => bs[i]?.map UInt8.toNat) h
    simpa [i64LeBytes,hi] using hi'
  have hpow : (256 : ℕ) ^ 8 = 2 ^ 64 := by decide
  have hmod := eq_of_digits (n := 8) (by rw [hpow]; omega) (by rw [hpow]; omega) hdigit
  obtain ⟨hlo,hhi⟩ := hz
  obtain ⟨hlo',hhi'⟩ := hz'
  omega

theorem hexEncode_inj {bs bs' : Bytes} (h : hexEncode bs = hexEncode bs') : bs = bs' :=
  Option.some.inj ((hexDecode_hexEncode bs).symm.trans ((congrArg hexDecode h).trans
    (hexDecode_hexEncode bs')))

theorem stringBytes_inj {s s' : String} (h : stringBytes s = stringBytes s') : s = s' := by
  unfold stringBytes at h
  have hdata : s.toUTF8 = s'.toUTF8 := by
    apply ByteArray.ext
    exact Array.toList_inj.mp h
  exact String.toByteArray_inj.mp hdata

theorem hexEncode_ascii {bs : Bytes} {c : Char} (h : c ∈ (hexEncode bs).toList) : c ≠ '\n' := by
  unfold hexEncode at h
  rw [String.toList_ofList,List.mem_flatMap] at h
  obtain ⟨b,-,hc⟩ := h
  have hdigit : ∀ n < 16, hexDigit n ≠ '\n' := by decide
  have hb := b.toNat_lt
  rcases List.mem_cons.mp hc with rfl | hc
  · exact hdigit _ (by omega)
  · rw [List.mem_singleton.mp hc]
    exact hdigit _ (by omega)

theorem walletText_inj {userConsent userConsent' : UserConsent} {vec vec' : Bytes}
    (h : walletText userConsent vec = walletText userConsent' vec') :
    userConsent.signatureTimestamp = userConsent'.signatureTimestamp ∧
      userConsent.expirationTimestamp = userConsent'.expirationTimestamp ∧ vec = vec' := by
  have hline (z : ℤ) : '\n' ∉ (toString z).toList := not_mem_int_toString (by decide) (by decide)
  have hhex (bs : Bytes) : '\n' ∉ (hexEncode bs).toList := fun hm => hexEncode_ascii hm rfl
  have hh := congrArg String.toList h
  simp only [walletText,String.toList_append,List.append_assoc] at hh
  rw [List.append_cancel_left_eq] at hh
  obtain ⟨hs,hh⟩ := (first_sep_inj (hline _) (hline _)).mp hh
  have hexp := (List.append_cancel_left_eq "expTime: ".toList _ _).mp hh
  obtain ⟨he,hh⟩ := (first_sep_inj (hline _) (hline _)).mp hexp
  have hcore := (List.append_cancel_left_eq "corePubKey: ".toList _ _).mp hh
  obtain ⟨hv,-⟩ := (first_sep_inj (hhex _) (hhex _)).mp hcore
  exact ⟨int_toString_inj.mp (String.toList_inj.mp hs),int_toString_inj.mp (String.toList_inj.mp he),
    hexEncode_inj (String.toList_inj.mp hv)⟩

/-- The signed bytes determine the timestamps and the core. -/
theorem consentText_inj {userConsent userConsent' : UserConsent} {vec vec' : Bytes}
    (hkey : userConsent'.publicKey = userConsent.publicKey)
    (hsig : InI64 userConsent.signatureTimestamp ∧ InI64 userConsent'.signatureTimestamp)
    (hexp : InI64 userConsent.expirationTimestamp ∧ InI64 userConsent'.expirationTimestamp)
    (h : consentText userConsent vec = consentText userConsent' vec') :
    userConsent.signatureTimestamp = userConsent'.signatureTimestamp ∧
      userConsent.expirationTimestamp = userConsent'.expirationTimestamp ∧ vec = vec' := by
  unfold consentText at h
  rw [hkey] at h
  split_ifs at h with hk
  · simp only [List.append_assoc,List.append_cancel_left_eq] at h
    obtain ⟨hs,h⟩ := List.append_inj h (by rw [length_i64LeBytes,length_i64LeBytes])
    obtain ⟨he,hv⟩ := List.append_inj h (by rw [length_i64LeBytes,length_i64LeBytes])
    exact ⟨i64LeBytes_inj hsig.1 hsig.2 hs,i64LeBytes_inj hexp.1 hexp.2 he,hv⟩
  · have hh := congrArg String.toList (stringBytes_inj h)
    simp only [String.toList_append,List.append_assoc,List.append_cancel_left_eq] at hh
    have hdigits (n : ℕ) : 's' ∉ (toString n).toList := fun hm => absurd (digit_of_mem_repr hm) (by decide)
    have hstart (userConsent : UserConsent) (vec : Bytes) : ∃ rest,
        (walletText userConsent vec).toList = 's' :: rest := ⟨_,by simp [walletText]; rfl⟩
    obtain ⟨rest,hr⟩ := hstart userConsent vec
    obtain ⟨rest',hr'⟩ := hstart userConsent' vec'
    rw [hr,hr'] at hh
    obtain ⟨-,hrest⟩ := (first_sep_inj (hdigits _) (hdigits _)).mp hh
    exact walletText_inj (String.toList_inj.mp (by rw [hr,hr',hrest]))

section Check

variable {P : Primitives} {Valid : Bytes → P.Signature → P.PublicKey → Prop} {now : ℤ}
  {userConsent : UserConsent} {corePublicKeyVec vec : Bytes}

theorem check_panics_iff : checkUserConsent P now userConsent corePublicKeyVec = .error .panic ↔
    now ≤ userConsent.expirationTimestamp ∧ userConsent.publicKey = [] ∧
      ¬ Recoverable userConsent.signature := by
  unfold checkUserConsent
  by_cases hnow : now > userConsent.expirationTimestamp
  · simp [hnow,Abort.internal]
  rw [if_neg hnow]
  by_cases hk : userConsent.publicKey = []
  · rw [if_neg (not_not.mpr hk)]
    dsimp only
    cases hv : userConsent.signature[64]? with
    | none => simp [hk,Recoverable,hv]; omega
    | some v =>
      dsimp only
      split_ifs with hr
      · simp [hk,Recoverable,hv]
        omega
      · have hrec : Recoverable userConsent.signature := ⟨v,hv,by omega,by omega⟩
        simp only [hrec,not_true_eq_false,and_false,iff_false]
        repeat' split
        all_goals simp [Abort.invalidArgument]
  · simp only [if_pos hk,hk,false_and,and_false,iff_false]
    repeat' split
    all_goals simp [Abort.invalidArgument]

/-- A consent that is accepted has not expired, and has been signed for this core. -/
theorem signedBy_of_check (hP : Documented P Valid)
    (h : checkUserConsent P now userConsent corePublicKeyVec = .ok vec) :
    now ≤ userConsent.expirationTimestamp ∧ SignedBy P Valid userConsent corePublicKeyVec vec := by
  unfold checkUserConsent at h
  by_cases hnow : now > userConsent.expirationTimestamp
  · simp [hnow] at h
  rw [if_neg hnow] at h
  refine ⟨by omega,?_⟩
  by_cases hk : userConsent.publicKey = []
  · rw [if_neg (not_not.mpr hk)] at h
    dsimp only at h
    split at h
    · cases h
    next v hv =>
    split_ifs at h
    split at h
    · cases h
    next signature hs =>
    split at h
    · next pk hpk =>
      obtain rfl := Except.ok.inj h
      refine ⟨fun hne => absurd hk hne,signature,pk,?_,hP.publicKey_round pk,?_⟩
      · rw [ReadsAs,if_neg (not_not.mpr hk)]
        exact ⟨v,hv,hs⟩
      · rw [consentDigest,if_neg (not_not.mpr hk),consentText,if_neg (not_not.mpr hk)]
        exact hP.recovered _ _ _ hpk
    · cases h
  · rw [if_pos hk] at h
    split at h
    · cases h
    next signature hs =>
    split at h
    · cases h
    next pk hpk =>
    split at h
    · next hv =>
      obtain rfl := Except.ok.inj h
      refine ⟨fun _ => rfl,signature,pk,?_,hpk,?_⟩
      · rwa [ReadsAs,if_pos hk]
      · rw [consentDigest,if_pos hk,consentText,if_pos hk]
        exact hP.verified _ _ _ hv
    · cases h

end Check

/-- The notifications of the changes find the addresses that they expect. -/
def Notifies (c : Circumstances) : Prop :=
  ∀ u k e, c.publishChange u k = .error e → e.Addressed

/-- What a check has to guarantee for whatever consent it is given. -/
structure Checked (core : TokenService.Core)
    (Valid : Bytes → core.P.Signature → core.P.PublicKey → Prop) (now : ℤ)
    (userConsent : UserConsent) (corePublicKeyVec : Bytes) : Prop where
  defined : checkUserConsent core.P now userConsent corePublicKeyVec ≠ .error .panic
  sound : ∀ vec, checkUserConsent core.P now userConsent corePublicKeyVec = .ok vec →
    now ≤ userConsent.expirationTimestamp ∧
      SignedBy core.P Valid userConsent corePublicKeyVec vec
  bound : ∀ userConsent' vec', userConsent'.publicKey = userConsent.publicKey →
    InI64 userConsent.signatureTimestamp ∧ InI64 userConsent'.signatureTimestamp →
    InI64 userConsent.expirationTimestamp ∧ InI64 userConsent'.expirationTimestamp →
    consentText userConsent corePublicKeyVec = consentText userConsent' vec' →
    userConsent.signatureTimestamp = userConsent'.signatureTimestamp ∧
      userConsent.expirationTimestamp = userConsent'.expirationTimestamp ∧ corePublicKeyVec = vec'
  imported : ∀ (c : Circumstances) (metadata : MetadataMap) (state : ServerState),
    checkPrivilegeIn state.importedUsers metadata (privileges .importUser) = .ok () →
    Notifies c → c.checkedAt = now → (importUser core c metadata userConsent state).1 ≠ .error .panic

section Requests

variable {core : TokenService.Core} {c : Circumstances} {metadata : MetadataMap} {s : ServerState}

theorem after_storageUpdate_defined (hc : Notifies c) (u k : String) (payload : Bytes) :
    After (storageUpdate c u k payload) s fun r _ => r ≠ .error .panic := by
  apply After.bind_get
  generalize BasicStorage.update s.maps u k payload (c.storedAtNanos k) = p
  obtain ⟨r,maps⟩ := p
  apply After.bind_set
  cases r with
  | error e => exact After.throw (by simp [Abort.internal])
  | ok _ =>
    dsimp only
    cases hn : c.publishChange u k with
    | error e => exact After.throw fun he => UpdateError.abort_ne_panic (hc u k e hn) (Except.error.inj he)
    | ok _ => exact After.pure (by simp)

theorem after_importUser_defined (userConsent : UserConsent)
    (hallowed : checkPrivilegeIn s.importedUsers metadata (privileges .importUser) = .ok ())
    (hnotifies : Notifies c) (hrange : core.timestampInRange userConsent.signatureTimestamp)
    (hcheck : checkUserConsent core.P c.checkedAt userConsent core.publicKeyVec ≠ .error .panic) :
    After (importUser core c metadata userConsent) s fun r _ => r ≠ .error .panic := by
  apply After.bind_get
  refine After.bind_lift (fun _ _ => ?_) fun e he => by rw [hallowed] at he; cases he
  dsimp only
  rw [hrange,if_neg (by simp)]
  split_ifs
  · exact After.throw (by simp [Abort.unauthenticated])
  refine After.bind_lift (fun vec _ => ?_) fun e he => by rintro ⟨⟩; exact hcheck he
  cases core.P.publicKeyFromSlice vec with
  | error e => exact After.throw (by simp [Abort.invalidArgument])
  | ok pk =>
    refine (after_storageUpdate_defined hnotifies _ _ _).bind (fun _ s₁ _ => ?_) fun e _ h => by simpa using h
    refine (after_storageUpdate_defined hnotifies _ _ _).bind (fun _ s₂ _ => ?_) fun e _ h => by simpa using h
    refine (after_storageUpdate_defined hnotifies _ _ _).bind (fun _ s₃ _ => ?_) fun e _ h => by simpa using h
    exact After.bind_modify (After.pure (by simp))

def hostMetadata : MetadataMap := insert (insert (fun _ => none) "privilege" "host") "user_id" "host"

theorem hostMetadata_allowed (importedUsers : Finset String) :
    checkPrivilegeIn importedUsers hostMetadata (privileges .importUser) = .ok () := by
  rw [checkPrivilegeIn_ok (p := "host") (u := "host") (by simp [hostMetadata]) (by simp [hostMetadata])]
  simp [privileges]

/-- A consent is checked as it has to be exactly if it is not in the wallet format with a signature
that is too short or has no recovery id, or has expired, and its timestamp is in the range of the
calendar. -/
theorem consent_checked_iff {Valid : Bytes → core.P.Signature → core.P.PublicKey → Prop}
    (hP : Documented core.P Valid) (now : ℤ) (userConsent : UserConsent) (corePublicKeyVec : Bytes) :
    Checked core Valid now userConsent corePublicKeyVec ↔
      (userConsent.expirationTimestamp < now ∨ userConsent.publicKey ≠ [] ∨
        Recoverable userConsent.signature) ∧
      core.timestampInRange userConsent.signatureTimestamp = true := by
  have hdefined (vec : Bytes) : checkUserConsent core.P now userConsent vec ≠ .error .panic ↔
      userConsent.expirationTimestamp < now ∨ userConsent.publicKey ≠ [] ∨
        Recoverable userConsent.signature := by
    rw [ne_eq,check_panics_iff,not_and_or,not_and_or,not_not,not_le]
  constructor
  · intro h
    refine ⟨(hdefined _).mp h.defined,?_⟩
    by_contra hrange
    refine h.imported ⟨0,0,now,fun _ => 0,fun _ _ => .ok ()⟩ hostMetadata ⟨BasicStorage.empty,∅⟩
      (hostMetadata_allowed _) nofun rfl ?_
    have hafter : After (importUser core ⟨0,0,now,fun _ => 0,fun _ _ => .ok ()⟩ hostMetadata userConsent)
        ⟨BasicStorage.empty,∅⟩ fun r _ => r = .error .panic := by
      apply After.bind_get
      refine After.bind_lift (fun _ _ => ?_) fun e he => ?_
      · dsimp only
        rw [if_pos (by simpa using hrange)]
        exact After.throw rfl
      · rw [hostMetadata_allowed] at he
        cases he
    exact hafter
  · rintro ⟨hwell,hrange⟩
    refine ⟨(hdefined _).mpr hwell,fun vec hvec => signedBy_of_check hP hvec,?_,?_⟩
    · exact fun _ _ hkey hsig hexp htext => consentText_inj hkey hsig hexp htext
    · rintro c metadata state hallowed hnotifies rfl
      exact after_importUser_defined userConsent hallowed hnotifies hrange ((hdefined _).mpr hwell)

end Requests

def calendarCore : TokenService.Core :=
  { sampleCore with timestampInRange := fun z => decide (-8334632851200 ≤ z ∧ z ≤ 8210298412799) }

theorem calendarCore_documented : Documented calendarCore.P fun message signature pk =>
    signature = twoForms.publicKeySerialize pk ++ message where
  verified message signature pk h := by simpa [calendarCore,sampleCore,twoForms] using h
  recovered message signature pk h := by cases h
  publicKey_round pk := by
    obtain ⟨b,x⟩ := pk
    cases b <;> rfl

theorem consent_checked_iff_sample : Checked calendarCore
    (fun message signature pk => signature = twoForms.publicKeySerialize pk ++ message) 0
    (sampleConsentOf compressed) [2,9] :=
  (consent_checked_iff calendarCore_documented 0 (sampleConsentOf compressed) [2,9]).mpr
    ⟨.inr (.inl (by decide)),by decide⟩

/-- What a client without a token sends. -/
def anonymously (userConsent : UserConsent) : Except Abort (Option String) :=
  (receive calendarCore sampleCircumstances start (insert (fun _ => none) "authorization" "")
    (.generateToken { privilege := "user", userConsent := some userConsent })).1.response

/-- A consent without a key and without a signature makes the handler panic, and so does a
timestamp behind the end of the calendar. -/
theorem consent_check_panics : anonymously ⟨[],0,1000,[]⟩ = .error .panic ∧
    (importUser calendarCore sampleCircumstances hostMetadata
      ⟨compressed,2 ^ 63 - 1,2 ^ 63 - 1,[]⟩ start).1 = .error .panic ∧
    ¬ Checked calendarCore
      (fun message signature pk => signature = twoForms.publicKeySerialize pk ++ message) 0
      ⟨[],0,1000,[]⟩ [2,9] := by
  refine ⟨by decide +kernel,by decide +kernel,fun h => h.defined ?_⟩
  exact check_panics_iff.mpr ⟨by decide,rfl,by rintro ⟨v,hv,-⟩; cases hv⟩

end ConsentChecks
end CoLinkServer
