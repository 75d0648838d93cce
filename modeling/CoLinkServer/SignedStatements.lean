import CoLinkServer.ConsentChecks
import CoLinkServer.WireFormat

/-! What a signature says. The signed bytes are a task, a decision and a consent, one behind the
other in the wire format; this module asks whether they can be read in two ways. -/
namespace CoLinkServer

namespace SignedStatements

open WireFormat

/-- The fields of a decision that are signed. -/
def decisionFields (isApproved isRejected : Bool) (reason : String) : List Field :=
  boolField 1 isApproved ++ boolField 2 isRejected ++ bytesField 3 (stringBytes reason)

def consentFields (userConsent : UserConsent) : List Field :=
  bytesField 1 userConsent.publicKey ++ intField 2 userConsent.signatureTimestamp ++
    intField 3 userConsent.expirationTimestamp ++ bytesField 4 userConsent.signature

/-- How the messages are written. Of a task it is known only that its fields come in the order of
their tags and that the tag of the participants is above those of the signed part of a decision. -/
structure Layout (M : Prost) where
  taskFields : Task → List Field
  participantsTag : ℕ
  task : ∀ t, M.task.encode t = encode (taskFields t)
  task_order : ∀ t, (taskFields t).Pairwise fun f g => f.tag ≤ g.tag
  task_participants : ∀ t, t.participants ≠ [] → ∃ f ∈ taskFields t, f.tag = participantsTag
  participants_above : 3 < participantsTag
  decision : ∀ isApproved isRejected reason,
    M.decision.encode { isApproved := isApproved, isRejected := isRejected, reason := reason } =
      encode (decisionFields isApproved isRejected reason)
  userConsent : ∀ c, M.userConsent.encode c = encode (consentFields c)

/-- What a decision is made on: the task without its decisions and its status, the flags and the
reason, and the consent of the user. -/
structure Statement where
  task : Task
  isApproved : Bool
  isRejected : Bool
  reason : String
  userConsent : UserConsent
deriving DecidableEq

def Statement.decision (x : Statement) : Decision where
  isApproved := x.isApproved
  isRejected := x.isRejected
  reason := x.reason

def Statement.bytes (M : Prost) (x : Statement) : Bytes :=
  signedBytes M x.task x.decision (M.userConsent.encode x.userConsent)

/-- A core accepts a decision with this content, some time after 1970. -/
def Verified (P : Primitives) (M : Prost) (x : Statement) : Prop :=
  ∃ now d, 0 < now ∧ d.isApproved = x.isApproved ∧ d.isRejected = x.isRejected ∧
    d.reason = x.reason ∧ d.userConsent = some x.userConsent ∧
    ∃ p ∈ x.task.participants, checkDecision P M now d p.userId x.task = .ok ()

/-- A core signs this content with a consent that it once has accepted and stored. -/
def Signed (P : Primitives) (M : Prost) (x : Statement) : Prop :=
  ∃ (keys : Keys P) (now : ℤ) (vec : Bytes) (d : Decision), 0 < now ∧ x.task.participants ≠ [] ∧
    checkUserConsent P now x.userConsent (P.publicKeySerialize keys.publicKey) = .ok vec ∧
    makeDecision P M keys x.isApproved x.isRejected x.reason x.task
      (M.userConsent.encode x.userConsent) = .ok d

def Presented (P : Primitives) (M : Prost) (x : Statement) : Prop :=
  x.task.terms = x.task ∧ (Verified P M x ∨ Signed P M x)

/-- The number of the second field is read as a flag in one and as a timestamp in the other. -/
def Shifted (x y : Statement) : Prop :=
  x.isRejected = true ∧ x.userConsent.signatureTimestamp = 0 ∧
  y = { x with
    isRejected := false
    userConsent := { x.userConsent with signatureTimestamp := 1 } }

/-- Without a reason and without a public key, nothing stands between the flag and the timestamp. -/
def Confusable (x y : Statement) : Prop :=
  x.reason = "" ∧ x.userConsent.publicKey = [] ∧ (Shifted x y ∨ Shifted y x)

section Facts

variable {P : Primitives} {M : Prost} {x y : Statement}

theorem not_expired {now : ℤ} {userConsent : UserConsent} {vec vec' : Bytes}
    (h : checkUserConsent P now userConsent vec = .ok vec') :
    now ≤ userConsent.expirationTimestamp := by
  by_contra hlt
  rw [checkUserConsent,if_pos (by omega)] at h
  cases h

theorem consent_of_checkDecision {now : ℤ} {d : Decision} {userId : String} {task : Task}
    {userConsent : UserConsent} (hc : d.userConsent = some userConsent)
    (h : checkDecision P M now d userId task = .ok ()) : now ≤ userConsent.expirationTimestamp := by
  unfold checkDecision at h
  rw [hc] at h
  split at h
  · cases h
  split at h
  · cases h
  split at h
  · cases h
  dsimp only at h
  split at h
  · cases h
  split at h
  · cases h
  next hcheck => exact not_expired hcheck

theorem Presented.participants (h : Presented P M x) : x.task.participants ≠ [] := by
  rcases h.2 with ⟨now,d,-,-,-,-,-,p,hp,-⟩ | ⟨keys,now,vec,d,-,hne,-⟩
  · exact List.ne_nil_of_mem hp
  · exact hne

theorem Presented.expiration (h : Presented P M x) : 0 < x.userConsent.expirationTimestamp := by
  rcases h.2 with ⟨now,d,hnow,-,-,-,hc,p,-,hcheck⟩ | ⟨keys,now,vec,d,hnow,-,hcheck,-⟩
  · exact hnow.trans_le (consent_of_checkDecision hc hcheck)
  · exact hnow.trans_le (not_expired hcheck)

theorem bytes_eq (L : Layout M) (ht : x.task.terms = x.task) : x.bytes M =
    encode (L.taskFields x.task ++ (decisionFields x.isApproved x.isRejected x.reason ++
      consentFields x.userConsent)) := by
  rw [Statement.bytes,signedBytes,ht,L.task,L.userConsent,encode_append,encode_append,List.append_assoc]
  congr 2
  exact L.decision x.isApproved x.isRejected x.reason

end Facts

section Fields

variable {a a' r r' : Bool} {m m' : String} {c c' : UserConsent}

theorem stringBytes_eq_nil {s : String} : stringBytes s = [] ↔ s = "" :=
  ⟨fun h => ConsentChecks.stringBytes_inj h,fun h => by rw [h]; rfl⟩

theorem fields_agree (h : decisionFields a r m ++ consentFields c =
    decisionFields a' r' m' ++ consentFields c') :
    boolField 1 a ++ bytesField 1 c.publicKey = boolField 1 a' ++ bytesField 1 c'.publicKey ∧
    boolField 2 r ++ intField 2 c.signatureTimestamp =
      boolField 2 r' ++ intField 2 c'.signatureTimestamp ∧
    bytesField 3 (stringBytes m) ++ intField 3 c.expirationTimestamp =
      bytesField 3 (stringBytes m') ++ intField 3 c'.expirationTimestamp ∧
    bytesField 4 c.signature = bytesField 4 c'.signature := by
  have hat (tag : ℕ) := congrArg (fieldsAt tag) h
  simp only [decisionFields,consentFields,fieldsAt_append,fieldsAt_boolField,fieldsAt_intField,
    fieldsAt_bytesField] at hat
  exact ⟨by simpa using hat 1,by simpa using hat 2,by simpa using hat 3,by simpa using hat 4⟩

theorem varint_ne_bytesField {tag tag' n : ℕ} {bs : Bytes} {fs : List Field} :
    bytesField tag bs ≠ ⟨tag',.varint n⟩ :: fs := by
  unfold bytesField
  split_ifs <;> simp

theorem delimited_ne_intField {tag tag' : ℕ} {bs : Bytes} {z : ℤ} {fs : List Field} :
    intField tag z ≠ ⟨tag',.delimited bs⟩ :: fs := by
  unfold intField
  split_ifs <;> simp

theorem bool_bytes_inj {tag : ℕ} {b b' : Bool} {bs bs' : Bytes}
    (h : boolField tag b ++ bytesField tag bs = boolField tag b' ++ bytesField tag bs') :
    b = b' ∧ bs = bs' := by
  cases b <;> cases b'
  · exact ⟨rfl,bytesField_inj (by simpa [boolField] using h)⟩
  · exact absurd (by simpa [boolField] using h) varint_ne_bytesField
  · exact absurd (by simpa [boolField] using h.symm) varint_ne_bytesField
  · exact ⟨rfl,bytesField_inj (by simpa [boolField] using h)⟩

theorem bytes_int_inj {tag : ℕ} {bs bs' : Bytes} {z z' : ℤ}
    (h : bytesField tag bs ++ intField tag z = bytesField tag bs' ++ intField tag z') :
    bs = bs' ∧ z = z' := by
  by_cases hb : bs = [] <;> by_cases hb' : bs' = []
  · subst hb hb'
    exact ⟨rfl,intField_inj (by simpa [bytesField] using h)⟩
  · exact absurd (by simpa [bytesField,hb,hb'] using h) delimited_ne_intField
  · exact absurd (by simpa [bytesField,hb,hb'] using h.symm) delimited_ne_intField
  · simp only [bytesField,hb,hb',if_false,List.singleton_append] at h
    obtain ⟨hhead,htail⟩ := List.cons.inj h
    exact ⟨FieldValue.delimited.inj (Field.mk.inj hhead).2,intField_inj htail⟩

theorem intField_eq_flag {tag : ℕ} {z z' : ℤ}
    (h : intField tag z = ⟨tag,.varint 1⟩ :: intField tag z') : z = 1 ∧ z' = 0 := by
  unfold intField at h
  split_ifs at h with hz hz'
  · have hcode : i64Code z = 1 := by simpa using h
    unfold i64Code at hcode
    split_ifs at hcode <;> omega
  · simp at h

theorem bool_int_cases {tag : ℕ} {b b' : Bool} {z z' : ℤ}
    (h : boolField tag b ++ intField tag z = boolField tag b' ++ intField tag z') :
    (b = b' ∧ z = z') ∨ (b = true ∧ z = 0 ∧ b' = false ∧ z' = 1) ∨
      (b = false ∧ z = 1 ∧ b' = true ∧ z' = 0) := by
  cases b <;> cases b'
  · exact .inl ⟨rfl,intField_inj (by simpa [boolField] using h)⟩
  · obtain ⟨hz,hz'⟩ := @intField_eq_flag tag _ _ (by simpa [boolField] using h)
    exact .inr (.inr ⟨rfl,hz,rfl,hz'⟩)
  · obtain ⟨hz',hz⟩ := @intField_eq_flag tag _ _ (by simpa [boolField] using h.symm)
    exact .inr (.inl ⟨rfl,hz,rfl,hz'⟩)
  · exact .inl ⟨rfl,intField_inj (by simpa [boolField] using h)⟩

theorem nothing_between {bs bs' : Bytes} {fs gs : List Field}
    (h : boolField 2 true ++ fs = boolField 2 false ++ (bytesField 3 bs ++ (bytesField 1 bs' ++ gs))) :
    bs = [] ∧ bs' = [] := by
  by_cases hb : bs = []
  · refine ⟨hb,?_⟩
    by_contra hb'
    simp [boolField,bytesField,hb,hb'] at h
  · simp [boolField,bytesField,hb] at h

/-- Two readings of the same fields as a decision and a consent. -/
theorem eq_or_shifted (h : decisionFields a r m ++ consentFields c =
    decisionFields a' r' m' ++ consentFields c') : a = a' ∧ m = m' ∧
      ((r = r' ∧ c = c') ∨ (m = "" ∧ c.publicKey = [] ∧
        ((r = true ∧ c.signatureTimestamp = 0 ∧ r' = false ∧ c' = { c with signatureTimestamp := 1 }) ∨
          (r' = true ∧ c'.signatureTimestamp = 0 ∧ r = false ∧
            c = { c' with signatureTimestamp := 1 })))) := by
  obtain ⟨h₁,h₂,h₃,h₄⟩ := fields_agree h
  obtain ⟨rfl,hkey⟩ := bool_bytes_inj h₁
  obtain ⟨hm,hexp⟩ := bytes_int_inj h₃
  obtain rfl := ConsentChecks.stringBytes_inj hm
  have hsig := bytesField_inj h₄
  obtain ⟨key,z,e,s⟩ := c
  obtain ⟨key',z',e',s'⟩ := c'
  obtain rfl : key = key' := hkey
  obtain rfl : e = e' := hexp
  obtain rfl : s = s' := hsig
  refine ⟨rfl,rfl,?_⟩
  simp only [decisionFields,consentFields,List.append_assoc,List.append_cancel_left_eq] at h
  rcases bool_int_cases h₂ with ⟨rfl,hz⟩ | ⟨rfl,hz,rfl,hz'⟩ | ⟨rfl,hz,rfl,hz'⟩
  · obtain rfl : z = z' := hz
    exact .inl ⟨rfl,rfl⟩
  · obtain rfl : z = 0 := hz
    obtain rfl : z' = 1 := hz'
    obtain ⟨hm,hkey⟩ := nothing_between h
    exact .inr ⟨stringBytes_eq_nil.mp hm,hkey,.inl ⟨rfl,rfl,rfl,rfl⟩⟩
  · obtain rfl : z = 1 := hz
    obtain rfl : z' = 0 := hz'
    obtain ⟨hm,hkey⟩ := nothing_between h.symm
    exact .inr ⟨stringBytes_eq_nil.mp hm,hkey,.inr ⟨rfl,rfl,rfl,rfl⟩⟩

theorem head_below (hexp : c.expirationTimestamp ≠ 0) :
    ∃ f ∈ (decisionFields a r m ++ consentFields c).head?, f.tag < 4 := by
  have hhead {fs gs : List Field} {tag : ℕ} (hfs : ∀ f ∈ fs, f.tag = tag) (htag : tag < 4)
      (hgs : ∃ f ∈ gs.head?, f.tag < 4) : ∃ f ∈ (fs ++ gs).head?, f.tag < 4 := by
    cases fs with
    | nil => exact hgs
    | cons f fs => exact ⟨f,rfl,by rw [hfs f (List.mem_cons_self ..)]; exact htag⟩
  simp only [decisionFields,consentFields,List.append_assoc]
  refine hhead (fun _ => tag_boolField) (by decide) (hhead (fun _ => tag_boolField) (by decide) ?_)
  refine hhead (fun _ => tag_bytesField) (by decide) (hhead (fun _ => tag_bytesField) (by decide) ?_)
  refine hhead (fun _ => tag_intField) (by decide) ?_
  simp [intField,hexp]

end Fields

section Statements

variable {P : Primitives} {M : Prost} {x y : Statement}

theorem bytes_of_shifted (L : Layout M) (hx : x.task.terms = x.task) (hreason : x.reason = "")
    (hkey : x.userConsent.publicKey = []) (h : Shifted x y) : x.bytes M = y.bytes M := by
  obtain ⟨hr,hz,rfl⟩ := h
  rw [bytes_eq L hx,bytes_eq L (by exact hx),encode_inj]
  have hflag : intField 2 1 = boolField 2 true := rfl
  have hempty : bytesField 3 (stringBytes "") = [] := rfl
  simp only [decisionFields,consentFields,hreason,hkey,hr,hz,hflag,hempty,List.append_assoc]
  rfl

theorem ne_of_shifted (h : Shifted x y) : x ≠ y := by
  rintro rfl
  have hflag := congrArg Statement.isRejected h.2.2
  simp [h.1] at hflag

/-- The signed bytes determine what is signed, but for a rejection without a reason and a consent in
the wallet format that is dated to the first second. -/
theorem statements_determined_iff (L : Layout M) (hx : Presented P M x) (hy : Presented P M y) :
    (x.bytes M = y.bytes M → x = y) ↔ ¬ Confusable x y := by
  constructor
  · rintro hdetermined ⟨hreason,hkey,hshift | hshift⟩
    · exact ne_of_shifted hshift (hdetermined (bytes_of_shifted L hx.1 hreason hkey hshift))
    · have hreason' : y.reason = "" := by rw [hshift.2.2] at hreason; exact hreason
      have hkey' : y.userConsent.publicKey = [] := by rw [hshift.2.2] at hkey; exact hkey
      exact ne_of_shifted hshift
        (hdetermined (bytes_of_shifted L hy.1 hreason' hkey' hshift).symm).symm
  · intro hconf hbytes
    rw [bytes_eq L hx.1,bytes_eq L hy.1,encode_inj] at hbytes
    have htag (t : Task) (ht : t.participants ≠ []) : ∃ f ∈ L.taskFields t, 4 ≤ f.tag := by
      obtain ⟨f,hf,hp⟩ := L.task_participants t ht
      exact ⟨f,hf,hp ▸ L.participants_above⟩
    obtain ⟨htask,hrest⟩ := append_inj_of_tags hbytes (htag _ hx.participants)
      (htag _ hy.participants) (L.task_order _) (L.task_order _)
      (head_below hx.expiration.ne') (head_below hy.expiration.ne')
    have htask : x.task = y.task :=
      M.task.encode_inj (by rw [L.task,L.task,htask])
    obtain ⟨ha,hm,hcases⟩ := eq_or_shifted hrest
    obtain ⟨t,a,r,m,c⟩ := x
    obtain ⟨t',a',r',m',c'⟩ := y
    obtain rfl : t = t' := htask
    obtain rfl : a = a' := ha
    obtain rfl : m = m' := hm
    rcases hcases with ⟨hr,hc⟩ | ⟨hm,hkey,⟨hr,hz,hr',hc⟩ | ⟨hr,hz,hr',hc⟩⟩
    · obtain rfl : r = r' := hr
      obtain rfl : c = c' := hc
      rfl
    · refine absurd ⟨hm,hkey,.inl ⟨hr,hz,?_⟩⟩ hconf
      simp only at hr' hc
      rw [hr',hc]
    · refine absurd ⟨hm,hkey,.inr ⟨hr,hz,?_⟩⟩ hconf
      simp only at hr' hc
      rw [hr',hc]

end Statements

def participantFields (p : Participant) : List Field :=
  bytesField 1 (stringBytes p.userId) ++ bytesField 2 (stringBytes p.role)

def wholeDecisionFields (d : Decision) : List Field :=
  decisionFields d.isApproved d.isRejected d.reason ++
    (bytesField 4 d.signature ++ bytesField 5 d.corePublicKey ++
      repeatedField 6 (d.userConsent.toList.map fun c => encode (consentFields c)))

def taskFields (t : Task) : List Field :=
  bytesField 1 (stringBytes t.taskId) ++ bytesField 2 (stringBytes t.protocolName) ++
    bytesField 3 t.protocolParam ++
    repeatedField 4 (t.participants.map fun p => encode (participantFields p)) ++
    intField 6 t.expirationTime ++ boolField 7 t.requireAgreement ++ bytesField 8 (stringBytes t.status) ++
    repeatedField 9 (t.decisions.map fun d => encode (wholeDecisionFields d))

theorem consentFields_inj : Function.Injective fun c => encode (consentFields c) := by
  intro c c' h
  have hat (tag : ℕ) := congrArg (fieldsAt tag) (encode_inj.mp h)
  simp only [consentFields,fieldsAt_append,fieldsAt_intField,fieldsAt_bytesField] at hat
  obtain ⟨key,z,e,s⟩ := c
  obtain ⟨key',z',e',s'⟩ := c'
  rw [UserConsent.mk.injEq]
  exact ⟨bytesField_inj (by simpa using hat 1),intField_inj (by simpa using hat 2),
    intField_inj (by simpa using hat 3),bytesField_inj (by simpa using hat 4)⟩

theorem participantFields_inj : Function.Injective fun p => encode (participantFields p) := by
  intro p p' h
  have hat (tag : ℕ) := congrArg (fieldsAt tag) (encode_inj.mp h)
  simp only [participantFields,fieldsAt_append,fieldsAt_bytesField] at hat
  obtain ⟨u,r⟩ := p
  obtain ⟨u',r'⟩ := p'
  rw [Participant.mk.injEq]
  exact ⟨ConsentChecks.stringBytes_inj (bytesField_inj (by simpa using hat 1)),
    ConsentChecks.stringBytes_inj (bytesField_inj (by simpa using hat 2))⟩

theorem toList_inj {α β : Type} {f : α → β} (hf : Function.Injective f) {a a' : Option α}
    (h : a.toList.map f = a'.toList.map f) : a = a' := by
  cases a <;> cases a' <;> simp_all [hf.eq_iff]

theorem wholeDecisionFields_inj : Function.Injective fun d => encode (wholeDecisionFields d) := by
  intro d d' h
  have hat (tag : ℕ) := congrArg (fieldsAt tag) (encode_inj.mp h)
  simp only [wholeDecisionFields,decisionFields,fieldsAt_append,fieldsAt_boolField,
    fieldsAt_bytesField,fieldsAt_repeatedField] at hat
  obtain ⟨a,r,m,c,key,s⟩ := d
  obtain ⟨a',r',m',c',key',s'⟩ := d'
  rw [Decision.mk.injEq]
  exact ⟨boolField_inj (by simpa using hat 1),boolField_inj (by simpa using hat 2),
    ConsentChecks.stringBytes_inj (bytesField_inj (by simpa using hat 3)),
    toList_inj consentFields_inj (repeatedField_inj (by simpa using hat 6)),
    bytesField_inj (by simpa using hat 5),bytesField_inj (by simpa using hat 4)⟩

theorem taskFields_inj : Function.Injective fun t => encode (taskFields t) := by
  intro t t' h
  have hat (tag : ℕ) := congrArg (fieldsAt tag) (encode_inj.mp h)
  simp only [taskFields,fieldsAt_append,fieldsAt_boolField,fieldsAt_intField,fieldsAt_bytesField,
    fieldsAt_repeatedField] at hat
  obtain ⟨id,name,param,ps,agreement,status,time,ds⟩ := t
  obtain ⟨id',name',param',ps',agreement',status',time',ds'⟩ := t'
  rw [Task.mk.injEq]
  exact ⟨ConsentChecks.stringBytes_inj (bytesField_inj (by simpa using hat 1)),
    ConsentChecks.stringBytes_inj (bytesField_inj (by simpa using hat 2)),
    bytesField_inj (by simpa using hat 3),
    List.map_injective_iff.mpr participantFields_inj (repeatedField_inj (by simpa using hat 4)),
    boolField_inj (by simpa using hat 7),
    ConsentChecks.stringBytes_inj (bytesField_inj (by simpa using hat 8)),
    intField_inj (by simpa using hat 6),
    List.map_injective_iff.mpr wholeDecisionFields_inj (repeatedField_inj (by simpa using hat 9))⟩

/-- What has been written can be read again, if nothing else is written in the same way. -/
noncomputable def messageOf {α : Type} (enc : α → Bytes) (h : Function.Injective enc) : Message α where
  encode := enc
  decode := Function.partialInv enc
  decode_encode := Function.partialInv_left h

theorem taskIdListFields_inj : Function.Injective fun l : CoLinkInternalTaskIdList =>
    encode (repeatedField 1 (l.taskIdsWithKeyPaths.map fun e =>
      encode (bytesField 1 (stringBytes e.keyPath) ++ bytesField 2 (stringBytes e.taskId)))) := by
  intro l l' h
  obtain ⟨es⟩ := l
  obtain ⟨es'⟩ := l'
  rw [CoLinkInternalTaskIdList.mk.injEq]
  refine List.map_injective_iff.mpr ?_ (repeatedField_inj (encode_inj.mp h))
  intro e e' he
  have hat (tag : ℕ) := congrArg (fieldsAt tag) (encode_inj.mp he)
  simp only [fieldsAt_append,fieldsAt_bytesField] at hat
  obtain ⟨path,id⟩ := e
  obtain ⟨path',id'⟩ := e'
  rw [CoLinkInternalTaskIdWithKeyPath.mk.injEq]
  exact ⟨ConsentChecks.stringBytes_inj (bytesField_inj (by simpa using hat 1)),
    ConsentChecks.stringBytes_inj (bytesField_inj (by simpa using hat 2))⟩

/-- The messages in the wire format. -/
noncomputable def wireProst : Prost where
  task := messageOf _ taskFields_inj
  decision := messageOf _ wholeDecisionFields_inj
  userConsent := messageOf _ consentFields_inj
  taskIdList := messageOf _ taskIdListFields_inj
  userRecord := messageOf stringBytes fun _ _ => ConsentChecks.stringBytes_inj
  taskIdList_as_task list t h := by
    have henc : encode (taskFields t) = encode (repeatedField 1 _) :=
      (taskFields_inj.isPartialInv _ _).mp h
    have hat (tag : ℕ) := congrArg (fieldsAt tag) (encode_inj.mp henc)
    simp only [taskFields,fieldsAt_append,fieldsAt_boolField,fieldsAt_intField,fieldsAt_bytesField,
      fieldsAt_repeatedField] at hat
    exact ⟨stringBytes_eq_nil.mp (@bytesField_inj 8 _ _ (by simpa [bytesField] using hat 8)),
      @boolField_inj 7 _ _ (by simpa [boolField] using hat 7)⟩

theorem taskFields_order (t : Task) : (taskFields t).Pairwise fun f g => f.tag ≤ g.tag := by
  have h := pairwise_flatMap_tags [(1,bytesField 1 (stringBytes t.taskId)),
    (2,bytesField 2 (stringBytes t.protocolName)),(3,bytesField 3 t.protocolParam),
    (4,repeatedField 4 (t.participants.map fun p => encode (participantFields p))),
    (6,intField 6 t.expirationTime),(7,boolField 7 t.requireAgreement),
    (8,bytesField 8 (stringBytes t.status)),
    (9,repeatedField 9 (t.decisions.map fun d => encode (wholeDecisionFields d)))]
    (by
      simp only [List.forall_mem_cons]
      exact ⟨fun _ => tag_bytesField,fun _ => tag_bytesField,fun _ => tag_bytesField,
        fun _ => tag_repeatedField,fun _ => tag_intField,fun _ => tag_boolField,
        fun _ => tag_bytesField,fun _ => tag_repeatedField,fun _ h => absurd h List.not_mem_nil⟩)
    (by simp)
  simpa [taskFields] using h

noncomputable def wireLayout : Layout wireProst where
  taskFields := taskFields
  participantsTag := 4
  task _ := rfl
  task_order := taskFields_order
  task_participants t ht := by
    obtain ⟨p,ps,hps⟩ := List.exists_cons_of_ne_nil ht
    exact ⟨⟨4,.delimited (encode (participantFields p))⟩,by simp [taskFields,hps,repeatedField],rfl⟩
  participants_above := by decide
  decision a r m := by
    show encode (decisionFields a r m ++ _) = _
    exact congrArg encode (List.append_nil _)
  userConsent _ := rfl

/-- Signatures for the wallet format: the key that is recovered depends on the message. -/
def walletForms : Primitives where
  PublicKey := Bytes
  SecretKey := Bytes
  Signature := Bytes
  sha256 := id
  keccak256 := id
  publicKeyFromSlice
    | 2 :: x => .ok x
    | _ => .error "malformed public key"
  publicKeySerialize key := 2 :: key
  signatureFromCompact := .ok
  signatureSerializeCompact := id
  signEcdsa message key := 2 :: key ++ message
  verifyEcdsa message signature key :=
    if signature = 2 :: key ++ message then .ok () else .error "signature failed verification"
  recoverableFromCompact signature _ := .ok signature
  recoverEcdsa message _ := .ok (List.replicate 31 7 ++ [message.foldl (· + ·) 0])

/-- One signature of a wallet under two dates. -/
def dated (signatureTimestamp : ℤ) : UserConsent :=
  ⟨[],signatureTimestamp,1000,List.replicate 64 1 ++ [27]⟩

/-- The user whose consent this is. -/
def ownerOf (userConsent : UserConsent) : String :=
  match checkUserConsent walletForms 1 userConsent [2,9] with
  | .ok vec => hexEncode vec
  | .error _ => ""

/-- Two users rejecting, and saying nothing. -/
def rejection : Statement where
  task := { taskId := "id", participants := [⟨ownerOf (dated 0),""⟩,⟨ownerOf (dated 1),""⟩] }
  isApproved := false
  isRejected := true
  reason := ""
  userConsent := dated 0

def silence : Statement := { rejection with isRejected := false, userConsent := dated 1 }

theorem signed_of_check {x : Statement} (hne : x.task.participants ≠ [])
    (hcheck : (checkUserConsent walletForms 1 x.userConsent [2,9]).toBool) :
    Signed walletForms wireProst x := by
  cases hvec : checkUserConsent walletForms 1 x.userConsent [2,9] with
  | error e => simp [hvec,Except.toBool] at hcheck
  | ok vec =>
    have hmade : ∃ d, makeDecision walletForms wireProst ⟨[9],[9]⟩ x.isApproved x.isRejected x.reason
        x.task (wireProst.userConsent.encode x.userConsent) = .ok d := by
      unfold makeDecision
      rw [Message.decode_encode]
      exact ⟨_,rfl⟩
    obtain ⟨d,hd⟩ := hmade
    exact ⟨⟨[9],[9]⟩,1,vec,d,by decide,hne,hvec,hd⟩

theorem rejection_presented : Presented walletForms wireProst rejection :=
  ⟨rfl,.inr (signed_of_check (by simp [rejection]) (by decide +kernel))⟩

theorem silence_presented : Presented walletForms wireProst silence :=
  ⟨rfl,.inr (signed_of_check (by simp [silence,rejection]) (by decide +kernel))⟩

/-- An approval cannot be taken for a rejection. -/
def approval : Statement := { rejection with isApproved := true, isRejected := false }

theorem statements_determined_iff_sample :
    Statement.bytes wireProst approval ≠ Statement.bytes wireProst rejection := by
  have happroval : Presented walletForms wireProst approval :=
    ⟨rfl,.inr (signed_of_check (by simp [approval,rejection]) (by decide +kernel))⟩
  have hdetermined := (statements_determined_iff wireLayout happroval rejection_presented).mpr
    (by simp [Confusable,Shifted,approval,rejection])
  exact fun h => absurd (congrArg Statement.isRejected (hdetermined h)) (by decide)

/-- The first user's rejection is made by a core, and with the same signature another core accepts
it as a decision in which the second user neither approves nor rejects. -/
theorem rejection_read_as_silence : Presented walletForms wireProst rejection ∧
    Presented walletForms wireProst silence ∧ rejection ≠ silence ∧
    rejection.bytes wireProst = silence.bytes wireProst ∧ ∃ d,
      makeDecision walletForms wireProst ⟨[9],[9]⟩ false true "" rejection.task
        (wireProst.userConsent.encode (dated 0)) = .ok d ∧
      checkDecision walletForms wireProst 1 d (ownerOf (dated 0)) rejection.task = .ok () ∧
      checkDecision walletForms wireProst 1 { d with isRejected := false, userConsent := some (dated 1) }
        (ownerOf (dated 1)) rejection.task = .ok () := by
  have hbytes : rejection.bytes wireProst = silence.bytes wireProst :=
    bytes_of_shifted wireLayout rfl rfl rfl ⟨rfl,rfl,rfl⟩
  have hne : rejection ≠ silence := ne_of_shifted ⟨rfl,rfl,rfl⟩
  refine ⟨rejection_presented,silence_presented,hne,hbytes,?_⟩
  unfold makeDecision
  rw [Message.decode_encode]
  exact ⟨_,rfl,by decide +kernel,by decide +kernel⟩

end SignedStatements
end CoLinkServer
