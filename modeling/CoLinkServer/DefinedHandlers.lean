import CoLinkServer.ConsentChecks
import CoLinkServer.ReverseConnections
import CoLinkServer.TaskKeys
import CoLinkServer.ThreadAssumptions

/-! Which messages make a handler of the task service panic. Every handler is defined as long as
what it finds is of the kind that it expects, as far as it does not check that itself. -/
namespace CoLinkServer

namespace DefinedHandlers

open Interleaving TaskTraces TaskRecords
open ConsentChecks (Recoverable)

/-- What is known about another user of the core, in one of its fields. -/
def knownUserKey (userId field : String) : String :=
  "_internal:" ++ ("known_users:" ++ userId ++ field)

/-- The values that others have stored for the task service can be read. A user whose tasks are to
be forwarded is named in the metadata of a call. -/
structure Readable (M : Prost) (k : String) (payload : Bytes) : Prop where
  userConsent : k = "_internal:user_consent" → (M.userConsent.decode payload).isSome
  coreAddr : ∀ v, k = knownUserKey v ":core_addr" → (text payload).isSome
  guestJwt : ∀ v, k = knownUserKey v ":guest_jwt" → ∃ jwt, text payload = some jwt ∧
    TaskService.isMetadataValue jwt
  forwarding : ∀ v, k = knownUserKey v ":forwarding_user_id" → (text payload).isSome ∧
    TaskService.isMetadataValue v

/-- The message has a decision for every other participant of the stored task, and there is room
for it if it is to be taken over. -/
def Covers (userId : String) (request task : Task) : Prop :=
  ∀ (i : ℕ) (p : Participant), task.participants[i]? = some p → p.userId ≠ userId →
    ∃ d, request.decisions[i]? = some d ∧ (d ≠ default → i < task.decisions.length)

/-- What has to hold when the clock is read after the stored task. -/
def CoversAt (M : Prost) (q : Request) (now : ℤ) : List TaskEvent → Prop
  | ⟨.storageRead u k,.ok payload⟩ :: _ => ∀ request task, q.call.synced = some request →
      k = recordKey request.taskId → M.task.decode payload = some task → task.requireAgreement →
      now ≤ task.expirationTime → Covers u request task
  | _ => True

/-- What the task service itself has stored is what belongs under the key. -/
structure Fits (M : Prost) (u k : String) (payload : Bytes) : Prop extends Readable M k payload where
  record : ∀ id, k = recordKey id → ¬Reserved id → ∃ task, M.task.decode payload = some task ∧
    task.status ∈ statuses ∧ task.participants ≠ []
  list : ∀ task, task.status ∈ statuses → ListOf u task k → (M.taskIdList.decode payload).isSome

/-- What a thread may assume about the newest answer. -/
def Regular (M : Prost) (q : Request) : List TaskEvent → Prop
  | ⟨.storageRead u k,.ok payload⟩ :: past => ⟨.importedUsersContains u,true⟩ ∈ past → Fits M u k payload
  | ⟨.storageUpdate _ _ _ _,.error e⟩ :: _ => e.abort ≠ .panic
  | ⟨.storageContains _ k,present⟩ :: _ => ∀ request, q.call.synced = some request →
      k = recordKey request.taskId → ¬Reserved request.taskId ∧
        (present = false → request.decisions ≠ [] ∧ request.participants ≠ [])
  | ⟨.utcNow,now⟩ :: past => CoversAt M q now past
  | ⟨.checkDecision _ _ _,r⟩ :: _ => r ≠ .error .panic
  | ⟨.makeDecision _ _ _ _ _ userConsentBytes,r⟩ :: _ =>
      ((M.userConsent.decode userConsentBytes).isSome → r ≠ .error .panic) ∧
      ∀ request, q.call = .createTask request → request.participants ≠ []
  | ⟨.sendersSend u v _,r⟩ :: past => ⟨.sendersContains u v,true⟩ ∈ past → r ≠ .error .panic
  | ⟨.response _,r⟩ :: _ => r ≠ .error .panic
  | _ => True

section Handlers

variable {M : Prost} {q : Request} {h : List TaskEvent} {u : String} {α β : Type}

/-- From here on the program does not panic. -/
abbrev Safe (M : Prost) (q : Request) (h : List TaskEvent) (p : Service α)
    (P : α → List TaskEvent → Prop) : Prop := p.Under (Regular M q) h (Prog.Avoids .panic P)

abbrev For (u : String) (h : List TaskEvent) : Prop := ⟨.importedUsersContains u,true⟩ ∈ h

theorem safe_perform {o : Op} {P : Res o → List TaskEvent → Prop}
    (hP : ∀ r, Regular M q (⟨o,r⟩ :: h) → P r (⟨o,r⟩ :: h)) : Safe M q h (perform o) P := hP

theorem safe_quiet {o : Op} : Safe M q h (perform o) fun _ _ => True := safe_perform fun _ _ => trivial

theorem safe_abort {e : Abort} {P : α → List TaskEvent → Prop} (he : e ≠ .panic) :
    Safe M q h (abort e : Service α) P := he

theorem safe_require {b : Bool} {e : Abort} (he : e ≠ .panic) :
    Safe M q h (require b e) fun _ _ => b = true := by
  cases b with
  | true => exact rfl
  | false => exact he

theorem safe_unwrap {a : Option α} (ha : a.isSome) : Safe M q h (unwrap a) fun x h' => a = some x ∧ h' = h := by
  cases a with
  | none => cases ha
  | some x => exact ⟨rfl,rfl⟩

theorem safe_storageUpdate (site : Site) (userId keyName : String) (payload : Bytes) :
    Safe M q h (TaskService.internalStorageUpdate site userId keyName payload) fun _ _ => True := by
  intro r hr
  cases r with
  | ok keyPath => trivial
  | error e => exact hr

theorem safe_storageRead (userId keyName : String) :
    Safe M q h (TaskService.internalStorageRead userId keyName) fun payload h' =>
      h' = ⟨.storageRead userId ("_internal:" ++ keyName),.ok payload⟩ :: h ∧
      (For userId h → Fits M userId ("_internal:" ++ keyName) payload) := by
  intro r hr
  cases r with
  | ok payload => exact ⟨rfl,hr⟩
  | error e => exact nofun

theorem safe_locked {s : Section} {body : Service α} {P : α → List TaskEvent → Prop}
    (hb : ∀ h', h <:+ h' → Safe M q h' body P) (hP : ∀ a h' h'', P a h' → h' <:+ h'' → P a h'') :
    Safe M q h (TaskService.locked s body) P :=
  Prog.Under.bracket safe_quiet hb (fun _ _ => safe_quiet) hP

theorem safe_readTaskIdList {task : Task} {k : String} (hu : For u h) (hs : task.status ∈ statuses)
    (hk : ListOf u task ("_internal:" ++ k)) :
    Safe M q h (TaskService.readTaskIdList M u k) fun _ _ => True :=
  (safe_storageRead u k).seq fun _ _ _ hr =>
    (safe_unwrap ((hr.2 hu).list task hs hk)).imp fun _ _ _ _ => trivial

theorem safe_storeTaskIdList (userId k : String) (list : CoLinkInternalTaskIdList) :
    Safe M q h (TaskService.storeTaskIdList M userId k list) fun _ _ => True :=
  (safe_storageUpdate _ _ _ _).seq fun _ _ _ _ => trivial

theorem safe_removeTaskOldStatus {task : Task} (hu : For u h) (hs : task.status ∈ statuses) :
    Safe M q h (TaskService.removeTaskOldStatus M u task) fun _ _ => True := by
  have hremove {k : String} {h : List TaskEvent} (hu : For u h) (hk : ListOf u task ("_internal:" ++ k)) :
      Safe M q h (TaskService.removeTaskFromListInStorage M u task k) fun _ _ => True := by
    refine (safe_readTaskIdList hu hs hk).seq fun list h' _ _ => ?_
    cases list.taskIdsWithKeyPaths.findIdx? (·.taskId = task.taskId) with
    | none => exact nofun
    | some index => exact safe_storeTaskIdList _ _ _
  exact (hremove hu (.inl rfl)).seq fun _ _ hh _ => hremove (hh.subset hu) (.inr rfl)

theorem safe_addTaskNewStatus {task : Task} (hu : For u h) (hs : task.status ∈ statuses) :
    Safe M q h (TaskService.addTaskNewStatus M u task) fun _ _ => True := by
  have hadd {k : String} {h : List TaskEvent} (hu : For u h) (hk : ListOf u task ("_internal:" ++ k)) :
      Safe M q h (TaskService.addTaskToListInStorage M u task k) fun _ _ => True := by
    refine (safe_storageUpdate _ _ _ _).seq fun keyPath h' hh _ => safe_quiet.seq fun present h'' hh' _ =>
      Prog.Under.seq (P := fun _ _ => True) ?_ fun list _ _ _ => safe_storeTaskIdList _ _ _
    cases (present : Bool) with
    | true => exact safe_readTaskIdList ((hh.trans hh').subset hu) hs hk
    | false => exact trivial
  exact (hadd hu (.inl rfl)).seq fun _ _ hh _ => hadd (hh.subset hu) (.inr rfl)

theorem safe_indexTask {task : Task} (hu : For u h) (hs : task.status ∈ statuses) :
    Safe M q h (TaskService.indexTask M u task) fun _ _ => True :=
  safe_locked (fun _ hh => safe_addTaskNewStatus (hh.subset hu) hs) fun _ _ _ _ _ => trivial

theorem safe_readTask {id : String} (hu : For u h) (hid : ¬Reserved id) :
    Safe M q h (TaskService.readTask M u id) fun task h' => ∃ payload,
      h' = ⟨.storageRead u (recordKey id),.ok payload⟩ :: h ∧ M.task.decode payload = some task ∧
      task.status ∈ statuses ∧ task.participants ≠ [] := by
  refine (safe_storageRead u ("tasks:" ++ id)).seq fun payload h' _ hr => ?_
  obtain ⟨task,hd,hs,hp⟩ := (hr.2 hu).record id rfl hid
  refine (safe_unwrap (by rw [hd]; rfl)).imp fun task' h'' _ ht => ?_
  obtain rfl := Option.some.inj (hd.symm.trans ht.1)
  exact ⟨payload,ht.2.trans hr.1,hd,hs,hp⟩

theorem safe_storeTask (site : Site) (userId : String) (task : Task) :
    Safe M q h (TaskService.storeTask M site userId task) fun _ _ => True :=
  (safe_storageUpdate _ _ _ _).seq fun _ _ _ _ => trivial

theorem safe_setDecision {task : Task} {i : ℕ} (hi : i < task.decisions.length) (d : Decision) :
    Safe M q h (TaskService.setDecision task i d) fun task' _ =>
      task' = { task with decisions := task.decisions.set i d } := by
  unfold TaskService.setDecision
  rw [if_pos hi]
  exact rfl

theorem safe_generateDecision (hu : For u h) (a r : Bool) (reason : String) (task : Task) :
    Safe M q h (TaskService.generateDecision a r reason u task) fun _ _ =>
      ∀ request, q.call = .createTask request → request.participants ≠ [] := by
  refine (safe_storageRead u "user_consent").seq fun bytes h' _ hr => ?_
  have hdecode := (hr.2 hu).userConsent rfl
  intro r hr'
  cases r with
  | ok decision => exact hr'.2
  | error e => exact fun he => hr'.1 hdecode (by rw [he])

theorem safe_checkDecision (d : Decision) (userId : String) (task : Task) :
    Safe M q h (TaskService.checkDecision d userId task) fun _ _ => True := by
  intro r hr
  cases r with
  | ok _ => trivial
  | error e => exact fun he => hr (by rw [he])

theorem safe_queryFromRegistries (hu : For u h) (queryUserId : String) :
    Safe M q h (TaskService.queryFromRegistries M u queryUserId) fun _ _ => True := by
  refine safe_quiet.seq fun id h₁ hh₁ _ => safe_quiet.seq fun now h₂ hh₂ _ =>
    (safe_generateDecision ((hh₁.trans hh₂).subset hu) _ _ _ _).seq fun d h₃ hh₃ _ =>
    (safe_setDecision (by simp [TaskService.registryTask]) d).seq fun task h₄ hh₄ ht =>
    (safe_storeTask _ _ _).seq fun _ h₅ hh₅ _ => ?_
  subst ht
  refine safe_indexTask ((((hh₁.trans hh₂).trans hh₃).trans (hh₄.trans hh₅)).subset hu) ?_
  show "started" ∈ statuses
  decide

theorem safe_userIsKnown (userId queryUserId : String) :
    Safe M q h (TaskService.userIsKnown userId queryUserId) fun _ _ => True := by
  refine safe_quiet.seq fun coreAddr h' _ _ => ?_
  rcases (coreAddr : Except String Bytes) with e | bytes
  · exact trivial
  · exact safe_quiet.seq fun _ _ _ _ => trivial

theorem safe_waitForUserRecord (hu : For u h) (queryUserId : String) (rounds : ℕ) :
    Safe M q h (TaskService.waitForUserRecord M u queryUserId rounds) fun _ _ => True := by
  induction rounds generalizing h with
  | zero => exact trivial
  | succ rounds ih =>
    refine (safe_userIsKnown _ _).seq fun known h₁ hh₁ _ => ?_
    cases known with
    | true => exact trivial
    | false =>
      refine Prog.Under.seq (P := fun _ _ => True) ?_ fun _ h₂ hh₂ _ => safe_quiet.seq fun _ h₃ hh₃ _ =>
        ih (((hh₁.trans hh₂).trans hh₃).subset hu)
      split_ifs
      · exact safe_queryFromRegistries (hh₁.subset hu) _
      · exact trivial

theorem safe_fromUtf8 {payload : Bytes} (hp : (text payload).isSome) :
    Safe M q h (TaskService.fromUtf8 payload) fun s _ => text payload = some s :=
  (safe_unwrap hp).imp fun _ _ _ hs => hs.1

/-- The token can be put into the metadata of a call, and so can the user if its tasks are to be
forwarded. -/
theorem safe_queryUserRecord (hu : For u h) (queryUserId : String) :
    Safe M q h (TaskService.queryUserRecord M u queryUserId) fun record _ =>
      TaskService.isMetadataValue record.2.1 ∧
        (record.2.2.isSome → TaskService.isMetadataValue queryUserId) := by
  have hkey (field : String) : "_internal:" ++ ("known_users:" ++ queryUserId ++ field) =
      knownUserKey queryUserId field := rfl
  refine (safe_waitForUserRecord hu _ _).seq fun _ h₁ hh₁ _ =>
    (safe_storageRead _ _).seq fun coreAddr h₂ hh₂ hcore =>
    (safe_fromUtf8 ((hcore.2 (hh₁.subset hu)).coreAddr _ (hkey _))).seq fun coreAddr h₃ hh₃ _ =>
    (safe_storageRead _ _).seq fun guestJwt h₄ hh₄ hjwt => ?_
  have hu₃ : For u h₃ := ((hh₁.trans hh₂).trans hh₃).subset hu
  obtain ⟨jwt,htext,hmeta⟩ := (hjwt.2 hu₃).guestJwt _ (hkey _)
  refine (safe_fromUtf8 (by rw [htext]; rfl)).seq fun guestJwt h₅ hh₅ hs => ?_
  obtain rfl := Option.some.inj (htext.symm.trans hs)
  refine (safe_perform (P := fun r h' => ∀ payload, r = (.ok payload : Except String Bytes) →
    Fits M u (knownUserKey queryUserId ":forwarding_user_id") payload) ?_).seq fun r h₆ hh₆ hr => ?_
  · rintro r hr payload rfl
    exact hr ((hh₄.trans hh₅).subset hu₃)
  · rcases (r : Except String Bytes) with e | bytes
    · exact ⟨hmeta,nofun⟩
    · have hfits := (hr bytes rfl).forwarding _ rfl
      exact (safe_fromUtf8 hfits.1).seq fun _ _ _ _ => ⟨hmeta,fun _ => hfits.2⟩

theorem safe_grpcConnect (address : String) :
    Safe M q h (TaskService.grpcConnect address) fun _ _ => True := by
  intro r _
  cases r with
  | ok _ => trivial
  | error e => exact nofun

theorem safe_call {m : Outgoing} (hjwt : TaskService.isMetadataValue m.guestJwt)
    (htarget : TaskService.isMetadataValue (m.forwardingTarget.getD "")) :
    Safe M q h (TaskService.call m) fun _ _ => True := by
  have hcheck {s : String} {h : List TaskEvent} (hs : TaskService.isMetadataValue s) :
      Safe M q h (TaskService.checkMetadataValue s) fun _ _ => True := by
    unfold TaskService.checkMetadataValue
    rw [hs]
    exact trivial
  refine (hcheck hjwt).seq fun _ _ _ _ => (hcheck htarget).seq fun _ _ _ _ =>
    safe_quiet.seq fun id h' _ _ => ?_
  intro r hr
  cases r with
  | ok _ => trivial
  | error e => exact fun he => hr (by rw [he])

theorem safe_sendersSend {target : String} (hs : ⟨.sendersContains u target,true⟩ ∈ h) (task : Task) :
    Safe M q h (TaskService.sendersSend u target task) fun _ _ => True := by
  intro r hr
  cases r with
  | ok _ => trivial
  | error e => exact fun he => hr hs (by rw [he])

theorem isMetadataValue_empty : TaskService.isMetadataValue "" := rfl

theorem safe_sendInterCoreSyncTask (hu : For u h) (target : String) (task : Task) :
    Safe M q h (TaskService.sendInterCoreSyncTask M u target task) fun _ _ => True := by
  refine (safe_perform (P := fun r h' => h' = ⟨.sendersContains u target,r⟩ :: h) fun r _ => rfl).seq
    fun connected h₁ hh₁ hc => ?_
  cases (connected : Bool) with
  | true => exact safe_sendersSend (hc ▸ List.mem_cons_self ..) task
  | false =>
    refine (safe_queryUserRecord (hh₁.subset hu) target).seq fun record h₂ hh₂ hrecord => ?_
    obtain ⟨coreAddr,guestJwt,forwardingUserId⟩ := record
    cases forwardingUserId with
    | none =>
      exact (safe_grpcConnect _).seq fun _ _ _ _ =>
        safe_call (m := ⟨target,coreAddr,guestJwt,none,false,task⟩) hrecord.1 isMetadataValue_empty
    | some forwardingUserId =>
      refine (safe_queryUserRecord ((hh₁.trans hh₂).subset hu) forwardingUserId).seq
        fun record' h₃ hh₃ hrecord' => ?_
      obtain ⟨coreAddr',guestJwt',doubleForwardingUserId⟩ := record'
      exact (safe_require (by simp [Abort.failedPrecondition])).seq fun _ _ _ _ =>
        (safe_grpcConnect _).seq fun _ _ _ _ =>
        safe_call (m := ⟨target,coreAddr',guestJwt',some target,false,task⟩) hrecord'.1 (hrecord.2 rfl)

theorem safe_sendWithReverseConnection (hu : For u h) (target : String) (task : Task) :
    Safe M q h (TaskService.sendInterCoreSyncTaskWithReverseConnection M u target task)
      fun _ _ => True := by
  refine (safe_queryUserRecord hu target).seq fun record h₁ hh₁ hrecord => ?_
  obtain ⟨coreAddr,guestJwt,forwardingUserId⟩ := record
  show Safe M q h₁ (if forwardingUserId.isSome then _ else _) _
  split_ifs
  · exact safe_sendInterCoreSyncTask (hh₁.subset hu) target task
  · refine (safe_grpcConnect _).seq fun _ _ _ _ => Prog.Under.bracket safe_quiet (fun h' _ => ?_)
      (fun _ _ => safe_quiet) fun _ _ _ _ _ => trivial
    refine safe_quiet.seq fun running h'' _ _ => ?_
    cases (running : Bool) with
    | true =>
      exact safe_call (m := ⟨target,coreAddr,guestJwt,none,false,task⟩) hrecord.1 isMetadataValue_empty
    | false =>
      exact (safe_call (m := ⟨target,coreAddr,guestJwt,none,true,task⟩) hrecord.1
        isMetadataValue_empty).seq fun _ _ _ _ => safe_quiet

theorem safe_forward (target : String) (task : Task) :
    Safe M q h (TaskService.forwardInterCoreSyncTask u target task) fun _ _ => True := by
  refine (safe_perform (P := fun r h' => h' = ⟨.sendersContains u target,r⟩ :: h) fun r _ => rfl).seq
    fun connected h₁ _ hc => ?_
  cases (connected : Bool) with
  | true => exact safe_sendersSend (hc ▸ List.mem_cons_self ..) task
  | false => exact safe_abort nofun

theorem safe_sendAll {send : Participant → Service Unit} (ps : List Participant) (hu : For u h)
    (hsend : ∀ p h', For u h' → Safe M q h' (send p) fun _ _ => True) :
    Safe M q h (ps.foldlM (fun _ p => send p) ()) fun _ _ => True :=
  (Prog.Under.foldlM (J := fun _ _ _ => True) (fun p _ _ h' hh _ => hsend p h' (hh.subset hu))
    trivial).imp fun _ _ _ _ => trivial

theorem safe_checkPrivilegeIn {metadata : Metadata} {privileges : List String}
    (hp : ∀ p ∈ privileges, p ∈ ["user","guest"]) (hprivilege : metadata.privilege.isSome)
    (hu : metadata.userId = some u) :
    Safe M q h (TaskService.checkPrivilegeIn metadata privileges) fun _ h' =>
      h' = ⟨.importedUsersContains u,true⟩ :: h := by
  obtain ⟨privilege,hs⟩ := Option.isSome_iff_exists.mp hprivilege
  unfold TaskService.checkPrivilegeIn
  rw [hs,hu]
  show Safe M q h (if privilege ∈ privileges then _ else _) _
  split
  · next hm =>
    show Safe M q h (if privilege ∈ ["user","guest"] then _ else _) _
    rw [if_pos (hp privilege hm)]
    intro r _
    cases (r : Bool) with
    | true => exact rfl
    | false => exact nofun
  · exact safe_abort nofun

theorem safe_createTask (reverse : Bool) {request : Task} (hq : q.call = .createTask request)
    (hprivilege : q.metadata.privilege.isSome) (hu : q.metadata.userId = some u) :
    Safe M q h (TaskService.createTask M reverse q.metadata request) fun _ _ => True := by
  refine (safe_checkPrivilegeIn (by simp) hprivilege hu).seq fun _ h₁ _ hfor => ?_
  have hu₁ : For u h₁ := hfor ▸ List.mem_cons_self ..
  rw [hu]
  refine safe_quiet.seq fun id h₂ hh₂ _ =>
    (safe_generateDecision (hh₂.subset hu₁) _ _ _ _).seq fun d h₃ hh₃ hroom => ?_
  have hpos := List.length_pos_of_ne_nil (hroom request hq)
  refine (safe_setDecision (by simpa [TaskService.length_resize] using hpos) d).seq
    fun task h₄ hh₄ ht => ?_
  subst ht
  have hu₄ : For u h₄ := ((hh₂.trans hh₃).trans hh₄).subset hu₁
  refine (safe_storeTask _ _ _).seq fun _ h₅ hh₅ _ =>
    Prog.Under.seq (safe_sendAll _ (hh₅.subset hu₄) fun p h' hu' => ?_) fun _ h₆ hh₆ _ =>
    (safe_indexTask ((hh₅.trans hh₆).subset hu₄) (newTask_status request id)).seq fun _ _ _ _ => trivial
  cases reverse with
  | true => exact safe_sendWithReverseConnection hu' _ _
  | false => exact safe_sendInterCoreSyncTask hu' _ _

theorem safe_admitTask {request : Task} (hu : For u h) (hds : request.decisions ≠ [])
    (hps : request.participants ≠ []) :
    Safe M q h (TaskService.admitTask M u request) fun _ _ => True := by
  have hd : request.decisions[0]?.isSome := by simpa [List.length_pos_iff] using hds
  have hp : request.participants[0]?.isSome := by simpa [List.length_pos_iff] using hps
  refine (safe_unwrap hd).seq fun d h₁ hh₁ _ => (safe_unwrap hp).seq fun p h₂ hh₂ _ =>
    (safe_checkDecision _ _ _).seq fun _ h₃ hh₃ _ =>
    (safe_require (by simp [Abort.internal])).seq fun _ h₄ hh₄ _ =>
    (safe_storeTask _ _ _).seq fun _ h₅ hh₅ _ => ?_
  refine safe_indexTask ((((hh₁.trans hh₂).trans hh₃).trans (hh₄.trans hh₅)).subset hu) ?_
  show "waiting" ∈ statuses
  decide

/-- The decisions that are taken over are the ones that the message covers. -/
theorem safe_takeDecisions {request task : Task} (hc : Covers u request task) :
    Safe M q h (TaskService.takeDecisions u request task) fun task' _ =>
      task'.status = task.status ∧ task'.participants = task.participants := by
  refine (Prog.Under.foldlM (J := fun rest task' _ => (∀ x ∈ rest, x ∈ task.participants.zipIdx) ∧
    task'.decisions.length = task.decisions.length ∧ task'.status = task.status ∧
    task'.participants = task.participants) (fun x rest task' h' _ hj => ?_)
    ⟨fun _ hx => hx,rfl,rfl,rfl⟩).imp fun _ _ _ hj => hj.2.2
  obtain ⟨hrest,hlength,hs,hp⟩ := hj
  have htail : ∀ y ∈ rest, y ∈ task.participants.zipIdx := fun y hy => hrest y (List.mem_cons_of_mem _ hy)
  obtain ⟨p,i⟩ := x
  have hi : task.participants[i]? = some p :=
    List.mk_mem_zipIdx_iff_getElem?.mp (hrest _ (List.mem_cons_self ..))
  show Safe M q h' (if p.userId ≠ u then _ else _) _
  split_ifs with hne
  · obtain ⟨d,hd,hroom⟩ := hc i p hi hne
    refine (safe_unwrap (by rw [hd]; rfl)).seq fun d' h₁ _ hd' => ?_
    obtain rfl := Option.some.inj (hd.symm.trans hd'.1)
    split_ifs with hdef
    · refine (safe_checkDecision _ _ _).seq fun _ h₂ _ _ =>
        (safe_setDecision (hlength ▸ hroom hdef) d).imp fun task'' _ _ ht => ?_
      subst ht
      exact ⟨htail,by simpa using hlength,hs,hp⟩
    · exact ⟨htail,hlength,hs,hp⟩
  · exact ⟨htail,hlength,hs,hp⟩

theorem safe_mergeDecisions {request : Task} (hq : q.call.synced = some request) (hu : For u h)
    (hid : ¬Reserved request.taskId) :
    Safe M q h (TaskService.mergeDecisions M u request) fun _ _ => True := by
  refine safe_locked (fun h' hh => ?_) fun _ _ _ _ _ => trivial
  refine (safe_readTask (hh.subset hu) hid).seq fun task h₁ hh₁ ht => ?_
  obtain ⟨payload,rfl,hd,-,-⟩ := ht
  refine Prog.Under.seq (P := fun _ h₂ => task.requireAgreement = true ∧
    h₂ = ⟨.storageRead u (recordKey request.taskId),.ok payload⟩ :: h') ?_ fun _ h₂ _ hagreement => ?_
  · cases hagreement : task.requireAgreement with
    | true => exact ⟨rfl,rfl⟩
    | false => exact nofun
  obtain ⟨hagreement,rfl⟩ := hagreement
  have hclock : Safe M q (⟨.storageRead u (recordKey request.taskId),.ok payload⟩ :: h')
      (perform .utcNow)
      fun now _ => now ≤ task.expirationTime → Covers u request task :=
    fun now hnow htime => hnow request task hq rfl hd hagreement htime
  refine hclock.seq fun now h₃ _ hcovers => ?_
  refine (safe_require (by simp [Abort.internal])).seq fun _ h₄ _ htime => ?_
  exact (safe_takeDecisions (hcovers (of_decide_eq_true htime))).seq fun task' h₅ _ _ =>
    (safe_storeTask _ _ _).seq fun _ _ _ _ => trivial

theorem safe_changeStatus {request : Task} (hu : For u h) (hid : ¬Reserved request.taskId)
    (rejected : Bool) : Safe M q h (TaskService.changeStatus M u request rejected) fun task _ =>
      task.participants ≠ [] := by
  refine safe_locked (fun h' hh => ?_) fun _ _ _ hp _ => hp
  refine (safe_readTask (hh.subset hu) hid).seq fun task h₁ hh₁ ht => ?_
  obtain ⟨payload,-,-,hs,hp⟩ := ht
  refine (safe_removeTaskOldStatus ((hh.trans hh₁).subset hu) hs).seq fun _ h₂ hh₂ _ =>
    (safe_storeTask _ _ _).seq fun _ h₃ hh₃ _ =>
    (safe_addTaskNewStatus (((hh.trans hh₁).trans (hh₂.trans hh₃)).subset hu) ?_).seq fun _ _ _ _ => hp
  cases rejected <;> simp [statuses]

theorem safe_broadcast {task : Task} (hu : For u h) (hp : task.participants ≠ []) :
    Safe M q h (TaskService.broadcast M u task) fun _ _ => True := by
  refine (safe_unwrap (by simpa [List.length_pos_iff] using hp)).seq fun initiator h' hh _ => ?_
  split_ifs
  · exact safe_sendAll _ (hh.subset hu) fun p h'' hu' => safe_sendInterCoreSyncTask hu' _ _
  · exact trivial

theorem safe_interCoreSyncTask {request : Task} (hq : q.call.synced = some request)
    (hprivilege : q.metadata.privilege.isSome) (hu : q.metadata.userId = some u)
    (htarget : ∀ value, q.metadata.forwardingTarget = some value → value.toStr.isSome) :
    Safe M q h (TaskService.interCoreSyncTask M q.metadata request) fun _ _ => True := by
  refine (safe_checkPrivilegeIn (by simp) hprivilege hu).seq fun _ h₁ _ hfor => ?_
  have hu₁ : For u h₁ := hfor ▸ List.mem_cons_self ..
  rw [hu]
  dsimp only [unwrap,Prog.ofExcept]
  cases hf : q.metadata.forwardingTarget with
  | some value => exact (safe_unwrap (htarget value hf)).seq fun target _ _ _ => safe_forward target request
  | none =>
    have hlook : Safe M q h₁ (perform (.storageContains u (recordKey request.taskId))) fun present _ =>
        ¬Reserved request.taskId ∧ (present = false → request.decisions ≠ [] ∧ request.participants ≠ []) :=
      fun present hr => hr request hq rfl
    refine hlook.seq fun present h₂ hh₂ hshape => ?_
    have hu₂ := hh₂.subset hu₁
    cases (present : Bool) with
    | false =>
      have hlists := hshape.2 rfl
      exact safe_admitTask hu₂ hlists.1 hlists.2
    | true =>
      refine (safe_mergeDecisions hq hu₂ hshape.1).seq fun task h₃ hh₃ _ => ?_
      split_ifs
      · exact trivial
      · exact (safe_changeStatus (hh₃.subset hu₂) hshape.1 _).seq fun task' h₄ hh₄ hp =>
          safe_broadcast ((hh₃.trans hh₄).subset hu₂) hp
      · exact trivial

/-- The requests that bring a task from outside, sent by somebody with a token. -/
def Untrusted (q : Request) : Prop :=
  (∀ request, q.call ≠ .confirmTask request) ∧ (∀ request, q.call ≠ .finishTask request) ∧
    q.metadata.privilege.isSome ∧ q.metadata.userId.isSome

/-- A core that asks for a reverse connection names itself as the initiator. -/
def NamesReceiver (q : Request) : Prop := ∀ request,
  q.call = .interCoreSyncTaskWithReverseConnection request → request.participants ≠ []

/-- The user to whom a task is to be handed on is named in visible ASCII. -/
def NamesTarget (q : Request) : Prop := q.call.synced.isSome →
  ∀ value, q.metadata.forwardingTarget = some value → value.toStr.isSome

theorem safe_handle (D : Deployment) (hq : Untrusted q) (hreceiver : NamesReceiver q)
    (htarget : NamesTarget q) : Safe D.prost q h (D.handle q) fun _ _ => True := by
  obtain ⟨hconfirm,hfinish,hprivilege,huser⟩ := hq
  obtain ⟨u,hu⟩ := Option.isSome_iff_exists.mp huser
  unfold Deployment.handle
  cases hcall : q.call with
  | createTask request => exact (safe_createTask _ hcall hprivilege hu).seq fun _ _ _ _ => trivial
  | confirmTask request => exact absurd hcall (hconfirm request)
  | finishTask request => exact absurd hcall (hfinish request)
  | interCoreSyncTask request =>
    have hsync : q.call.synced = some request := by rw [hcall]; rfl
    exact safe_interCoreSyncTask hsync hprivilege hu (htarget (by rw [hsync]; rfl))
  | interCoreSyncTaskWithReverseConnection request =>
    have hp := hreceiver request hcall
    have hsync : q.call.synced = some request := by rw [hcall]; rfl
    have ht := htarget (by rw [hsync]; rfl)
    show Safe D.prost q h (TaskService.interCoreSyncTaskWithReverseConnection D.prost q.metadata request) _
    unfold TaskService.interCoreSyncTaskWithReverseConnection
    refine (safe_unwrap huser).seq fun userId h₁ _ _ =>
      (safe_unwrap (by simpa [List.length_pos_iff] using hp)).seq fun receiver h₂ _ _ =>
      (safe_interCoreSyncTask hsync hprivilege hu ht).seq fun _ _ _ _ => safe_quiet

theorem safe_serve (D : Deployment) (hq : Untrusted q) (hreceiver : NamesReceiver q)
    (htarget : NamesTarget q) :
    (D.serve q).Under (Regular D.prost q) [] fun r _ => r ≠ .error .panic := by
  refine Prog.Under.bind (Prog.Under.attempt ((safe_handle D hq hreceiver htarget).mono fun r h _ hr => ?_))
  refine fun _ _ => Prog.Under.ofExcept ?_
  rintro rfl
  exact hr rfl

end Handlers

/-- A decision whose signature can be read brings a consent, which has a key or a signature from
which one can be recovered, and the user is named in hexadecimal. -/
def Checkable (P : Primitives) (d : Decision) (userId : String) : Prop :=
  d.signature ≠ [] → ∀ key signature, P.publicKeyFromSlice d.corePublicKey = .ok key →
    P.signatureFromCompact d.signature = .ok signature → ∃ userConsent, d.userConsent = some userConsent ∧
      (userConsent.publicKey ≠ [] ∨ Recoverable userConsent.signature) ∧ (hexDecode userId).isSome

/-- What the newest event of a thread has to be like. The handlers do not check it themselves. A
notification, as a read, must find a value that can be read, or else a host for a new account. -/
def Proper (D : Deployment) (q : Request) : List TaskEvent → Prop
  | ⟨.storageUpdate _ _ _ _,.error e⟩ :: _ => e.Addressed
  | ⟨.storageRead _ k,.ok payload⟩ :: _ => Readable D.prost k payload
  | ⟨.storageContains _ k,present⟩ :: _ => ∀ request, q.call.synced = some request →
      k = recordKey request.taskId → ¬Reserved request.taskId ∧
        (present = false → request.decisions ≠ [] ∧ request.participants ≠ [])
  | ⟨.utcNow,now⟩ :: past => CoversAt D.prost q now past
  | ⟨.checkDecision d u _,_⟩ :: _ => Checkable D.primitives d u
  | ⟨.makeDecision _ _ _ _ _ _,_⟩ :: _ => ∀ request, q.call = .createTask request →
      request.participants ≠ []
  | ⟨.response _,r⟩ :: _ => r ≠ .error .panic
  | _ => True

theorem checkDecision_defined {P : Primitives} {M : Prost} {now : ℤ} {d : Decision} {u : String}
    {task : Task} (hd : Checkable P d u) : checkDecision P M now d u task ≠ .error .panic := by
  intro he
  unfold checkDecision at he
  by_cases hsig : d.signature = []
  · simp [hsig,Abort.invalidArgument] at he
  rw [if_neg hsig] at he
  cases hkey : P.publicKeyFromSlice d.corePublicKey with
  | error e => simp [hkey,Abort.invalidArgument] at he
  | ok key =>
    cases hsignature : P.signatureFromCompact d.signature with
    | error e => simp [hkey,hsignature,Abort.invalidArgument] at he
    | ok signature =>
      obtain ⟨userConsent,hconsent,hrecoverable,hhex⟩ := hd hsig key signature hkey hsignature
      obtain ⟨vec,hvec⟩ := Option.isSome_iff_exists.mp hhex
      simp only [hkey,hsignature,hconsent,hvec] at he
      split at he
      · simp [Abort.invalidArgument] at he
      · split at he
        · next e hcheck =>
          obtain rfl : e = .panic := by simpa using he
          obtain ⟨-,hpublic,hnot⟩ := ConsentChecks.check_panics_iff.mp hcheck
          exact hrecoverable.elim (absurd hpublic) hnot
        · split_ifs at he
          all_goals simp [Abort.invalidArgument] at he

theorem makeDecision_defined {P : Primitives} {M : Prost} {keys : Keys P} {a r : Bool} {reason : String}
    {task : Task} {bytes : Bytes} (hb : (M.userConsent.decode bytes).isSome) :
    makeDecision P M keys a r reason task bytes ≠ .error .panic := by
  obtain ⟨userConsent,hd⟩ := Option.isSome_iff_exists.mp hb
  simp [makeDecision,hd]

section Runs

variable {D : Deployment} {c : TaskConfig} {t : ℕ} {q : Request} {u k : String} {h : List TaskAction}

def Peopled (M : Prost) (w : Write) (_ : List TaskAction) : Prop := ∀ id task, w.key = recordKey id →
  ¬Reserved id → M.task.decode w.payload = some task → task.participants ≠ []

theorem peopled_of_read (hc : D.Reach c) (hh : h <:+ c.state.history)
    (hp : Everywhere (OnWrites (Peopled D.prost)) h) (hu : NoColon u) {id : String} (hid : ¬Reserved id)
    {payload : Bytes} (hm : ⟨.storageRead u (recordKey id),.ok payload⟩ ∈ events t h) {task : Task}
    (hd : D.prost.task.decode payload = some task) : task.participants ≠ [] := by
  obtain ⟨q,hm⟩ := mem_events.mp hm
  obtain ⟨past,hs⟩ := suffix_of_mem hm
  have hst := stored_of_read hc hu (guarded_recordKey id) (hs.trans hh)
  obtain ⟨t',q',site,r,past',-,hw⟩ := write_of_stored hst
  exact everywhere_writes hp (hw.trans ((List.suffix_cons _ _).trans hs)) id task rfl hid hd

/-- A task is created with participants or admitted with some, and keeps them. -/
theorem peopled (hc : D.Reach c) (htidy : Everywhere (OnWrites Tidy) c.state.history) :
    Everywhere (OnWrites (Peopled D.prost)) c.state.history := by
  have hkept := kept hc htidy
  refine everywhere_of_write fun t q site u k payload r past hs hp id task hkey hid hd => ?_
  have hu := writer_noColon hc hs
  have hpast : past <:+ c.state.history := (List.suffix_cons _ _).trans hs
  have hk := hkept.suffix hpast
  have hread {id : String} {payload : Bytes} {task : Task}
      (hm : ⟨.storageRead u (recordKey id),.ok payload⟩ ∈ events t past)
      (hd : D.prost.task.decode payload = some task)
      (hne : task.status ≠ "" ∨ task.requireAgreement ∨ ¬Reserved id) : task.participants ≠ [] := by
    obtain ⟨site,hkept⟩ := kept_of_read hc hpast hk hu hm
    exact peopled_of_read hc hpast hp hu (task_of_kept hkept hd hne).2.2.2 hm hd
  have hob := (obligation hc hs).2
  have hwritten {new : Task} (he : payload = D.prost.task.encode new) (hn : new.participants ≠ []) :
      task.participants ≠ [] := by
    rw [show payload = D.prost.task.encode new from he,D.prost.task.decode_encode] at hd
    rwa [← Option.some.inj hd]
  cases site with
  | list =>
    obtain ⟨task',list,hl,hs',-⟩ := everywhere_writes hkept hs
    exact absurd hkey (hl.ne_recordKey fun hcol => hid ⟨_,hs',hcol⟩).1
  | latest =>
    obtain ⟨task',listKey,hl,hs',rfl,-⟩ := everywhere_writes hkept hs
    exact absurd hkey (hl.ne_recordKey fun hcol => hid ⟨_,hs',hcol⟩).2
  | create =>
    obtain ⟨new,-,he,hst⟩ := hob
    refine hwritten he ?_
    cases hst with
    | create call introduced made room => exact List.ne_nil_of_length_pos room
  | query =>
    obtain ⟨new,-,he,hst⟩ := hob
    refine hwritten he ?_
    cases hst with
    | query introduced => exact List.cons_ne_nil _ _
  | admission =>
    obtain ⟨new,-,he,hst⟩ := hob
    refine hwritten he ?_
    cases hst with
    | admission sync direct initiator decision approved steps =>
      exact List.ne_nil_of_mem (List.mem_of_getElem? initiator)
  | merge =>
    obtain ⟨new,-,he,hst⟩ := hob
    refine hwritten he ?_
    cases hst with
    | merge sync direct holds read known decoded agreement taken =>
      have hpeople := hread read decoded (.inr (.inl agreement))
      exact hpeople
  | decide =>
    obtain ⟨new,-,he,hst⟩ := hob
    refine hwritten he ?_
    cases hst with
    | decide sync direct holds read known decoded stored undecided verdict =>
      have hpeople := hread read decoded (.inr (.inr (merged_not_reserved hc hpast hk hs sync stored)))
      exact hpeople
  | confirm =>
    obtain ⟨new,-,he,hst⟩ := hob
    refine hwritten he ?_
    cases hst with
    | confirm call decision reported holds read known decoded waiting entered =>
      have hpeople := hread read decoded (.inl (by rw [waiting]; decide))
      exact hpeople
  | finish =>
    obtain ⟨new,-,he,hst⟩ := hob
    refine hwritten he ?_
    cases hst with
    | finish call holds read known decoded started =>
      have hpeople := hread read decoded (.inl (by rw [started]; decide))
      exact hpeople

theorem fits_of_read (hc : D.Reach c) (htidy : Everywhere (OnWrites Tidy) c.state.history)
    {payload : Bytes} (hs : .op t q (.storageRead u k) (.ok payload) :: h <:+ c.state.history)
    (hu : NoColon u) (hr : Readable D.prost k payload) : Fits D.prost u k payload where
  toReadable := hr
  record := by
    rintro id rfl hid
    have hst := stored_of_read hc hu (guarded_recordKey id) hs
    obtain ⟨t',q',site,r,past,-,hw⟩ := write_of_stored hst
    have hw' := hw.trans ((List.suffix_cons _ _).trans hs)
    have hk := everywhere_writes (kept hc htidy) hw'
    obtain ⟨c₀,x,hc₀,rfl,-,does⟩ := exec_before hc hs
    have hread := (read_eq_stored hc₀ hu (guarded_recordKey id) q.core).trans hst
    have hid' : ¬Reserved ({ taskId := id } : Task).taskId := hid
    have hplace : .record id ∈ TaskKeys.places u { taskId := id } := TaskKeys.mem_places.mpr (.inl rfl)
    obtain ⟨task,-,rfl⟩ := TaskKeys.kind_of_read hc₀ (htidy.suffix ((List.suffix_cons _ _).trans hs))
      q.core hu hid' hplace hread
    have hd := D.prost.task.decode_encode task
    exact ⟨task,hd,(task_of_kept hk hd (.inr (.inr hid))).2.2.1,
      everywhere_writes (peopled hc htidy) hw' id task rfl hid hd⟩
  list := by
    intro task hstatus hl
    obtain ⟨l,hl',rfl⟩ := TaskKeys.list_of_listOf hl
    obtain ⟨c₀,x,hc₀,rfl,-,does⟩ := exec_before hc hs
    have hread := (read_eq_stored hc₀ hu (guarded_listOf hl) q.core).trans
      (stored_of_read hc hu (guarded_listOf hl) hs)
    have hid : ¬Reserved ({ task with taskId := "" } : Task).taskId :=
      not_reserved_of_noColon (show NoColon "" by decide)
    have hplace : .list l ∈ TaskKeys.places u { task with taskId := "" } :=
      TaskKeys.mem_places.mpr (.inr ⟨_,hstatus,l,hl',.inl rfl⟩)
    obtain ⟨list,rfl⟩ := TaskKeys.kind_of_read hc₀ (htidy.suffix ((List.suffix_cons _ _).trans hs))
      q.core hu hid hplace hread
    rw [D.prost.taskIdList.decode_encode]
    rfl

/-- A sender is never taken away. -/
theorem sender_present (hc : D.Reach c) {v : String}
    (hm : .op t q (.sendersContains u v) true ∈ c.state.history) :
    (u,v) ∈ (c.state.shared.cores q.core).reverseSenders := by
  induction hc with
  | init hi => cases hm
  | @step c c' a hc s ih =>
    cases s with
    | start fresh begins =>
      obtain ⟨-,-,rfl⟩ := begins
      exact ih ((List.mem_cons.mp hm).resolve_left nofun)
    | @op t' q' o k r x runs does =>
      show (u,v) ∈ (x.cores q.core).reverseSenders
      rcases List.mem_cons.mp hm with he | hm
      · obtain ⟨-,rfl,rfl,hr⟩ := Action.op.inj he
        obtain rfl := eq_of_heq hr
        generalize hb : true = b at does
        cases does with
        | sendersContains => exact of_decide_eq_true hb.symm
      · rcases ReverseConnections.exec_senders does q.core with he | ⟨u',v',-,-,he⟩
        · rw [he]
          exact ih hm
        · rw [he]
          exact Finset.mem_insert_of_mem (ih hm)
    | @env x moves =>
      show (u,v) ∈ (x.cores q.core).reverseSenders
      rw [ReverseConnections.env_senders moves]
      exact ih ((List.mem_cons.mp hm).resolve_left nofun)

theorem regular_of_proper (hc : D.Reach c) (htidy : Everywhere (OnWrites Tidy) c.state.history) {o : Op}
    {r : Res o} (hs : .op t q o r :: h <:+ c.state.history) (hp : Proper D q (⟨o,r⟩ :: events t h)) :
    Regular D.prost q (⟨o,r⟩ :: events t h) := by
  obtain ⟨c₀,x,hc₀,rfl,-,does⟩ := exec_before hc hs
  cases o with
  | storageUpdate site u k payload =>
    cases r with
    | error e => exact UpdateError.abort_ne_panic hp
    | ok keyPath => trivial
  | storageRead u k =>
    cases r with
    | ok payload =>
      intro hm
      have hu := user_noColon hc (hs.subset (List.mem_cons_of_mem _ (mem_history hc hs hm)))
      exact fits_of_read hc htidy hs hu hp
    | error e => trivial
  | checkDecision d u task =>
    cases does with
    | checkDecision d u task now tick => exact checkDecision_defined hp
  | makeDecision a b reason u task bytes =>
    cases does with
    | makeDecision => exact ⟨makeDecision_defined,hp⟩
  | sendersSend u v task =>
    intro hm
    have hpresent := sender_present hc₀ (mem_history hc hs hm)
    cases does with
    | sendersSend => exact nofun
    | sendersClosed => simp [Abort.internal]
    | sendersMissing u v task absent => exact absurd hpresent absent
  | storageContains u k => exact hp
  | utcNow => exact hp
  | response id => exact hp
  | _ => trivial

end Runs

def offer : Request := .ofGuest 7 (sampleOffer (sampleTask "id" []) [])

/-- An event by which nothing is read, with all that the handlers look for. -/
def complete : TaskAction → Bool
  | .op _ q (.storageContains _ _) _ => q.call.synced.all fun request =>
    decide (NoColon request.taskId ∧ request.decisions ≠ [] ∧ request.participants ≠ [])
  | .op _ _ (.checkDecision d u _) _ => d.userConsent.any fun userConsent =>
    decide (userConsent.publicKey ≠ []) && (hexDecode u).isSome
  | .op _ _ (.storageUpdate _ _ _ _) r => r.isOk
  | .op _ _ (.storageRead _ _) _ => false
  | .op _ _ .utcNow _ => false
  | .op _ _ (.makeDecision _ _ _ _ _ _) _ => false
  | .op _ _ (.response _) _ => false
  | _ => true

theorem proper_of_complete {D : Deployment} {t : ℕ} {q : Request} {o : Op} {r : Res o}
    (h : complete (.op t q o r)) (past : List TaskEvent) : Proper D q (⟨o,r⟩ :: past) := by
  cases o with
  | storageContains u k =>
    intro request hq _
    simp only [complete,hq,Option.all_some,decide_eq_true_eq] at h
    exact ⟨not_reserved_of_noColon h.1,fun _ => h.2⟩
  | checkDecision d u task =>
    intro _ _ _ _ _
    simp only [complete,Option.any_eq_true,Bool.and_eq_true,decide_eq_true_eq] at h
    obtain ⟨userConsent,hd,hkey,hhex⟩ := h
    exact ⟨userConsent,hd,.inl hkey,hhex⟩
  | storageUpdate site u k payload =>
    cases r with
    | ok keyPath => trivial
    | error e => cases h
  | storageRead u k => cases h
  | utcNow => cases h
  | makeDecision a b reason u task bytes => cases h
  | response id => cases h
  | _ => trivial

def panicked : Service Unit → Bool
  | .fail .panic => true
  | _ => false

theorem eq_of_panicked {p : Service Unit} (h : panicked p) : p = .fail .panic := by
  unfold panicked at h
  split at h
  · rfl
  · cases h

end DefinedHandlers
end CoLinkServer
