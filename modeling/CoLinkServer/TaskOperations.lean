import CoLinkServer.TaskService
import CoLinkServer.ThreadTraces

/-! Which kinds of operations the parts of the task service are made of. -/
namespace CoLinkServer

open Interleaving

inductive OpKind
  | importedUsersContains | storageUpdate | storageRead | storageContains | lock | unlock | utcNow
  | newUuid | sleep | checkDecision | makeDecision | sendersContains | sendersSend
  | sendersInsert | lockHandlers | unlockHandlers | handlerRunning | spawnHandler | grpcConnect
  | post | response | reply
deriving DecidableEq

def Op.kind : Op → OpKind
  | .importedUsersContains _ => .importedUsersContains
  | .storageUpdate _ _ _ _ => .storageUpdate
  | .storageRead _ _ => .storageRead
  | .storageContains _ _ => .storageContains
  | .lock _ => .lock
  | .unlock _ => .unlock
  | .utcNow => .utcNow
  | .newUuid => .newUuid
  | .sleep => .sleep
  | .checkDecision _ _ _ => .checkDecision
  | .makeDecision _ _ _ _ _ _ => .makeDecision
  | .sendersContains _ _ => .sendersContains
  | .sendersSend _ _ _ => .sendersSend
  | .sendersInsert _ _ => .sendersInsert
  | .lockHandlers => .lockHandlers
  | .unlockHandlers => .unlockHandlers
  | .handlerRunning _ _ => .handlerRunning
  | .spawnHandler _ _ => .spawnHandler
  | .grpcConnect _ => .grpcConnect
  | .post _ => .post
  | .response _ => .response
  | .reply _ => .reply

/-- Everything but the two operations that authenticate a peer and let it in. -/
def Op.Ordinary (o : Op) : Prop := o.kind ≠ .checkDecision ∧ o.kind ≠ .sendersInsert

def Op.NoInsert (o : Op) : Prop := o.kind ≠ .sendersInsert

theorem Op.Ordinary.of_kind {o : Op}
    (h : [OpKind.checkDecision,.sendersInsert].contains o.kind = false) : o.Ordinary := by
  simpa [Op.Ordinary] using h

theorem Op.NoInsert.of_kind {o : Op} (h : [OpKind.sendersInsert].contains o.kind = false) :
    o.NoInsert := by
  simpa [Op.NoInsert] using h

theorem Op.Ordinary.noInsert {o : Op} (h : o.Ordinary) : o.NoInsert := h.2

/-- What asking the registries for a user consists of. -/
def OpKind.querying : List OpKind :=
  [.newUuid,.utcNow,.storageRead,.storageContains,.storageUpdate,.makeDecision,.lock,.unlock]

/-- What the server does to look a user up. -/
def OpKind.asking : List OpKind := [.storageRead,.sleep]

/-- What it does to send a task to a user whom it has looked up. -/
def OpKind.contacting : List OpKind :=
  [.sendersContains,.sendersSend,.grpcConnect,.lockHandlers,.unlockHandlers,.handlerRunning,
    .spawnHandler,.post,.response]

theorem Op.of_kind {φ : Op → Prop} {kinds : List OpKind} (h : ∀ o : Op, o.kind ∈ kinds → φ o)
    {o : Op} (ho : kinds.contains o.kind) : φ o := h o (List.contains_iff_mem.mp ho)

abbrev TaskEvent : Type := Event Op Res

namespace TaskService

variable {φ : Op → Prop}

theorem all_perform {o : Op} (h : φ o) : (perform o).All φ := ⟨h,fun _ => trivial⟩

theorem all_unwrap {α : Type} (a : Option α) : (unwrap a).All φ := by cases a <;> trivial

theorem all_require (b : Bool) (e : Abort) : (require b e).All φ := by cases b <;> trivial

theorem all_setDecision (task : Task) (i : ℕ) (d : Decision) : (setDecision task i d).All φ := by
  unfold setDecision
  split <;> trivial

theorem all_checkMetadataValue (s : String) : (checkMetadataValue s).All φ := all_require _ _

theorem all_fromUtf8 (bytes : Bytes) : (fromUtf8 bytes).All φ := all_unwrap _

theorem all_userStatus (d : Decision) : (userStatus d).All φ := by
  unfold userStatus
  split_ifs <;> trivial

theorem all_internalStorageRead {userId keyName : String}
    (h : φ (.storageRead userId ("_internal:" ++ keyName))) :
    (internalStorageRead userId keyName).All φ :=
  (all_perform h).bind fun r => by cases r <;> trivial

theorem all_internalStorageUpdate {site : Site} {userId keyName : String} {payload : Bytes}
    (h : φ (.storageUpdate site userId ("_internal:" ++ keyName) payload)) :
    (internalStorageUpdate site userId keyName payload).All φ :=
  (all_perform h).bind fun r => by cases r <;> trivial

theorem all_locked {α : Type} {s : Section} {body : Service α} (hl : φ (.lock s))
    (hu : φ (.unlock s)) (hb : body.All φ) : (locked s body).All φ :=
  (all_perform hl).bracket (all_perform hu) hb

theorem all_checkPrivilegeIn {metadata : Metadata} {privileges : List String}
    (h : ∀ userId, φ (.importedUsersContains userId)) :
    (checkPrivilegeIn metadata privileges).All φ := by
  refine (all_unwrap _).bind fun privilege => ?_
  split
  · refine (all_unwrap _).bind fun userId => ?_
    split
    · exact (all_perform (h userId)).bind fun imported => all_require _ _
    · trivial
  · trivial

section Parts

variable {M : Prost} {u : String}

theorem all_readTask {id : String} (h : φ (.storageRead u ("_internal:" ++ ("tasks:" ++ id)))) :
    (readTask M u id).All φ := (all_internalStorageRead h).bind fun _ => all_unwrap _

theorem all_storeTask {site : Site} {task : Task}
    (h : φ (.storageUpdate site u ("_internal:" ++ ("tasks:" ++ task.taskId)) (M.task.encode task))) :
    (storeTask M site u task).All φ := (all_internalStorageUpdate h).bind fun _ => trivial

theorem all_readTaskIdList {listKey : String} (h : φ (.storageRead u ("_internal:" ++ listKey))) :
    (readTaskIdList M u listKey).All φ := (all_internalStorageRead h).bind fun _ => all_unwrap _

theorem all_storeTaskIdList {listKey : String} {list : CoLinkInternalTaskIdList}
    (h : φ (.storageUpdate .list u ("_internal:" ++ listKey) (M.taskIdList.encode list))) :
    (storeTaskIdList M u listKey list).All φ := (all_internalStorageUpdate h).bind fun _ => trivial

theorem all_removeTaskFromList {task : Task} {listKey : String}
    (hr : φ (.storageRead u ("_internal:" ++ listKey)))
    (hw : ∀ list, φ (.storageUpdate .list u ("_internal:" ++ listKey) (M.taskIdList.encode list))) :
    (removeTaskFromListInStorage M u task listKey).All φ := by
  refine (all_readTaskIdList hr).bind fun list => ?_
  split
  · trivial
  · exact all_storeTaskIdList (hw _)

theorem all_removeTaskOldStatus {task : Task} (hr : ∀ k, φ (.storageRead u k))
    (hw : ∀ k payload, φ (.storageUpdate .list u k payload)) : (removeTaskOldStatus M u task).All φ :=
  (all_removeTaskFromList (hr _) fun _ => hw _ _).bind fun _ =>
    all_removeTaskFromList (hr _) fun _ => hw _ _

theorem all_addTaskToList {task : Task} {listKey : String}
    (hl : φ (.storageUpdate .latest u ("_internal:" ++ (listKey ++ ":latest"))
      (M.task.encode { taskId := task.taskId })))
    (hc : φ (.storageContains u ("_internal:" ++ listKey)))
    (hr : φ (.storageRead u ("_internal:" ++ listKey)))
    (hw : ∀ list, φ (.storageUpdate .list u ("_internal:" ++ listKey) (M.taskIdList.encode list))) :
    (addTaskToListInStorage M u task listKey).All φ := by
  refine (all_internalStorageUpdate hl).bind fun keyPath => (all_perform hc).bind fun present => ?_
  refine Prog.All.bind ?_ fun list => all_storeTaskIdList (hw _)
  split_ifs
  · exact all_readTaskIdList hr
  · trivial

theorem all_addTaskNewStatus {task : Task} (hc : ∀ k, φ (.storageContains u k))
    (hr : ∀ k, φ (.storageRead u k)) (hw : ∀ site ∈ [Site.list,.latest], ∀ k payload,
      φ (.storageUpdate site u k payload)) : (addTaskNewStatus M u task).All φ :=
  have ha {listKey : String} : (addTaskToListInStorage M u task listKey).All φ :=
    all_addTaskToList (hw _ (by simp) _ _) (hc _) (hr _) fun _ => hw _ (by simp) _ _
  ha.bind fun _ => ha

theorem all_generateDecision {a r : Bool} {reason : String} {task : Task}
    (hr : φ (.storageRead u ("_internal:" ++ "user_consent")))
    (hm : ∀ bs, φ (.makeDecision a r reason u task bs)) :
    (generateDecision a r reason u task).All φ := by
  refine (all_internalStorageRead hr).bind fun bs => ?_
  exact (all_perform (hm bs)).bind fun d => by cases d <;> trivial

theorem all_checkDecision {d : Decision} {v : String} {task : Task} (h : φ (.checkDecision d v task)) :
    (checkDecision d v task).All φ := (all_perform h).bind fun r => by cases r <;> trivial

theorem all_enterDecision {d : Decision} {task : Task}
    (hr : φ (.storageRead u ("_internal:" ++ "user_consent")))
    (hm : ∀ task bs, φ (.makeDecision d.isApproved d.isRejected d.reason u task bs)) :
    (enterDecision d u task).All φ := by
  refine Prog.All.foldlM _ (fun task x _ => ?_) task
  obtain ⟨p,i⟩ := x
  dsimp only
  split
  · exact (all_generateDecision hr (hm task)).bind fun d => all_setDecision _ _ _
  · trivial

theorem all_takeDecisions {request task : Task} (h : ∀ d v task, φ (.checkDecision d v task)) :
    (takeDecisions u request task).All φ := by
  refine Prog.All.foldlM _ (fun task x _ => ?_) task
  obtain ⟨p,i⟩ := x
  dsimp only
  split
  · refine (all_unwrap _).bind fun d => ?_
    split
    · exact (all_checkDecision (h _ _ _)).bind fun _ => all_setDecision _ _ _
    · trivial
  · trivial

theorem all_userIsKnown {v : String} (h : ∀ k, φ (.storageRead u k)) : (userIsKnown u v).All φ := by
  refine (all_perform (h _)).bind fun r => ?_
  cases r with
  | error e => trivial
  | ok bs => exact (all_perform (h _)).bind fun _ => trivial

theorem all_grpcConnect {address : String} (h : φ (.grpcConnect address)) :
    (grpcConnect address).All φ := (all_perform h).bind fun r => by cases r <;> trivial

theorem all_call {m : Outgoing} (hp : φ (.post m)) (hr : ∀ id, φ (.response id)) :
    (call m).All φ := by
  refine (all_checkMetadataValue _).bind fun _ => (all_checkMetadataValue _).bind fun _ => ?_
  exact (all_perform hp).bind fun id => (all_perform (hr id)).bind fun r => by cases r <;> trivial

theorem all_sendersSend {v : String} {task : Task} (h : φ (.sendersSend u v task)) :
    (sendersSend u v task).All φ := (all_perform h).bind fun r => by cases r <;> trivial

theorem all_forward {v : String} {task : Task} (hc : φ (.sendersContains u v))
    (hs : φ (.sendersSend u v task)) : (forwardInterCoreSyncTask u v task).All φ := by
  refine (all_perform hc).bind fun connected => ?_
  split
  · exact all_sendersSend hs
  · trivial

theorem all_queryFromRegistries {v : String} (h : ∀ o : Op, o.kind ∈ OpKind.querying → φ o) :
    (queryFromRegistries M u v).All φ := by
  refine (all_perform (Op.of_kind h rfl)).bind fun taskId => ?_
  refine (all_perform (Op.of_kind h rfl)).bind fun now => ?_
  refine (all_generateDecision (Op.of_kind h rfl)
    fun _ => Op.of_kind h rfl).bind fun d => (all_setDecision _ _ _).bind fun task => ?_
  refine (all_storeTask (Op.of_kind h rfl)).bind fun _ => ?_
  exact all_locked (Op.of_kind h rfl) (Op.of_kind h rfl) (all_addTaskNewStatus
    (fun _ => Op.of_kind h rfl) (fun _ => Op.of_kind h rfl)
    fun _ _ _ _ => Op.of_kind h rfl)

/-- A property of programs that everything has which looks a user up for `u`. -/
structure Asks (M : Prost) (u : String) (P : (α : Type) → Service α → Prop) : Prop
    extends Prog.Closed P where
  ask : ∀ o : Op, o.kind ∈ OpKind.asking → P _ (perform o)
  query : ∀ v, P Unit (queryFromRegistries M u v)

/-- One that everything has which sends a task for `u`. -/
structure Contacts (M : Prost) (u : String) (P : (α : Type) → Service α → Prop) : Prop
    extends Asks M u P where
  contact : ∀ o : Op, o.kind ∈ OpKind.contacting → P _ (perform o)

theorem asks_all (h : ∀ o : Op, o.kind ∈ OpKind.asking ++ OpKind.querying → φ o) :
    Asks M u fun _ p => p.All φ where
  toClosed := Prog.closed_all φ
  ask o ho := all_perform (h o (List.mem_append_left _ ho))
  query _ := all_queryFromRegistries fun o ho => h o (List.mem_append_right _ ho)

theorem contacts_all
    (h : ∀ o : Op, o.kind ∈ OpKind.contacting ++ (OpKind.asking ++ OpKind.querying) → φ o) :
    Contacts M u fun _ p => p.All φ where
  toAsks := asks_all fun o ho => h o (List.mem_append_right _ ho)
  contact o ho := all_perform (h o (List.mem_append_left _ ho))

variable {P : (α : Type) → Service α → Prop}

namespace Asks

variable (hP : Asks M u P)
include hP

theorem perform {o : Op} (ho : OpKind.asking.contains o.kind) : P _ (perform o) :=
  hP.ask o (List.contains_iff_mem.mp ho)

theorem unwrap {α : Type} (a : Option α) : P α (unwrap a) := by
  cases a with
  | none => exact hP.fail _
  | some a => exact hP.ret a

theorem require (b : Bool) (e : Abort) : P Unit (require b e) := by
  cases b with
  | false => exact hP.fail e
  | true => exact hP.ret ()

theorem internalStorageRead (userId keyName : String) : P Bytes (internalStorageRead userId keyName) := by
  refine hP.bind (hP.perform rfl) fun r => ?_
  cases r with
  | error e => exact hP.fail _
  | ok bs => exact hP.ret bs

theorem userIsKnown (v : String) : P Bool (userIsKnown u v) := by
  refine hP.bind (hP.perform rfl) fun r => ?_
  cases r with
  | error e => exact hP.ret false
  | ok bs => exact hP.bind (hP.perform rfl) fun _ => hP.ret _

theorem waitForUserRecord (v : String) (rounds : ℕ) : P Unit (waitForUserRecord M u v rounds) := by
  induction rounds with
  | zero => exact hP.ret ()
  | succ n ih =>
    refine hP.bind (hP.userIsKnown v) fun known => ?_
    split
    · exact hP.ret ()
    · refine hP.bind ?_ fun _ => hP.bind (hP.perform (o := .sleep) rfl) fun _ => ih
      split
      · exact hP.query v
      · exact hP.ret ()

theorem queryUserRecord (v : String) : P _ (queryUserRecord M u v) := by
  refine hP.bind (hP.waitForUserRecord v _) fun _ => ?_
  refine hP.bind (hP.internalStorageRead _ _) fun bs => hP.bind (hP.unwrap _) fun coreAddr => ?_
  refine hP.bind (hP.internalStorageRead _ _) fun bs => hP.bind (hP.unwrap _) fun guestJwt => ?_
  refine hP.bind (hP.perform rfl) fun r => ?_
  cases r with
  | error e => exact hP.ret _
  | ok bs => exact hP.bind (hP.unwrap _) fun _ => hP.ret _

end Asks

namespace Contacts

variable (hP : Contacts M u P)
include hP

theorem perform {o : Op} (ho : OpKind.contacting.contains o.kind) : P _ (perform o) :=
  hP.contact o (List.contains_iff_mem.mp ho)

theorem call (m : Outgoing) : P Unit (call m) := by
  refine hP.bind (hP.require _ _) fun _ => hP.bind (hP.require _ _) fun _ => ?_
  refine hP.bind (hP.perform rfl) fun id => hP.bind (hP.perform rfl) fun r => ?_
  cases r with
  | ok w => exact hP.ret ()
  | error e => exact hP.fail e

theorem grpcConnect (address : String) : P Unit (grpcConnect address) := by
  refine hP.bind (hP.perform rfl) fun r => ?_
  cases r with
  | ok w => exact hP.ret ()
  | error e => exact hP.fail _

theorem sendersSend (v : String) (task : Task) : P Unit (sendersSend u v task) := by
  refine hP.bind (hP.perform rfl) fun r => ?_
  cases r with
  | ok w => exact hP.ret ()
  | error e => exact hP.fail e

theorem sendInterCoreSyncTask (v : String) (task : Task) : P Unit (sendInterCoreSyncTask M u v task) := by
  have hcall (address : String) (m : Outgoing) :
      P Unit (TaskService.grpcConnect address >>= fun _ => TaskService.call m) :=
    hP.bind (hP.grpcConnect _) fun _ => hP.call m
  refine hP.bind (hP.perform rfl) fun connected => ?_
  split
  · exact hP.sendersSend v task
  · refine hP.bind (hP.queryUserRecord v) fun record => ?_
    obtain ⟨coreAddr,guestJwt,forwardingUserId⟩ := record
    cases forwardingUserId with
    | none => exact hcall _ _
    | some forwardingUserId =>
      refine hP.bind (hP.queryUserRecord forwardingUserId) fun record => ?_
      exact hP.bind (hP.require _ _) fun _ => hcall _ _

theorem sendWithReverseConnection (v : String) (task : Task) :
    P Unit (sendInterCoreSyncTaskWithReverseConnection M u v task) := by
  refine hP.bind (hP.queryUserRecord v) fun record => ?_
  obtain ⟨coreAddr,guestJwt,forwardingUserId⟩ := record
  dsimp only
  split
  · exact hP.sendInterCoreSyncTask v task
  · refine hP.bind (hP.grpcConnect _) fun _ => ?_
    refine hP.bracket (hP.perform (o := .lockHandlers) rfl) (hP.perform (o := .unlockHandlers) rfl) ?_
    refine hP.bind (hP.perform rfl) fun running => ?_
    split
    · exact hP.call _
    · exact hP.bind (hP.call _) fun _ => hP.perform (o := .spawnHandler u v) rfl

theorem broadcast (task : Task) : P Unit (broadcast M u task) := by
  refine hP.bind (hP.unwrap _) fun initiator => ?_
  split
  · exact hP.foldlM (fun _ (p : Participant) => hP.sendInterCoreSyncTask p.userId task) _ ()
  · exact hP.ret ()

end Contacts

end Parts

section Ordinary

variable (M : Prost)

theorem ordinary_storeTask (site : Site) (userId : String) (task : Task) :
    (storeTask M site userId task).All Op.Ordinary := all_storeTask (.of_kind rfl)

theorem ordinary_readTask (userId taskId : String) : (readTask M userId taskId).All Op.Ordinary :=
  all_readTask (.of_kind rfl)

theorem ordinary_addTaskNewStatus (userId : String) (task : Task) :
    (addTaskNewStatus M userId task).All Op.Ordinary :=
  all_addTaskNewStatus (fun _ => .of_kind rfl) (fun _ => .of_kind rfl)
    fun _ _ _ _ => .of_kind rfl

theorem ordinary_indexTask (userId : String) (task : Task) :
    (indexTask M userId task).All Op.Ordinary :=
  all_locked (.of_kind rfl) (.of_kind rfl) (ordinary_addTaskNewStatus M userId task)

theorem ordinary_removeTaskOldStatus (userId : String) (task : Task) :
    (removeTaskOldStatus M userId task).All Op.Ordinary :=
  all_removeTaskOldStatus (fun _ => .of_kind rfl) fun _ _ => .of_kind rfl

theorem ordinary_generateDecision (a r : Bool) (reason userId : String) (task : Task) :
    (generateDecision a r reason userId task).All Op.Ordinary :=
  all_generateDecision (.of_kind rfl) fun _ => .of_kind rfl

theorem contacts_ordinary (userId : String) : Contacts M userId fun _ p => p.All Op.Ordinary :=
  contacts_all fun o ho => by
    constructor <;> intro hk <;> rw [hk] at ho <;> exact absurd ho (by decide)

theorem ordinary_sendInterCoreSyncTask (userId targetUserId : String) (task : Task) :
    (sendInterCoreSyncTask M userId targetUserId task).All Op.Ordinary :=
  (contacts_ordinary M userId).sendInterCoreSyncTask _ _

theorem ordinary_sendWithReverseConnection (userId targetUserId : String) (task : Task) :
    (sendInterCoreSyncTaskWithReverseConnection M userId targetUserId task).All Op.Ordinary :=
  (contacts_ordinary M userId).sendWithReverseConnection _ _

theorem ordinary_broadcast (userId : String) (task : Task) :
    (broadcast M userId task).All Op.Ordinary := (contacts_ordinary M userId).broadcast _

theorem ordinary_changeStatus (userId : String) (request : Task) (rejected : Bool) :
    (changeStatus M userId request rejected).All Op.Ordinary := by
  refine all_locked (.of_kind rfl) (.of_kind rfl) ?_
  refine (ordinary_readTask M _ _).bind fun task => ?_
  refine (ordinary_removeTaskOldStatus M _ _).bind fun _ => ?_
  refine (ordinary_storeTask M _ _ _).bind fun _ => ?_
  exact (ordinary_addTaskNewStatus M _ _).bind fun _ => trivial

end Ordinary

section NoInsert

variable (M : Prost)

theorem noInsert_of_ordinary {α : Type} {p : Service α} (h : p.All Op.Ordinary) :
    p.All Op.NoInsert := h.mono fun _ => Op.Ordinary.noInsert

theorem noInsert_checkPrivilegeIn (metadata : Metadata) (privileges : List String) :
    (checkPrivilegeIn metadata privileges).All Op.NoInsert :=
  all_checkPrivilegeIn fun _ => .of_kind rfl

theorem noInsert_locked {α : Type} (s : Section) {body : Service α} (h : body.All Op.NoInsert) :
    (locked s body).All Op.NoInsert :=
  all_locked (.of_kind rfl) (.of_kind rfl) h

theorem noInsert_createTask (reverse : Bool) (metadata : Metadata) (request : Task) :
    (createTask M reverse metadata request).All Op.NoInsert := by
  refine (noInsert_checkPrivilegeIn _ _).bind fun _ => (all_unwrap _).bind fun userId => ?_
  refine (all_perform (.of_kind rfl)).bind fun taskId => ?_
  refine (noInsert_of_ordinary (ordinary_generateDecision _ _ _ _ _)).bind fun d => ?_
  refine (all_setDecision _ _ _).bind fun task => ?_
  refine (noInsert_of_ordinary (ordinary_storeTask M _ _ _)).bind fun _ => ?_
  refine (Prog.All.foldlM _ (fun _ p _ => ?_) ()).bind fun _ =>
    (noInsert_of_ordinary (ordinary_indexTask M _ _)).bind fun _ => trivial
  split
  · exact noInsert_of_ordinary (ordinary_sendWithReverseConnection M _ _ _)
  · exact noInsert_of_ordinary (ordinary_sendInterCoreSyncTask M _ _ _)

theorem noInsert_confirmTask (metadata : Metadata) (request : ConfirmTaskRequest) :
    (confirmTask M metadata request).All Op.NoInsert := by
  refine (noInsert_checkPrivilegeIn _ _).bind fun _ => (all_unwrap _).bind fun userId => ?_
  cases request.decision with
  | none => trivial
  | some d =>
    refine (all_userStatus d).bind fun status => ?_
    refine Prog.All.bind ?_ fun task => ?_
    · refine noInsert_locked _ ((noInsert_of_ordinary (ordinary_readTask M _ _)).bind fun task => ?_)
      refine (all_require _ _).bind fun _ => ?_
      refine (all_perform (.of_kind rfl)).bind fun now => ?_
      refine (all_require _ _).bind fun _ => ?_
      refine (noInsert_of_ordinary (ordinary_removeTaskOldStatus M _ _)).bind fun _ => ?_
      refine (all_enterDecision (.of_kind rfl)
        fun _ _ => .of_kind rfl).bind fun task => ?_
      refine (noInsert_of_ordinary (ordinary_storeTask M _ _ _)).bind fun _ => ?_
      exact (noInsert_of_ordinary (ordinary_addTaskNewStatus M _ _)).bind fun _ => trivial
    · split
      · exact (all_unwrap _).bind fun p =>
          noInsert_of_ordinary (ordinary_sendInterCoreSyncTask M _ _ _)
      · trivial

theorem noInsert_finishTask (metadata : Metadata) (request : Task) :
    (finishTask M metadata request).All Op.NoInsert := by
  refine (noInsert_checkPrivilegeIn _ _).bind fun _ => (all_unwrap _).bind fun userId => ?_
  refine noInsert_locked _ ((noInsert_of_ordinary (ordinary_readTask M _ _)).bind fun task => ?_)
  refine (all_require _ _).bind fun _ => ?_
  refine (noInsert_of_ordinary (ordinary_removeTaskOldStatus M _ _)).bind fun _ => ?_
  refine (noInsert_of_ordinary (ordinary_storeTask M _ _ _)).bind fun _ => ?_
  exact noInsert_of_ordinary (ordinary_addTaskNewStatus M _ _)

theorem noInsert_interCoreSyncTask (metadata : Metadata) (request : Task) :
    (interCoreSyncTask M metadata request).All Op.NoInsert := by
  refine (noInsert_checkPrivilegeIn _ _).bind fun _ => (all_unwrap _).bind fun userId => ?_
  cases metadata.forwardingTarget with
  | some value =>
    exact (all_unwrap _).bind fun target => all_forward (.of_kind rfl) (.of_kind rfl)
  | none =>
    refine (all_perform (.of_kind rfl)).bind fun present => ?_
    cases present with
    | false =>
      refine (all_unwrap _).bind fun d => (all_unwrap _).bind fun p => ?_
      refine (all_checkDecision (.of_kind rfl)).bind fun _ => ?_
      refine (all_require _ _).bind fun _ => ?_
      refine (noInsert_of_ordinary (ordinary_storeTask M _ _ _)).bind fun _ => ?_
      exact noInsert_of_ordinary (ordinary_indexTask M _ _)
    | true =>
      refine Prog.All.bind ?_ fun task => ?_
      · refine noInsert_locked _
          ((noInsert_of_ordinary (ordinary_readTask M _ _)).bind fun task => ?_)
        refine (all_require _ _).bind fun _ => ?_
        refine (all_perform (.of_kind rfl)).bind fun now => ?_
        refine (all_require _ _).bind fun _ => ?_
        refine (all_takeDecisions fun _ _ _ => .of_kind rfl).bind fun task => ?_
        exact (noInsert_of_ordinary (ordinary_storeTask M _ _ _)).bind fun _ => trivial
      · split_ifs
        · trivial
        · exact (noInsert_of_ordinary (ordinary_changeStatus M _ _ _)).bind fun _ =>
            noInsert_of_ordinary (ordinary_broadcast M _ _)
        · trivial

end NoInsert

end TaskService
end CoLinkServer
