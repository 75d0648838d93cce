import CoLinkServer.Decisions
import CoLinkServer.Interleaving

/-! The handlers of the task service as programs over the operations at which they can be
interrupted: accesses to the storage, the mutexes, the clock, the channels and the network.
Everything between two operations is part of the program. -/
namespace CoLinkServer

open Interleaving

/-- Which statement of the source a storage update belongs to. -/
inductive Site
  | create | query | admission | merge | decide | confirm | finish | latest | list
deriving DecidableEq

/-- The critical sections of `task_storage_mutex`; the first one indexes a new task. -/
inductive Section
  | index (userId taskId : String)
  | confirm | finish | merge | decide
deriving DecidableEq

structure Metadata where
  privilege : Option String := none
  userId : Option String := none
  forwardingTarget : Option MetadataValue := none
deriving DecidableEq

/-- A call of `inter_core_sync_task`, or of the variant with a reverse connection, on another
core. The first field names the user it is meant for. -/
structure Outgoing where
  target : String
  coreAddr : String
  guestJwt : String
  forwardingTarget : Option String
  reverse : Bool
  task : Task
deriving DecidableEq

inductive Op
  | importedUsersContains (userId : String)
  | storageUpdate (site : Site) (userId keyName : String) (payload : Bytes)
  | storageRead (userId keyName : String)
  | storageContains (userId keyName : String)
  | lock (s : Section)
  | unlock (s : Section)
  | utcNow
  | newUuid
  | sleep
  | checkDecision (decision : Decision) (userId : String) (task : Task)
  | makeDecision (isApproved isRejected : Bool) (reason userId : String) (task : Task)
      (userConsentBytes : Bytes)
  | sendersContains (userId targetUserId : String)
  | sendersSend (userId targetUserId : String) (task : Task)
  | sendersInsert (userId receiverUserId : String)
  | lockHandlers
  | unlockHandlers
  | handlerRunning (userId targetUserId : String)
  | spawnHandler (userId targetUserId : String)
  | grpcConnect (address : String)
  | post (call : Outgoing)
  | response (id : ℕ)
  | reply (outcome : Except Abort Unit)
deriving DecidableEq

abbrev Res : Op → Type
  | .importedUsersContains _ => Bool
  | .storageUpdate _ _ _ _ => Except UpdateError String
  | .storageRead _ _ => Except String Bytes
  | .storageContains _ _ => Bool
  | .lock _ => Unit
  | .unlock _ => Unit
  | .utcNow => ℤ
  | .newUuid => String
  | .sleep => Unit
  | .checkDecision _ _ _ => Except Abort Unit
  | .makeDecision _ _ _ _ _ _ => Except Abort Decision
  | .sendersContains _ _ => Bool
  | .sendersSend _ _ _ => Except Abort Unit
  | .sendersInsert _ _ => Unit
  | .lockHandlers => Unit
  | .unlockHandlers => Unit
  | .handlerRunning _ _ => Bool
  | .spawnHandler _ _ => Unit
  | .grpcConnect _ => Except String Unit
  | .post _ => ℕ
  | .response _ => Except Abort Unit
  | .reply _ => Unit

abbrev Service (α : Type) : Type := Prog Op Res Abort α

def perform (o : Op) : Service (Res o) := .call o .ret

def abort {α : Type} (e : Abort) : Service α := .fail e

/-- `unwrap`, and indexing: a missing value is a panic. -/
def unwrap {α : Type} : Option α → Service α
  | some a => .ret a
  | none => .fail .panic

def require (b : Bool) (e : Abort) : Service Unit := if b then .ret () else .fail e

namespace TaskService

def checkPrivilegeIn (metadata : Metadata) (privileges : List String) : Service Unit := do
  let privilege ← unwrap metadata.privilege
  if privilege ∈ privileges then
    let userId ← unwrap metadata.userId
    if privilege ∈ ["user","guest"] then
      let imported ← perform (.importedUsersContains userId)
      require imported (.permissionDenied ("User " ++ userId ++
        " in the JWT is created before the latest server start."))
    else .ret ()
  else
    abort (.permissionDenied ("This procedure requires specific privileges[[" ++
      ", ".intercalate (privileges.map fun p => "\"" ++ p ++ "\"") ++
      "]], while you provide[" ++ privilege ++ "]."))

def internalStorageUpdate (site : Site) (userId keyName : String) (payload : Bytes) :
    Service String := do
  match ← perform (.storageUpdate site userId ("_internal:" ++ keyName) payload) with
  | .ok keyPath => .ret keyPath
  | .error e => abort e.abort

def internalStorageRead (userId keyName : String) : Service Bytes := do
  match ← perform (.storageRead userId ("_internal:" ++ keyName)) with
  | .ok payload => .ret payload
  | .error e => abort (.internal e)

def internalStorageContains (userId keyName : String) : Service Bool :=
  perform (.storageContains userId ("_internal:" ++ keyName))

/-- Holding `task_storage_mutex`; the guard is also dropped when the body ends early. -/
def locked {α : Type} (s : Section) (body : Service α) : Service α :=
  Prog.bracket (perform (.lock s)) (perform (.unlock s)) body

/-- A metadata value may hold any text without control characters other than the tab. -/
def isMetadataValue (s : String) : Bool := s.toList.all fun c =>
  decide (32 ≤ c.toNat ∧ c.toNat ≠ 127 ∨ c.toNat = 9)

def checkMetadataValue (s : String) : Service Unit := require (isMetadataValue s) .panic

variable (M : Prost)

def readTask (userId taskId : String) : Service Task := do
  let payload ← internalStorageRead userId ("tasks:" ++ taskId)
  unwrap (M.task.decode payload)

def storeTask (site : Site) (userId : String) (task : Task) : Service Unit := do
  let _ ← internalStorageUpdate site userId ("tasks:" ++ task.taskId) (M.task.encode task)
  .ret ()

/-- `task.decisions[i] = decision` -/
def setDecision (task : Task) (i : ℕ) (decision : Decision) : Service Task :=
  if i < task.decisions.length then
    .ret { task with decisions := task.decisions.set i decision }
  else .fail .panic

def protocolKey (userId : String) (task : Task) : String :=
  if task.status ≠ "started" then task.protocolName
  else task.protocolName ++ ":" ++ task.roleOf userId

def protocolListKey (userId : String) (task : Task) : String :=
  "protocols:" ++ protocolKey userId task ++ ":" ++ task.status

def statusListKey (task : Task) : String := "tasks:status:" ++ task.status

def readTaskIdList (userId listKey : String) : Service CoLinkInternalTaskIdList := do
  let payload ← internalStorageRead userId listKey
  unwrap (M.taskIdList.decode payload)

def storeTaskIdList (userId listKey : String) (list : CoLinkInternalTaskIdList) : Service Unit := do
  let _ ← internalStorageUpdate .list userId listKey (M.taskIdList.encode list)
  .ret ()

def removeTaskFromListInStorage (userId : String) (task : Task) (listKey : String) :
    Service Unit := do
  let list ← readTaskIdList M userId listKey
  match list.taskIdsWithKeyPaths.findIdx? (·.taskId = task.taskId) with
  | none => abort (.internal "Task Not found.")
  | some index => storeTaskIdList M userId listKey ⟨list.taskIdsWithKeyPaths.eraseIdx index⟩

def removeTaskOldStatus (userId : String) (task : Task) : Service Unit := do
  removeTaskFromListInStorage M userId task (protocolListKey userId task)
  removeTaskFromListInStorage M userId task (statusListKey task)

def addTaskToListInStorage (userId : String) (task : Task) (listKey : String) : Service Unit := do
  let keyPath ← internalStorageUpdate .latest userId (listKey ++ ":latest")
    (M.task.encode { taskId := task.taskId })
  let present ← internalStorageContains userId listKey
  let list ← (if present then readTaskIdList M userId listKey else .ret {})
  storeTaskIdList M userId listKey ⟨list.taskIdsWithKeyPaths ++ [⟨keyPath,task.taskId⟩]⟩

def addTaskNewStatus (userId : String) (task : Task) : Service Unit := do
  addTaskToListInStorage M userId task (protocolListKey userId task)
  addTaskToListInStorage M userId task (statusListKey task)

def indexTask (userId : String) (task : Task) : Service Unit :=
  locked (.index userId task.taskId) (addTaskNewStatus M userId task)

def generateDecision (isApproved isRejected : Bool) (reason userId : String) (task : Task) :
    Service Decision := do
  let userConsentBytes ← internalStorageRead userId "user_consent"
  match ← perform (.makeDecision isApproved isRejected reason userId task userConsentBytes) with
  | .ok decision => .ret decision
  | .error e => abort e

def checkDecision (decision : Decision) (userId : String) (task : Task) : Service Unit := do
  match ← perform (.checkDecision decision userId task) with
  | .ok () => .ret ()
  | .error e => abort e

/-- The task by which the server asks the registries for a user. -/
def registryTask (taskId userId queryUserId : String) (now : ℤ) : Task where
  taskId := taskId
  protocolName := "registry"
  protocolParam := M.userRecord.encode queryUserId
  participants := [⟨userId,"query_from_registries"⟩]
  requireAgreement := false
  status := "started"
  expirationTime := now + 86400
  decisions := [default]

def queryFromRegistries (userId queryUserId : String) : Service Unit := do
  let taskId ← perform .newUuid
  let now ← perform .utcNow
  let localTask := registryTask M taskId userId queryUserId now
  let decision ← generateDecision true false "" userId localTask
  let localTask ← setDecision localTask 0 decision
  storeTask M .query userId localTask
  indexTask M userId localTask

def userIsKnown (userId queryUserId : String) : Service Bool := do
  let coreAddr ← perform
    (.storageRead userId ("_internal:" ++ ("known_users:" ++ queryUserId ++ ":core_addr")))
  match coreAddr with
  | .error _ => .ret false
  | .ok _ =>
    let guestJwt ← perform
      (.storageRead userId ("_internal:" ++ ("known_users:" ++ queryUserId ++ ":guest_jwt")))
    .ret (match guestJwt with | .ok _ => true | .error _ => false)

/-- The waiting loop, with the number of rounds left; the first of its 61 rounds asks the
registries. -/
def waitForUserRecord (userId queryUserId : String) : ℕ → Service Unit
  | 0 => .ret ()
  | rounds+1 => do
    let known ← userIsKnown userId queryUserId
    if known then .ret ()
    else do
      (if rounds = 60 then queryFromRegistries M userId queryUserId else .ret ())
      perform .sleep
      waitForUserRecord userId queryUserId rounds

def fromUtf8 (bytes : Bytes) : Service String := unwrap (String.fromUTF8? ⟨bytes.toArray⟩)

def queryUserRecord (userId queryUserId : String) : Service (String × String × Option String) := do
  waitForUserRecord M userId queryUserId 61
  let coreAddr ← internalStorageRead userId ("known_users:" ++ queryUserId ++ ":core_addr")
  let coreAddr ← fromUtf8 coreAddr
  let guestJwt ← internalStorageRead userId ("known_users:" ++ queryUserId ++ ":guest_jwt")
  let guestJwt ← fromUtf8 guestJwt
  let forwardingUserId ← perform
    (.storageRead userId ("_internal:" ++ ("known_users:" ++ queryUserId ++ ":forwarding_user_id")))
  match forwardingUserId with
  | .ok bytes => do
    let forwardingUserId ← fromUtf8 bytes
    .ret (coreAddr,guestJwt,some forwardingUserId)
  | .error _ => .ret (coreAddr,guestJwt,none)

def grpcConnect (address : String) : Service Unit := do
  match ← perform (.grpcConnect address) with
  | .ok () => .ret ()
  | .error e => abort (.internal e)

/-- A unary call on another core: the message leaves, and later its outcome arrives. -/
def call (outgoing : Outgoing) : Service Unit := do
  checkMetadataValue outgoing.guestJwt
  checkMetadataValue (outgoing.forwardingTarget.getD "")
  let id ← perform (.post outgoing)
  match ← perform (.response id) with
  | .ok () => .ret ()
  | .error e => abort e

/-- The lookup of the sender and the sending are one operation: `inter_core_reverse_senders` is held
from the one to the end of the other, also while the channel is full. -/
def sendersSend (userId targetUserId : String) (task : Task) : Service Unit := do
  match ← perform (.sendersSend userId targetUserId task) with
  | .ok () => .ret ()
  | .error e => abort e

def sendInterCoreSyncTask (userId targetUserId : String) (task : Task) : Service Unit := do
  let connected ← perform (.sendersContains userId targetUserId)
  if connected then sendersSend userId targetUserId task
  else do
    let (coreAddr,guestJwt,forwardingUserId) ← queryUserRecord M userId targetUserId
    match forwardingUserId with
    | some forwardingUserId => do
      let (coreAddr,guestJwt,doubleForwardingUserId) ← queryUserRecord M userId forwardingUserId
      require doubleForwardingUserId.isNone (.failedPrecondition
        ("Double forwarding is not allowed (checking user " ++ forwardingUserId ++ ")."))
      grpcConnect coreAddr
      call ⟨targetUserId,coreAddr,guestJwt,some targetUserId,false,task⟩
    | none => do
      grpcConnect coreAddr
      call ⟨targetUserId,coreAddr,guestJwt,none,false,task⟩

def sendInterCoreSyncTaskWithReverseConnection (userId targetUserId : String) (task : Task) :
    Service Unit := do
  let (coreAddr,guestJwt,forwardingUserId) ← queryUserRecord M userId targetUserId
  if forwardingUserId.isSome then sendInterCoreSyncTask M userId targetUserId task
  else do
    grpcConnect coreAddr
    Prog.bracket (perform .lockHandlers) (perform .unlockHandlers) do
      let running ← perform (.handlerRunning userId targetUserId)
      if running then call ⟨targetUserId,coreAddr,guestJwt,none,false,task⟩
      else do
        call ⟨targetUserId,coreAddr,guestJwt,none,true,task⟩
        perform (.spawnHandler userId targetUserId)

def forwardInterCoreSyncTask (userId targetUserId : String) (task : Task) : Service Unit := do
  let connected ← perform (.sendersContains userId targetUserId)
  if connected then sendersSend userId targetUserId task
  else abort (.failedPrecondition ("Unable to locate target " ++ targetUserId ++ "."))

/-- `Vec::resize` with the default decision. -/
def resize (ds : List Decision) (n : ℕ) : List Decision :=
  ds.take n ++ List.replicate (n - ds.length) default

theorem length_resize (ds : List Decision) (n : ℕ) : (resize ds n).length = n := by
  simp only [resize,List.length_append,List.length_take,List.length_replicate]
  omega

def createTask (interCoreReverseMode : Bool) (metadata : Metadata) (request : Task) :
    Service Task := do
  checkPrivilegeIn metadata ["user"]
  let userId ← unwrap metadata.userId
  let taskId ← perform .newUuid
  let task : Task := { request with
    decisions := resize request.decisions request.participants.length
    taskId := taskId
    status := if request.requireAgreement && decide (1 < request.participants.length)
      then "approved" else "started" }
  let decision ← generateDecision true false "" userId task
  let task ← setDecision task 0 decision
  storeTask M .create userId task
  (task.participants.drop 1).foldlM (fun _ p =>
    if interCoreReverseMode then
      sendInterCoreSyncTaskWithReverseConnection M userId p.userId task
    else sendInterCoreSyncTask M userId p.userId task) ()
  indexTask M userId task
  .ret { taskId := taskId }

def userStatus (decision : Decision) : Service String :=
  if decision.approves then .ret "approved"
  else if decision.rejects then .ret "rejected"
  else if !decision.isApproved && !decision.isRejected then .ret "ignored"
  else abort (.invalidArgument "Invalid decision.")

/-- Enter the user's decision wherever the user is listed. -/
def enterDecision (userDecision : Decision) (userId : String) (task : Task) : Service Task :=
  task.participants.zipIdx.foldlM (fun task (p,i) =>
    if p.userId = userId then do
      let decision ← generateDecision userDecision.isApproved userDecision.isRejected
        userDecision.reason userId task
      setDecision task i decision
    else .ret task) task

/-- The status after a confirmation. -/
def confirmedStatus (userStatus : String) (task : Task) : String :=
  let approvedDecisionsNum := (task.decisions.filter Decision.approves).length
  if (task.requireAgreement && approvedDecisionsNum == task.participants.length) ||
    (!task.requireAgreement && userStatus == "approved") then "started" else userStatus

def confirmTask (metadata : Metadata) (request : ConfirmTaskRequest) : Service Unit := do
  checkPrivilegeIn metadata ["user"]
  let userId ← unwrap metadata.userId
  match request.decision with
  | none => abort (.invalidArgument "The decision does not exist.")
  | some userDecision => do
    let userStatus ← userStatus userDecision
    let task ← locked .confirm do
      let task ← readTask M userId request.taskId
      require (task.status == "waiting")
        (.internal ("Task " ++ task.taskId ++ " has already confirmed."))
      let now ← perform .utcNow
      require (decide (now ≤ task.expirationTime))
        (.internal ("Task " ++ task.taskId ++ " has expired."))
      removeTaskOldStatus M userId task
      let task ← enterDecision userDecision userId task
      let task := { task with status := confirmedStatus userStatus task }
      storeTask M .confirm userId task
      addTaskNewStatus M userId task
      .ret task
    if task.requireAgreement && userStatus ≠ "ignored" then do
      let initiator ← unwrap task.participants[0]?
      sendInterCoreSyncTask M userId initiator.userId
        { taskId := task.taskId, decisions := task.decisions }
    else .ret ()

def finishTask (metadata : Metadata) (request : Task) : Service Unit := do
  checkPrivilegeIn metadata ["user"]
  let userId ← unwrap metadata.userId
  locked .finish do
    let task ← readTask M userId request.taskId
    require (task.status == "started")
      (.internal ("Task " ++ task.taskId ++ " has already finished or has not started."))
    removeTaskOldStatus M userId task
    let task := { task with status := "finished" }
    storeTask M .finish userId task
    addTaskNewStatus M userId task

/-- The branch of `inter_core_sync_task` for a task that is not in the storage. -/
def admitTask (userId : String) (request : Task) : Service Unit := do
  let decision ← unwrap request.decisions[0]?
  let initiator ← unwrap request.participants[0]?
  checkDecision decision initiator.userId request
  require decision.isApproved (.internal "Initiator's decision is not approved.")
  let task := { request with status := "waiting" }
  storeTask M .admission userId task
  indexTask M userId task

/-- Take over the decisions of the other participants that a message carries. -/
def takeDecisions (userId : String) (request task : Task) : Service Task :=
  task.participants.zipIdx.foldlM (fun task (p,i) =>
    if p.userId ≠ userId then do
      let decision ← unwrap request.decisions[i]?
      if decision ≠ default then do
        checkDecision decision p.userId task
        setDecision task i decision
      else .ret task
    else .ret task) task

def anyoneRejected (task : Task) : Bool := decide (0 < (task.decisions.filter Decision.rejects).length)

/-- Everybody has decided, or somebody has rejected. -/
def isDecided (task : Task) : Bool :=
  (task.decisions.filter Decision.isValid).length == task.participants.length ||
    anyoneRejected task

/-- The first critical section for a task that is in the storage. -/
def mergeDecisions (userId : String) (request : Task) : Service Task :=
  locked .merge do
    let task ← readTask M userId request.taskId
    require task.requireAgreement
      (.invalidArgument ("Task " ++ task.taskId ++ " do not need the agreement."))
    let now ← perform .utcNow
    require (decide (now ≤ task.expirationTime))
      (.internal ("Task " ++ task.taskId ++ " has expired."))
    let task ← takeDecisions userId request task
    storeTask M .merge userId task
    .ret task

/-- The second one, with the verdict of the first. -/
def changeStatus (userId : String) (request : Task) (anyoneRejected : Bool) : Service Task :=
  locked .decide do
    let task ← readTask M userId request.taskId
    removeTaskOldStatus M userId task
    let task := { task with status := if anyoneRejected then "rejected" else "started" }
    storeTask M .decide userId task
    addTaskNewStatus M userId task
    .ret task

/-- The initiator tells the others. -/
def broadcast (userId : String) (task : Task) : Service Unit := do
  let initiator ← unwrap task.participants[0]?
  if initiator.userId = userId ∧ 2 < task.participants.length then
    (task.participants.drop 1).foldlM (fun _ p => sendInterCoreSyncTask M userId p.userId task) ()
  else .ret ()

def interCoreSyncTask (metadata : Metadata) (request : Task) : Service Unit := do
  checkPrivilegeIn metadata ["user","guest"]
  let userId ← unwrap metadata.userId
  match metadata.forwardingTarget with
  | some value => do
    let forwardingTarget ← unwrap value.toStr
    forwardInterCoreSyncTask userId forwardingTarget request
  | none => do
    let present ← internalStorageContains userId ("tasks:" ++ request.taskId)
    if !present then admitTask M userId request
    else do
      let task ← mergeDecisions M userId request
      if task.status = "started" ∨ task.status = "rejected" then .ret ()
      else if isDecided task then do
        let task ← changeStatus M userId request (anyoneRejected task)
        broadcast M userId task
      else .ret ()

def interCoreSyncTaskWithReverseConnection (metadata : Metadata) (request : Task) :
    Service Unit := do
  let userId ← unwrap metadata.userId
  let receiver ← unwrap request.participants[0]?
  interCoreSyncTask M metadata request
  perform (.sendersInsert userId receiver.userId)

end TaskService
end CoLinkServer
