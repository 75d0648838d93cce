import CoLinkServer.TaskOperations
import CoLinkServer.TaskSystem

/-! What a thread has done by the time it writes to the storage or sends a message. For every
write and every message the obligation says which handler is at work, what it has read and
which checks have been passed; it is met on every path through the handlers. -/
namespace CoLinkServer

open Interleaving

/-- The six statuses that the server writes. -/
def statuses : List String := ["waiting","approved","started","rejected","ignored","finished"]

/-- The task id makes the key of the record that of the status list, or of its pointer. -/
def Collides (taskId status : String) : Prop :=
  taskId = "status:" ++ status ∨ taskId = "status:" ++ status ++ ":latest"

def Reserved (taskId : String) : Prop := ∃ s ∈ statuses, Collides taskId s

/-- The task that a synchronisation request brings. -/
def TaskCall.synced : TaskCall → Option Task
  | .interCoreSyncTask task => some task
  | .interCoreSyncTaskWithReverseConnection task => some task
  | _ => none

namespace TaskTraces

/-- The last operation on the mutex was to take it. -/
def held : List TaskEvent → Bool
  | [] => false
  | ⟨.lock _,_⟩ :: _ => true
  | ⟨.unlock _,_⟩ :: _ => false
  | _ :: h => held h

/-- What the thread has last read from a key or written to it since it took the mutex. -/
def knows (u k : String) : List TaskEvent → Option Bytes
  | [] => none
  | ⟨.lock _,_⟩ :: _ => none
  | ⟨.unlock _,_⟩ :: _ => none
  | ⟨.storageRead u' k',.ok payload⟩ :: h => if u' = u ∧ k' = k then some payload else knows u k h
  | ⟨.storageUpdate _ u' k' payload,_⟩ :: h =>
    if u' = u ∧ k' = k then some payload else knows u k h
  | _ :: h => knows u k h

def targets : List TaskEvent → List String
  | [] => []
  | ⟨.post m,_⟩ :: h => m.target :: targets h
  | ⟨.sendersSend _ v _,.ok _⟩ :: h => v :: targets h
  | _ :: h => targets h

/-- The handler acts for `u`, who has been found among the imported users. -/
def ActsFor (q : Request) (u : String) (h : List TaskEvent) : Prop :=
  q.metadata.userId = some u ∧ ⟨.importedUsersContains u,true⟩ ∈ h

/-- The id has just been generated, and nothing has been stored since. -/
def Introduces (id : String) (h : List TaskEvent) : Prop :=
  ∃ added before, h = added ++ ⟨.newUuid,id⟩ :: before ∧
    ∀ e ∈ added, e.1.kind ≠ .storageUpdate ∧ e.1.kind ≠ .newUuid

/-- The decisions after those of the request have been taken over: each is the stored one or
one that has been checked, and none that the request brings for somebody else is left out. -/
structure Taken (u : String) (request task : Task) (decisions : List Decision)
    (h : List TaskEvent) : Prop where
  length : decisions.length = task.decisions.length
  source : ∀ (j : ℕ) (d : Decision), decisions[j]? = some d →
    task.decisions[j]? = some d ∨ ∃ p, task.participants[j]? = some p ∧ p.userId ≠ u ∧
      request.decisions[j]? = some d ∧ d ≠ default ∧
      ∃ task', task'.terms = task.terms ∧ ⟨.checkDecision d p.userId task',.ok ()⟩ ∈ h
  carried : ∀ (j : ℕ) (p : Participant) (d : Decision), task.participants[j]? = some p →
    p.userId ≠ u → request.decisions[j]? = some d → d ≠ default → decisions[j]? = some d

/-- The decisions after the user's own one has been entered. -/
def Entered (u : String) (userDecision : Decision) (task : Task) (decisions : List Decision)
    (h : List TaskEvent) : Prop :=
  decisions.length = task.decisions.length ∧ ∀ (j : ℕ) (p : Participant),
    task.participants[j]? = some p →
    if p.userId = u then ∃ d, decisions[j]? = some d ∧ ∃ task' bs, task'.terms = task.terms ∧
      ⟨.makeDecision userDecision.isApproved userDecision.isRejected userDecision.reason u task' bs,
        .ok d⟩ ∈ h
    else decisions[j]? = task.decisions[j]?

/-- A new task as `create_task` stores it, up to the initiator's decision. -/
def newTask (request : Task) (taskId : String) : Task :=
  { request with
    decisions := TaskService.resize request.decisions request.participants.length
    taskId := taskId
    status := if request.requireAgreement && decide (1 < request.participants.length)
      then "approved" else "started" }

/-- The record of a task is about to be written. -/
inductive Stores (M : Prost) (q : Request) (u : String) (h : List TaskEvent) : Site → Task → Prop
  | create {request : Task} {id : String} {bs : Bytes} {d : Decision}
      (call : q.call = .createTask request) (introduced : Introduces id h)
      (made : ⟨.makeDecision true false "" u (newTask request id) bs,.ok d⟩ ∈ h)
      (room : 0 < request.participants.length) :
      Stores M q u h .create { newTask request id with
        decisions := (newTask request id).decisions.set 0 d }
  | query {id target : String} {now : ℤ} {d : Decision} (introduced : Introduces id h) :
      Stores M q u h .query { TaskService.registryTask M id u target now with decisions := [d] }
  | admission {request : Task} {p : Participant} {d : Decision}
      (sync : q.call.synced = some request) (direct : q.metadata.forwardingTarget = none)
      (initiator : request.participants[0]? = some p) (decision : request.decisions[0]? = some d)
      (approved : d.isApproved)
      (steps : h = [⟨.checkDecision d p.userId request,.ok ()⟩,
        ⟨.storageContains u (recordKey request.taskId),false⟩,⟨.importedUsersContains u,true⟩]) :
      Stores M q u h .admission { request with status := "waiting" }
  | merge {request task : Task} {payload : Bytes} {decisions : List Decision}
      (sync : q.call.synced = some request) (direct : q.metadata.forwardingTarget = none)
      (holds : held h) (read : ⟨.storageRead u (recordKey request.taskId),.ok payload⟩ ∈ h)
      (known : knows u (recordKey request.taskId) h = some payload)
      (decoded : M.task.decode payload = some task) (agreement : task.requireAgreement)
      (taken : Taken u request task decisions h) :
      Stores M q u h .merge { task with decisions := decisions }
  | decide {request task merged : Task} {payload : Bytes} {r : Except UpdateError String}
      (sync : q.call.synced = some request) (direct : q.metadata.forwardingTarget = none)
      (holds : held h) (read : ⟨.storageRead u (recordKey request.taskId),.ok payload⟩ ∈ h)
      (known : ¬ Collides request.taskId task.status →
        knows u (recordKey request.taskId) h = some payload)
      (decoded : M.task.decode payload = some task)
      (stored : ⟨.storageUpdate .merge u (recordKey merged.taskId) (M.task.encode merged),r⟩ ∈ h)
      (undecided : merged.status ≠ "started" ∧ merged.status ≠ "rejected")
      (verdict : TaskService.isDecided merged) :
      Stores M q u h .decide { task with
        status := if TaskService.anyoneRejected merged then "rejected" else "started" }
  | confirm {request : ConfirmTaskRequest} {userDecision : Decision} {status : String} {task : Task}
      {payload : Bytes} {decisions : List Decision} (call : q.call = .confirmTask request)
      (decision : request.decision = some userDecision)
      (reported : TaskService.userStatus userDecision = .ret status)
      (holds : held h) (read : ⟨.storageRead u (recordKey request.taskId),.ok payload⟩ ∈ h)
      (known : ¬ Collides request.taskId task.status →
        knows u (recordKey request.taskId) h = some payload)
      (decoded : M.task.decode payload = some task) (waiting : task.status = "waiting")
      (entered : Entered u userDecision task decisions h) :
      Stores M q u h .confirm { task with
        decisions := decisions
        status := TaskService.confirmedStatus status { task with decisions := decisions } }
  | finish {request task : Task} {payload : Bytes} (call : q.call = .finishTask request)
      (holds : held h) (read : ⟨.storageRead u (recordKey request.taskId),.ok payload⟩ ∈ h)
      (known : ¬ Collides request.taskId task.status →
        knows u (recordKey request.taskId) h = some payload)
      (decoded : M.task.decode payload = some task) (started : task.status = "started") :
      Stores M q u h .finish { task with status := "finished" }

/-- `k` is one of the two lists in which a task with this status is kept. -/
def ListOf (u : String) (task : Task) (k : String) : Prop :=
  k = "_internal:" ++ TaskService.protocolListKey u task ∨
    k = "_internal:" ++ TaskService.statusListKey task

/-- The lists of a task are changed: its status is a known one, or has been read again. -/
def Indexes (M : Prost) (q : Request) (u : String) (task : Task) (h : List TaskEvent) : Prop :=
  task.status ∈ statuses ∨ ∃ request payload merged r, q.call.synced = some request ∧
    ⟨.storageRead u (recordKey request.taskId),.ok payload⟩ ∈ h ∧
    M.task.decode payload = some task ∧
    ⟨.storageUpdate .merge u (recordKey merged.taskId) (M.task.encode merged),r⟩ ∈ h

/-- A task is about to be sent to a user. -/
inductive Sends (M : Prost) (q : Request) (u : String) (h : List TaskEvent) : String → Task → Prop
  | create {request task : Task} {target : String} {r : Except UpdateError String}
      (call : q.call = .createTask request)
      (stored : ⟨.storageUpdate .create u (recordKey task.taskId) (M.task.encode task),r⟩ ∈ h)
      (turn : (targets h).reverse ++ [target] <+: (task.participants.drop 1).map (·.userId)) :
      Sends M q u h target task
  | confirm {task : Task} {initiator : Participant} {r : Except UpdateError String}
      (stored : ⟨.storageUpdate .confirm u (recordKey task.taskId) (M.task.encode task),r⟩ ∈ h)
      (first : task.participants[0]? = some initiator) :
      Sends M q u h initiator.userId { taskId := task.taskId, decisions := task.decisions }
  | broadcast {task : Task} {initiator : Participant} {target : String} {r : Except UpdateError String}
      (stored : ⟨.storageUpdate .decide u (recordKey task.taskId) (M.task.encode task),r⟩ ∈ h)
      (first : task.participants[0]? = some initiator) (self : initiator.userId = u)
      (turn : (targets h).reverse ++ [target] <+: (task.participants.drop 1).map (·.userId)) :
      Sends M q u h target task
  | forward {request : Task} {target : String} (sync : q.call.synced = some request)
      (forwarded : q.metadata.forwardingTarget = some ⟨some target⟩) (fresh : targets h = []) :
      Sends M q u h target request

/-- What has to hold when the newest event happens. -/
def Obligation (M : Prost) (q : Request) : List TaskEvent → Prop
  | [] => True
  | ⟨.storageUpdate site u k payload,_⟩ :: h => ActsFor q u h ∧ match site with
    | .list => held h ∧ ∃ task list, ListOf u task k ∧ payload = M.taskIdList.encode list ∧
        Indexes M q u task h
    | .latest => held h ∧ ∃ task listKey, ListOf u task listKey ∧ k = listKey ++ ":latest" ∧
        payload = M.task.encode { taskId := task.taskId } ∧ Indexes M q u task h
    | site => ∃ task, k = recordKey task.taskId ∧ payload = M.task.encode task ∧
        Stores M q u h site task
  | ⟨.post m,_⟩ :: h => (m.forwardingTarget = none ∨ m.forwardingTarget = some m.target) ∧
      ∃ u, ActsFor q u h ∧ Sends M q u h m.target m.task
  | ⟨.sendersSend u v task,_⟩ :: h => ActsFor q u h ∧ Sends M q u h v task
  | _ :: _ => True

end TaskTraces
end CoLinkServer
