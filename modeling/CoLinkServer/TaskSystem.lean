import CoLinkServer.BasicStorage
import CoLinkServer.TaskService

/-! Any number of cores with any number of requests in progress. A request may arrive at any
time and with any content; between two operations of one request those of others may be
performed. -/
namespace CoLinkServer

open Interleaving

inductive TaskCall
  | createTask (task : Task)
  | confirmTask (request : ConfirmTaskRequest)
  | finishTask (task : Task)
  | interCoreSyncTask (task : Task)
  | interCoreSyncTaskWithReverseConnection (task : Task)
deriving DecidableEq

/-- `message` is the number of the message that carries the request, if a core has sent it. -/
structure Request where
  core : ℕ
  metadata : Metadata
  call : TaskCall
  message : Option ℕ := none
deriving DecidableEq

def TaskCall.taskId : TaskCall → String
  | .createTask task => task.taskId
  | .confirmTask request => request.taskId
  | .finishTask task => task.taskId
  | .interCoreSyncTask task => task.taskId
  | .interCoreSyncTaskWithReverseConnection task => task.taskId

structure Core where
  storage : StorageMap Bytes
  clock : ℤ
  importedUsers : Finset String
  imported_noColon : ∀ u ∈ importedUsers, NoColon u
  taskStorageMutex : Option ℕ
  reverseHandlersMutex : Option ℕ
  reverseSenders : Finset (String × String)
  reverseHandlers : Finset (String × String)

/-- A task on its way to a user, in a call or through a reverse connection. -/
structure Envelope where
  target : String
  forwardingTarget : Option String
  reverse : Bool
  task : Task
deriving DecidableEq

/-- `sent` holds every message ever sent, under its number, and `outcomes` what came of
handling them. An id is used once a request or
`new_uuid` has produced it, and pending from `new_uuid` until the task is stored: only then
can somebody else have seen it. -/
structure World where
  cores : ℕ → Core
  sent : List Envelope
  outcomes : List (ℕ × Except Abort Unit)
  usedIds : Finset String
  pendingIds : Finset String

/-- What is fixed in a run. `tick` says which clock readings may follow each other. -/
structure Deployment where
  primitives : Primitives
  prost : Prost
  keys : ℕ → Keys primitives
  interCoreReverseMode : ℕ → Bool
  tick : ℤ → ℤ → Prop

def recordKey (taskId : String) : String := "_internal:" ++ ("tasks:" ++ taskId)

namespace World

def setCore (w : World) (i : ℕ) (c : Core) : World :=
  { w with cores := Function.update w.cores i c }

def send (w : World) (e : Envelope) : World := { w with sent := w.sent ++ [e] }

def reply (w : World) (message : Option ℕ) (outcome : Except Abort Unit) : World :=
  { w with outcomes := (message.map fun id => (id,outcome)).toList ++ w.outcomes }

/-- The id of a stored task is no longer pending. -/
def stored (w : World) (keyName : String) : World :=
  { w with pendingIds := w.pendingIds.filter fun id => keyName ≠ recordKey id }

def read (w : World) (i : ℕ) (userId keyName : String) : Option Bytes :=
  BasicStorage.value (w.cores i).storage userId keyName

@[simp] theorem setCore_cores (w : World) (i j : ℕ) (c : Core) :
    (w.setCore i c).cores j = if j = i then c else w.cores j := by
  simp [setCore,Function.update_apply]
@[simp] theorem setCore_sent (w : World) (i : ℕ) (c : Core) : (w.setCore i c).sent = w.sent := rfl
@[simp] theorem setCore_outcomes (w : World) (i : ℕ) (c : Core) :
    (w.setCore i c).outcomes = w.outcomes := rfl
@[simp] theorem setCore_usedIds (w : World) (i : ℕ) (c : Core) :
    (w.setCore i c).usedIds = w.usedIds := rfl
@[simp] theorem setCore_pendingIds (w : World) (i : ℕ) (c : Core) :
    (w.setCore i c).pendingIds = w.pendingIds := rfl
@[simp] theorem send_cores (w : World) (e : Envelope) : (w.send e).cores = w.cores := rfl
@[simp] theorem send_sent (w : World) (e : Envelope) : (w.send e).sent = w.sent ++ [e] := rfl
@[simp] theorem send_usedIds (w : World) (e : Envelope) : (w.send e).usedIds = w.usedIds := rfl
@[simp] theorem send_pendingIds (w : World) (e : Envelope) :
    (w.send e).pendingIds = w.pendingIds := rfl
@[simp] theorem reply_cores (w : World) (m : Option ℕ) (r : Except Abort Unit) :
    (w.reply m r).cores = w.cores := rfl
@[simp] theorem reply_sent (w : World) (m : Option ℕ) (r : Except Abort Unit) :
    (w.reply m r).sent = w.sent := rfl
@[simp] theorem reply_usedIds (w : World) (m : Option ℕ) (r : Except Abort Unit) :
    (w.reply m r).usedIds = w.usedIds := rfl
@[simp] theorem reply_pendingIds (w : World) (m : Option ℕ) (r : Except Abort Unit) :
    (w.reply m r).pendingIds = w.pendingIds := rfl
@[simp] theorem stored_cores (w : World) (k : String) : (w.stored k).cores = w.cores := rfl
@[simp] theorem stored_sent (w : World) (k : String) : (w.stored k).sent = w.sent := rfl
@[simp] theorem stored_usedIds (w : World) (k : String) : (w.stored k).usedIds = w.usedIds := rfl
theorem mem_stored_pendingIds {w : World} {k id : String} :
    id ∈ (w.stored k).pendingIds ↔ id ∈ w.pendingIds ∧ k ≠ recordKey id := by simp [stored]

end World

/-- The key names that only the task service writes. -/
def Guarded (keyName : String) : Prop :=
  "_internal:tasks:".toList <+: keyName.toList ∨ "_internal:protocols:".toList <+: keyName.toList

namespace Deployment

variable (D : Deployment)

def handle (q : Request) : Service Unit :=
  match q.call with
  | .createTask task => do
    let _ ← TaskService.createTask D.prost (D.interCoreReverseMode q.core) q.metadata task
    .ret ()
  | .confirmTask request => TaskService.confirmTask D.prost q.metadata request
  | .finishTask task => TaskService.finishTask D.prost q.metadata task
  | .interCoreSyncTask task => TaskService.interCoreSyncTask D.prost q.metadata task
  | .interCoreSyncTaskWithReverseConnection task =>
    TaskService.interCoreSyncTaskWithReverseConnection D.prost q.metadata task

def serve (q : Request) : Service Unit := do
  let r ← (D.handle q).attempt
  perform (.reply r)
  Prog.ofExcept r

/-- `D.Exec t q w o r w'`: thread `t`, serving `q`, performs `o` with result `r`. -/
inductive Exec (t : ℕ) (q : Request) (w : World) : (o : Op) → Res o → World → Prop
  | importedUsersContains (userId : String) :
      Exec t q w (.importedUsersContains userId) (decide (userId ∈ (w.cores q.core).importedUsers)) w
  /-- An error comes from the notification, when the value has been written. Others may write the
  `mq_uri` in between, so that the notification can find any. -/
  | storageUpdate (site : Site) (userId keyName : String) (payload : Bytes) (now : ℤ)
      (r : Except UpdateError String) (tick : D.tick (w.cores q.core).clock now)
      (result : r = (BasicStorage.update (w.cores q.core).storage userId keyName payload now).1.mapError
        .failed ∨ ∃ e, r = .error e) :
      Exec t q w (.storageUpdate site userId keyName payload) r
        ((w.setCore q.core { w.cores q.core with
            storage := (BasicStorage.update (w.cores q.core).storage userId keyName payload now).2
            clock := now }).stored keyName)
  | storageRead (userId keyName : String) :
      Exec t q w (.storageRead userId keyName)
        (BasicStorage.readKeyName (w.cores q.core).storage userId keyName) w
  | storageContains (userId keyName : String) :
      Exec t q w (.storageContains userId keyName)
        (BasicStorage.readFromKeyNames (w.cores q.core).storage userId [keyName]).toBool w
  | lock (s : Section) (free : (w.cores q.core).taskStorageMutex = none) :
      Exec t q w (.lock s) () (w.setCore q.core { w.cores q.core with taskStorageMutex := some t })
  | unlock (s : Section) (held : (w.cores q.core).taskStorageMutex = some t) :
      Exec t q w (.unlock s) () (w.setCore q.core { w.cores q.core with taskStorageMutex := none })
  | utcNow (now : ℤ) (tick : D.tick (w.cores q.core).clock now) :
      Exec t q w .utcNow (now / 1000000000) (w.setCore q.core { w.cores q.core with clock := now })
  | newUuid (id : String) (format : NoColon id) (fresh : id ∉ w.usedIds) :
      Exec t q w .newUuid id
        { w with usedIds := insert id w.usedIds, pendingIds := insert id w.pendingIds }
  | sleep : Exec t q w .sleep () w
  | checkDecision (decision : Decision) (userId : String) (task : Task) (now : ℤ)
      (tick : D.tick (w.cores q.core).clock now) :
      Exec t q w (.checkDecision decision userId task)
        (CoLinkServer.checkDecision D.primitives D.prost (now / 1000000000) decision userId task)
        (w.setCore q.core { w.cores q.core with clock := now })
  | makeDecision (isApproved isRejected : Bool) (reason userId : String) (task : Task)
      (userConsentBytes : Bytes) :
      Exec t q w (.makeDecision isApproved isRejected reason userId task userConsentBytes)
        (CoLinkServer.makeDecision D.primitives D.prost (D.keys q.core) isApproved isRejected
          reason task userConsentBytes) w
  | sendersContains (userId targetUserId : String) :
      Exec t q w (.sendersContains userId targetUserId)
        (decide ((userId,targetUserId) ∈ (w.cores q.core).reverseSenders)) w
  | sendersSend (userId targetUserId : String) (task : Task)
      (present : (userId,targetUserId) ∈ (w.cores q.core).reverseSenders) :
      Exec t q w (.sendersSend userId targetUserId task) (.ok ())
        (w.send ⟨targetUserId,none,false,task⟩)
  /-- The receiver is gone. -/
  | sendersClosed (userId targetUserId : String) (task : Task) (e : String)
      (present : (userId,targetUserId) ∈ (w.cores q.core).reverseSenders) :
      Exec t q w (.sendersSend userId targetUserId task) (.error (.internal e)) w
  | sendersMissing (userId targetUserId : String) (task : Task)
      (absent : (userId,targetUserId) ∉ (w.cores q.core).reverseSenders) :
      Exec t q w (.sendersSend userId targetUserId task) (.error .panic) w
  | sendersInsert (userId receiverUserId : String) :
      Exec t q w (.sendersInsert userId receiverUserId) () (w.setCore q.core { w.cores q.core with
        reverseSenders := insert (userId,receiverUserId) (w.cores q.core).reverseSenders })
  | lockHandlers (free : (w.cores q.core).reverseHandlersMutex = none) :
      Exec t q w .lockHandlers ()
        (w.setCore q.core { w.cores q.core with reverseHandlersMutex := some t })
  | unlockHandlers (held : (w.cores q.core).reverseHandlersMutex = some t) :
      Exec t q w .unlockHandlers ()
        (w.setCore q.core { w.cores q.core with reverseHandlersMutex := none })
  /-- A handler that is in the map may have finished. -/
  | handlerRunning (userId targetUserId : String) (r : Bool)
      (present : r → (userId,targetUserId) ∈ (w.cores q.core).reverseHandlers) :
      Exec t q w (.handlerRunning userId targetUserId) r w
  | spawnHandler (userId targetUserId : String) :
      Exec t q w (.spawnHandler userId targetUserId) () (w.setCore q.core { w.cores q.core with
        reverseHandlers := insert (userId,targetUserId) (w.cores q.core).reverseHandlers })
  | grpcConnect (address : String) (r : Except String Unit) : Exec t q w (.grpcConnect address) r w
  | post (m : Outgoing) : Exec t q w (.post m) w.sent.length
      (w.send ⟨m.target,m.forwardingTarget,m.reverse,m.task⟩)
  /-- A call may fail on the way, but it only succeeds if it has been handled. -/
  | response (id : ℕ) (r : Except Abort Unit) (handled : r = .ok () → (id,.ok ()) ∈ w.outcomes) :
      Exec t q w (.response id) r w
  | reply (outcome : Except Abort Unit) :
      Exec t q w (.reply outcome) () (w.reply q.message outcome)

/-- The request is what the message `e` turns into at its target, or at a core that is to
forward it. -/
def Carries (q : Request) (e : Envelope) : Prop :=
  q.call = (if e.reverse then .interCoreSyncTaskWithReverseConnection e.task
    else .interCoreSyncTask e.task) ∧
  q.metadata.forwardingTarget = e.forwardingTarget.map .ofStr ∧
  (e.forwardingTarget = none → q.metadata.userId = some e.target)

/-- A request arrives. Nobody can know the id of a task that is not stored yet. -/
def start (q : Request) (w w' : World) : Prop :=
  q.call.taskId ∉ w.pendingIds ∧
  (∀ id, q.message = some id → ∃ e, w.sent[id]? = some e ∧ Carries q e) ∧
  w' = { w with usedIds := insert q.call.taskId w.usedIds }

/-- The rest of the server imports users and uses the storage for its own keys and those of its
clients. That a client leaves the guarded keys alone is assumed, not checked by the storage service. -/
inductive Env (w : World) : World → Prop
  | importUser (i : ℕ) (userId : String) (h : NoColon userId) :
      Env w (w.setCore i { w.cores i with
        importedUsers := insert userId (w.cores i).importedUsers
        imported_noColon := by
          intro u hu
          rcases Finset.mem_insert.mp hu with rfl | hu
          · exact h
          · exact (w.cores i).imported_noColon u hu })
  | storage (i : ℕ) (call : BasicStorage.Call Bytes) (now : ℤ) (user : NoColon call.userId)
      (key : ¬ Guarded call.keyName) (tick : D.tick (w.cores i).clock now) :
      Env w (w.setCore i { w.cores i with
        storage := (BasicStorage.perform (w.cores i).storage now call).2
        clock := now })

def system : System Op Res Abort Request Unit World where
  body := D.serve
  exec t q o s r w' := D.Exec t q s.shared o r w'
  start _ q s w' := start q s.shared w'
  env s w' := D.Env s.shared w'

def Init (w : World) : Prop :=
  (∀ i, (w.cores i).storage = BasicStorage.empty ∧ (w.cores i).taskStorageMutex = none ∧
    (w.cores i).reverseHandlersMutex = none ∧ (w.cores i).reverseSenders = ∅ ∧
    (w.cores i).reverseHandlers = ∅) ∧
  w.sent = [] ∧ w.outcomes = [] ∧ w.usedIds = ∅ ∧ w.pendingIds = ∅

abbrev Reach : Config Op Res Abort Request Unit World → Prop := D.system.Reach Init

end Deployment
end CoLinkServer
