import CoLinkServer.SelfDelimiting

/-! The messages that the task service stores and exchanges, with the fields that the server
reads or writes, and the ways in which a request can end early. Fields left out of a
structure literal have the default values of the message format. -/
namespace CoLinkServer

structure Participant where
  userId : String := ""
  role : String := ""
deriving DecidableEq

structure UserConsent where
  publicKey : Bytes := []
  signatureTimestamp : ℤ := 0
  expirationTimestamp : ℤ := 0
  signature : Bytes := []
deriving DecidableEq

structure Decision where
  isApproved : Bool := false
  isRejected : Bool := false
  reason : String := ""
  userConsent : Option UserConsent := none
  corePublicKey : Bytes := []
  signature : Bytes := []
deriving DecidableEq

instance : Inhabited Decision := ⟨{}⟩

structure Task where
  taskId : String := ""
  protocolName : String := ""
  protocolParam : Bytes := []
  participants : List Participant := []
  requireAgreement : Bool := false
  status : String := ""
  expirationTime : ℤ := 0
  decisions : List Decision := []
deriving DecidableEq

structure CoLinkInternalTaskIdWithKeyPath where
  keyPath : String := ""
  taskId : String := ""
deriving DecidableEq

structure CoLinkInternalTaskIdList where
  taskIdsWithKeyPaths : List CoLinkInternalTaskIdWithKeyPath := []
deriving DecidableEq

structure ConfirmTaskRequest where
  taskId : String := ""
  decision : Option Decision := none
deriving DecidableEq

/-- A value in the metadata of a request. `to_str` fails when it is not all visible ASCII. -/
structure MetadataValue where
  toStr : Option String
deriving DecidableEq

/-- The value that holds the bytes of a text. -/
def MetadataValue.ofStr (s : String) : MetadataValue where
  toStr := if s.toList.all fun c => decide (32 ≤ c.toNat ∧ c.toNat < 127 ∨ c.toNat = 9) then some s
    else none

theorem MetadataValue.eq_of_ofStr {s v : String} (h : ofStr s = ⟨some v⟩) : s = v := by
  unfold ofStr at h
  split_ifs at h
  · simpa using h
  · simp at h

namespace Decision

/-- `is_approved && !is_rejected` -/
def approves (d : Decision) : Bool := d.isApproved && !d.isRejected

/-- `!is_approved && is_rejected` -/
def rejects (d : Decision) : Bool := !d.isApproved && d.isRejected

/-- `is_approved ^ is_rejected` -/
def isValid (d : Decision) : Bool := d.isApproved ^^ d.isRejected

theorem isValid_eq (d : Decision) : d.isValid = (d.approves || d.rejects) := by
  cases ha : d.isApproved <;> cases hr : d.isRejected <;> simp [isValid,approves,rejects,ha,hr]

theorem not_rejects_of_approves {d : Decision} (h : d.approves) : d.rejects = false := by
  simp only [approves,Bool.and_eq_true] at h
  simp [rejects,h.1]

end Decision

namespace Task

/-- What a signature covers: the task without its decisions and its status. -/
def terms (t : Task) : Task := { t with decisions := [], status := "" }

/-- The role of a user, for the last participant entry that names it. -/
def roleOf (t : Task) (userId : String) : String :=
  t.participants.foldl (fun role p => if p.userId = userId then p.role else role) ""

@[simp] theorem terms_decisions (t : Task) (ds : List Decision) :
    { t with decisions := ds }.terms = t.terms := rfl

theorem eq_of_terms_eq {t t' : Task} (h : t.terms = t'.terms) :
    t.taskId = t'.taskId ∧ t.protocolName = t'.protocolName ∧ t.participants = t'.participants ∧
      t.requireAgreement = t'.requireAgreement ∧ t.expirationTime = t'.expirationTime := by
  simp only [terms,mk.injEq] at h
  exact ⟨h.1,h.2.1,h.2.2.2.1,h.2.2.2.2.1,h.2.2.2.2.2.2.1⟩

end Task

inductive StatusCode
  | unknown | invalidArgument | notFound | permissionDenied | failedPrecondition | aborted | internal
  | unauthenticated
deriving DecidableEq

structure Status where
  code : StatusCode
  message : String
deriving DecidableEq

/-- An error that is reported to the client, or a panic of the handler. -/
inductive Abort
  | status (s : Status)
  | panic
deriving DecidableEq

namespace Abort

def internal (message : String) : Abort := .status ⟨.internal,message⟩
def invalidArgument (message : String) : Abort := .status ⟨.invalidArgument,message⟩
def permissionDenied (message : String) : Abort := .status ⟨.permissionDenied,message⟩
def failedPrecondition (message : String) : Abort := .status ⟨.failedPrecondition,message⟩
def notFound (message : String) : Abort := .status ⟨.notFound,message⟩
def aborted (message : String) : Abort := .status ⟨.aborted,message⟩
def unauthenticated (message : String) : Abort := .status ⟨.unauthenticated,message⟩

end Abort

def text (payload : Bytes) : Option String := String.fromUTF8? ⟨payload.toArray⟩

/-- The address of the message queue, as far as a user account is given one of its own from it. -/
structure Url where
  host : Option String
deriving DecidableEq

/-- What a storage update can end in other than a key path. The notification of the subscribers
reads the user's `_internal:mq_uri`, and panics if it is no text. Where there is none, an account is
made, with a panic if the server's address of the message queue names no host. -/
inductive UpdateError
  | failed (e : String)
  | garbledUri (uri : Bytes) (noText : text uri = none)
  | hostless (admin : Url) (noHost : admin.host = none)
deriving DecidableEq

namespace UpdateError

def abort : UpdateError → Abort
  | .failed e => .internal e
  | .garbledUri _ _ => .panic
  | .hostless _ _ => .panic

/-- The addresses that the notification looks at are as it expects them. -/
def Addressed : UpdateError → Prop
  | .failed _ => True
  | .garbledUri uri _ => (text uri).isSome
  | .hostless admin _ => admin.host.isSome

theorem abort_ne_panic {e : UpdateError} (he : e.Addressed) : e.abort ≠ .panic := by
  cases e with
  | failed e => exact nofun
  | garbledUri uri noText =>
    rw [Addressed,noText] at he
    cases he
  | hostless admin noHost =>
    rw [Addressed,noHost] at he
    cases he

end UpdateError

/-- The encoding of one type of message. What is decoded after having been encoded is
unchanged. -/
structure Message (α : Type) where
  encode : α → Bytes
  decode : Bytes → Option α
  decode_encode : ∀ a, decode (encode a) = some a

theorem Message.encode_inj {α : Type} (m : Message α) {a b : α} (h : m.encode a = m.encode b) :
    a = b := by
  have hd := congrArg m.decode h
  rwa [m.decode_encode,m.decode_encode,Option.some_inj] at hd

attribute [simp] Message.decode_encode

def Code.message {α : Type} (c : Code α) : Message α := ⟨c.enc,c.decode,c.decode_enc⟩

/-- The encodings of the messages that are stored or signed. A list of task ids has no fields
but its first one, so as a task it has no status and asks for no agreement. -/
structure Prost where
  task : Message Task
  decision : Message Decision
  userConsent : Message UserConsent
  taskIdList : Message CoLinkInternalTaskIdList
  userRecord : Message String
  taskIdList_as_task : ∀ list t, task.decode (taskIdList.encode list) = some t →
    t.status = "" ∧ t.requireAgreement = false

namespace Code

def participant : Code Participant := (string.pair string).via
  (fun p => (p.userId,p.role)) (fun p => ⟨p.1,p.2⟩) (fun _ => rfl)

def userConsent : Code UserConsent := (bytes.pair (int.pair (int.pair bytes))).via
  (fun c => (c.publicKey,c.signatureTimestamp,c.expirationTimestamp,c.signature))
  (fun p => ⟨p.1,p.2.1,p.2.2.1,p.2.2.2⟩) (fun _ => rfl)

def decision : Code Decision :=
  (bool.pair (bool.pair (string.pair (userConsent.option.pair (bytes.pair bytes))))).via
  (fun d => (d.isApproved,d.isRejected,d.reason,d.userConsent,d.corePublicKey,d.signature))
  (fun p => ⟨p.1,p.2.1,p.2.2.1,p.2.2.2.1,p.2.2.2.2.1,p.2.2.2.2.2⟩) (fun _ => rfl)

def task : Code Task :=
  (string.pair (string.pair (bytes.pair (participant.list.pair
    (bool.pair (string.pair (int.pair decision.list))))))).via
  (fun t => (t.taskId,t.protocolName,t.protocolParam,t.participants,t.requireAgreement,t.status,
    t.expirationTime,t.decisions))
  (fun p => ⟨p.1,p.2.1,p.2.2.1,p.2.2.2.1,p.2.2.2.2.1,p.2.2.2.2.2.1,p.2.2.2.2.2.2.1,
    p.2.2.2.2.2.2.2⟩) (fun _ => rfl)

def taskIdList : Code CoLinkInternalTaskIdList := (string.pair string).list.via
  (fun l => l.taskIdsWithKeyPaths.map fun e => (e.keyPath,e.taskId))
  (fun l => ⟨l.map fun p => ⟨p.1,p.2⟩⟩) (fun l => by simp [Function.comp_def])

end Code

/-- One way to encode the messages. -/
def Prost.selfDelimiting : Prost where
  task := (Code.task.tagged 0).message
  decision := Code.decision.message
  userConsent := Code.userConsent.message
  taskIdList := (Code.taskIdList.tagged 1).message
  userRecord := Code.string.message
  taskIdList_as_task list t h := by
    have hkind : (1 : UInt8) ≠ 0 := by decide
    have hn := Code.task.decode_tagged_of_ne Code.taskIdList hkind list
    exact absurd (hn.symm.trans h) (by simp)

end CoLinkServer
