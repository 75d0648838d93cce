import CoLinkServer.ProtocolOperators
import CoLinkServer.Schedules
import CoLinkServer.ThreadTraces
import CoLinkServer.TokenService

/-! The initialisation of an imported user. The import spawns a task that starts the operators of
the configured protocols, every protocol in a task of its own, and goes on at the same time. -/
namespace CoLinkServer

namespace UserInit

open Interleaving Authorization
open TokenService (token getHostId secondsFrom)

/-- `toml::Value`; a number with a fraction and a date are kept as they are written. -/
inductive Value
  | string (s : String)
  | integer (n : ℤ)
  | float (text : String)
  | boolean (b : Bool)
  | datetime (text : String)
  | array (values : List Value)
  | table (entries : List (String × Value))

namespace Value

/-- Only a table has something under a name. -/
def get (name : String) : Value → Option Value
  | .table entries => entries.lookup name
  | _ => none

def asStr : Value → Option String
  | .string s => some s
  | _ => none

def asInteger : Value → Option ℤ
  | .integer n => some n
  | _ => none

def asArray : Value → Option (List Value)
  | .array values => some values
  | _ => none

def asTable : Value → Option (List (String × Value))
  | .table entries => some entries
  | _ => none

end Value

/-- What ends a task or a request before its end. -/
inductive Failure
  | abort (e : Abort)
  | text (message : String)
  | joinError

/-- Where a core finds its files, and what is in them. -/
structure Server where
  core : TokenService.Core
  coreUri : Option String
  listOfString : Message (List String)
  findResourceFile : String → Except Status String
  readToString : String → Option String
  parse : String → Except String Value

def Server.operators (S : Server) : ProtocolOperators.Server where
  hostId := getHostId S.core
  coreUri := S.coreUri
  listOfString := S.listOfString

/-- The tasks that are spawned; the authorization is the token of the user. -/
inductive Task
  | userInit (userId userJwt : String)
  | initProtocol (userId userJwt protocolName : String) (initParam : Value)

/-- `finish` notes how a task has ended, and `waitForever` is a loop that does not end. -/
inductive Op
  | operator (o : ProtocolOperators.Op)
  | storageDelete (userId keyName : String)
  | now
  | spawn (task : Task)
  | join (handle : ℕ)
  | finish (handle : ℕ) (outcome : Except Failure Unit)
  | insertImportedUser (userId : String)
  | sleep
  | waitForever

def Res : Op → Type
  | .operator o => ProtocolOperators.Res o
  | .storageDelete _ _ => Except String Unit
  | .now => ℤ
  | .spawn _ => ℕ
  | .join _ => Except Failure Unit
  | .finish _ _ => Unit
  | .insertImportedUser _ => Unit
  | .sleep => Unit
  | .waitForever => Empty

abbrev Service (α : Type) : Type := Prog Op Res Failure α

def perform (o : Op) : Service (Res o) := .call o .ret

def ofService {α : Type} (p : ProtocolOperators.Service α) : Service α :=
  p.lift .operator (fun _ r => r) .abort

def unwrap {α : Type} (a : Option α) : Service α := ofService (ProtocolOperators.unwrap a)

def userStorageUpdate (userId keyName : String) (payload : Bytes) : Service Unit :=
  ofService (ProtocolOperators.storageUpdate userId keyName payload)

def internalStorageUpdate (userId keyName : String) (payload : Bytes) : Service Unit :=
  userStorageUpdate userId ("_internal:" ++ keyName) payload

variable (S : Server) (patience : ℕ)

/-- `user_init_config.toml`, or else the template of it. -/
def readConfig : Service (List (String × Value)) := do
  let path ← match S.findResourceFile "user_init_config.toml" with
    | .ok path => .ret path
    | .error _ => match S.findResourceFile "user_init_config.template.toml" with
      | .ok path => .ret path
      | .error e => .fail (.abort (.status e))
  let text ← unwrap (S.readToString path)
  match S.parse text with
  | .error e => .fail (.text e)
  | .ok toml => unwrap toml.asTable

def isInitializedKey (protocolName : String) : String :=
  "_internal:protocols:" ++ protocolName ++ ":_is_initialized"

/-- The loop is left as soon as the flag is 1; it may run any number of times. -/
def waitProtocolInitialization (userId protocolName : String) : ℕ → Service Unit
  | 0 => do
    let never ← perform .waitForever
    nomatch (never : Empty)
  | patience + 1 => do
    match ← perform (.operator (.storageRead userId (isInitializedKey protocolName))) with
    | .ok [] => .fail (.abort .panic)
    | .ok (flag :: _) =>
      if flag = 1 then .ret ()
      else do
        perform .sleep
        waitProtocolInitialization userId protocolName patience
    | .error _ =>
      perform .sleep
      waitProtocolInitialization userId protocolName patience

/-- The header of the request, and what is put into its metadata without a check of the token. A
user id is hexadecimal, which is always allowed there. -/
def operatorMetadata (userId userJwt : String) : MetadataMap :=
  insert (insert (insert (fun _ => none) "authorization" userJwt) "privilege" "user") "user_id" userId

/-- `_start_protocol_operator` of the initialisation -/
def startOperator (userId userJwt protocolName : String) : Service Unit := do
  let _ ← ofService (ProtocolOperators.startProtocolOperator S.operators
    (operatorMetadata userId userJwt) { protocolName := protocolName, userId := userId })
  .ret ()

def waitStartAfter (userId : String) (initParam : Value) : Service Unit :=
  match initParam.get "start_after" with
  | none => .ret ()
  | some startAfterList => do
    let startAfterList ← unwrap startAfterList.asArray
    startAfterList.foldlM (fun () p => do
      let p ← unwrap p.asStr
      waitProtocolInitialization userId p patience) ()

def createEntries (userId : String) (initParam : Value) : Service Unit :=
  match initParam.get "create_entry" with
  | none => .ret ()
  | some entries => do
    let entries ← unwrap entries.asArray
    entries.foldlM (fun () entry => do
      let keyName ← unwrap ((entry.get "key_name").bind Value.asStr)
      let value ← unwrap ((entry.get "value").bind Value.asStr)
      userStorageUpdate userId keyName (stringBytes value)) ()

def operatorNum (initParam : Value) : Option ℤ := (initParam.get "operator_num").bind Value.asInteger

def initProtocol (userId userJwt protocolName : String) (initParam : Value) : Service Unit := do
  waitStartAfter patience userId initParam
  createEntries userId initParam
  userStorageUpdate userId (isInitializedKey protocolName) [0]
  let operatorNum ← unwrap (operatorNum initParam)
  (List.range operatorNum.toNat).foldlM (fun () _ => startOperator S userId userJwt protocolName) ()
  waitProtocolInitialization userId protocolName patience

/-- A protocol without operators is left out. -/
def spawnInit (userId userJwt : String) (handles : List ℕ) (protocol : String × Value) :
    Service (List ℕ) :=
  match protocol.2.get "operator_num" with
  | none => .ret handles
  | some n => do
    let n ← unwrap n.asInteger
    if n > 0 then do
      let handle : ℕ ← perform (.spawn (.initProtocol userId userJwt protocol.1 protocol.2))
      .ret (handles ++ [handle])
    else .ret handles

def join (handle : ℕ) : Service Unit := do
  match ← perform (.join handle) with
  | .ok () => .ret ()
  | .error (.abort .panic) => .fail .joinError
  | .error e => .fail e

def userInit (userId userJwt : String) : Service Unit := do
  let protocols ← readConfig S
  let handles ← protocols.foldlM (spawnInit userId userJwt) []
  handles.foldlM (fun () handle => join handle) ()
  internalStorageUpdate userId "_is_initialized" [1]

def work : Task → Service Unit
  | .userInit userId userJwt => userInit S userId userJwt
  | .initProtocol userId userJwt protocolName initParam =>
    initProtocol S patience userId userJwt protocolName initParam

def fail {α : Type} (e : Abort) : Service α := .fail (.abort e)

def importUser (metadata : MetadataMap) (body : UserConsent) : Service String := do
  ofService (ProtocolOperators.perform (.checkPrivilegeIn metadata (privileges .importUser))
    >>= Prog.ofExcept)
  if !S.core.timestampInRange body.signatureTimestamp then fail .panic
  else do
    let now : ℤ ← perform .now
    if (secondsFrom body.signatureTimestamp now).natAbs > 10 * 60 then
      fail (.unauthenticated "the timestamp is more than 10 minutes before the current time")
    else do
      let now : ℤ ← perform .now
      match checkUserConsent S.core.P now body S.core.publicKeyVec with
      | .error e => fail e
      | .ok userPublicKeyVec =>
        match S.core.P.publicKeyFromSlice userPublicKeyVec with
        | .error e => fail (.invalidArgument
            ("The public key could not be decoded in compressed serialized format: " ++ e))
        | .ok userPublicKey => do
          let userId := hexEncode (S.core.P.publicKeySerialize userPublicKey)
          internalStorageUpdate userId "user_consent" (S.core.M.userConsent.encode body)
          let jwt := token S.core ⟨"user",userId,body.expirationTimestamp⟩
          userStorageUpdate (getHostId S.core) ("users:" ++ userId ++ ":user_jwt") (stringBytes jwt)
          internalStorageUpdate userId "_is_initialized" [0]
          let _ ← perform (.spawn (.userInit userId jwt))
          perform (.insertImportedUser userId)
          .ret jwt

/-- A client may store or delete whatever it likes. -/
inductive Request
  | importUser (metadata : MetadataMap) (body : UserConsent)
  | spawned (handle : ℕ) (parent : Option ℕ) (task : Task)
  | operator (q : ProtocolOperators.Request)
  | store (userId keyName : String) (payload : Bytes)
  | delete (userId keyName : String)

def serve : Request → Service String
  | .importUser metadata body => importUser S metadata body
  | .spawned handle _ task => do
    let outcome ← (work S patience task).attempt
    perform (.finish handle outcome)
    .ret ""
  | .operator q => ofService (ProtocolOperators.handle S.operators q)
  | .store userId keyName payload => do
    userStorageUpdate userId keyName payload
    .ret ""
  | .delete userId keyName => do
    let _ ← perform (.storageDelete userId keyName)
    .ret ""

abbrev History := List (Action Op Res Request)

/-- The tasks in the order in which they were spawned, with the task that has spawned them, and how
those have ended that have. -/
structure Shared where
  operators : ProtocolOperators.Shared
  spawned : List (Option ℕ × Task)
  outcomes : ℕ → Option (Except Failure Unit)

namespace Shared

def stored (x : Shared) (userId keyName : String) : Option Bytes := x.operators.before userId keyName

def write (x : Shared) (userId keyName : String) (payload : Option Bytes) : Shared :=
  { x with operators := { x.operators with before := fun u k =>
      if u = userId ∧ k = keyName then payload else x.operators.before u k } }

def importedUsers (x : Shared) : Finset String := x.operators.importedUsers

end Shared

/-- The task that spawns something. -/
def Request.handle : Request → Option ℕ
  | .spawned handle _ _ => some handle
  | _ => none

def exec (t : ℕ) (q : Request) (s : State Op Res Request Shared) : (o : Op) → Res o → Shared → Prop
  | .operator (.storageUpdate u k payload),_,y => y = s.shared.write u k (some payload)
  | .operator o,r,y => ∃ x, ProtocolOperators.exec t ⟨s.shared.operators,[]⟩ o r x ∧
      y = { s.shared with operators := x }
  | .storageDelete u k,_,y => y = s.shared.write u k none
  | .spawn task,handle,y => handle = s.shared.spawned.length ∧
      y = { s.shared with spawned := s.shared.spawned ++ [(q.handle,task)] }
  | .join handle,r,y => s.shared.outcomes handle = some r ∧ y = s.shared
  | .finish handle outcome,_,y =>
      y = { s.shared with outcomes := Function.update s.shared.outcomes handle (some outcome) }
  | .insertImportedUser u,_,y => y = { s.shared with operators := { s.shared.operators with
      importedUsers := Insert.insert u s.shared.importedUsers } }
  | _,_,y => y = s.shared

def begins (handle : ℕ) : Action Op Res Request → Bool
  | .start _ (.spawned h _ _) => h = handle
  | _ => false

/-- A task runs once, after it has been spawned. -/
def Starts (q : Request) (s : State Op Res Request Shared) : Prop :=
  match q with
  | .spawned handle parent task =>
    s.shared.spawned[handle]? = some (parent,task) ∧ s.history.any (begins handle) = false
  | _ => True

def system : System Op Res Failure Request String Shared where
  body := serve S patience
  exec t q o s r y := exec t q s o r y
  start _ q s y := Starts q s ∧ y = s.shared
  env _ _ := False

abbrev Configuration := Config Op Res Failure Request String Shared

def Reach (x : Shared) (c : Configuration) : Prop := (system S patience).Reach (· = x) c

def payloadAt (userId keyName : String) : Action Op Res Request → Option (Option Bytes)
  | .op _ _ (.operator (.storageUpdate u k payload)) _ =>
      if u = userId ∧ k = keyName then some (some payload) else none
  | .op _ _ (.storageDelete u k) _ => if u = userId ∧ k = keyName then some none else none
  | _ => none

def written (h : History) (userId keyName : String) : Option (Option Bytes) :=
  h.findSome? (payloadAt userId keyName)

def stored (x : Shared) (h : History) (userId keyName : String) : Option Bytes :=
  (written h userId keyName).getD (x.stored userId keyName)

section State

variable {S} {patience} {x : Shared} {c : Configuration}

theorem kept_of_exec {t : ℕ} {s : State ProtocolOperators.Op ProtocolOperators.Res
      ProtocolOperators.Request ProtocolOperators.Shared} {o : ProtocolOperators.Op}
    {r : ProtocolOperators.Res o} {y : ProtocolOperators.Shared}
    (h : ProtocolOperators.exec t s o r y) :
    y.before = s.shared.before ∧ y.importedUsers = s.shared.importedUsers := by
  cases o with
  | checkPrivilegeIn _ _ => rw [h.2]; exact ⟨rfl,rfl⟩
  | storageContains _ _ => rw [h.2]; exact ⟨rfl,rfl⟩
  | storageRead _ _ => rw [h.2]; exact ⟨rfl,rfl⟩
  | lockExclusive _ => rw [h.2]; exact ⟨rfl,rfl⟩
  | unlock _ => rw [show y = _ from h]; exact ⟨rfl,rfl⟩
  | packageExists _ => rw [h.2]; exact ⟨rfl,rfl⟩
  | removePackage _ =>
    obtain ⟨present,rfl⟩ := h
    exact ⟨rfl,rfl⟩
  | fetchProtocol _ _ _ =>
    obtain ⟨present,rfl⟩ := h
    exact ⟨rfl,rfl⟩
  | _ => rw [show y = s.shared from h]; exact ⟨rfl,rfl⟩

/-- What one operation leaves: what it stores, and the user whom it inserts. -/
theorem exec_effect {t : ℕ} {q : Request} {s : State Op Res Request Shared} {o : Op} {r : Res o}
    {y : Shared} (h : exec t q s o r y) (u k : String) :
    y.stored u k = (payloadAt u k (.op t q o r)).getD (s.shared.stored u k) ∧
    (u ∈ y.importedUsers ↔ o = .insertImportedUser u ∨ u ∈ s.shared.importedUsers) := by
  have hwrite (u' k' : String) (payload : Option Bytes) :
      (s.shared.write u' k' payload).stored u k =
        (if u' = u ∧ k' = k then some payload else none).getD (s.shared.stored u k) := by
    simp only [Shared.stored,Shared.write,eq_comm (a := u),eq_comm (a := k)]
    split_ifs <;> rfl
  cases o with
  | operator o =>
    cases o with
    | storageUpdate u' k' payload =>
      rw [show y = s.shared.write u' k' (some payload) from h]
      exact ⟨hwrite u' k' (some payload),by simp [Shared.importedUsers,Shared.write]⟩
    | _ =>
      obtain ⟨z,hz,rfl⟩ := h
      obtain ⟨hbefore,himported⟩ := kept_of_exec hz
      exact ⟨congrFun (congrFun hbefore u) k,by simp [Shared.importedUsers,himported]⟩
  | storageDelete u' k' =>
    rw [show y = s.shared.write u' k' none from h]
    exact ⟨hwrite u' k' none,by simp [Shared.importedUsers,Shared.write]⟩
  | spawn task =>
    obtain ⟨-,rfl⟩ := h
    exact ⟨rfl,by simp [Shared.importedUsers]⟩
  | join handle =>
    obtain ⟨-,rfl⟩ := h
    exact ⟨rfl,by simp⟩
  | finish handle outcome =>
    rw [show y = _ from h]
    exact ⟨rfl,by simp [Shared.importedUsers]⟩
  | insertImportedUser u' =>
    rw [show y = _ from h]
    refine ⟨rfl,?_⟩
    simp [Shared.importedUsers,eq_comm (a := u)]
  | _ =>
    rw [show y = s.shared from h]
    exact ⟨rfl,by simp⟩

theorem stored_run (hc : Reach S patience x c) (u k : String) :
    c.state.shared.stored u k = stored x c.state.history u k := by
  induction hc with
  | init hx => rw [hx]; rfl
  | step _ s ih =>
    cases s with
    | start fresh begins =>
      rw [begins.2]
      exact ih
    | @op t q o k' r y runs does =>
      have heffect := (exec_effect does u k).1
      rw [State.push_shared,State.push_history,heffect,ih]
      simp only [stored,written,List.findSome?_cons]
      cases payloadAt u k (.op t q o r) <;> rfl
    | env moves => exact absurd moves id

def Inserted (h : History) (userId : String) : Prop :=
  ∃ t q r, .op t q (.insertImportedUser userId) r ∈ h

theorem importedUsers_run (hc : Reach S patience x c) (u : String) :
    u ∈ c.state.shared.importedUsers ↔ Inserted c.state.history u ∨ u ∈ x.importedUsers := by
  induction hc with
  | init hx =>
    rw [hx]
    simp [Inserted]
  | step _ s ih =>
    cases s with
    | start fresh begins =>
      rw [begins.2]
      simpa [Inserted] using ih
    | @op t q o k' r y runs does =>
      have heffect := (exec_effect does u "").2
      rw [State.push_shared,State.push_history,heffect,ih,← or_assoc]
      refine or_congr_left ⟨?_,?_⟩
      · rintro (rfl | ⟨t',q',r',hm⟩)
        · exact ⟨t,q,r,List.mem_cons_self ..⟩
        · exact ⟨t',q',r',List.mem_cons_of_mem _ hm⟩
      · rintro ⟨t',q',r',hm⟩
        rcases List.mem_cons.mp hm with he | hm
        · exact .inl (Action.op.inj he).2.2.1.symm
        · exact .inr ⟨t',q',r',hm⟩
    | env moves => exact absurd moves id

end State

/-- The error of a request of a user who is not among the imported ones. -/
def refusal (userId : String) : Abort := .permissionDenied ("User " ++ userId ++
  " in the JWT is created before the latest server start.")

/-- Whenever a task of the user asks whether it may start an operator, it is not refused because
the user is missing among the imported ones. -/
def Admitted (userId : String) : Action Op Res Request → History → Prop
  | .op _ (.spawned _ _ (.initProtocol u _ _ _)) (.operator (.checkPrivilegeIn _ _)) r,_ =>
      u = userId → r ≠ (.error (refusal userId) : Except Abort Unit)
  | _,_ => True

/-- The condition: by then the user has been inserted into the imported ones. -/
def Registered (userId : String) : Action Op Res Request → History → Prop
  | .op _ (.spawned _ _ (.initProtocol u _ _ _)) (.operator (.checkPrivilegeIn _ _)) _,past =>
      u = userId → Inserted past userId
  | _,_ => True

/-- The operation does not ask for a privilege. -/
def Unasking : ProtocolOperators.Op → Prop
  | .checkPrivilegeIn _ _ => False
  | _ => True

/-- A task of the user asks with the metadata that it has made up itself. -/
def AsksFor (userId userJwt : String) : Op → Prop
  | .operator (.checkPrivilegeIn metadata ps) =>
      metadata = operatorMetadata userId userJwt ∧ ps = privileges .startProtocolOperator
  | _ => True

section Asking

variable {S} {patience} {α β : Type} {userId userJwt : String}

theorem asksFor_of_unasking {p : ProtocolOperators.Service α} (hp : p.All Unasking) :
    (ofService p).All (AsksFor userId userJwt) :=
  Prog.All.lift (hp.mono fun o ho => by cases o <;> trivial)

theorem unasking_unwrap (a : Option α) : (ProtocolOperators.unwrap a).All Unasking := by
  cases a <;> trivial

theorem unasking_storageUpdate (u k : String) (payload : Bytes) :
    (ProtocolOperators.storageUpdate u k payload).All Unasking :=
  ⟨trivial,fun r => by cases r <;> trivial⟩

theorem unasking_storageRead (u k : String) : (ProtocolOperators.storageRead u k).All Unasking :=
  ⟨trivial,fun r => by cases r <;> trivial⟩

theorem unasking_startLocked (S : ProtocolOperators.Server) (request : StartProtocolOperatorRequest)
    (coreAddr userJwt instanceId : String) :
    (ProtocolOperators.startLocked S request coreAddr userJwt instanceId).All Unasking := by
  refine Prog.All.bind ?_ fun running => Prog.All.bind ?_ fun _ => Prog.All.bind ?_ fun _ =>
    Prog.All.bind (Prog.All.bind ⟨trivial,fun _ => trivial⟩ fun _ => Prog.All.ofExcept _) fun started =>
    (unasking_storageUpdate _ _ _).bind fun _ => (unasking_storageUpdate _ _ _).bind fun _ =>
    (unasking_storageUpdate _ _ _).bind fun _ => unasking_storageUpdate _ _ _
  · refine ⟨trivial,fun present => ?_⟩
    cases present with
    | true => exact (unasking_storageRead _ _).bind fun _ => unasking_unwrap _
    | false => trivial
  · unfold ProtocolOperators.upgradePackage
    split_ifs
    · refine ⟨trivial,fun present => ?_⟩
      cases present with
      | true => exact ⟨trivial,fun r => by cases r <;> trivial⟩
      | false => trivial
    · trivial
    · trivial
  · refine ⟨trivial,fun present => ?_⟩
    cases present with
    | true => trivial
    | false => exact ⟨trivial,fun r => by cases r <;> trivial⟩

theorem asksFor_startOperator (protocolName : String) :
    (startOperator S userId userJwt protocolName).All (AsksFor userId userJwt) := by
  refine Prog.All.bind (Prog.All.lift (Prog.All.bind (Prog.All.bind ⟨⟨rfl,rfl⟩,fun _ => trivial⟩
    fun _ => Prog.All.ofExcept _) fun _ => ?_)) fun _ => trivial
  suffices hrest : ∀ p : ProtocolOperators.Service String, p.All Unasking →
      p.All fun o => AsksFor userId userJwt (.operator o) by
    refine hrest _ (Prog.All.bind ?_ fun _ => ?_)
    · unfold ProtocolOperators.checkCaller
      refine (Prog.All.ofExcept _).bind fun privilege => ?_
      split_ifs
      · trivial
      · refine (Prog.All.ofExcept _).bind fun caller => ?_
        split_ifs <;> trivial
    · split
      · trivial
      · refine (unasking_storageRead _ _).bind fun _ => (unasking_unwrap _).bind fun _ =>
          ⟨trivial,fun _ => ?_⟩
        split_ifs
        · trivial
        · have hstep (o : ProtocolOperators.Op) (ho : Unasking o)
              (r : ProtocolOperators.Res o → Except Abort Unit) :
              (ProtocolOperators.perform o >>= fun a => Prog.ofExcept (r a)).All Unasking :=
            ⟨ho,fun _ => Prog.All.ofExcept _⟩
          refine (hstep .getColinkHome trivial id).bind fun _ =>
            (hstep .createProtocolsDir trivial id).bind fun _ =>
            (hstep (.openLock protocolName) trivial id).bind fun _ =>
            Prog.All.bind (Prog.All.bracket ?_ ?_ ?_) fun _ => trivial
          · exact ⟨trivial,fun _ => trivial⟩
          · exact hstep (.unlock protocolName) trivial id
          · exact unasking_startLocked _ _ _ _ _
  exact fun p hp => hp.mono fun o ho => by cases o <;> trivial

theorem asksFor_wait (protocolName : String) (patience : ℕ) :
    (waitProtocolInitialization userId protocolName patience).All (AsksFor userId userJwt) := by
  induction patience with
  | zero => exact ⟨trivial,fun r => r.elim⟩
  | succ patience ih =>
    refine ⟨trivial,fun r => ?_⟩
    rcases r with e | _ | ⟨flag,flags⟩
    · exact ⟨trivial,fun _ => ih⟩
    · trivial
    · show (if flag = 1 then _ else _ : Service Unit).All _
      split_ifs
      · trivial
      · exact ⟨trivial,fun _ => ih⟩

theorem asksFor_unwrap (a : Option α) : (unwrap a).All (AsksFor userId userJwt) :=
  asksFor_of_unasking (unasking_unwrap a)

theorem asksFor_initProtocol (protocolName : String) (initParam : Value) :
    (initProtocol S patience userId userJwt protocolName initParam).All
      (AsksFor userId userJwt) := by
  refine Prog.All.bind ?_ fun _ => Prog.All.bind ?_ fun _ =>
    (asksFor_of_unasking (unasking_storageUpdate _ _ _)).bind fun _ => (asksFor_unwrap _).bind fun n =>
    Prog.All.bind (Prog.All.foldlM _ (fun _ _ _ => asksFor_startOperator protocolName) ()) fun _ =>
    asksFor_wait _ _
  · unfold waitStartAfter
    split
    · trivial
    · exact (asksFor_unwrap _).bind fun list => Prog.All.foldlM _ (fun _ _ _ =>
        (asksFor_unwrap _).bind fun _ => asksFor_wait _ _) ()
  · unfold createEntries
    split
    · trivial
    · exact (asksFor_unwrap _).bind fun entries => Prog.All.foldlM _ (fun _ _ _ =>
        (asksFor_unwrap _).bind fun _ => (asksFor_unwrap _).bind fun _ =>
          asksFor_of_unasking (unasking_storageUpdate _ _ _)) ()

theorem asksFor_serve (q : Request) : (serve S patience q).All fun o =>
    ∀ h p u jwt name param, q = .spawned h p (.initProtocol u jwt name param) → AsksFor u jwt o := by
  cases q with
  | spawned h p task =>
    cases task with
    | initProtocol u jwt name param =>
      refine Prog.All.bind ((asksFor_initProtocol name param).attempt.mono fun o ho h' p' u' jwt' name'
        param' he => ?_) fun outcome => ⟨fun _ _ _ _ _ _ _ => trivial,fun _ => trivial⟩
      cases he
      exact ho
    | userInit u jwt => exact Prog.All.of_forall (fun o h' p' u' jwt' name' param' he => by cases he) _
  | _ => exact Prog.All.of_forall (fun o h' p' u' jwt' name' param' he => by cases he) _

theorem checkPrivilegeIn_operator (importedUsers : Finset String) :
    checkPrivilegeIn importedUsers (operatorMetadata userId userJwt)
      (privileges .startProtocolOperator) =
      if userId ∈ importedUsers then .ok () else .error (refusal userId) := by
  have hprivilege : getKeyFromMetadata (operatorMetadata userId userJwt) "privilege" = .ok "user" := by
    rw [operatorMetadata,getKey_insert_of_ne _ _ (by decide),getKey_insert]
  unfold checkPrivilegeIn
  rw [hprivilege,operatorMetadata,getKey_insert]
  by_cases hu : userId ∈ importedUsers
  · simp [hu,privileges,bind,Except.bind]
  · simp [hu,privileges,bind,Except.bind,refusal]

end Asking

/-- In every run in which a new user is imported, the tasks of the user may start all their
operators exactly if they always ask after the user has been inserted. -/
theorem admitted_iff {x : Shared} {userId : String} (hnew : userId ∉ x.importedUsers)
    {c : Configuration} (hc : Reach S patience x c) :
    Everywhere (Admitted userId) c.state.history ↔ Everywhere (Registered userId) c.state.history := by
  suffices hstep : ∀ a past, a :: past <:+ c.state.history → (Admitted userId a past ↔
      Registered userId a past) by
    rw [everywhere_iff,everywhere_iff]
    exact forall₂_congr fun a past => forall_congr' (hstep a past)
  intro a past hs
  unfold Admitted Registered
  split
  · next t h p u jwt name param metadata ps r =>
    refine forall_congr' ?_
    rintro rfl
    obtain ⟨c₀,c₁,hc₀,rfl,hop,-⟩ := System.Reach.before hc hs
    obtain ⟨rfl,rfl⟩ := System.Reach.all_op asksFor_serve hc (hs.subset (List.mem_cons_self ..)) _ _ _
      _ _ _ rfl
    have hr : r = checkPrivilegeIn c₀.state.shared.importedUsers (operatorMetadata u jwt)
        (privileges .startProtocolOperator) := by
      cases hop with
      | op runs does =>
        obtain ⟨z,⟨hr,-⟩,-⟩ := does
        exact hr
    rw [hr,checkPrivilegeIn_operator]
    have himported := importedUsers_run hc₀ u
    rw [or_iff_left hnew] at himported
    rw [← himported]
    split_ifs with hu
    · exact ⟨fun _ => hu,fun _ h => by cases h⟩
    · exact ⟨fun h => absurd rfl h,fun h => absurd h hu⟩
  · trivial

/-- Nothing fails in storage, and the clock stands still. -/
def answer (t : ℕ) (q : Request) (s : State Op Res Request Shared) : (o : Op) → Option (Res o × Shared)
  | .operator (.storageUpdate u k payload) =>
      some ((.ok () : Except UpdateError Unit),s.shared.write u k (some payload))
  | .operator o => (ProtocolOperators.answer t ⟨s.shared.operators,[]⟩ o).map fun p =>
      (p.1,{ s.shared with operators := p.2 })
  | .storageDelete u k => some ((.ok () : Except String Unit),s.shared.write u k none)
  | .now => some ((0 : ℤ),s.shared)
  | .spawn task => some (s.shared.spawned.length,
      { s.shared with spawned := s.shared.spawned ++ [(q.handle,task)] })
  | .join handle => (s.shared.outcomes handle).map fun r => (r,s.shared)
  | .finish handle outcome => some ((),
      { s.shared with outcomes := Function.update s.shared.outcomes handle (some outcome) })
  | .insertImportedUser u => some ((),{ s.shared with operators := { s.shared.operators with
      importedUsers := Insert.insert u s.shared.importedUsers } })
  | .sleep => some ((),s.shared)
  | .waitForever => none

theorem exec_of_answer {t : ℕ} {q : Request} {s : State Op Res Request Shared} {o : Op} {r : Res o}
    {y : Shared} (h : answer t q s o = some (r,y)) : exec t q s o r y := by
  cases o with
  | operator o =>
    cases o with
    | storageUpdate u k payload => exact (Prod.mk.inj (Option.some.inj h)).2.symm
    | _ =>
      simp only [answer] at h
      obtain ⟨p,hp,he⟩ := Option.map_eq_some_iff.mp h
      obtain ⟨rfl,rfl⟩ := Prod.mk.inj he
      exact ⟨p.2,ProtocolOperators.exec_of_answer hp,rfl⟩
  | spawn task =>
    obtain ⟨rfl,rfl⟩ := Prod.mk.inj (Option.some.inj h)
    exact ⟨rfl,rfl⟩
  | join handle =>
    simp only [answer] at h
    obtain ⟨r',hr,he⟩ := Option.map_eq_some_iff.mp h
    obtain ⟨rfl,rfl⟩ := Prod.mk.inj he
    exact ⟨hr,rfl⟩
  | waitForever => cases h
  | _ => exact (Prod.mk.inj (Option.some.inj h)).2.symm

/-- A request that comes from outside, or the task with this handle. -/
def serves (_ : ℕ) (i : Request ⊕ ℕ) (s : State Op Res Request Shared) : Option (Request × Shared) :=
  match i with
  | .inl (.spawned _ _ _) => none
  | .inl q => some (q,s.shared)
  | .inr handle =>
    match s.shared.spawned[handle]? with
    | some (parent,task) =>
      if s.history.any (begins handle) then none
      else some (.spawned handle parent task,s.shared)
    | none => none

theorem starts_of_serves {t : ℕ} {i : Request ⊕ ℕ} {s : State Op Res Request Shared} {q : Request}
    {x : Shared} (h : serves t i s = some (q,x)) : Starts q s ∧ x = s.shared := by
  unfold serves at h
  split at h
  · cases h
  · next q' hq =>
    obtain ⟨rfl,rfl⟩ := Prod.mk.inj (Option.some.inj h)
    refine ⟨?_,rfl⟩
    cases q' with
    | spawned handle parent task => exact absurd rfl (hq handle parent task)
    | _ => trivial
  · split at h
    · next handle parent task hs =>
      split_ifs at h with hb
      obtain ⟨rfl,rfl⟩ := Prod.mk.inj (Option.some.inj h)
      exact ⟨⟨hs,by simpa using hb⟩,rfl⟩
    · cases h

def player : Player (system S patience) (Request ⊕ ℕ) where
  answer := answer
  does := exec_of_answer
  serves := serves
  begins := starts_of_serves

open TokenService (sampleCore sampleConsentOf compressed)

/-- A core with a package for everything, whose configuration is this table. -/
def sampleServer (config : List (String × Value)) : Server where
  core := sampleCore
  coreUri := some "http://core"
  listOfString := Code.string.list.message
  findResourceFile := .ok
  readToString _ := some ""
  parse _ := .ok (.table config)

def sampleShared : Shared where
  operators :=
    { importedUsers := ∅
      before := fun _ _ => none
      locks := fun _ => none
      packages := fun _ => true }
  spawned := []
  outcomes _ := none

abbrev sampleUser : String := hexEncode compressed

def sampleImport : Request :=
  .importUser (insert (insert (fun _ => none) "privilege" "host") "user_id" "host")
    (sampleConsentOf compressed)

instance (h : History) (userId : String) : Decidable (Inserted h userId) :=
  decidable_of_iff (h.any fun a => match a with
    | .op _ _ (.insertImportedUser u) _ => u = userId
    | _ => false) (by
      rw [List.any_eq_true]
      constructor
      · rintro ⟨a,ha,hu⟩
        split at hu
        · obtain rfl := of_decide_eq_true hu
          exact ⟨_,_,_,ha⟩
        · cases hu
      · rintro ⟨t,q,r,hm⟩
        exact ⟨_,hm,decide_eq_true rfl⟩)

instance (userId : String) (a : Action Op Res Request) (past : History) :
    Decidable (Registered userId a past) :=
  decidable_of_iff ((match a,past with
    | .op _ (.spawned _ _ (.initProtocol u _ _ _)) (.operator (.checkPrivilegeIn _ _)) _,past =>
      decide (u = userId → Inserted past userId)
    | _,_ => true : Bool) = true) (by
      unfold Registered
      split
      · exact decide_eq_true_iff
      · exact iff_of_true rfl trivial)

def singleConfig : List (String × Value) := [("protocol",.table [("operator_num",.integer 1)])]

def importedFirst : Configuration :=
  (player (sampleServer singleConfig) 1).play sampleShared
    (.start 0 (.inl sampleImport) :: List.replicate 8 (.step 0) ++
      [.start 1 (.inr 0),.step 1,.start 2 (.inr 1)] ++ List.replicate 2 (.step 2))

theorem admitted_importedFirst : Everywhere (Admitted sampleUser) importedFirst.state.history :=
  (admitted_iff (sampleServer singleConfig) 1 (Finset.notMem_empty sampleUser)
    ((player (sampleServer singleConfig) 1).reach_play (· = sampleShared) rfl _)).mpr
      (by decide +kernel)

/-- The tasks get their turns before the user is inserted. -/
def importedLast : Configuration :=
  (player (sampleServer singleConfig) 1).play sampleShared
    (.start 0 (.inl sampleImport) :: List.replicate 7 (.step 0) ++
      [.start 1 (.inr 0),.step 1,.start 2 (.inr 1)] ++ List.replicate 3 (.step 2) ++
      [.step 1,.step 1,.step 0])

/-- The request of the task with this handle is refused. -/
def refusedBy (userId : String) : Action Op Res Request → Bool
  | .op _ (.spawned _ _ (.initProtocol u _ _ _)) (.operator (.checkPrivilegeIn _ _)) (.error e) =>
      u = userId && e = refusal userId
  | _ => false

theorem not_admitted_of_refusedBy {userId : String} {h : History}
    (hr : h.any (refusedBy userId) = true) : ¬Everywhere (Admitted userId) h := by
  intro hadmitted
  obtain ⟨a,ha,hr⟩ := List.any_eq_true.mp hr
  obtain ⟨past,hs⟩ := suffix_of_mem ha
  have hnot := everywhere_iff.mp hadmitted a past hs
  unfold refusedBy at hr
  split at hr
  · obtain ⟨hu,rfl⟩ : _ ∧ _ := by simpa using hr
    exact hnot hu rfl
  · cases hr

/-- The operator is refused, everything comes to an end, and the user is not initialised. -/
theorem refused_importedLast : Reach (sampleServer singleConfig) 1 sampleShared importedLast ∧
    sampleUser ∉ sampleShared.importedUsers ∧
    ¬Everywhere (Admitted sampleUser) importedLast.state.history ∧
    (∀ t q p, importedLast.threads t = some (q,p) → ∃ r, p = .ofExcept r) ∧
    sampleUser ∈ importedLast.state.shared.importedUsers ∧
    importedLast.state.shared.stored sampleUser "_internal:_is_initialized" = some [0] :=
  ⟨(player (sampleServer singleConfig) 1).reach_play (· = sampleShared) rfl _,
    Finset.notMem_empty sampleUser,not_admitted_of_refusedBy (by decide +kernel),
    (player (sampleServer singleConfig) 1).ended_play (by decide +kernel),
    by decide +kernel,by decide +kernel⟩

end UserInit
end CoLinkServer
