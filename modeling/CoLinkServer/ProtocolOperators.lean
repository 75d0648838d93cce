import CoLinkServer.Authorization
import CoLinkServer.ProtocolPackages
import CoLinkServer.RelyGuarantee

/-! Starting and stopping protocol operators. The package of a protocol and the lock on it are
shared by all users of the core, while every user has a list of running instances of its own. -/
namespace CoLinkServer

structure StartProtocolOperatorRequest where
  protocolName : String := ""
  userId : String := ""
  upgrade : Bool := false
  sourceType : SourceType := .none
  source : String := ""
  vtPublicAddr : String := ""

namespace ProtocolOperators

open Interleaving Authorization

/-- A process or a container, with what it is addressed by. -/
inductive Instance
  | pid (xid : String)
  | containerId (xid : String)

def Instance.key : Instance → String
  | .pid _ => "pid"
  | .containerId _ => "container_id"

def Instance.xid : Instance → String
  | .pid xid => xid
  | .containerId xid => xid

/-- `startInstance` is all that happens from parsing `colink.toml` to a running process. -/
inductive Op
  | checkPrivilegeIn (metadata : MetadataMap) (privileges : List String)
  | storageContains (userId keyName : String)
  | storageRead (userId keyName : String)
  | storageUpdate (userId keyName : String) (payload : Bytes)
  | newInstanceId
  | getColinkHome
  | createProtocolsDir
  | openLock (protocolName : String)
  | lockExclusive (protocolName : String)
  | unlock (protocolName : String)
  | packageExists (protocolName : String)
  | removePackage (protocolName : String)
  | colinkTomlExists (protocolName : String)
  | fetchProtocol (protocolName : String) (sourceType : SourceType) (source : String)
  | startInstance (protocolName userJwt vtPublicAddr coreAddr : String)
  | kill (instance_ : Instance)

def Res : Op → Type
  | .checkPrivilegeIn _ _ => Except Abort Unit
  | .storageContains _ _ => Bool
  | .storageRead _ _ => Except String Bytes
  | .storageUpdate _ _ _ => Except UpdateError Unit
  | .newInstanceId => String
  | .getColinkHome => Except Abort Unit
  | .createProtocolsDir => Except Abort Unit
  | .openLock _ => Except Abort Unit
  | .lockExclusive _ => Unit
  | .unlock _ => Except Abort Unit
  | .packageExists _ => Bool
  | .removePackage _ => Except String Unit
  | .colinkTomlExists _ => Bool
  | .fetchProtocol _ _ _ => Except String Unit
  | .startInstance _ _ _ _ => Except Abort Instance
  | .kill _ => Except Abort Unit

abbrev Service (α : Type) : Type := Prog Op Res Abort α

def perform (o : Op) : Service (Res o) := .call o .ret

def abort {α : Type} (e : Abort) : Service α := .fail e

/-- What a core is configured with. -/
structure Server where
  hostId : String
  coreUri : Option String
  listOfString : Message (List String)

variable (S : Server)

/-- `String::from_utf8` -/
def stringOfBytes (bs : Bytes) : Option String := String.fromUTF8? ⟨bs.toArray⟩

def unwrap {α : Type} : Option α → Service α
  | some a => .ret a
  | none => abort .panic

def storageRead (userId keyName : String) : Service Bytes := do
  match ← perform (.storageRead userId keyName) with
  | .ok payload => .ret payload
  | .error e => abort (.internal e)

def storageUpdate (userId keyName : String) (payload : Bytes) : Service Unit := do
  match ← perform (.storageUpdate userId keyName payload) with
  | .ok () => .ret ()
  | .error e => abort e.abort

/-- `Path::file_name` gives back the whole name. -/
def validName (protocolName : String) : Bool :=
  protocolName ≠ "" && protocolName ≠ "." && protocolName ≠ ".." && !protocolName.toList.contains '/'

def groupsKey (protocolName : String) : String :=
  "_internal:" ++ ("protocol_operator_groups:" ++ protocolName)

def instanceKey (instanceId field : String) : String :=
  "_internal:" ++ ("protocol_operator_instances:" ++ instanceId ++ ":" ++ field)

def instanceUserKey (instanceId : String) : String :=
  "protocol_operator_instance_users:" ++ instanceId

/-- The lock is also given back when the work fails. -/
def locked (protocolName : String) (work : Service Unit) : Service Unit :=
  Prog.bracket (perform (.lockExclusive protocolName))
    (perform (.unlock protocolName) >>= Prog.ofExcept) work

def readRunningInstances (userId protocolName : String) : Service (List String) := do
  let present : Bool ← perform (.storageContains userId (groupsKey protocolName))
  if present then do
    let runningInstances ← storageRead userId (groupsKey protocolName)
    unwrap (S.listOfString.decode runningInstances)
  else .ret []

/-- Upgrade the package if requested and there are no running instances. -/
def upgradePackage (upgrade : Bool) (protocolName : String) (runningInstances : List String) :
    Service Unit :=
  if upgrade then
    if runningInstances = [] then do
      let present : Bool ← perform (.packageExists protocolName)
      if present then do
        match ← perform (.removePackage protocolName) with
        | .ok () => .ret ()
        | .error e => abort (.internal e)
      else .ret ()
    else abort (.aborted ("Protocol " ++ protocolName ++
      " has running instances and cannot be upgraded."))
  else .ret ()

def fetchPackage (request : StartProtocolOperatorRequest) : Service Unit := do
  let present : Bool ← perform (.colinkTomlExists request.protocolName)
  if present then .ret ()
  else do
    match ← perform (.fetchProtocol request.protocolName request.sourceType request.source) with
    | .ok () => .ret ()
    | .error e =>
      abort (.notFound ("fail to fetch protocol " ++ request.protocolName ++ ": " ++ e))

def recordInstance (request : StartProtocolOperatorRequest) (instanceId : String)
    (started : Instance) (runningInstances : List String) : Service Unit := do
  storageUpdate S.hostId (instanceUserKey instanceId) (stringBytes request.userId)
  storageUpdate request.userId (instanceKey instanceId started.key) (stringBytes started.xid)
  storageUpdate request.userId (instanceKey instanceId "protocol_name")
    (stringBytes request.protocolName)
  storageUpdate request.userId (groupsKey request.protocolName)
    (S.listOfString.encode (runningInstances ++ [instanceId]))

/-- What `_start_protocol_operator` does while it has the lock. -/
def startLocked (request : StartProtocolOperatorRequest) (coreAddr userJwt instanceId : String) :
    Service Unit := do
  let runningInstances ← readRunningInstances S request.userId request.protocolName
  upgradePackage request.upgrade request.protocolName runningInstances
  fetchPackage request
  let started ← perform (.startInstance request.protocolName userJwt request.vtPublicAddr coreAddr)
    >>= Prog.ofExcept
  recordInstance S request instanceId started runningInstances

/-- The caller is the host, or the user whom the call is about. -/
def checkCaller (metadata : MetadataMap) (userId : String) : Service Unit := do
  let privilege ← Prog.ofExcept (getKeyFromMetadata metadata "privilege")
  if privilege = "host" then .ret ()
  else do
    let caller ← Prog.ofExcept (getKeyFromMetadata metadata "user_id")
    if caller = userId then .ret () else abort (.permissionDenied "")

def startProtocolOperator (metadata : MetadataMap) (request : StartProtocolOperatorRequest) :
    Service String := do
  perform (.checkPrivilegeIn metadata (privileges .startProtocolOperator)) >>= Prog.ofExcept
  checkCaller metadata request.userId
  match S.coreUri with
  | none => abort (.internal "core_uri not found.")
  | some coreAddr =>
    let userJwt ← storageRead S.hostId ("users:" ++ request.userId ++ ":user_jwt")
    let userJwt ← unwrap (stringOfBytes userJwt)
    let instanceId : String ← perform .newInstanceId
    if !validName request.protocolName then
      abort (.invalidArgument "protocol_name is invalid.")
    else do
      perform .getColinkHome >>= Prog.ofExcept
      perform .createProtocolsDir >>= Prog.ofExcept
      perform (.openLock request.protocolName) >>= Prog.ofExcept
      locked request.protocolName (startLocked S request coreAddr userJwt instanceId)
      .ret instanceId

/-- The process of the instance, or else its container. -/
def readInstance (userId instanceId : String) : Service Instance := do
  match ← perform (.storageRead userId (instanceKey instanceId "pid")) with
  | .ok pid => do
    let pid ← unwrap (stringOfBytes pid)
    .ret (.pid pid)
  | .error e =>
    match ← perform (.storageRead userId (instanceKey instanceId "container_id")) with
    | .ok cid => do
      let cid ← unwrap (stringOfBytes cid)
      .ret (.containerId cid)
    | .error _ => abort (.internal e)

/-- What `_stop_protocol_operator` does while it has the lock. -/
def stopLocked (userId protocolName instanceId : String) : Service Unit := do
  let runningInstances ← storageRead userId (groupsKey protocolName)
  let runningInstances ← unwrap (S.listOfString.decode runningInstances)
  storageUpdate userId (groupsKey protocolName)
    (S.listOfString.encode (runningInstances.filter fun x => x ≠ instanceId))

def stopProtocolOperator (metadata : MetadataMap) (instanceId : String) : Service String := do
  perform (.checkPrivilegeIn metadata (privileges .stopProtocolOperator)) >>= Prog.ofExcept
  let userId ← storageRead S.hostId (instanceUserKey instanceId)
  let userId ← unwrap (stringOfBytes userId)
  checkCaller metadata userId
  let running ← readInstance userId instanceId
  perform (.kill running) >>= Prog.ofExcept
  let protocolName ← storageRead userId (instanceKey instanceId "protocol_name")
  let protocolName ← unwrap (stringOfBytes protocolName)
  perform .getColinkHome >>= Prog.ofExcept
  perform (.openLock protocolName) >>= Prog.ofExcept
  locked protocolName (stopLocked S userId protocolName instanceId)
  .ret ""

inductive OperatorCall
  | start (request : StartProtocolOperatorRequest)
  | stop (instanceId : String)

structure Request where
  metadata : MetadataMap
  call : OperatorCall

def handle (q : Request) : Service String :=
  match q.call with
  | .start request => startProtocolOperator S q.metadata request
  | .stop instanceId => stopProtocolOperator S q.metadata instanceId

abbrev History := List (Action Op Res Request)

/-- `before` is what the storage contained before the first of the calls. -/
structure Shared where
  importedUsers : Finset String
  before : String → String → Option Bytes
  locks : String → Option ℕ
  packages : String → Bool

/-- The payload that a step puts under the key. -/
def payloadAt (userId keyName : String) : Action Op Res Request → Option Bytes
  | .op _ _ (.storageUpdate u k payload) _ => if u = userId ∧ k = keyName then some payload else none
  | _ => none

/-- The last payload stored under the key in the run so far. -/
def written (h : History) (userId keyName : String) : Option Bytes :=
  h.findSome? (payloadAt userId keyName)

def stored (s : State Op Res Request Shared) (userId keyName : String) : Option Bytes :=
  (written s.history userId keyName).or (s.shared.before userId keyName)

/-- What an operation answers and what it leaves. An update that fails has been made all the
same, and the answers of what lies outside the core are left open. -/
def exec (t : ℕ) (s : State Op Res Request Shared) : (o : Op) → Res o → Shared → Prop
  | .checkPrivilegeIn metadata privileges,r,y =>
      r = checkPrivilegeIn s.shared.importedUsers metadata privileges ∧ y = s.shared
  | .storageContains u k,r,y => r = (stored s u k).isSome ∧ y = s.shared
  | .storageRead u k,r,y => (∀ payload, r = .ok payload ↔ stored s u k = some payload) ∧ y = s.shared
  | .lockExclusive p,_,y => s.shared.locks p = none ∧
      y = { s.shared with locks := Function.update s.shared.locks p (some t) }
  | .unlock p,_,y => y = { s.shared with locks := Function.update s.shared.locks p none }
  | .packageExists p,r,y => r = s.shared.packages p ∧ y = s.shared
  | .removePackage p,_,y => ∃ present,
      y = { s.shared with packages := Function.update s.shared.packages p present }
  | .fetchProtocol p _ _,_,y => ∃ present,
      y = { s.shared with packages := Function.update s.shared.packages p present }
  | _,_,y => y = s.shared

def system : System Op Res Abort Request String Shared where
  body := handle S
  exec t _ o s r y := exec t s o r y
  start _ _ s y := y = s.shared
  env _ _ := False

/-- Nobody has started an instance yet, and nobody has a lock. -/
def Init (x : Shared) : Prop :=
  (∀ u p, x.before u (groupsKey p) = none) ∧ ∀ p, x.locks p = none

def Reach (c : Config Op Res Abort Request String Shared) : Prop := (system S).Reach Init c

/-- The list of running instances that a user has for a protocol. -/
def running (h : History) (userId protocolName : String) : List String :=
  ((written h userId (groupsKey protocolName)).bind S.listOfString.decode).getD []

/-- The condition: whenever an upgrade gets the lock, no other user has a running instance. -/
def NoOthers : Action Op Res Request → History → Prop
  | .op _ q (.lockExclusive p) _,h => ∀ request, q.call = .start request → request.upgrade →
      ∀ u, u ≠ request.userId → running S h u p = []
  | _,_ => True

/-- A thread changes lists only while it has the lock, takes no lock from another, and removes a
package only if nobody runs it. -/
structure Guarantee (t : ℕ) (q : Request) (s s' : State Op Res Request Shared) : Prop where
  lists : ∀ p, s.shared.locks p ≠ some t → ∀ u, running S s'.history u p = running S s.history u p
  locks : ∀ p t', t' ≠ t → (s'.shared.locks p = some t' ↔ s.shared.locks p = some t')
  removal : ∀ p r, s'.history = .op t q (.removePackage p) r :: s.history →
    ∀ u, running S s.history u p = []

def rules : Rules Op Res Request Shared where
  known _ := True
  inv s := ∀ u p, s.shared.before u (groupsKey p) = none
  guar := Guarantee S
  quiet s s' := s'.shared = s.shared ∧ ∀ u p, running S s'.history u p = running S s.history u p

/-- The operation touches neither a lock nor a list nor a package. -/
def Plain : Op → Prop
  | .lockExclusive _ => False
  | .unlock _ => False
  | .removePackage _ => False
  | .storageUpdate _ k _ => ∀ p, k ≠ groupsKey p
  | _ => True

section Rules

variable {S} {t : ℕ} {q : Request} {s s' : State Op Res Request Shared} {α β : Type}

theorem groupsKey_inj {p p' : String} : groupsKey p = groupsKey p' ↔ p = p' := by
  simp [groupsKey,← String.toList_inj]

theorem instanceKey_ne (instanceId field p : String) : instanceKey instanceId field ≠ groupsKey p := by
  have hi : "protocol_operator_instances:".toList =
      "protocol_operator_".toList ++ 'i' :: "nstances:".toList := by decide
  have hg : "protocol_operator_groups:".toList =
      "protocol_operator_".toList ++ 'g' :: "roups:".toList := by decide
  intro h
  have hh := congrArg String.toList ((String.append_right_inj _).mp h)
  rw [String.toList_append,String.toList_append,String.toList_append,String.toList_append,hi,hg,
    List.append_assoc,List.append_assoc,List.append_assoc,List.append_assoc,
    List.append_cancel_left_eq] at hh
  simp at hh

theorem groupsKey_head (p : String) : (groupsKey p).toList.head? = some '_' := by
  unfold groupsKey
  rw [String.toList_append]
  rfl

theorem instanceUserKey_ne (instanceId p : String) : instanceUserKey instanceId ≠ groupsKey p := by
  have hi : (instanceUserKey instanceId).toList.head? = some 'p' := by
    unfold instanceUserKey
    rw [String.toList_append]
    rfl
  intro h
  rw [h,groupsKey_head] at hi
  cases hi

theorem running_of_no_payload {a : Action Op Res Request} {h : History} {u p : String}
    (ha : payloadAt u (groupsKey p) a = none) : running S (a :: h) u p = running S h u p := by
  simp [running,written,ha]

theorem payloadAt_of_plain {o : Op} (ho : Plain o) (r : Res o) (u p : String) :
    payloadAt u (groupsKey p) (.op t q o r) = none := by
  cases o with
  | storageUpdate u' k payload =>
    have hk : k ≠ groupsKey p := ho p
    simp [payloadAt,hk]
  | _ => rfl

theorem shared_of_plain {o : Op} (ho : Plain o) {r : Res o} {x : Shared} (he : exec t s o r x) :
    x.locks = s.shared.locks ∧ x.before = s.shared.before := by
  cases o with
  | lockExclusive p => exact absurd ho id
  | unlock p => exact absurd ho id
  | removePackage p => exact absurd ho id
  | fetchProtocol p _ _ =>
    obtain ⟨present,rfl⟩ := he
    exact ⟨rfl,rfl⟩
  | checkPrivilegeIn _ _ => rw [he.2]; exact ⟨rfl,rfl⟩
  | storageContains _ _ => rw [he.2]; exact ⟨rfl,rfl⟩
  | storageRead _ _ => rw [he.2]; exact ⟨rfl,rfl⟩
  | packageExists _ => rw [he.2]; exact ⟨rfl,rfl⟩
  | _ => rw [show x = s.shared from he]; exact ⟨rfl,rfl⟩

/-- What a thread knows while it has the lock: the lists of the protocol. -/
def Holding (S : Server) (t : ℕ) (p : String) (f : String → List String)
    (s : State Op Res Request Shared) : Prop :=
  s.shared.locks p = some t ∧ ∀ u, running S s.history u p = f u

theorem holding_stable (p : String) (f : String → List String) :
    (rules S).Stable t (Holding S t p f) := by
  rintro s s' ⟨-,-,⟨t',q',hne,hg⟩ | hq⟩ ⟨hlock,hf⟩
  · have hother : s.shared.locks p ≠ some t' := by
      rw [hlock]
      exact fun he => hne (Option.some.inj he).symm
    exact ⟨(hg.locks p t hne.symm).mpr hlock,fun u => (hg.lists p hother u).trans (hf u)⟩
  · exact ⟨by rw [hq.1]; exact hlock,fun u => (hq.2 u p).trans (hf u)⟩

theorem plain_step {o : Op} (ho : Plain o) {r : Res o} {x : Shared} (hs : (rules S).Holds s)
    (he : exec t s o r x) :
    (rules S).inv (s.push x (.op t q o r)) ∧ Guarantee S t q s (s.push x (.op t q o r)) ∧
      x.locks = s.shared.locks ∧
      ∀ u p, running S (.op t q o r :: s.history) u p = running S s.history u p := by
  obtain ⟨hlocks,hbefore⟩ := shared_of_plain ho he
  have hlists (u p : String) : running S (.op t q o r :: s.history) u p = running S s.history u p :=
    running_of_no_payload (payloadAt_of_plain ho r u p)
  refine ⟨fun u p => ?_,⟨fun p _ u => hlists u p,fun p t' _ => ?_,fun p r' he' => ?_⟩,hlocks,hlists⟩
  · rw [State.push_shared,hbefore]
    exact hs.2 u p
  · rw [State.push_shared,hlocks]
  · obtain ⟨-,-,rfl,-⟩ := Action.op.inj (List.cons.inj he').1
    exact absurd ho id

/-- The system whose steps meet the condition. -/
abbrev restricted (S : Server) : System Op Res Abort Request String Shared :=
  (system S).under (NoOthers S)

theorem wp_plain {p : Service α} (hp : p.All Plain) :
    (rules S).wp (restricted S) t q p (fun _ _ => True) s := by
  refine Rules.wp_all hp (.const True) (fun o ho s hs _ r x he _ => ?_) trivial
  obtain ⟨hi,hg,-⟩ := plain_step (q := q) ho hs he.1
  exact ⟨hi,hg,trivial⟩

theorem wp_plain_holding {p : Service α} (hp : p.All Plain) {name : String}
    {f : String → List String} (hs : Holding S t name f s) :
    (rules S).wp (restricted S) t q p (fun _ => Holding S t name f) s := by
  refine Rules.wp_all hp (holding_stable name f) (fun o ho s hh hs r x he _ => ?_) hs
  obtain ⟨hi,hg,hlocks,hlists⟩ := plain_step (q := q) ho hh he.1
  exact ⟨hi,hg,by rw [State.push_shared,hlocks]; exact hs.1,fun u => (hlists u name).trans (hs.2 u)⟩

theorem wp_updateList {name : String} {f : String → List String} (hs : Holding S t name f s)
    (userId : String) (payload : Bytes) :
    (rules S).wp (restricted S) t q (storageUpdate userId (groupsKey name) payload)
      (fun _ s' => ∃ f', Holding S t name f' s') s := by
  refine Rules.wp_call (holding_stable name f) hs fun s hh hs r x he _ => ?_
  obtain rfl : x = s.shared := he.1
  have hother (p : String) (hp : s.shared.locks p ≠ some t) (u : String) :
      payloadAt u (groupsKey p) (.op t q (.storageUpdate userId (groupsKey name) payload) r) =
        none := by
    have hne : groupsKey name ≠ groupsKey p := fun he =>
      hp (groupsKey_inj.mp he ▸ hs.1)
    simp [payloadAt,hne]
  refine ⟨hh.2,⟨fun p hp u => running_of_no_payload (hother p hp u),fun _ _ _ => Iff.rfl,
    fun p r' he' => ?_⟩,?_⟩
  · cases (Action.op.inj (List.cons.inj he').1).2.2.1
  · have hend : ∃ f', Holding S t name f'
        (s.push s.shared (.op t q (.storageUpdate userId (groupsKey name) payload) r)) :=
      ⟨_,hs.1,fun _ => rfl⟩
    cases r <;> exact fun _ => hend

theorem wp_unlock {name : String} {f : String → List String} (hs : Holding S t name f s) :
    (rules S).wp (restricted S) t q
      (perform (.unlock name) >>= Prog.ofExcept) (fun _ _ => True) s := by
  refine Rules.wp_call (holding_stable name f) hs fun s hh hs r x he _ => ?_
  obtain rfl : x = { s.shared with locks := Function.update s.shared.locks name none } := he.1
  refine ⟨hh.2,⟨fun p _ u => running_of_no_payload rfl,fun p t' hne => ?_,fun p r' he' => ?_⟩,?_⟩
  · by_cases hp : p = name
    · subst hp
      simpa [hs.1] using hne.symm
    · simp [hp]
  · cases (Action.op.inj (List.cons.inj he').1).2.2.1
  · exact Rules.wp_ofExcept fun _ => trivial

/-- What the thread may assume when it gets the lock, and what it has to leave. -/
theorem wp_locked {name : String} {work : Service Unit}
    (hwork : ∀ f s, Holding S t name f s →
      (∀ request, q.call = .start request → request.upgrade → ∀ u, u ≠ request.userId → f u = []) →
      (rules S).wp (restricted S) t q work (fun _ s' => ∃ f', Holding S t name f' s') s) :
    (rules S).wp (restricted S) t q (locked name work) (fun _ _ => True) s := by
  refine Rules.wp_call (.const True) trivial fun s hh _ r x he _ => ?_
  obtain ⟨⟨hfree,rfl⟩,hcond⟩ := he
  have hlists (u p : String) : running S (.op t q (.lockExclusive name) r :: s.history) u p =
      running S s.history u p := running_of_no_payload rfl
  refine ⟨hh.2,⟨fun p _ u => hlists u p,fun p t' hne => ?_,fun p r' he' => ?_⟩,?_⟩
  · by_cases hp : p = name
    · subst hp
      simpa [hfree] using hne.symm
    · simp [hp]
  · cases (Action.op.inj (List.cons.inj he').1).2.2.1
  · have hholding : Holding S t name (fun u => running S s.history u name)
        (s.push { s.shared with locks := Function.update s.shared.locks name (some t) }
          (.op t q (.lockExclusive name) r)) := ⟨by simp,fun u => hlists u name⟩
    refine Rules.wp_bind fun _ => Rules.wp_bind (Rules.wp_attempt
      (Rules.wp_mono (hwork _ _ hholding hcond) fun r s' _ hr => ?_))
    obtain ⟨f',hf⟩ := hr
    refine Rules.wp_bind (Rules.wp_mono (wp_unlock hf) fun r' s'' _ _ => ?_)
    cases r' with
    | ok u => exact Rules.wp_ofExcept fun _ => trivial
    | error e => trivial

theorem wp_plain_bind {p : Service α} (hp : p.All Plain) {f : α → Service β}
    (h : ∀ a s, (rules S).wp (restricted S) t q (f a) (fun _ _ => True) s) :
    (rules S).wp (restricted S) t q (p >>= f) (fun _ _ => True) s := by
  refine Rules.wp_bind (Rules.wp_mono (wp_plain hp) fun r s' _ _ => ?_)
  cases r with
  | ok a => exact h a s'
  | error e => trivial

theorem wp_holding_bind {p : Service α} {f : α → Service β} {name : String}
    {g : String → List String} {A : α → Prop}
    (hp : (rules S).wp (restricted S) t q p
      (fun r s' => Holding S t name g s' ∧ ∀ a, r = .ok a → A a) s)
    (h : ∀ a s, A a → Holding S t name g s → (rules S).wp (restricted S) t q (f a)
      (fun _ s' => ∃ f', Holding S t name f' s') s) :
    (rules S).wp (restricted S) t q (p >>= f) (fun _ s' => ∃ f', Holding S t name f' s') s := by
  refine Rules.wp_bind (Rules.wp_mono hp fun r s' _ hr => ?_)
  cases r with
  | ok a => exact h a s' (hr.2 a rfl) hr.1
  | error e => exact ⟨g,hr.1⟩

theorem wp_holding_seq {p : Service α} {f : α → Service β} {name : String}
    {g : String → List String}
    (hp : (rules S).wp (restricted S) t q p (fun _ => Holding S t name g) s)
    (h : ∀ a s, Holding S t name g s → (rules S).wp (restricted S) t q (f a)
      (fun _ s' => ∃ f', Holding S t name f' s') s) :
    (rules S).wp (restricted S) t q (p >>= f) (fun _ s' => ∃ f', Holding S t name f' s') s :=
  wp_holding_bind (A := fun _ => True) (Rules.wp_mono hp fun _ _ _ hs => ⟨hs,fun _ _ => trivial⟩)
    fun a s _ hs => h a s hs

theorem plain_perform {o : Op} {f : Res o → Service α} (ho : Plain o) (hf : ∀ r, (f r).All Plain) :
    (perform o >>= f).All Plain :=
  ⟨ho,hf⟩

theorem plain_storageUpdate {userId k : String} (hk : ∀ p, k ≠ groupsKey p) (payload : Bytes) :
    (storageUpdate userId k payload).All Plain := by
  refine ⟨hk,fun r => ?_⟩
  cases r <;> trivial

theorem plain_storageRead (userId k : String) : (storageRead userId k).All Plain := by
  refine ⟨trivial,fun r => ?_⟩
  cases r <;> trivial

theorem plain_unwrap (a : Option α) : (unwrap a).All Plain := by
  cases a <;> trivial

theorem plain_checkCaller (metadata : MetadataMap) (userId : String) :
    (checkCaller metadata userId).All Plain := by
  refine (Prog.All.ofExcept _).bind fun privilege => ?_
  split_ifs
  · trivial
  · refine (Prog.All.ofExcept _).bind fun caller => ?_
    split_ifs <;> trivial

theorem plain_fetchPackage (request : StartProtocolOperatorRequest) :
    (fetchPackage request).All Plain := by
  refine ⟨trivial,fun present => ?_⟩
  cases present with
  | true => trivial
  | false =>
    refine ⟨trivial,fun r => ?_⟩
    cases r <;> trivial

theorem wp_plain_call {o : Op} (ho : Plain o) {k : Res o → Service α} {name : String}
    {g : String → List String} {Q : Except Abort α → State Op Res Request Shared → Prop}
    (hs : Holding S t name g s)
    (h : ∀ s, (rules S).Holds s → Holding S t name g s → ∀ r x, exec t s o r x →
      Holding S t name g (s.push x (.op t q o r)) →
      (rules S).wp (restricted S) t q (k r) Q (s.push x (.op t q o r))) :
    (rules S).wp (restricted S) t q (.call o k) Q s := by
  refine Rules.wp_call (holding_stable name g) hs fun s hh hs r x he _ => ?_
  obtain ⟨hi,hguar,hlocks,hlists⟩ := plain_step (q := q) ho hh he.1
  refine ⟨hi,hguar,h s hh hs r x he.1 ⟨?_,fun u => (hlists u name).trans (hs.2 u)⟩⟩
  rw [State.push_shared,hlocks]
  exact hs.1

theorem running_eq (hs : (rules S).Holds s) (u p : String) :
    running S s.history u p = ((stored s u (groupsKey p)).bind S.listOfString.decode).getD [] := by
  rw [running,stored,hs.2 u p,Option.or_none]

theorem wp_readRunningInstances {name : String} {g : String → List String} (userId : String)
    (hs : Holding S t name g s) :
    (rules S).wp (restricted S) t q (readRunningInstances S userId name)
      (fun r s' => Holding S t name g s' ∧ ∀ a, r = .ok a → a = g userId) s := by
  refine wp_plain_call (o := .storageContains userId (groupsKey name)) trivial hs
    fun s hh hs present x he hs' => ?_
  cases present with
  | false =>
    refine fun _ => ⟨hs',fun a ha => ?_⟩
    obtain rfl := Except.ok.inj ha
    have hn : stored s userId (groupsKey name) = none :=
      Option.isSome_eq_false_iff.mp he.1.symm |> Option.isNone_iff_eq_none.mp
    rw [← hs.2 userId,running_eq hh,hn]
    rfl
  | true =>
    refine wp_plain_call (o := .storageRead userId (groupsKey name)) trivial hs'
      fun s hh hs r x he hs' => ?_
    cases r with
    | error e => exact fun _ => ⟨hs',fun a ha => by cases ha⟩
    | ok payload =>
      have hstored := (he.1 payload).mp rfl
      have hg : g userId = (S.listOfString.decode payload).getD [] := by
        rw [← hs.2 userId,running_eq hh,hstored]
        rfl
      show (rules S).wp (restricted S) t q (unwrap (S.listOfString.decode payload)) _ _
      cases hd : S.listOfString.decode payload with
      | none => exact fun _ => ⟨hs',fun a ha => by cases ha⟩
      | some list =>
        refine fun _ => ⟨hs',fun a ha => ?_⟩
        obtain rfl := Except.ok.inj ha
        rw [hg,hd]
        rfl

/-- The package is removed only if none of the lists has an instance. -/
theorem wp_upgradePackage {name : String} {g : String → List String} {upgrade : Bool}
    {runningInstances : List String} (hs : Holding S t name g s)
    (hg : upgrade → runningInstances = [] → ∀ u, g u = []) :
    (rules S).wp (restricted S) t q (upgradePackage upgrade name runningInstances)
      (fun _ => Holding S t name g) s := by
  unfold upgradePackage
  by_cases hu : upgrade = true
  · by_cases hr : runningInstances = []
    · rw [if_pos hu,if_pos hr]
      refine wp_plain_call (o := .packageExists name) trivial hs fun s hh hs present x he hs' => ?_
      cases present with
      | false => exact fun _ => hs'
      | true =>
        refine Rules.wp_call (holding_stable name g) hs' fun s hh hs r x he _ => ?_
        obtain ⟨present,rfl⟩ := he.1
        have hlists (u p : String) : running S (.op t q (.removePackage name) r :: s.history) u p =
            running S s.history u p := running_of_no_payload rfl
        have hs'' : Holding S t name g (s.push
            { s.shared with packages := Function.update s.shared.packages name present }
            (.op t q (.removePackage name) r)) := ⟨hs.1,fun u => (hlists u name).trans (hs.2 u)⟩
        refine ⟨hh.2,⟨fun p _ u => hlists u p,fun _ _ _ => Iff.rfl,fun p r' he' u => ?_⟩,?_⟩
        · obtain ⟨-,-,hp,-⟩ := Action.op.inj (List.cons.inj he').1
          obtain rfl := Op.removePackage.inj hp
          rw [hs.2 u,hg hu hr u]
        · cases r <;> exact fun _ => hs''
    · rw [if_pos hu,if_neg hr]
      exact fun _ => hs
  · rw [if_neg hu]
    exact fun _ => hs

theorem wp_startLocked {request : StartProtocolOperatorRequest} {g : String → List String}
    (hs : Holding S t request.protocolName g s)
    (hothers : request.upgrade → ∀ u, u ≠ request.userId → g u = [])
    (coreAddr userJwt instanceId : String) :
    (rules S).wp (restricted S) t q (startLocked S request coreAddr userJwt instanceId)
      (fun _ s' => ∃ f', Holding S t request.protocolName f' s') s := by
  refine wp_holding_bind (wp_readRunningInstances request.userId hs) fun list s hlist hs => ?_
  have hempty : request.upgrade → list = [] → ∀ u, g u = [] := by
    intro hup hl u
    by_cases hu : u = request.userId
    · rw [hu,← hlist,hl]
    · exact hothers hup u hu
  refine wp_holding_seq (wp_upgradePackage hs hempty) fun _ s hs => ?_
  refine wp_holding_seq (wp_plain_holding (plain_fetchPackage request) hs) fun _ s hs => ?_
  refine wp_holding_seq (wp_plain_holding (plain_perform (by trivial) fun _ => .ofExcept _) hs)
    fun started s hs => ?_
  refine wp_holding_seq (wp_plain_holding
    (plain_storageUpdate (instanceUserKey_ne instanceId) _) hs) fun _ s hs => ?_
  refine wp_holding_seq (wp_plain_holding
    (plain_storageUpdate (instanceKey_ne instanceId _) _) hs) fun _ s hs => ?_
  refine wp_holding_seq (wp_plain_holding
    (plain_storageUpdate (instanceKey_ne instanceId _) _) hs) fun _ s hs => ?_
  exact wp_updateList hs _ _

theorem wp_stopLocked {g : String → List String} {name : String} (hs : Holding S t name g s)
    (userId instanceId : String) :
    (rules S).wp (restricted S) t q (stopLocked S userId name instanceId)
      (fun _ s' => ∃ f', Holding S t name f' s') s := by
  refine wp_holding_seq (wp_plain_holding (plain_storageRead _ _) hs) fun _ s hs => ?_
  refine wp_holding_seq (wp_plain_holding (plain_unwrap _) hs) fun _ s hs => ?_
  exact wp_updateList hs _ _

theorem wp_locked_ret {name : String} {work : Service Unit} (a : β)
    (hwork : ∀ f s, Holding S t name f s →
      (∀ request, q.call = .start request → request.upgrade → ∀ u, u ≠ request.userId → f u = []) →
      (rules S).wp (restricted S) t q work (fun _ s' => ∃ f', Holding S t name f' s') s) :
    (rules S).wp (restricted S) t q (locked name work >>= fun _ => .ret a) (fun _ _ => True) s := by
  refine Rules.wp_bind (Rules.wp_mono (wp_locked hwork) fun r _ _ _ => ?_)
  cases r with
  | ok _ => exact fun _ => trivial
  | error _ => trivial

theorem wp_startProtocolOperator (metadata : MetadataMap) (request : StartProtocolOperatorRequest)
    (hq : q.call = .start request) :
    (rules S).wp (restricted S) t q (startProtocolOperator S metadata request)
      (fun _ _ => True) s := by
  refine wp_plain_bind (plain_perform (by trivial) fun _ => .ofExcept _) fun _ s => ?_
  refine wp_plain_bind (plain_checkCaller _ _) fun _ s => ?_
  cases S.coreUri with
  | none => exact fun _ => trivial
  | some coreAddr =>
    refine wp_plain_bind (plain_storageRead _ _) fun _ s => ?_
    refine wp_plain_bind (plain_unwrap _) fun _ s => ?_
    refine wp_plain_bind (p := perform .newInstanceId) ⟨trivial,fun _ => trivial⟩
      fun instanceId s => ?_
    split_ifs
    · exact fun _ => trivial
    · refine wp_plain_bind (plain_perform (by trivial) fun _ => .ofExcept _) fun _ s => ?_
      refine wp_plain_bind (plain_perform (by trivial) fun _ => .ofExcept _) fun _ s => ?_
      refine wp_plain_bind (plain_perform (by trivial) fun _ => .ofExcept _) fun _ s => ?_
      exact wp_locked_ret _ fun f s hs hc => wp_startLocked hs (hc request hq) _ _ _

theorem plain_readInstance (userId instanceId : String) :
    (readInstance userId instanceId).All Plain := by
  refine plain_perform (by trivial) fun r => ?_
  cases r with
  | ok pid => exact (plain_unwrap _).bind fun _ => trivial
  | error e =>
    refine plain_perform (by trivial) fun r => ?_
    cases r with
    | ok cid => exact (plain_unwrap _).bind fun _ => trivial
    | error e' => trivial

theorem wp_stopProtocolOperator (metadata : MetadataMap) (instanceId : String) :
    (rules S).wp (restricted S) t q (stopProtocolOperator S metadata instanceId)
      (fun _ _ => True) s := by
  refine wp_plain_bind (plain_perform (by trivial) fun _ => .ofExcept _) fun _ s => ?_
  refine wp_plain_bind (plain_storageRead _ _) fun _ s => ?_
  refine wp_plain_bind (plain_unwrap _) fun _ s => ?_
  refine wp_plain_bind (plain_checkCaller _ _) fun _ s => ?_
  refine wp_plain_bind (plain_readInstance _ _) fun _ s => ?_
  refine wp_plain_bind (plain_perform (by trivial) fun _ => .ofExcept _) fun _ s => ?_
  refine wp_plain_bind (plain_storageRead _ _) fun _ s => ?_
  refine wp_plain_bind (plain_unwrap _) fun _ s => ?_
  refine wp_plain_bind (plain_perform (by trivial) fun _ => .ofExcept _) fun _ s => ?_
  refine wp_plain_bind (plain_perform (by trivial) fun _ => .ofExcept _) fun _ s => ?_
  exact wp_locked_ret _ fun f s hs _ => wp_stopLocked hs _ _

end Rules

theorem sound : Sound (rules S) (restricted S) Init fun _ _ _ _ => True where
  known _ _ := trivial
  init x hx := hx.1
  start t q s x hs _ hx _ := by
    obtain rfl : x = s.shared := hx.1
    refine ⟨hs.2,⟨rfl,fun u p => running_of_no_payload rfl⟩,?_⟩
    show (rules S).wp (restricted S) t q (handle S q) _ _
    unfold handle
    cases hq : q.call with
    | start request => exact wp_startProtocolOperator _ _ hq
    | stop instanceId => exact wp_stopProtocolOperator _ _
  env s x _ hx := absurd hx.1 id
  post t q r := .const True

/-- While no upgrade gets the lock when another user runs the protocol, no package is removed when
any user runs it. -/
theorem removed_only_unused {c c' : Config Op Res Abort Request String Shared}
    (hc : Reach S c) {t : ℕ} {q : Request} {p : String} {r : Res (.removePackage p)}
    (hs : (system S).Step c (.op t q (.removePackage p) r) c')
    (hcond : Everywhere (NoOthers S) c.state.history) (userId : String) :
    running S c.state.history userId p = [] := by
  have hc' : (restricted S).Reach Init c := hc.under hcond
  have hs' : (restricted S).Step c (.op t q (.removePackage p) r) c' := by
    cases hs with
    | op runs does => exact .op runs ⟨does,trivial⟩
  exact ((sound S).guar hc' hs').removal p r hs.history userId

/-- One way to answer every operation: what lies outside the core always succeeds. -/
def answer (t : ℕ) (s : State Op Res Request Shared) : (o : Op) → Option (Res o × Shared)
  | .checkPrivilegeIn metadata privileges =>
      some (checkPrivilegeIn s.shared.importedUsers metadata privileges,s.shared)
  | .storageContains u k => some ((stored s u k).isSome,s.shared)
  | .storageRead u k => match stored s u k with
    | some payload => some (Except.ok payload,s.shared)
    | none => none
  | .storageUpdate _ _ _ => some (Except.ok (),s.shared)
  | .newInstanceId => some (if t = 0 then "instance" else "other",s.shared)
  | .getColinkHome => some (Except.ok (),s.shared)
  | .createProtocolsDir => some (Except.ok (),s.shared)
  | .openLock _ => some (Except.ok (),s.shared)
  | .lockExclusive p => if s.shared.locks p = none then
      some ((),{ s.shared with locks := Function.update s.shared.locks p (some t) }) else none
  | .unlock p => some (Except.ok (),
      { s.shared with locks := Function.update s.shared.locks p none })
  | .packageExists p => some (s.shared.packages p,s.shared)
  | .removePackage p => some (Except.ok (),
      { s.shared with packages := Function.update s.shared.packages p false })
  | .colinkTomlExists _ => some (true,s.shared)
  | .fetchProtocol p _ _ => some (Except.ok (),
      { s.shared with packages := Function.update s.shared.packages p true })
  | .startInstance _ _ _ _ => some (Except.ok (.pid "1"),s.shared)
  | .kill _ => some (Except.ok (),s.shared)

theorem exec_of_answer {t : ℕ} {s : State Op Res Request Shared} {o : Op} {r : Res o} {x : Shared}
    (h : answer t s o = some (r,x)) : exec t s o r x := by
  cases o with
  | storageRead u k =>
    cases hs : stored s u k with
    | none => simp [answer,hs] at h
    | some payload =>
      simp only [answer,hs] at h
      obtain ⟨rfl,rfl⟩ := Prod.mk.inj (Option.some.inj h)
      refine ⟨fun payload' => ?_,rfl⟩
      rw [hs]
      exact ⟨fun he => congrArg some (Except.ok.inj he),fun he => congrArg _ (Option.some.inj he)⟩
  | lockExclusive p =>
    simp only [answer] at h
    split_ifs at h with hl
    obtain ⟨rfl,rfl⟩ := Prod.mk.inj (Option.some.inj h)
    exact ⟨hl,rfl⟩
  | removePackage p =>
    obtain ⟨rfl,rfl⟩ := Prod.mk.inj (Option.some.inj h)
    exact ⟨false,rfl⟩
  | fetchProtocol p _ _ =>
    obtain ⟨rfl,rfl⟩ := Prod.mk.inj (Option.some.inj h)
    exact ⟨true,rfl⟩
  | checkPrivilegeIn _ _ =>
    obtain ⟨rfl,rfl⟩ := Prod.mk.inj (Option.some.inj h)
    exact ⟨rfl,rfl⟩
  | storageContains _ _ =>
    obtain ⟨rfl,rfl⟩ := Prod.mk.inj (Option.some.inj h)
    exact ⟨rfl,rfl⟩
  | packageExists _ =>
    obtain ⟨rfl,rfl⟩ := Prod.mk.inj (Option.some.inj h)
    exact ⟨rfl,rfl⟩
  | _ => exact (Prod.mk.inj (Option.some.inj h)).2.symm

/-- So many operations of one thread, as far as they can be performed. -/
def advance (t : ℕ) (q : Request) : ℕ → Service String → State Op Res Request Shared →
    Service String × State Op Res Request Shared
  | n+1,.call o k,s => match answer t s o with
    | some (r,x) => advance t q n (k r) (s.push x (.op t q o r))
    | none => (.call o k,s)
  | _,p,s => (p,s)

theorem advances_advance (t : ℕ) (q : Request) (n : ℕ) (p : Service String)
    (s : State Op Res Request Shared) :
    (system S).Advances t q p s (advance t q n p s).1 (advance t q n p s).2 := by
  induction n generalizing p s with
  | zero => exact .refl _ _
  | succ n ih =>
    cases p with
    | ret a => exact .refl _ _
    | fail e => exact .refl _ _
    | call o k =>
      rw [advance]
      cases ha : answer t s o with
      | none => exact .refl _ _
      | some p =>
        obtain ⟨r,x⟩ := p
        exact .step (exec_of_answer ha) (ih _ _)

/-- A call is started, and works through so many operations. -/
def serve (s : State Op Res Request Shared) (t : ℕ) (q : Request) (n : ℕ) :
    State Op Res Request Shared :=
  (advance t q n (handle S q) (s.push s.shared (.start t q))).2

theorem reach_serve {c : Config Op Res Abort Request String Shared} (hc : Reach S c) {t : ℕ}
    (ht : c.threads t = none) (q : Request) (n : ℕ) : ∃ c', Reach S c' ∧
      c'.state = serve S c.state t q n ∧ ∀ t' ≠ t, c'.threads t' = c.threads t' := by
  have hstart : Reach S ⟨c.state.push c.state.shared (.start t q),
      Function.update c.threads t (some (q,handle S q))⟩ :=
    System.Reach.step hc (.start ht rfl)
  have hadv := hstart.advance (by simp) (advances_advance S t q n (handle S q) _)
  exact ⟨_,hadv,rfl,fun t' ht' => by simp [ht']⟩

/-- A core with one protocol package, whose two users have tokens for their operators. -/
def sampleServer : Server := ⟨"host",some "http://core",Code.string.list.message⟩

def sampleShared : Shared where
  importedUsers := {"alice","bob"}
  before u k := if u = "host" ∧ k ∈ ["users:alice:user_jwt","users:bob:user_jwt"] then some [] else none
  locks _ := none
  packages p := p = "protocol"

theorem sampleShared_init : Init sampleShared := by
  refine ⟨fun u p => if_neg ?_,fun p => rfl⟩
  rintro ⟨-,hk⟩
  have hhead : ∀ k ∈ ["users:alice:user_jwt","users:bob:user_jwt"], k.toList.head? = some 'u' := by
    decide
  have hu := hhead _ hk
  rw [groupsKey_head] at hu
  cases hu

def sampleStart (userId : String) (upgrade : Bool) : Request where
  metadata := insert (insert (fun _ => none) "privilege" "user") "user_id" userId
  call := .start { protocolName := "protocol", userId := userId, upgrade := upgrade }

def sampleStop (userId : String) : Request where
  metadata := insert (insert (fun _ => none) "privilege" "user") "user_id" userId
  call := .stop "instance"

/-- The last step removes a package, in a state that passes the check. -/
def atRemoval (check : String → History → Bool) : History → Bool
  | .op _ _ (.removePackage p) _ :: past => check p past
  | _ => false

theorem removal_of_run {S : Server} {c : Config Op Res Abort Request String Shared} (hc : Reach S c)
    {check : String → History → Bool} (h : atRemoval check c.state.history) : ∃ c₀ c₁ t q p r,
      Reach S c₀ ∧ (system S).Step c₀ (.op t q (.removePackage p) r) c₁ ∧
      check p c₀.state.history ∧ c₀.state.history <:+ c.state.history := by
  unfold atRemoval at h
  split at h
  · rename_i t q p r past hh
    have hsuf : .op t q (.removePackage p) r :: past <:+ c.state.history := by rw [hh]
    obtain ⟨c₀,c₁,hc₀,hpast,hs,-⟩ := System.Reach.before hc hsuf
    subst hpast
    exact ⟨c₀,c₁,t,q,p,r,hc₀,hs,h,(List.suffix_cons _ _).trans hsuf⟩
  · cases h

/-- Alice starts an operator, and Bob asks for an upgrade: the package is removed. -/
theorem removed_under_instance : ∃ c c' t q p r, Reach sampleServer c ∧
    (system sampleServer).Step c (.op t q (.removePackage p) r) c' ∧
    running sampleServer c.state.history "alice" p ≠ [] := by
  have hinit : Reach sampleServer ⟨⟨sampleShared,[]⟩,fun _ => none⟩ := .init sampleShared_init
  obtain ⟨c₁,hc₁,hs₁,ht₁⟩ := reach_serve sampleServer hinit rfl (t := 0) (sampleStart "alice" false) 50
  obtain ⟨c₂,hc₂,hs₂,-⟩ := reach_serve sampleServer hc₁ (ht₁ 1 (by decide)) (sampleStart "bob" true) 10
  have hrun : atRemoval (fun p past => decide (running sampleServer past "alice" p ≠ []))
      (serve sampleServer (serve sampleServer ⟨sampleShared,[]⟩ 0 (sampleStart "alice" false) 50)
        1 (sampleStart "bob" true) 10).history := by decide +kernel
  rw [← hs₁,← hs₂] at hrun
  obtain ⟨c,c',t,q,p,r,hc,hs,hl,-⟩ := removal_of_run hc₂ hrun
  exact ⟨c,c',t,q,p,r,hc,hs,of_decide_eq_true hl⟩

/-- The users for whom something has been stored. -/
def storers (h : History) : List String := h.filterMap fun a => match a with
  | .op _ _ (.storageUpdate u _ _) _ => some u
  | _ => none

theorem running_of_not_stored {S : Server} {h : History} {u p : String} (hu : u ∉ storers h) :
    running S h u p = [] := by
  have hw : written h u (groupsKey p) = none := List.findSome?_eq_none_iff.mpr fun a ha => by
    cases a with
    | op t q o r =>
      cases o with
      | storageUpdate u' k payload =>
        refine if_neg fun he => hu (List.mem_filterMap.mpr ⟨_,ha,?_⟩)
        rw [← he.1]
      | _ => rfl
    | _ => rfl
  rw [running,hw]
  rfl

/-- The condition, as far as users are concerned for whom something has been stored. -/
def unused (S : Server) : Action Op Res Request → History → Bool
  | .op _ q (.lockExclusive p) _,h => match q.call with
    | .start request => !request.upgrade ||
        (storers h).all fun u => u = request.userId || running S h u p = []
    | .stop _ => true
  | _,_ => true

theorem noOthers_of_unused {S : Server} {a : Action Op Res Request} {h : History}
    (ha : unused S a h) : NoOthers S a h := by
  unfold NoOthers
  split
  · next q p r =>
    intro request hq hupgrade u hu
    by_cases hin : u ∈ storers h
    · simp only [unused,hq,hupgrade,Bool.not_true,Bool.false_or,List.all_eq_true] at ha
      simpa [hu] using ha u hin
    · exact running_of_not_stored hin
  · trivial

/-- Alice starts and stops an operator, and then Bob upgrades the package. -/
theorem removed_only_unused_sample : ∃ c c' t q p r past, Reach sampleServer c ∧
    (system sampleServer).Step c (.op t q (.removePackage p) r) c' ∧
    past <:+ c.state.history ∧ running sampleServer past "alice" p = ["instance"] ∧
    ∀ u, running sampleServer c.state.history u p = [] := by
  have hinit : Reach sampleServer ⟨⟨sampleShared,[]⟩,fun _ => none⟩ := .init sampleShared_init
  obtain ⟨c₁,hc₁,hs₁,ht₁⟩ := reach_serve sampleServer hinit rfl (t := 0) (sampleStart "alice" false) 50
  obtain ⟨c₂,hc₂,hs₂,ht₂⟩ := reach_serve sampleServer hc₁ (ht₁ 1 (by decide)) (sampleStop "alice") 50
  have hfree : c₂.threads 2 = none := (ht₂ 2 (by decide)).trans (ht₁ 2 (by decide))
  obtain ⟨c₃,hc₃,hs₃,-⟩ := reach_serve sampleServer hc₂ hfree (sampleStart "bob" true) 10
  have hrun : (fun h => decide (Everywhere (fun a past => unused sampleServer a past = true) h) &&
      atRemoval (fun p past => past.tails.any fun past' =>
        running sampleServer past' "alice" p = ["instance"]) h)
      (serve sampleServer (serve sampleServer
        (serve sampleServer ⟨sampleShared,[]⟩ 0 (sampleStart "alice" false) 50)
        1 (sampleStop "alice") 50) 2 (sampleStart "bob" true) 10).history := by
    decide +kernel
  rw [← hs₁,← hs₂,← hs₃] at hrun
  obtain ⟨hunused,hremoval⟩ := Bool.and_eq_true_iff.mp hrun
  obtain ⟨c,c',t,q,p,r,hc,hs,hcheck,hsuf⟩ := removal_of_run hc₃ hremoval
  obtain ⟨past,hpast,hran⟩ := List.any_eq_true.mp hcheck
  have hcond := ((of_decide_eq_true hunused).suffix hsuf).mono fun _ _ => noOthers_of_unused
  exact ⟨c,c',t,q,p,r,past,hc,hs,(List.mem_tails ..).mp hpast,of_decide_eq_true hran,
    removed_only_unused sampleServer hc hs hcond⟩

end ProtocolOperators
end CoLinkServer
