import CoLinkServer.BasicStorage
import CoLinkServer.Decisions
import CoLinkServer.SoloRuns

/-! The storage with subscriptions: an inner storage and a message queue, joined by the number
of subscriptions of every key and the key of every queue. Its calls are programs over the
accesses to these four and to the locks. -/
namespace CoLinkServer

structure SubscriptionMessage where
  changeType : String := ""
  keyPath : String := ""
  payload : Bytes := []
deriving DecidableEq

namespace Subscription

open Interleaving BasicStorage SeparatedText

/-- A hash map in the order in which it is iterated over. -/
abbrev Payloads := List (String × Bytes)

/-- Each access to the two maps is one critical section of their mutexes. The address of the message
queue, from which `create_user_account` makes that of the user, is taken to name a host. -/
inductive Op
  | change (call : Call Bytes)
  | readFromKeyPaths (keyPaths : List String)
  | readFromKeyNames (userId : String) (keyNames : List String)
  | listKeys (dir : String) (includeHistory : Bool)
  | createUserAccount
  | createQueue (mqUri queueName : String)
  | deleteQueue (mqUri queueName : String)
  | queueBind (mqUri queueName key : String)
  | publishMessage (mqUri key : String) (payload : Bytes)
  | countSubscription (userIdKeyName : String)
  | discountSubscription (userIdKeyName : String)
  | containsSubscription (userIdKeyName : String)
  | insertQueue (queueName userIdKeyName : String)
  | removeQueue (queueName : String)
  | lockRead
  | unlockRead
  | lockWrite
  | unlockWrite
  | lockGetMqUri
  | unlockGetMqUri

abbrev Res : Op → Type
  | .change _ => Except String String
  | .readFromKeyPaths _ => Except String Payloads
  | .readFromKeyNames _ _ => Except String Payloads
  | .listKeys _ _ => Except String (List String)
  | .createUserAccount => Except String String
  | .createQueue _ _ => Except String String
  | .deleteQueue _ _ => Except String Unit
  | .queueBind _ _ _ => Except String Unit
  | .publishMessage _ _ _ => Except String Unit
  | .countSubscription _ => Unit
  | .discountSubscription _ => Bool
  | .containsSubscription _ => Bool
  | .insertQueue _ _ => Unit
  | .removeQueue _ => Option String
  | _ => Unit

inductive Failure
  | error (e : String)
  | panic
deriving DecidableEq

abbrev Service (α : Type) : Type := Prog Op Res Failure α

def perform (o : Op) : Service (Res o) := .call o .ret

/-- The operator `?`. -/
def attempted {α : Type} : Except String α → Service α
  | .ok a => .ret a
  | .error e => .fail (.error e)

def unwrap {α : Type} : Option α → Service α
  | some a => .ret a
  | none => .fail .panic

/-- The hash function and the message format. -/
structure Formats where
  sha256 : Bytes → Bytes
  subscriptionMessage : Message SubscriptionMessage

variable (F : Formats)

/-- The prefix under which the inner storage lists the level of a key. -/
def getPrefix (userId keyName : String) : String :=
  match rsplit ':' keyName with
  | some (pos,_) => userId ++ "::" ++ pos
  | none => userId ++ ":"

def getUserId (userIdKeyName : String) : String :=
  match splitFirst ':' userIdKeyName.toList with
  | some (pos,_) => .ofList pos
  | none => ""

/-- Long names are not used as routing keys themselves. -/
def routingKey (userIdKeyName : String) : String :=
  if userIdKeyName.utf8ByteSize > 200 then
    "sha256:" ++ hexEncode (F.sha256 (stringBytes userIdKeyName))
  else userIdKeyName

def stringOfBytes (bs : Bytes) : Option String := String.fromUTF8? ⟨bs.toArray⟩

/-- The listed key paths that are versions of the key, from the start on. -/
def validKeyPaths (userIdKeyName : String) (startTimestamp : ℤ) :
    List String → Option (List String)
  | [] => some []
  | keyPath :: keyList => do
    let name ← getUserIdKeyName keyPath
    let valid ← if name = userIdKeyName then
        (getTimestamp keyPath).map fun timestamp => decide (startTimestamp ≤ timestamp)
      else some false
    let rest ← validKeyPaths userIdKeyName startTimestamp keyList
    some (if valid then keyPath :: rest else rest)

def mqUriKey : String := "_internal:mq_uri"

/-- Both ways the guard of the mutex is dropped at the end. -/
def getMqUri (userId : String) : Service String :=
  Prog.bracket (perform .lockGetMqUri) (perform .unlockGetMqUri) do
    match ← perform (.readFromKeyNames userId [mqUriKey]) with
    | .ok entries => do
      let entry ← unwrap entries.head?
      unwrap (stringOfBytes entry.2)
    | .error _ => do
      let mqUri ← perform .createUserAccount >>= attempted
      let _ ← perform (.change (.create userId mqUriKey (stringBytes mqUri))) >>= attempted
      .ret mqUri

def publishChange (userId keyName changeType keyPath : String) (payload : Bytes) :
    Service Unit := do
  let subscribed : Bool ← perform (.containsSubscription (userIdKeyName userId keyName))
  if subscribed then do
    let mqUri ← getMqUri userId
    perform (.publishMessage mqUri (routingKey F (userIdKeyName userId keyName))
      (F.subscriptionMessage.encode ⟨changeType,keyPath,payload⟩)) >>= attempted
  else .ret ()

/-- `create`, `update` and `delete`: the inner storage first, then the notification. -/
def change (changeType : String) (call : Call Bytes) (payload : Bytes) : Service String :=
  Prog.bracket (perform .lockRead) (perform .unlockRead) do
    let keyPath ← perform (.change call) >>= attempted
    publishChange F call.userId call.keyName changeType keyPath payload
    .ret keyPath

def create (userId keyName : String) (value : Bytes) : Service String :=
  change F "create" (.create userId keyName value) value

def update (userId keyName : String) (value : Bytes) : Service String :=
  change F "update" (.update userId keyName value) value

def delete (userId keyName : String) : Service String :=
  change F "delete" (.delete userId keyName) []

/-- Publish what the storage holds of the key to the new queue alone. -/
def replay (mqUri queueName userId keyName : String) (startTimestamp : ℤ) : Service Unit := do
  let keyList ← perform (.listKeys (getPrefix userId keyName) true) >>= attempted
  let validKeyPaths ← unwrap
    (validKeyPaths (userIdKeyName userId keyName) startTimestamp keyList)
  let res ← perform (.readFromKeyPaths validKeyPaths) >>= attempted
  res.foldlM (fun _ (keyPath,payload) =>
    perform (.publishMessage mqUri queueName
      (F.subscriptionMessage.encode ⟨"in-storage",keyPath,payload⟩)) >>= attempted) ()

/-- Everything that `subscribe` does while it has the write lock. -/
def register (mqUri queueName userId keyName : String) (startTimestamp : ℤ) : Service Unit := do
  perform (.countSubscription (userIdKeyName userId keyName))
  perform (.insertQueue queueName (userIdKeyName userId keyName))
  perform (.queueBind mqUri queueName (routingKey F (userIdKeyName userId keyName))) >>= attempted
  replay F mqUri queueName userId keyName startTimestamp

def subscribe (userId keyName : String) (startTimestamp : ℤ) : Service String := do
  let mqUri ← getMqUri userId
  let queueName ← perform (.createQueue mqUri "") >>= attempted
  perform (.queueBind mqUri queueName queueName) >>= attempted
  Prog.bracket (perform .lockWrite) (perform .unlockWrite)
    (register F mqUri queueName userId keyName startTimestamp)
  .ret queueName

def unsubscribe (userId queueName : String) : Service Unit := do
  match ← perform (.removeQueue queueName) with
  | none => .fail (.error "Ubsubscribe Error: subscription not found.")
  | some userIdKeyName =>
    if userId ≠ getUserId userIdKeyName then
      .fail (.error "Ubsubscribe Error: permission denied.")
    else do
      let found : Bool ← perform (.discountSubscription userIdKeyName)
      if found then do
        let mqUri ← getMqUri userId
        perform (.deleteQueue mqUri queueName) >>= attempted
      else .fail (.error "Ubsubscribe Error: key_subscription_count not found.")

section All

variable {φ : Op → Prop} {α : Type}

theorem all_perform {o : Op} (ho : φ o) : (perform o).All φ := ⟨ho,fun _ => trivial⟩

theorem all_attempted (r : Except String α) : (attempted r).All φ := by cases r <;> trivial

theorem all_unwrap (a : Option α) : (unwrap a).All φ := by cases a <;> trivial

theorem all_try {o : Op} (ho : φ o) {f : Res o → Service α} (hf : ∀ r, (f r).All φ) :
    (perform o >>= f).All φ := (all_perform ho).bind hf

/-- The operations that look for the account of a user. -/
def Op.Account : Op → Prop
  | .lockGetMqUri => True
  | .unlockGetMqUri => True
  | .readFromKeyNames _ _ => True
  | .createUserAccount => True
  | .change _ => True
  | _ => False

theorem account_getMqUri (userId : String) : (getMqUri userId).All Op.Account := by
  refine .bracket (all_perform trivial) (all_perform trivial) ⟨trivial,fun r => ?_⟩
  cases r with
  | ok entries => exact (all_unwrap _).bind fun _ => all_unwrap _
  | error e =>
    refine (all_try trivial all_attempted).bind fun mqUri => ?_
    exact (all_try trivial all_attempted).bind fun _ => trivial

/-- The operations that read the past of a key and publish it. -/
def Op.Replay : Op → Prop
  | .listKeys _ _ => True
  | .readFromKeyPaths _ => True
  | .publishMessage _ _ _ => True
  | _ => False

theorem replay_replay (mqUri queueName userId keyName : String) (startTimestamp : ℤ) :
    (replay F mqUri queueName userId keyName startTimestamp).All Op.Replay := by
  refine (all_try trivial all_attempted).bind fun keyList => ?_
  refine (all_unwrap _).bind fun validKeyPaths => ?_
  refine (all_try trivial all_attempted).bind fun res => ?_
  exact .foldlM res (fun _ _ _ => all_try trivial all_attempted) ()

end All

/-- The inner storage and the message queue, with whatever state they keep between them. -/
structure Backend (σ : Type) where
  change : σ → Call Bytes → Except String String × σ
  readFromKeyPaths : σ → List String → Except String Payloads × σ
  readFromKeyNames : σ → String → List String → Except String Payloads × σ
  listKeys : σ → String → Bool → Except String (List String) × σ
  createUserAccount : σ → Except String String × σ
  createQueue : σ → String → String → Except String String × σ
  deleteQueue : σ → String → String → Except String Unit × σ
  queueBind : σ → String → String → String → Except String Unit × σ
  publishMessage : σ → String → String → Bytes → Except String Unit × σ

structure Shared (σ : Type) where
  backend : σ
  keySubscriptionCount : String → Option ℤ
  queueNameToUserIdKeyName : String → Option String
  readers : ℕ
  writer : Bool
  getMqUriMutex : Bool

variable {σ : Type}

def Shared.new (backend : σ) : Shared σ := ⟨backend,fun _ => none,fun _ => none,0,false,false⟩

def Shared.setCount (x : Shared σ) (name : String) (count : Option ℤ) : Shared σ :=
  { x with keySubscriptionCount := Function.update x.keySubscriptionCount name count }

def Shared.setQueue (x : Shared σ) (queueName : String) (name : Option String) : Shared σ :=
  { x with queueNameToUserIdKeyName :=
      Function.update x.queueNameToUserIdKeyName queueName name }

def Shared.answer {ρ : Type} (x : Shared σ) (a : ρ × σ) : ρ × Shared σ :=
  (a.1,{ x with backend := a.2 })

def answer (B : Backend σ) : Machine Op Res (Shared σ)
  | .change call,x => x.answer (B.change x.backend call)
  | .readFromKeyPaths keyPaths,x => x.answer (B.readFromKeyPaths x.backend keyPaths)
  | .readFromKeyNames userId keyNames,x => x.answer (B.readFromKeyNames x.backend userId keyNames)
  | .listKeys dir includeHistory,x => x.answer (B.listKeys x.backend dir includeHistory)
  | .createUserAccount,x => x.answer (B.createUserAccount x.backend)
  | .createQueue mqUri queueName,x => x.answer (B.createQueue x.backend mqUri queueName)
  | .deleteQueue mqUri queueName,x => x.answer (B.deleteQueue x.backend mqUri queueName)
  | .queueBind mqUri queueName key,x => x.answer (B.queueBind x.backend mqUri queueName key)
  | .publishMessage mqUri key payload,x => x.answer (B.publishMessage x.backend mqUri key payload)
  | .countSubscription name,x =>
      let num := match x.keySubscriptionCount name with
        | some num => num + 1
        | none => 1
      ((),x.setCount name (some num))
  | .discountSubscription name,x => match x.keySubscriptionCount name with
    | some num => (true,x.setCount name (if num = 1 then none else some (num - 1)))
    | none => (false,x)
  | .containsSubscription name,x => ((x.keySubscriptionCount name).isSome,x)
  | .insertQueue queueName name,x => ((),x.setQueue queueName (some name))
  | .removeQueue queueName,x =>
      (x.queueNameToUserIdKeyName queueName,x.setQueue queueName none)
  | .lockRead,x => ((),{ x with readers := x.readers + 1 })
  | .unlockRead,x => ((),{ x with readers := x.readers - 1 })
  | .lockWrite,x => ((),{ x with writer := true })
  | .unlockWrite,x => ((),{ x with writer := false })
  | .lockGetMqUri,x => ((),{ x with getMqUriMutex := true })
  | .unlockGetMqUri,x => ((),{ x with getMqUriMutex := false })

inductive Request
  | create (userId keyName : String) (value : Bytes)
  | update (userId keyName : String) (value : Bytes)
  | delete (userId keyName : String)
  | subscribe (userId keyName : String) (startTimestamp : ℤ)
  | unsubscribe (userId queueName : String)

def Request.userId : Request → String
  | .create userId _ _ => userId
  | .update userId _ _ => userId
  | .delete userId _ => userId
  | .subscribe userId _ _ => userId
  | .unsubscribe userId _ => userId

def handle : Request → Service String
  | .create userId keyName value => create F userId keyName value
  | .update userId keyName value => update F userId keyName value
  | .delete userId keyName => delete F userId keyName
  | .subscribe userId keyName startTimestamp => subscribe F userId keyName startTimestamp
  | .unsubscribe userId queueName => do
    unsubscribe userId queueName
    .ret ""

/-- A lock is taken only when nobody has it. -/
def Enabled (x : Shared σ) : Op → Prop
  | .lockRead => x.writer = false
  | .lockWrite => x.writer = false ∧ x.readers = 0
  | .lockGetMqUri => x.getMqUriMutex = false
  | _ => True

/-- Between the operations the backend may change in any way. -/
def system (B : Backend σ) : System Op Res Failure Request String (Shared σ) where
  body := handle F
  exec _ _ o s r y := Enabled s.shared o ∧ (r,y) = answer B o s.shared
  start _ _ s y := y = s.shared
  env s y := ∃ backend, y = { s.shared with backend := backend }

abbrev History := List (Action Op Res Request)

def Reach (B : Backend σ) (c : Config Op Res Failure Request String (Shared σ)) : Prop :=
  (system F B).Reach (fun x => ∃ backend, x = .new backend) c

def Shared.locks (x : Shared σ) : ℕ × Bool × Bool := (x.readers,x.writer,x.getMqUriMutex)

def Op.isLock : Op → Bool
  | .lockRead => true
  | .unlockRead => true
  | .lockWrite => true
  | .unlockWrite => true
  | .lockGetMqUri => true
  | .unlockGetMqUri => true
  | _ => false

/-- Every operation is enabled, and in the end the locks are held as given. -/
abbrev Alone (B : Backend σ) {α : Type} (p : Service α) (locks : ℕ × Bool × Bool) (x : Shared σ) : Prop :=
  p.Safe (answer B) Enabled (fun y => y.locks = locks) x

section Alone

variable {B : Backend σ} {α : Type} {x : Shared σ}

theorem lockless (B : Backend σ) {o : Op} (ho : o.isLock = false) (y : Shared σ) :
    Enabled y o ∧ (answer B o y).2.locks = y.locks := by
  cases o with
  | discountSubscription name =>
    refine ⟨trivial,?_⟩
    cases hc : y.keySubscriptionCount name <;> simp [answer,hc,Shared.locks,Shared.setCount]
  | _ => first | exact ⟨trivial,rfl⟩ | cases ho

theorem alone_lockless {p : Service α} (hp : p.All fun o => o.isLock = false) :
    Alone B p x.locks x :=
  .of_all hp (fun _ ho y hy => ⟨(lockless B ho y).1,(lockless B ho y).2.trans hy⟩) rfl

theorem Alone.bind {β : Type} {p : Service α} {g : α → Service β} {locks : ℕ × Bool × Bool}
    (hp : Alone B p locks x) (hg : ∀ a y, y.locks = locks → Alone B (g a) locks y) :
    Alone B (p >>= g) locks x := Prog.Safe.bind hp (fun _ hy => hy) hg

theorem lockless_try {o : Op} (ho : o.isLock = false) {f : Res o → Except String α} :
    (perform o >>= fun r => attempted (f r)).All fun o => o.isLock = false :=
  all_try ho fun r => all_attempted (f r)

theorem alone_getMqUri (userId : String) (hx : x.getMqUriMutex = false) :
    Alone B (getMqUri userId) x.locks x := by
  unfold getMqUri
  refine Prog.Safe.bracket (P := fun y => y.locks = (x.readers,x.writer,true)) hx
    (alone_lockless (x := { x with getMqUriMutex := true }) ?_) fun y hy => ⟨trivial,?_⟩
  · refine ⟨rfl,fun r => ?_⟩
    cases r with
    | ok entries => exact (all_unwrap _).bind fun _ => all_unwrap _
    | error e =>
      refine (lockless_try rfl).bind fun mqUri => ?_
      exact (lockless_try rfl).bind fun _ => trivial
  · simp only [Shared.locks,Prod.mk.injEq] at hy ⊢
    exact ⟨hy.1,hy.2.1,hx.symm⟩

theorem alone_change (changeType : String) (call : Call Bytes) (payload : Bytes)
    (hx : x.locks = (0,false,false)) : Alone B (change F changeType call payload) (0,false,false) x := by
  simp only [Shared.locks,Prod.mk.injEq] at hx
  unfold change
  refine Prog.Safe.bracket (P := fun y => y.locks = (1,false,false)) hx.2.1 ?_ fun y hy => ⟨trivial,?_⟩
  · have hlocked : (answer B .lockRead x).2.locks = (1,false,false) := by
      simp [answer,Shared.locks,hx]
    rw [← hlocked]
    refine (alone_lockless (lockless_try rfl)).bind fun keyPath y hy => ?_
    refine Alone.bind (p := publishChange F _ _ _ _ _) ?_ fun _ y hy => hy
    rw [← hy]
    refine (alone_lockless (all_perform rfl)).bind fun subscribed z hz => ?_
    cases subscribed with
    | false => exact hz
    | true =>
      have hmutex : z.getMqUriMutex = false := by
        have hh := hz.trans (hy.trans hlocked)
        simp only [Shared.locks,Prod.mk.injEq] at hh
        exact hh.2.2
      rw [← hz]
      refine (alone_getMqUri _ hmutex).bind fun mqUri w hw => ?_
      rw [← hw]
      exact alone_lockless (lockless_try rfl)
  · simp only [Shared.locks,Prod.mk.injEq] at hy
    simp [answer,Shared.locks,hy]

theorem alone_subscribe (userId keyName : String) (startTimestamp : ℤ)
    (hx : x.locks = (0,false,false)) :
    Alone B (subscribe F userId keyName startTimestamp) (0,false,false) x := by
  have hmutex : x.getMqUriMutex = false := congrArg (·.2.2) hx
  rw [← hx]
  refine (alone_getMqUri userId hmutex).bind fun mqUri y hy => ?_
  rw [← hy]
  refine (alone_lockless (lockless_try rfl)).bind fun queueName z hz => ?_
  rw [← hz]
  refine (alone_lockless (lockless_try rfl)).bind fun _ w hw => ?_
  have hfree := hw.trans (hz.trans (hy.trans hx))
  rw [← hw,hfree]
  simp only [Shared.locks,Prod.mk.injEq] at hfree
  refine Alone.bind ?_ fun _ _ hy => hy
  refine Prog.Safe.bracket (P := fun y => y.locks = (0,true,false)) ⟨hfree.2.1,hfree.1⟩ ?_
    fun y hy => ⟨trivial,?_⟩
  · have hlocked : (answer B .lockWrite w).2.locks = (0,true,false) := by
      simp [answer,Shared.locks,hfree]
    rw [← hlocked]
    refine alone_lockless ⟨rfl,fun _ => ⟨rfl,fun _ => (lockless_try rfl).bind fun _ => ?_⟩⟩
    exact (replay_replay F mqUri queueName userId keyName startTimestamp).mono fun o ho => by
      cases o <;> first | rfl | exact ho.elim
  · simp only [Shared.locks,Prod.mk.injEq] at hy
    simp [answer,Shared.locks,hy]

theorem alone_unsubscribe (userId queueName : String) (hx : x.getMqUriMutex = false) :
    Alone B (unsubscribe userId queueName) x.locks x := by
  unfold unsubscribe
  refine (alone_lockless (all_perform rfl)).bind fun r y hy => ?_
  cases r with
  | none => exact hy
  | some name =>
    dsimp only
    split_ifs
    · exact hy
    · rw [← hy]
      refine (alone_lockless (all_perform rfl)).bind fun found z hz => ?_
      cases found with
      | false => exact hz
      | true =>
        have hmutex : z.getMqUriMutex = false :=
          (congrArg (·.2.2) (hz.trans hy)).trans hx
        rw [← hz]
        refine (alone_getMqUri userId hmutex).bind fun mqUri w hw => ?_
        rw [← hw]
        exact alone_lockless (lockless_try rfl)

theorem alone_handle (q : Request) (hx : x.locks = (0,false,false)) :
    Alone B (handle F q) (0,false,false) x := by
  cases q with
  | create u k v => exact alone_change F _ _ _ hx
  | update u k v => exact alone_change F _ _ _ hx
  | delete u k => exact alone_change F _ _ _ hx
  | subscribe u k start => exact alone_subscribe F u k start hx
  | unsubscribe u queueName =>
    have hmutex : x.getMqUriMutex = false := congrArg (·.2.2) hx
    have hh := alone_unsubscribe (B := B) u queueName hmutex
    rw [hx] at hh
    exact hh.bind fun _ _ hy => hy

theorem Reach.serve {c : Config Op Res Failure Request String (Shared σ)} (hc : Reach F B c)
    {t : ℕ} (ht : c.threads t = none) (q : Request)
    (hfree : c.state.shared.locks = (0,false,false)) :
    let e := (handle F q).eval (answer B) c.state.shared []
    ∃ c', Reach F B c' ∧ c'.threads = Function.update c.threads t (some (q,.ofExcept e.result)) ∧
      c'.state.shared = e.state ∧ c'.state.shared.locks = (0,false,false) ∧
      c'.state.history = e.events.map (fun e => .op t q e.1 e.2) ++ .start t q :: c.state.history := by
  intro e
  have hstart : (system F B).Step c (.start t q) _ := .start ht rfl
  obtain ⟨c',hs,hthreads,hshared,hlocks,added,hevents,hhistory⟩ :=
    (alone_handle F (B := B) q hfree).steps (S := system F B) (t := t) (q := q)
      (fun _ _ _ _ he => ⟨he,rfl⟩) (c := ⟨c.state.push c.state.shared (.start t q),
        Function.update c.threads t (some (q,handle F q))⟩) (Function.update_self ..) []
  rw [List.append_nil] at hevents
  refine ⟨c',System.Reach.steps (hc.step hstart) hs,?_,hshared,hlocks,?_⟩
  · rw [hthreads]
    exact Function.update_idem ..
  · rw [hhistory,← hevents]
    rfl

end Alone

def sampleFormats : Formats where
  sha256 := id
  subscriptionMessage := ((Code.string.pair (Code.string.pair Code.bytes)).via
    (fun m => (m.changeType,m.keyPath,m.payload)) (fun p => ⟨p.1,p.2.1,p.2.2⟩) fun _ => rfl).message

end Subscription
end CoLinkServer
