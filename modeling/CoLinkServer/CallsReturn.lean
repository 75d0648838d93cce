import CoLinkServer.ChangeOrder
import CoLinkServer.ConcreteRuns
import CoLinkServer.LockOrder
import CoLinkServer.RunningInstances
import CoLinkServer.TaskOperations

/-! All calls return, however they take turns: nobody waits for a lock whose holder waits for somebody
else in turn. -/
namespace CoLinkServer

open Interleaving

namespace Subscription

section Locks

inductive Lock
  | lock | getMqUriMutex
deriving DecidableEq

/-- Whoever has the mutex of the accounts waits for nothing. -/
def lockUse : LockUse Op Lock where
  takes
    | .lockRead => some (.lock,.shared)
    | .lockWrite => some (.lock,.exclusive)
    | .lockGetMqUri => some (.getMqUriMutex,.exclusive)
    | _ => none
  gives
    | .unlockRead => some (.lock,.shared)
    | .unlockWrite => some (.lock,.exclusive)
    | .unlockGetMqUri => some (.getMqUriMutex,.exclusive)
    | _ => none
  rank
    | .lock => 0
    | .getMqUriMutex => 1

variable (F : Formats) {α : Type} {n : ℕ}

theorem orderly_lockless {p : Service α} (hp : p.All fun o => o.isLock = false) : lockUse.Orderly n p :=
  LockUse.orderly_of_all (hp.mono fun o ho => by cases o <;> first | exact ⟨rfl,rfl⟩ | cases ho)

theorem orderly_try {o : Op} (ho : o.isLock = false) {f : Res o → Except String α} :
    lockUse.Orderly n (perform o >>= fun r => attempted (f r)) := orderly_lockless (lockless_try ho)

theorem orderly_getMqUri (userId : String) : lockUse.Orderly 1 (getMqUri userId) := by
  unfold getMqUri
  refine LockUse.Orderly.guard (a := Op.lockGetMqUri) (b := Op.unlockGetMqUri)
    (f := fun _ => .ok ()) (k := Lock.getMqUriMutex) ⟨rfl,rfl⟩ ⟨rfl,rfl⟩ ?_
  refine orderly_lockless ⟨rfl,fun r => ?_⟩
  cases r with
  | ok entries => exact (all_unwrap _).bind fun _ => all_unwrap _
  | error e =>
    refine (lockless_try rfl).bind fun mqUri => ?_
    exact (lockless_try rfl).bind fun _ => trivial

theorem orderly_change (changeType : String) (call : BasicStorage.Call Bytes) (payload : Bytes) :
    lockUse.Orderly 0 (change F changeType call payload) := by
  unfold change
  refine LockUse.Orderly.guard (a := Op.lockRead) (b := Op.unlockRead) (f := fun _ => .ok ())
    (k := Lock.lock) ⟨rfl,rfl⟩ ⟨rfl,rfl⟩ ?_
  refine (orderly_try rfl).bind fun keyPath => ?_
  refine LockUse.Orderly.bind ((orderly_lockless (all_perform rfl)).bind fun subscribed => ?_)
    fun _ => orderly_lockless trivial
  cases (subscribed : Bool) with
  | false => exact orderly_lockless trivial
  | true => exact (orderly_getMqUri _).bind fun mqUri => orderly_try rfl

theorem orderly_subscribe (userId keyName : String) (startTimestamp : ℤ) :
    lockUse.Orderly 0 (subscribe F userId keyName startTimestamp) := by
  refine ((orderly_getMqUri userId).mono (Nat.zero_le _)).bind fun mqUri =>
    (orderly_try rfl).bind fun queueName => (orderly_try rfl).bind fun _ =>
    LockUse.Orderly.bind ?_ fun _ => orderly_lockless trivial
  refine LockUse.Orderly.guard (a := Op.lockWrite) (b := Op.unlockWrite) (f := fun _ => .ok ())
    (k := Lock.lock) ⟨rfl,rfl⟩ ⟨rfl,rfl⟩ (orderly_lockless ?_)
  refine ⟨rfl,fun _ => ⟨rfl,fun _ => (lockless_try rfl).bind fun _ => ?_⟩⟩
  exact (replay_replay F mqUri queueName userId keyName startTimestamp).mono fun o ho => by
    cases o <;> first | rfl | exact ho.elim

theorem orderly_unsubscribe (userId queueName : String) :
    lockUse.Orderly 0 (unsubscribe userId queueName) := by
  refine (orderly_lockless (all_perform rfl)).bind fun r => ?_
  cases r with
  | none => exact orderly_lockless trivial
  | some name =>
    dsimp only
    split_ifs
    · exact orderly_lockless trivial
    · refine (orderly_lockless (all_perform rfl)).bind fun found => ?_
      cases (found : Bool) with
      | false => exact orderly_lockless trivial
      | true =>
        exact ((orderly_getMqUri userId).mono (Nat.zero_le _)).bind fun mqUri => orderly_try rfl

theorem orderly_handle (q : Request) : lockUse.Orderly 0 (handle F q) := by
  cases q with
  | create u k v => exact orderly_change F _ _ _
  | update u k v => exact orderly_change F _ _ _
  | delete u k => exact orderly_change F _ _ _
  | subscribe u k start => exact orderly_subscribe F u k start
  | unsubscribe u queueName =>
    exact (orderly_unsubscribe u queueName).bind fun _ => orderly_lockless trivial

variable {σ : Type} (B : Backend σ)

def lockOrder : LockOrder (system F B) (fun x => ∃ backend, x = .new backend) Lock Lock where
  use := lockUse
  bound := 2
  kind := id
  on _ _ := true
  readers
    | .lock,x => x.readers
    | .getMqUriMutex,_ => 0
  writer
    | .lock,x => x.writer
    | .getMqUriMutex,x => x.getMqUriMutex
  bounded k := by cases k <;> decide
  apart o x hx := by cases o <;> first | rfl | cases hx
  answered o x hx := by cases o <;> first | exact ⟨()⟩ | cases hx
  free l x hx := by
    obtain ⟨backend,rfl⟩ := hx
    cases l <;> exact ⟨rfl,rfl⟩
  reads l t q o s r y hx := by
    obtain ⟨-,hy⟩ := hx
    obtain rfl := (Prod.mk.inj hy).2
    cases o with
    | discountSubscription name =>
      cases hc : s.shared.keySubscriptionCount name <;> cases l <;>
        simp [hc,Shared.setCount,lockUse]
    | _ => cases l <;> simp [Shared.answer,lockUse,Shared.setCount,Shared.setQueue]
  writes l t q o s r y hx := by
    obtain ⟨henabled,hy⟩ := hx
    obtain rfl := (Prod.mk.inj hy).2
    cases o with
    | discountSubscription name =>
      cases hc : s.shared.keySubscriptionCount name <;> cases l <;>
        simp [hc,Shared.setCount,lockUse]
    | lockWrite => cases l <;> simp [lockUse,show s.shared.writer = false from henabled.1]
    | unlockWrite => cases l <;> cases hw : s.shared.writer <;> simp [lockUse,hw]
    | lockGetMqUri => cases l <;> simp [lockUse,show s.shared.getMqUriMutex = false from henabled]
    | unlockGetMqUri => cases l <;> cases hw : s.shared.getMqUriMutex <;> simp [lockUse,hw]
    | _ => cases l <;> simp [Shared.answer,lockUse,Shared.setCount,Shared.setQueue]
  start l t q s y hs := by
    obtain rfl : y = s.shared := hs
    exact ⟨rfl,rfl⟩
  env l s y hs := by
    obtain ⟨m,rfl⟩ := hs
    cases l <;> exact ⟨rfl,rfl⟩
  orderly q := orderly_handle F q
  possible c t q o k _ _ hopen := by
    have henabled : Enabled c.state.shared o := by
      cases o with
      | lockRead => exact hopen .lock .shared rfl rfl
      | lockWrite => exact hopen .lock .exclusive rfl rfl
      | lockGetMqUri => exact (hopen .getMqUriMutex .exclusive rfl rfl).1
      | _ => trivial
    exact ⟨_,_,henabled,rfl⟩

/-- As long as no new calls come in, all calls on the storage return after finitely many steps, however
they take turns: no step leads to a state in which calls wait for each other. When they have returned,
nobody has a lock. -/
theorem calls_return (c : Config Op Res Failure Request String (Shared σ)) (hc : Reach F B c) :
    (system F B).Finishes c ∧ ((∀ t q p, c.threads t = some (q,p) → ∃ r, p = Prog.ofExcept r) →
      c.state.shared.locks = (0,false,false)) := by
  refine ⟨(lockOrder F B).finishes hc,fun hend => ?_⟩
  have hlock := (lockOrder F B).open_of_ended hc hend .lock .exclusive
  have hmutex := (lockOrder F B).open_of_ended hc hend .getMqUriMutex .exclusive
  exact Prod.ext hlock.2 (Prod.ext hlock.1 hmutex.1)

def servicePlayer : Player (system F B) Request where
  answer _ _ s o := if ChangeOrder.enabled s.shared o then some (answer B o s.shared) else none
  does h := by
    split_ifs at h with he
    exact ⟨(ChangeOrder.enabled_iff _ _).mp he,(Option.some.inj h).symm⟩
  serves _ q s := some (q,s.shared)
  begins h := (Prod.mk.inj (Option.some.inj h)).2.symm

end Locks

/-- A change has the lock when two subscriptions come that need it for themselves. -/
def waiting : List (Turn Request) :=
  .start 0 (.update "alice" "a:b" [1]) :: .step 0 :: .start 1 (.subscribe "alice" "a:b" 0) ::
    List.replicate 9 (.step 1) ++ .start 2 (.subscribe "alice" "a:b" 0) :: List.replicate 9 (.step 2)

abbrev waitingRun : Config Op Res Failure Request String (Shared (Inner ℕ)) :=
  (servicePlayer sampleFormats (basic (sampleOutside fun _ => true))).play
    (.new ⟨BasicStorage.empty,ChangeOrder.sampleClock,0⟩) waiting

theorem calls_return_waiting :
    (∃ k, waitingRun.threads 1 = some (.subscribe "alice" "a:b" 0,.call .lockWrite k)) ∧
    (∃ k, waitingRun.threads 2 = some (.subscribe "alice" "a:b" 0,.call .lockWrite k)) ∧
    ¬ Enabled waitingRun.state.shared .lockWrite ∧
    (system sampleFormats (basic (sampleOutside fun _ => true))).Finishes waitingRun :=
  ⟨⟨_,rfl⟩,⟨_,rfl⟩,fun h => absurd h.2 (by decide +kernel),
    (calls_return _ _ _ (Player.reach_play _ _ ⟨_,rfl⟩ _)).1⟩

end Subscription

namespace ProtocolOperators

section Locks

/-- Each protocol has a lock of its own, and a call takes one of them. -/
def lockUse : LockUse Op String where
  takes
    | .lockExclusive p => some (p,.exclusive)
    | _ => none
  gives
    | .unlock p => some (p,.exclusive)
    | _ => none
  rank _ := 0

abbrev Lockfree (o : Op) : Prop := lockUse.takes o = none ∧ lockUse.gives o = none

variable {S : Server} {α : Type} {n : ℕ}

theorem lockfree_of_plain {o : Op} (ho : Plain o) : Lockfree o := by
  cases o <;> first | exact ⟨rfl,rfl⟩ | exact ho.elim

theorem orderly_plain {p : Service α} (hp : p.All Plain) : lockUse.Orderly n p :=
  LockUse.orderly_of_all (hp.mono fun _ => lockfree_of_plain)

theorem lockfree_storageUpdate (userId k : String) (payload : Bytes) :
    (storageUpdate userId k payload).All Lockfree :=
  ⟨⟨rfl,rfl⟩,fun r => by cases r <;> trivial⟩

theorem lockfree_of_all {p : Service α} (hp : p.All Plain) : p.All Lockfree :=
  hp.mono fun _ => lockfree_of_plain

theorem lockfree_readRunningInstances (userId protocolName : String) :
    (readRunningInstances S userId protocolName).All Lockfree := by
  refine ⟨⟨rfl,rfl⟩,fun present => ?_⟩
  cases present with
  | false => trivial
  | true =>
    exact (lockfree_of_all (plain_storageRead _ _)).bind fun _ => lockfree_of_all (plain_unwrap _)

theorem lockfree_upgradePackage (upgrade : Bool) (protocolName : String) (instances : List String) :
    (upgradePackage upgrade protocolName instances).All Lockfree := by
  unfold upgradePackage
  split_ifs
  · refine ⟨⟨rfl,rfl⟩,fun present => ?_⟩
    cases present with
    | false => trivial
    | true => exact ⟨⟨rfl,rfl⟩,fun r => by cases r <;> trivial⟩
  all_goals trivial

theorem lockfree_startLocked (request : StartProtocolOperatorRequest)
    (coreAddr userJwt instanceId : String) :
    (startLocked S request coreAddr userJwt instanceId).All Lockfree := by
  refine (lockfree_readRunningInstances _ _).bind fun instances =>
    (lockfree_upgradePackage _ _ _).bind fun _ =>
    (lockfree_of_all (plain_fetchPackage _)).bind fun _ => ?_
  refine Prog.All.bind ⟨⟨rfl,rfl⟩,fun r => Prog.All.ofExcept _⟩ fun started => ?_
  exact (lockfree_storageUpdate _ _ _).bind fun _ => (lockfree_storageUpdate _ _ _).bind fun _ =>
    (lockfree_storageUpdate _ _ _).bind fun _ => lockfree_storageUpdate _ _ _

theorem lockfree_stopLocked (userId protocolName instanceId : String) :
    (stopLocked S userId protocolName instanceId).All Lockfree :=
  (lockfree_of_all (plain_storageRead _ _)).bind fun _ =>
    (lockfree_of_all (plain_unwrap _)).bind fun _ => lockfree_storageUpdate _ _ _

theorem orderly_locked (protocolName : String) {work : Service Unit} (hw : work.All Lockfree) :
    lockUse.Orderly 0 (locked protocolName work) := by
  unfold locked
  exact LockUse.Orderly.guard (a := Op.lockExclusive protocolName) (b := Op.unlock protocolName)
    (f := fun r => r) (k := protocolName) ⟨rfl,rfl⟩ ⟨rfl,rfl⟩ (LockUse.orderly_of_all hw)

theorem orderly_try {o : Op} (ho : Plain o) {f : Res o → Except Abort α} :
    lockUse.Orderly n (perform o >>= fun r => Prog.ofExcept (f r)) :=
  orderly_plain (plain_perform ho fun _ => .ofExcept _)

theorem orderly_startProtocolOperator (metadata : MetadataMap) (request : StartProtocolOperatorRequest) :
    lockUse.Orderly 0 (startProtocolOperator S metadata request) := by
  refine (orderly_try (by trivial)).bind fun _ =>
    (orderly_plain (plain_checkCaller _ _)).bind fun _ => ?_
  cases S.coreUri with
  | none => exact orderly_plain trivial
  | some coreAddr =>
    refine (orderly_plain (plain_storageRead _ _)).bind fun _ => (orderly_plain (plain_unwrap _)).bind
      fun _ => (orderly_plain (p := perform .newInstanceId) ⟨trivial,fun _ => trivial⟩).bind
      fun instanceId => ?_
    split_ifs
    · exact orderly_plain trivial
    · refine (orderly_try (by trivial)).bind fun _ => (orderly_try (by trivial)).bind fun _ =>
        (orderly_try (by trivial)).bind fun _ => ?_
      exact (orderly_locked _ (lockfree_startLocked _ _ _ _)).bind fun _ => orderly_plain trivial

theorem orderly_stopProtocolOperator (metadata : MetadataMap) (instanceId : String) :
    lockUse.Orderly 0 (stopProtocolOperator S metadata instanceId) := by
  refine (orderly_try (by trivial)).bind fun _ => (orderly_plain (plain_storageRead _ _)).bind fun _ =>
    (orderly_plain (plain_unwrap _)).bind fun _ => (orderly_plain (plain_checkCaller _ _)).bind fun _ =>
    (orderly_plain (plain_readInstance _ _)).bind fun _ => (orderly_try (by trivial)).bind fun _ =>
    (orderly_plain (plain_storageRead _ _)).bind fun _ => (orderly_plain (plain_unwrap _)).bind
      fun protocolName => (orderly_try (by trivial)).bind fun _ => (orderly_try (by trivial)).bind fun _ => ?_
  exact (orderly_locked _ (lockfree_stopLocked _ _ _)).bind fun _ => orderly_plain trivial

theorem ok_elim_iff {a : Option Bytes} {payload : Bytes} :
    (a.elim (.error "") .ok : Except String Bytes) = .ok payload ↔ a = some payload := by
  cases a <;> simp

theorem locks_of_lockfree {t : ℕ} {s : State Op Res Request Shared} {o : Op} {r : Res o} {y : Shared}
    (ho : Lockfree o) (hx : exec t s o r y) : y.locks = s.shared.locks := by
  cases o with
  | checkPrivilegeIn _ _ => exact hx.2 ▸ rfl
  | storageContains _ _ => exact hx.2 ▸ rfl
  | storageRead _ _ => exact hx.2 ▸ rfl
  | packageExists _ => exact hx.2 ▸ rfl
  | removePackage _ =>
    obtain ⟨present,rfl⟩ := hx
    rfl
  | fetchProtocol _ _ _ =>
    obtain ⟨present,rfl⟩ := hx
    rfl
  | lockExclusive _ => cases ho.1
  | unlock _ => cases ho.2
  | _ =>
    obtain rfl : y = s.shared := hx
    rfl

def lockOrder (S : Server) : LockOrder (system S) Init String String where
  use := lockUse
  bound := 1
  kind := id
  on _ _ := true
  readers _ _ := 0
  writer p x := (x.locks p).isSome
  bounded _ := Nat.zero_lt_one
  apart o x hx := by cases o <;> first | rfl | cases hx
  answered o x hx := by cases o <;> first | exact ⟨()⟩ | cases hx
  free p x hx := ⟨rfl,by simp [hx.2 p]⟩
  reads p t q o s r y hx := by cases o <;> simp [lockUse]
  writes p t q o s r y hx := by
    by_cases ho : Lockfree o
    · simp [ho.1,ho.2,locks_of_lockfree ho hx]
    · cases o with
      | lockExclusive p' =>
        obtain ⟨hfree,rfl⟩ := hx
        by_cases hp : p' = p
        · subst hp
          simp [lockUse,hfree]
        · simp [lockUse,hp,Ne.symm hp]
      | unlock p' =>
        obtain rfl := hx
        by_cases hp : p' = p
        · subst hp
          cases hl : s.shared.locks p' <;> simp [lockUse]
        · simp [lockUse,hp,Ne.symm hp]
      | _ => exact absurd ⟨rfl,rfl⟩ ho
  start p t q s y hs := ⟨rfl,by obtain rfl : y = s.shared := hs; rfl⟩
  env p s y hs := hs.elim
  orderly q := by
    show lockUse.Orderly 0 (handle S q)
    unfold handle
    split
    · exact orderly_startProtocolOperator _ _
    · exact orderly_stopProtocolOperator _ _
  possible c t q o _ _ _ hopen := by
    cases o with
    | storageRead u k => exact ⟨_,_,fun payload => ok_elim_iff,rfl⟩
    | lockExclusive p => exact ⟨(),_,by simpa [Mode.Open] using (hopen p .exclusive rfl rfl).1,rfl⟩
    | checkPrivilegeIn _ _ => exact ⟨_,_,rfl,rfl⟩
    | storageContains _ _ => exact ⟨_,_,rfl,rfl⟩
    | storageUpdate _ _ _ => exact ⟨.ok (),_,rfl⟩
    | newInstanceId => exact ⟨"",_,rfl⟩
    | getColinkHome => exact ⟨.ok (),_,rfl⟩
    | createProtocolsDir => exact ⟨.ok (),_,rfl⟩
    | openLock _ => exact ⟨.ok (),_,rfl⟩
    | unlock _ => exact ⟨.ok (),_,rfl⟩
    | packageExists _ => exact ⟨_,_,rfl,rfl⟩
    | removePackage _ => exact ⟨.ok (),_,false,rfl⟩
    | colinkTomlExists _ => exact ⟨true,_,rfl⟩
    | fetchProtocol _ _ _ => exact ⟨.ok (),_,true,rfl⟩
    | startInstance _ _ _ _ => exact ⟨.ok (.pid ""),_,rfl⟩
    | kill _ => exact ⟨.ok (),_,rfl⟩

/-- All calls that start or stop an operator return, and leave no package locked. -/
theorem operator_calls_return (S : Server) (c : Config Op Res Abort Request String Shared)
    (hc : Reach S c) : (system S).Finishes c ∧
    ((∀ t q p, c.threads t = some (q,p) → ∃ r, p = Prog.ofExcept r) →
      ∀ p, c.state.shared.locks p = none) := by
  refine ⟨(lockOrder S).finishes hc,fun hend p => ?_⟩
  have hlock := (lockOrder S).open_of_ended hc hend p .exclusive
  simpa [lockOrder] using hlock.1

end Locks

abbrev contending : Config Op Res Abort Request String Shared :=
  (player sampleServer).play sampleShared (.start 0 (sampleStart "alice" false) ::
    List.replicate 8 (.step 0) ++ .start 1 (sampleStart "bob" false) :: List.replicate 8 (.step 1))

theorem operator_calls_return_contending :
    (∃ k, contending.threads 1 =
      some (sampleStart "bob" false,.call (.lockExclusive "protocol") k)) ∧
    contending.state.shared.locks "protocol" = some 0 ∧ (system sampleServer).Finishes contending :=
  ⟨⟨_,rfl⟩,by decide +kernel,(operator_calls_return sampleServer contending
    (Player.reach_play _ _ sampleShared_init _)).1⟩

end ProtocolOperators

namespace TaskService

section Locks

inductive Mutex
  | taskStorage | reverseHandlers
deriving DecidableEq

/-- Whoever has one of the mutexes of a core takes no other. -/
def mutexUse : LockUse Op Mutex where
  takes
    | .lock _ => some (.taskStorage,.exclusive)
    | .lockHandlers => some (.reverseHandlers,.exclusive)
    | _ => none
  gives
    | .unlock _ => some (.taskStorage,.exclusive)
    | .unlockHandlers => some (.reverseHandlers,.exclusive)
    | _ => none
  rank _ := 0

def Lockfree (o : Op) : Prop := mutexUse.takes o = none ∧ mutexUse.gives o = none

theorem Lockfree.of_kind {o : Op}
    (h : [OpKind.lock,.unlock,.lockHandlers,.unlockHandlers].contains o.kind = false) : Lockfree o := by
  cases o <;> first | exact ⟨rfl,rfl⟩ | cases h

variable {M : Prost} {u : String} {α : Type} {n : ℕ}

theorem orderly_lockfree {p : Service α} (hp : p.All Lockfree) : mutexUse.Orderly n p :=
  LockUse.orderly_of_all hp

theorem orderly_perform {o : Op} (ho : Lockfree o) : mutexUse.Orderly n (perform o) :=
  orderly_lockfree (all_perform ho)

theorem orderly_locked {s : Section} {body : Service α} (hb : body.All Lockfree) :
    mutexUse.Orderly 0 (locked s body) := by
  unfold locked
  exact LockUse.Orderly.guard (a := Op.lock s) (b := Op.unlock s) (f := fun _ => .ok ())
    (k := Mutex.taskStorage) ⟨rfl,rfl⟩ ⟨rfl,rfl⟩ (LockUse.orderly_of_all hb)

theorem lockfree_storeTask (site : Site) (task : Task) : (storeTask M site u task).All Lockfree :=
  all_storeTask (.of_kind rfl)

theorem lockfree_readTask (id : String) : (readTask M u id).All Lockfree := all_readTask (.of_kind rfl)

theorem lockfree_removeTaskOldStatus (task : Task) : (removeTaskOldStatus M u task).All Lockfree :=
  all_removeTaskOldStatus (fun _ => .of_kind rfl) fun _ _ => .of_kind rfl

theorem lockfree_addTaskNewStatus (task : Task) : (addTaskNewStatus M u task).All Lockfree :=
  all_addTaskNewStatus (fun _ => .of_kind rfl) (fun _ => .of_kind rfl) fun _ _ _ _ => .of_kind rfl

theorem lockfree_generateDecision (a r : Bool) (reason : String) (task : Task) :
    (generateDecision a r reason u task).All Lockfree :=
  all_generateDecision (.of_kind rfl) fun _ => .of_kind rfl

theorem orderly_checkPrivilegeIn (metadata : Metadata) (privileges : List String) :
    mutexUse.Orderly n (checkPrivilegeIn metadata privileges) :=
  orderly_lockfree (all_checkPrivilegeIn fun _ => .of_kind rfl)

theorem orderly_unwrap (a : Option α) : mutexUse.Orderly n (unwrap a) := orderly_lockfree (all_unwrap a)

theorem orderly_indexTask (task : Task) : mutexUse.Orderly 0 (indexTask M u task) :=
  orderly_locked (lockfree_addTaskNewStatus task)

theorem asks_orderly : Asks M u fun _ p => mutexUse.Orderly 0 p where
  toClosed := LockUse.orderly_closed
  ask o ho := orderly_perform (by
    cases o <;> first | exact ⟨rfl,rfl⟩ | exact absurd ho (by simp [Op.kind,OpKind.asking]))
  query v := by
    refine (orderly_perform (.of_kind rfl)).bind fun taskId =>
      (orderly_perform (.of_kind rfl)).bind fun now =>
      (orderly_lockfree (lockfree_generateDecision _ _ _ _)).bind fun d =>
      (orderly_lockfree (all_setDecision _ _ _)).bind fun task => ?_
    exact (orderly_lockfree (lockfree_storeTask _ _)).bind fun _ => orderly_indexTask _

theorem lockfree_call (m : Outgoing) : (call m).All Lockfree :=
  all_call (.of_kind rfl) fun _ => .of_kind rfl

theorem orderly_grpcConnect (address : String) : mutexUse.Orderly n (grpcConnect address) :=
  orderly_lockfree (all_grpcConnect (.of_kind rfl))

theorem orderly_sendInterCoreSyncTask (v : String) (task : Task) :
    mutexUse.Orderly 0 (sendInterCoreSyncTask M u v task) := by
  refine (orderly_perform (.of_kind rfl)).bind fun connected => ?_
  split
  · exact orderly_lockfree (all_sendersSend (.of_kind rfl))
  · refine (asks_orderly.queryUserRecord v).bind fun record => ?_
    obtain ⟨coreAddr,guestJwt,forwardingUserId⟩ := record
    cases forwardingUserId with
    | none => exact (orderly_grpcConnect _).bind fun _ => orderly_lockfree (lockfree_call _)
    | some forwardingUserId =>
      refine (asks_orderly.queryUserRecord forwardingUserId).bind fun record => ?_
      exact (orderly_lockfree (all_require _ _)).bind fun _ => (orderly_grpcConnect _).bind fun _ =>
        orderly_lockfree (lockfree_call _)

theorem orderly_sendWithReverseConnection (v : String) (task : Task) :
    mutexUse.Orderly 0 (sendInterCoreSyncTaskWithReverseConnection M u v task) := by
  refine (asks_orderly.queryUserRecord v).bind fun record => ?_
  obtain ⟨coreAddr,guestJwt,forwardingUserId⟩ := record
  dsimp only
  split
  · exact orderly_sendInterCoreSyncTask v task
  · refine (orderly_grpcConnect _).bind fun _ => ?_
    refine LockUse.Orderly.guard (a := Op.lockHandlers) (b := Op.unlockHandlers) (f := fun _ => .ok ())
      (k := Mutex.reverseHandlers) ⟨rfl,rfl⟩ ⟨rfl,rfl⟩ ?_
    refine (orderly_perform (.of_kind rfl)).bind fun running => ?_
    split
    · exact orderly_lockfree (lockfree_call _)
    · exact (orderly_lockfree (lockfree_call _)).bind fun _ => orderly_perform (.of_kind rfl)

theorem orderly_broadcast (task : Task) : mutexUse.Orderly 0 (broadcast M u task) := by
  refine (orderly_unwrap _).bind fun initiator => ?_
  split
  · exact LockUse.orderly_closed.foldlM (fun _ _ => orderly_sendInterCoreSyncTask _ task) _ ()
  · exact orderly_lockfree trivial

theorem orderly_createTask (reverse : Bool) (metadata : Metadata) (request : Task) :
    mutexUse.Orderly 0 (createTask M reverse metadata request) := by
  refine (orderly_checkPrivilegeIn _ _).bind fun _ => (orderly_unwrap _).bind fun userId =>
    (orderly_perform (.of_kind rfl)).bind fun taskId =>
    (orderly_lockfree (lockfree_generateDecision _ _ _ _)).bind fun d =>
    (orderly_lockfree (all_setDecision _ _ _)).bind fun task =>
    (orderly_lockfree (lockfree_storeTask _ _)).bind fun _ => ?_
  refine (LockUse.orderly_closed.foldlM (fun _ p => ?_) _ ()).bind fun _ =>
    (orderly_indexTask _).bind fun _ => orderly_lockfree trivial
  split
  · exact orderly_sendWithReverseConnection _ _
  · exact orderly_sendInterCoreSyncTask _ _

theorem orderly_confirmTask (metadata : Metadata) (request : ConfirmTaskRequest) :
    mutexUse.Orderly 0 (confirmTask M metadata request) := by
  refine (orderly_checkPrivilegeIn _ _).bind fun _ => (orderly_unwrap _).bind fun userId => ?_
  cases request.decision with
  | none => exact orderly_lockfree trivial
  | some userDecision =>
    refine (orderly_lockfree (all_userStatus _)).bind fun userStatus => ?_
    refine LockUse.Orderly.bind (orderly_locked ?_) fun task => ?_
    · refine (lockfree_readTask _).bind fun task => (all_require _ _).bind fun _ =>
        (all_perform (.of_kind rfl)).bind fun now => (all_require _ _).bind fun _ =>
        (lockfree_removeTaskOldStatus _).bind fun _ => Prog.All.bind ?_ fun task =>
        (lockfree_storeTask _ _).bind fun _ => (lockfree_addTaskNewStatus _).bind fun _ => trivial
      exact all_enterDecision (.of_kind rfl) fun _ _ => .of_kind rfl
    · split
      · exact (orderly_unwrap _).bind fun initiator => orderly_sendInterCoreSyncTask _ _
      · exact orderly_lockfree trivial

theorem orderly_finishTask (metadata : Metadata) (request : Task) :
    mutexUse.Orderly 0 (finishTask M metadata request) := by
  refine (orderly_checkPrivilegeIn _ _).bind fun _ => (orderly_unwrap _).bind fun userId =>
    orderly_locked ?_
  exact (lockfree_readTask _).bind fun task => (all_require _ _).bind fun _ =>
    (lockfree_removeTaskOldStatus _).bind fun _ => (lockfree_storeTask _ _).bind fun _ =>
    lockfree_addTaskNewStatus _

theorem orderly_admitTask (request : Task) : mutexUse.Orderly 0 (admitTask M u request) := by
  refine (orderly_unwrap _).bind fun decision => (orderly_unwrap _).bind fun initiator =>
    (orderly_lockfree (all_checkDecision (.of_kind rfl))).bind fun _ =>
    (orderly_lockfree (all_require _ _)).bind fun _ => ?_
  exact (orderly_lockfree (lockfree_storeTask _ _)).bind fun _ => orderly_indexTask _

theorem orderly_mergeDecisions (request : Task) : mutexUse.Orderly 0 (mergeDecisions M u request) := by
  refine orderly_locked ?_
  exact (lockfree_readTask _).bind fun task => (all_require _ _).bind fun _ =>
    (all_perform (.of_kind rfl)).bind fun now => (all_require _ _).bind fun _ =>
    (all_takeDecisions fun _ _ _ => .of_kind rfl).bind fun task =>
    (lockfree_storeTask _ _).bind fun _ => trivial

theorem orderly_changeStatus (request : Task) (rejected : Bool) :
    mutexUse.Orderly 0 (changeStatus M u request rejected) := by
  refine orderly_locked ?_
  exact (lockfree_readTask _).bind fun task => (lockfree_removeTaskOldStatus _).bind fun _ =>
    (lockfree_storeTask _ _).bind fun _ => (lockfree_addTaskNewStatus _).bind fun _ => trivial

theorem orderly_interCoreSyncTask (metadata : Metadata) (request : Task) :
    mutexUse.Orderly 0 (interCoreSyncTask M metadata request) := by
  refine (orderly_checkPrivilegeIn _ _).bind fun _ => (orderly_unwrap _).bind fun userId => ?_
  cases metadata.forwardingTarget with
  | some value =>
    refine (orderly_unwrap _).bind fun forwardingTarget => ?_
    exact orderly_lockfree (all_forward (.of_kind rfl) (.of_kind rfl))
  | none =>
    refine (orderly_perform (.of_kind rfl)).bind fun present => ?_
    split
    · exact orderly_admitTask request
    · refine (orderly_mergeDecisions request).bind fun task => ?_
      split
      · exact orderly_lockfree trivial
      · split
        · exact (orderly_changeStatus _ _).bind fun task => orderly_broadcast task
        · exact orderly_lockfree trivial

end Locks

end TaskService

namespace Deployment

open TaskService

variable (D : Deployment)

theorem orderly_serve (q : Request) : mutexUse.Orderly 0 (D.serve q) := by
  have hhandle : mutexUse.Orderly 0 (D.handle q) := by
    unfold handle
    cases q.call with
    | createTask task => exact (orderly_createTask _ _ _).bind fun _ => orderly_lockfree trivial
    | confirmTask request => exact orderly_confirmTask _ _
    | finishTask task => exact orderly_finishTask _ _
    | interCoreSyncTask task => exact orderly_interCoreSyncTask _ _
    | interCoreSyncTaskWithReverseConnection task =>
      exact (orderly_unwrap _).bind fun userId => (orderly_unwrap _).bind fun receiver =>
        (orderly_interCoreSyncTask _ _).bind fun _ => orderly_perform (.of_kind rfl)
  exact hhandle.attempt.bind fun r => (orderly_perform (.of_kind rfl)).bind fun _ =>
    orderly_lockfree (Prog.All.ofExcept r)

def mutex (m : Mutex) (w : World) (i : ℕ) : Option ℕ :=
  match m with
  | .taskStorage => (w.cores i).taskStorageMutex
  | .reverseHandlers => (w.cores i).reverseHandlersMutex

theorem mutex_of_exec {t : ℕ} {q : Request} {w w' : World} {o : Op} {r : Res o}
    (hx : D.Exec t q w o r w') (m : Mutex) (i : ℕ) :
    (mutexUse.takes o = some (m,.exclusive) ∧ i = q.core ∧ mutex m w i = none ∧ mutex m w' i = some t) ∨
    (mutexUse.gives o = some (m,.exclusive) ∧ i = q.core ∧ mutex m w i = some t ∧ mutex m w' i = none) ∨
    ((i = q.core → mutexUse.takes o ≠ some (m,.exclusive) ∧ mutexUse.gives o ≠ some (m,.exclusive)) ∧
      mutex m w' i = mutex m w i) := by
  by_cases hi : i = q.core
  · subst hi
    cases hx <;> cases m <;> simp_all [mutex,mutexUse]
  · refine .inr (.inr ⟨fun h => absurd h hi,?_⟩)
    cases hx <;> cases m <;> simp [mutex,hi]

theorem mutex_of_env {w w' : World} (hx : D.Env w w') (m : Mutex) (i : ℕ) :
    mutex m w' i = mutex m w i := by
  cases hx with
  | importUser j userId h =>
    by_cases hi : i = j
    · cases m <;> simp [mutex,hi]
    · cases m <;> simp [mutex,hi]
  | storage j call now user key tick =>
    by_cases hi : i = j
    · cases m <;> simp [mutex,hi]
    · cases m <;> simp [mutex,hi]

theorem apart (o : Op) (m : Mutex) :
    (mutexUse.takes o = some (m,.exclusive) → mutexUse.gives o ≠ some (m,.exclusive)) ∧
    (mutexUse.gives o = some (m,.exclusive) → mutexUse.takes o ≠ some (m,.exclusive)) := by
  cases o <;> simp [mutexUse]

def lockTable : LockTable D.system Init Mutex (ℕ × Mutex) where
  use := mutexUse
  bound := 1
  kind l := l.2
  on l q := decide (l.1 = q.core)
  readers _ _ := 0
  writer l w := (mutex l.2 w l.1).isSome
  bounded _ := Nat.zero_lt_one
  apart o x hx := by cases o <;> first | rfl | cases hx
  answered o x hx := by cases o <;> first | exact ⟨()⟩ | cases hx
  free l w hw := by
    obtain ⟨-,hstorage,hhandlers,-⟩ := hw.1 l.1
    obtain ⟨i,m⟩ := l
    cases m <;> simp [mutex,hstorage,hhandlers]
  reads l t q o s r y hx := by
    have hnone : mutexUse.takes o ≠ some (l.2,.shared) := by cases o <;> simp [mutexUse]
    simp [hnone]
  writes l t q o s r y hx := by
    obtain ⟨i,m⟩ := l
    rcases D.mutex_of_exec hx m i with ⟨ho,rfl,hb,ha⟩ | ⟨ho,rfl,hb,ha⟩ | ⟨ho,hsame⟩
    · simp [ho,(apart o m).1 ho,hb,ha]
    · simp [ho,(apart o m).2 ho,hb,ha]
    · by_cases hi : i = q.core
      · simp [ho hi,hsame]
      · simp [hi,hsame]
  start l t q s y hs := by
    obtain ⟨-,-,rfl⟩ := hs
    exact ⟨rfl,rfl⟩
  env l s y hs := by
    have hsame := mutex_of_env D hs l.2 l.1
    exact ⟨rfl,congrArg Option.isSome hsame⟩
  orderly q := orderly_serve D q

variable {D} {c : Config Op Res Abort Request Unit World}

theorem mutex_of_held (hc : D.Reach c) {t : ℕ} {q : Request} {p : Service Unit}
    (ht : c.threads t = some (q,p)) {m : Mutex}
    (hhas : 0 < mutexUse.held (m,.exclusive) (events t c.state.history)) :
    mutex m c.state.shared q.core = some t := by
  refine (lockTable D).owned hc (l := (q.core,m)) (fun w => mutex m w q.core)
    (fun t' q' o s r y hx hon ho => ?_) (fun t' q' o s r y hx ho => ?_) (fun t' q' s y hs => ?_)
    (fun s y hs => mutex_of_env D hs m q.core) ht (by simp [lockTable]) hhas
  · rcases D.mutex_of_exec hx m q.core with ⟨-,-,-,ha⟩ | ⟨hgives,-⟩ | ⟨hnot,-⟩
    · exact ha
    · exact absurd ho ((apart o m).2 hgives)
    · exact absurd ho (hnot (by simpa [lockTable] using hon)).1
  · rcases D.mutex_of_exec hx m q.core with ⟨htakes,hi,-⟩ | ⟨hgives,hi,-⟩ | ⟨-,hsame⟩
    · exact absurd htakes (ho (by simpa [lockTable] using hi)).1
    · exact absurd hgives (ho (by simpa [lockTable] using hi)).2
    · exact hsame
  · obtain ⟨-,-,rfl⟩ := hs
    rfl

theorem exists_unused (used : Finset String) : ∃ id, NoColon id ∧ id ∉ used := by
  have hinj : Function.Injective fun n : ℕ => String.ofList (List.replicate n 'i') := fun n n' h => by
    simpa using congrArg (fun s : String => s.toList.length) h
  obtain ⟨_,⟨n,rfl⟩,hn⟩ := (Set.infinite_range_of_injective hinj).exists_notMem_finset used
  exact ⟨_,by simp [NoColon],hn⟩

/-- The clock of a core always shows something, and there are always ids that have not been used. -/
theorem possible (htick : ∀ now, ∃ now', D.tick now now') (hc : D.Reach c) {t : ℕ} {q : Request}
    {o : Op} {k : Res o → Service Unit} (ht : c.threads t = some (q,.call o k))
    (hopen : ∀ m, mutexUse.takes o = some (m,.exclusive) → mutex m c.state.shared q.core = none) :
    ∃ r y, D.Exec t q c.state.shared o r y := by
  obtain ⟨now,hnow⟩ := htick (c.state.shared.cores q.core).clock
  have hgive {m : Mutex} (hgives : mutexUse.gives o = some (m,.exclusive)) :
      mutex m c.state.shared q.core = some t := by
    obtain ⟨r⟩ : Nonempty (Res o) := by cases o <;> first | exact ⟨()⟩ | cases hgives
    exact mutex_of_held hc ht ((lockTable D).held_of_gives hc ht r hgives)
  cases o with
  | importedUsersContains _ => exact ⟨_,_,.importedUsersContains _⟩
  | storageUpdate _ _ _ _ => exact ⟨_,_,.storageUpdate _ _ _ _ now _ hnow (.inl rfl)⟩
  | storageRead _ _ => exact ⟨_,_,.storageRead _ _⟩
  | storageContains _ _ => exact ⟨_,_,.storageContains _ _⟩
  | lock _ => exact ⟨_,_,.lock _ (hopen .taskStorage rfl)⟩
  | unlock _ => exact ⟨_,_,.unlock _ (hgive (m := .taskStorage) rfl)⟩
  | utcNow => exact ⟨_,_,.utcNow now hnow⟩
  | newUuid =>
    obtain ⟨id,hformat,hfresh⟩ := exists_unused c.state.shared.usedIds
    exact ⟨_,_,.newUuid id hformat hfresh⟩
  | sleep => exact ⟨_,_,.sleep⟩
  | checkDecision _ _ _ => exact ⟨_,_,.checkDecision _ _ _ now hnow⟩
  | makeDecision _ _ _ _ _ _ => exact ⟨_,_,.makeDecision _ _ _ _ _ _⟩
  | sendersContains _ _ => exact ⟨_,_,.sendersContains _ _⟩
  | sendersSend u v task =>
    by_cases hm : (u,v) ∈ (c.state.shared.cores q.core).reverseSenders
    · exact ⟨_,_,.sendersSend u v task hm⟩
    · exact ⟨_,_,.sendersMissing u v task hm⟩
  | sendersInsert _ _ => exact ⟨_,_,.sendersInsert _ _⟩
  | lockHandlers => exact ⟨_,_,.lockHandlers (hopen .reverseHandlers rfl)⟩
  | unlockHandlers => exact ⟨_,_,.unlockHandlers (hgive (m := .reverseHandlers) rfl)⟩
  | handlerRunning _ _ => exact ⟨false,_,.handlerRunning _ _ _ nofun⟩
  | spawnHandler _ _ => exact ⟨_,_,.spawnHandler _ _⟩
  | grpcConnect _ => exact ⟨.ok (),_,.grpcConnect _ _⟩
  | post m => exact ⟨_,_,.post m⟩
  | response _ => exact ⟨.error .panic,_,.response _ _ nofun⟩
  | reply _ => exact ⟨_,_,.reply _⟩

def lockOrder (D : Deployment) (htick : ∀ now, ∃ now', D.tick now now') :
    LockOrder D.system Init Mutex (ℕ × Mutex) where
  toLockTable := lockTable D
  possible c t q o k hc ht hopen := possible htick hc ht fun m ho => by
    have hfree := (hopen (q.core,m) .exclusive (by simp [lockTable]) ho).1
    simpa [lockTable] using hfree

/-- If calls on other cores are answered or fail, and what is sent through a reverse connection is taken or
refused, then all requests to all cores are answered, and they leave no mutex locked. -/
theorem requests_return (D : Deployment) (htick : ∀ now, ∃ now', D.tick now now')
    (c : Config Op Res Abort Request Unit World) (hc : D.Reach c) : D.system.Finishes c ∧
    ((∀ t q p, c.threads t = some (q,p) → ∃ r, p = Prog.ofExcept r) →
      ∀ i, (c.state.shared.cores i).taskStorageMutex = none ∧
        (c.state.shared.cores i).reverseHandlersMutex = none) := by
  refine ⟨(lockOrder D htick).finishes hc,fun hend i => ?_⟩
  have hopen (m : Mutex) : mutex m c.state.shared i = none := by
    simpa [lockTable] using ((lockTable D).open_of_ended hc hend (i,m) .exclusive).1
  exact ⟨hopen .taskStorage,hopen .reverseHandlers⟩

/-- A second task is to be listed while the first one is. -/
def listTwo : List Move := Move.settle 7 ++
  [.start 0 (.ofGuest 7 (sampleOffer (sampleTask "id" []) [])),.run 0 5,
    .start 1 (.ofGuest 7 (sampleOffer (sampleTask "other" []) [])),.run 1 4]

def waits (p : Play) (t : ℕ) : Bool :=
  match p.threads t with
  | some (_,.call (.lock _) _) => true
  | _ => false

theorem requests_return_waiting : ∃ c q s k, Deployment.ideal.Reach c ∧
    c.threads 1 = some (q,.call (.lock s) k) ∧ (c.state.shared.cores 0).taskStorageMutex = some 0 ∧
    Deployment.ideal.system.Finishes c := by
  have hrun : (Play.moves listTwo {}).any fun p => waits p 1 && p.sim.mutex = some 0 := by
    decide +kernel
  obtain ⟨c,p,hc,hf,hp⟩ := Play.run hrun
  simp only [Bool.and_eq_true,decide_eq_true_eq] at hp
  have htick (now : ℤ) : ∃ now', Deployment.ideal.tick now now' := ⟨now + 1,Int.lt_succ now⟩
  have hfinishes := (requests_return Deployment.ideal htick c hc).1
  have hwaits := hp.1
  unfold waits at hwaits
  split at hwaits
  · next q s k ht => exact ⟨c,q,s,k,hc,hf.threads ▸ ht,hf.shows.mutex ▸ hp.2,hfinishes⟩
  · cases hwaits

end Deployment
end CoLinkServer
