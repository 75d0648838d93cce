import CoLinkServer.ProtocolOperators
import CoLinkServer.Schedules
import CoLinkServer.SeparatedText
import CoLinkServer.ThreadTraces

/-! The lists of running instances over whole runs. A call changes a list once, between taking the
lock of the protocol and giving it back, and it has read the list after it took the lock. -/
namespace CoLinkServer

namespace ProtocolOperators

open Interleaving Authorization

/-- What one call has done so far, newest first. -/
abbrev Past := List (Event Op Res)

/-- The call has taken the lock of the protocol and not given it back. -/
def Locked (p : String) (past : Past) : Prop :=
  ⟨.lockExclusive p,()⟩ ∈ past ∧ ∀ r, ⟨.unlock p,r⟩ ∉ past

/-- The call has neither taken nor given back a lock. -/
def Lockless (past : Past) : Prop :=
  ∀ p, (⟨.lockExclusive p,()⟩ : Event Op Res) ∉ past ∧ ∀ r, ⟨.unlock p,r⟩ ∉ past

def Spawned (past : Past) : Prop :=
  ∃ name jwt vt addr, ∃ started : Instance,
    ⟨.startInstance name jwt vt addr,(.ok started : Except Abort Instance)⟩ ∈ past

/-- The call has stored a list. -/
def Listed (u p : String) (past : Past) : Prop :=
  ∃ payload r, ⟨.storageUpdate u (groupsKey p) payload,r⟩ ∈ past

variable (S : Server)

/-- The call has found this list. -/
def Found (u p : String) (list : List String) (past : Past) : Prop :=
  (⟨.storageContains u (groupsKey p),false⟩ ∈ past ∧ list = []) ∨ ∃ payload,
    ⟨.storageRead u (groupsKey p),(.ok payload : Except String Bytes)⟩ ∈ past ∧
      S.listOfString.decode payload = some list

/-- The call has read whose instance it is. -/
def Owner (i u : String) (past : Past) : Prop :=
  ∃ payload, ⟨.storageRead S.hostId (instanceUserKey i),(.ok payload : Except String Bytes)⟩ ∈ past ∧
    stringOfBytes payload = some u

/-- The call has read which protocol the instance runs. -/
def Running (i u p : String) (past : Past) : Prop :=
  ∃ payload, ⟨.storageRead u (instanceKey i "protocol_name"),(.ok payload : Except String Bytes)⟩ ∈
    past ∧ stringOfBytes payload = some p

/-- What a call stores that starts the instance `i`. -/
inductive Records (request : StartProtocolOperatorRequest) (i : String) (past : Past) :
    String → String → Bytes → Prop
  | user : Records request i past S.hostId (instanceUserKey i) (stringBytes request.userId)
  | started (started : Instance) : Records request i past request.userId
      (instanceKey i started.key) (stringBytes started.xid)
  | protocolName : Records request i past request.userId (instanceKey i "protocol_name")
      (stringBytes request.protocolName)
  | list {list : List String} (found : Found S request.userId request.protocolName list past)
      (spawned : Spawned past) (first : ∀ u p, ¬Listed u p past) :
      Records request i past request.userId (groupsKey request.protocolName)
        (S.listOfString.encode (list ++ [i]))

/-- What a call stores, and what has happened in the call before that. -/
def Stores (q : Request) (past : Past) (u k : String) (payload : Bytes) : Prop :=
  match q.call with
  | .start request => ∃ i : String, ⟨.newInstanceId,i⟩ ∈ past ∧
      Locked request.protocolName past ∧ Records S request i past u k payload
  | .stop i => ∃ p list, Locked p past ∧ Owner S i u past ∧ Running i u p past ∧
      Found S u p list past ∧ (∀ u p, ¬Listed u p past) ∧ k = groupsKey p ∧
      payload = S.listOfString.encode (list.filter fun x => x ≠ i)

/-- Why a call gives the lock back. -/
def Done (q : Request) (p : String) (past : Past) : Prop :=
  match q.call with
  | .start request => p = request.protocolName ∧ (Spawned past → Listed request.userId p past ∨
      ∃ u k payload e, ⟨.storageUpdate u k payload,(.error e : Except UpdateError Unit)⟩ ∈ past)
  | .stop i => ∃ u, Owner S i u past ∧ Running i u p past ∧ (Listed u p past ∨ ∃ r,
      ⟨.storageRead u (groupsKey p),r⟩ ∈ past ∧
        ∀ payload, r = .ok payload → S.listOfString.decode payload = none)

/-- What a call leaves behind that has answered without an error. -/
def Ended (q : Request) (past : Past) : Prop :=
  ∀ i, q.call = .stop i → ∃ u p, Owner S i u past ∧ Listed u p past

/-- The newest event of a call, and what has happened in the call before it. -/
def Orderly (q : Request) : Past → Prop
  | ⟨.newInstanceId,_⟩ :: past => ∀ i : String, (⟨.newInstanceId,i⟩ : Event Op Res) ∉ past
  | ⟨.lockExclusive _,_⟩ :: past => Lockless past
  | ⟨.unlock p,_⟩ :: past => Locked p past ∧ Done S q p past
  | ⟨.storageContains _ k,_⟩ :: past => ∀ p, k = groupsKey p → Locked p past
  | ⟨.storageRead u k,_⟩ :: past => ∀ p, k = groupsKey p → Locked p past ∧
      ∀ i, q.call = .stop i → Owner S i u past ∧ Running i u p past
  | ⟨.storageUpdate u k payload,_⟩ :: past => Stores S q past u k payload
  | ⟨.kill _,_⟩ :: past => ∃ i u, q.call = .stop i ∧ Owner S i u past
  | _ => True

/-- The operation neither stores anything nor has to do with a lock or a new process. -/
def Passive : Op → Prop
  | .lockExclusive _ | .unlock _ | .startInstance _ _ _ _ | .storageUpdate _ _ _ => False
  | _ => True

/-- A passive operation that may be performed at any time. -/
def Quiet : Op → Prop
  | .newInstanceId | .kill _ => False
  | .storageContains _ k => ∀ p, k ≠ groupsKey p
  | .storageRead _ k => ∀ p, k ≠ groupsKey p
  | o => Passive o

/-- The call has stored no list and started no process. -/
structure Idle (past : Past) : Prop where
  unlisted : ∀ u p, ¬Listed u p past
  unspawned : ¬Spawned past

section Traces

variable {S} {q : Request} {past : Past} {α : Type} {p u i : String} {list : List String} {o : Op} {r : Res o}

theorem passive_of_quiet (ho : Quiet o) : Passive o := by
  cases o <;> first | exact ho | trivial

theorem orderly_quiet (ho : Quiet o) : Orderly S q (⟨o,r⟩ :: past) := by
  cases o with
  | storageContains u k => exact fun p hp => absurd hp (ho p)
  | storageRead u k => exact fun p hp => absurd hp (ho p)
  | newInstanceId => exact absurd ho id
  | lockExclusive p => exact absurd ho id
  | unlock p => exact absurd ho id
  | storageUpdate u k payload => exact absurd ho id
  | kill i => exact absurd ho id
  | _ => trivial

theorem of_mem_cons {o' : Op} {r' : Res o'} (ho : o' ≠ o)
    (h : (⟨o',r'⟩ : Event Op Res) ∈ ⟨o,r⟩ :: past) : (⟨o',r'⟩ : Event Op Res) ∈ past := by
  rcases List.mem_cons.mp h with h | h
  · exact absurd (congrArg Sigma.fst h) ho
  · exact h

theorem Found.cons (h : Found S u p list past) (e : Event Op Res) : Found S u p list (e :: past) := by
  rcases h with ⟨hc,hl⟩ | ⟨payload,hr,hd⟩
  · exact .inl ⟨List.mem_cons_of_mem _ hc,hl⟩
  · exact .inr ⟨payload,List.mem_cons_of_mem _ hr,hd⟩

theorem Owner.cons (h : Owner S i u past) (e : Event Op Res) : Owner S i u (e :: past) := by
  obtain ⟨payload,hr,hd⟩ := h
  exact ⟨payload,List.mem_cons_of_mem _ hr,hd⟩

theorem Running.cons (h : Running i u p past) (e : Event Op Res) : Running i u p (e :: past) := by
  obtain ⟨payload,hr,hd⟩ := h
  exact ⟨payload,List.mem_cons_of_mem _ hr,hd⟩

theorem Locked.cons (h : Locked p past) (ho : ∀ p, o ≠ .unlock p) : Locked p (⟨o,r⟩ :: past) :=
  ⟨List.mem_cons_of_mem _ h.1,fun r' hm => h.2 r' (of_mem_cons (ho p).symm hm)⟩

theorem Lockless.cons (h : Lockless past) (ho : Passive o) : Lockless (⟨o,r⟩ :: past) := by
  intro p
  refine ⟨fun hm => (h p).1 (of_mem_cons ?_ hm),fun r' hm => (h p).2 r' (of_mem_cons ?_ hm)⟩ <;>
  · rintro rfl
    exact ho

theorem Idle.cons (h : Idle past) (ho : Passive o) : Idle (⟨o,r⟩ :: past) := by
  refine ⟨fun u p ⟨payload,r',hm⟩ => h.unlisted u p ⟨payload,r',of_mem_cons ?_ hm⟩,
    fun ⟨name,jwt,vt,addr,started,hm⟩ => h.unspawned ⟨name,jwt,vt,addr,started,of_mem_cons ?_ hm⟩⟩ <;>
  · rintro rfl
    exact ho

theorem Lockless.locked (h : Lockless past) (p : String) :
    Locked p (⟨.lockExclusive p,()⟩ :: past) :=
  ⟨List.mem_cons_self ..,fun r hm => (h p).2 r (of_mem_cons (by simp) hm)⟩

theorem traced_quiet {prog : Service α} {J : Past → Prop} (hprog : prog.All Quiet)
    (hJ : ∀ o r past, Quiet o → J past → J (⟨o,r⟩ :: past)) (h : J past) :
    prog.Traced (Orderly S q) past fun _ => J :=
  Prog.Traced.of_all hprog (fun o ho r past hJp => ⟨orderly_quiet ho,hJ o r past ho hJp⟩) h

theorem traced_storageUpdate {k : String} {payload : Bytes}
    {P : Unit → Past → Prop} {E : Past → Prop} (hstores : Stores S q past u k payload)
    (hok : P () (⟨.storageUpdate u k payload,(.ok () : Except UpdateError Unit)⟩ :: past))
    (herr : ∀ e, E (⟨.storageUpdate u k payload,(.error e : Except UpdateError Unit)⟩ :: past)) :
    (storageUpdate u k payload).Traced (Orderly S q) past (Prog.Ends P E) := by
  intro r
  refine ⟨hstores,?_⟩
  cases r with
  | ok _ => exact hok
  | error e => exact herr e

theorem quiet_perform {o : Op} {f : Res o → Service α} (ho : Quiet o) (hf : ∀ r, (f r).All Quiet) :
    (perform o >>= f).All Quiet := ⟨ho,hf⟩

theorem quiet_unwrap (a : Option α) : (unwrap a).All Quiet := by
  cases a <;> trivial

theorem quiet_storageRead {k : String} (hk : ∀ p, k ≠ groupsKey p) :
    (storageRead u k).All Quiet :=
  quiet_perform hk fun r => by cases r <;> trivial

theorem quiet_checkCaller (metadata : MetadataMap) (userId : String) :
    (checkCaller metadata userId).All Quiet := by
  refine (Prog.All.ofExcept _).bind fun privilege => ?_
  split_ifs
  · trivial
  · refine (Prog.All.ofExcept _).bind fun caller => ?_
    split_ifs <;> trivial

theorem quiet_fetchPackage (request : StartProtocolOperatorRequest) :
    (fetchPackage request).All Quiet := by
  refine quiet_perform trivial fun present => ?_
  cases present with
  | true => trivial
  | false => exact quiet_perform trivial fun r => by cases r <;> trivial

theorem quiet_upgradePackage (upgrade : Bool) (name : String) (list : List String) :
    (upgradePackage upgrade name list).All Quiet := by
  unfold upgradePackage
  split_ifs
  · refine quiet_perform trivial fun present => ?_
    cases present with
    | true => exact quiet_perform trivial fun r => by cases r <;> trivial
    | false => trivial
  · trivial
  · trivial

/-- While a call has the lock and has not stored a list yet. -/
structure Working (p : String) (past : Past) : Prop extends Idle past where
  locked : Locked p past

theorem Working.cons (h : Working p past) (ho : Passive o) : Working p (⟨o,r⟩ :: past) :=
  ⟨h.toIdle.cons ho,h.locked.cons fun p' he => by rw [he] at ho; exact ho⟩

theorem traced_readRunningInstances {request : StartProtocolOperatorRequest}
    (hq : q.call = .start request) (h : Working p past) {e : Event Op Res} (he : e ∈ past) :
    (readRunningInstances S u p).Traced (Orderly S q) past (Prog.Ends
      (fun list past' => Working p past' ∧ e ∈ past' ∧ Found S u p list past') (Working p)) := by
  have hlocked {past' : Past} (h' : Working p past') (p' : String)
      (hk : groupsKey p = groupsKey p') : Locked p' past' := groupsKey_inj.mp hk ▸ h'.locked
  intro present
  refine ⟨hlocked h,?_⟩
  have h' : Working p (⟨.storageContains u (groupsKey p),present⟩ :: past) := h.cons trivial
  cases present with
  | false => exact ⟨h',List.mem_cons_of_mem _ he,.inl ⟨List.mem_cons_self ..,rfl⟩⟩
  | true =>
    intro r
    refine ⟨fun p' hk => ⟨hlocked h' p' hk,fun i hi => by rw [hq] at hi; cases hi⟩,?_⟩
    have h'' := h'.cons (o := .storageRead u (groupsKey p)) (r := r) trivial
    cases r with
    | error e => exact h''
    | ok payload =>
      show (unwrap (S.listOfString.decode payload)).Traced _ _ _
      cases hd : S.listOfString.decode payload with
      | none => exact h''
      | some list => exact ⟨h'',List.mem_cons_of_mem _ (List.mem_cons_of_mem _ he),
          .inr ⟨payload,List.mem_cons_self ..,hd⟩⟩

theorem done_of_idle {request : StartProtocolOperatorRequest} (hq : q.call = .start request)
    (h : Idle past) : Done S q request.protocolName past := by
  unfold Done
  rw [hq]
  exact ⟨rfl,fun hs => absurd hs h.unspawned⟩

theorem done_of_failure {request : StartProtocolOperatorRequest} (hq : q.call = .start request)
    {k : String} {payload : Bytes} {e : UpdateError} :
    Done S q request.protocolName
      (⟨.storageUpdate u k payload,(.error e : Except UpdateError Unit)⟩ :: past) := by
  unfold Done
  rw [hq]
  exact ⟨rfl,fun _ => .inr ⟨u,k,payload,e,List.mem_cons_self ..⟩⟩

theorem done_of_listed {request : StartProtocolOperatorRequest} (hq : q.call = .start request)
    (h : Listed request.userId request.protocolName past) :
    Done S q request.protocolName past := by
  unfold Done
  rw [hq]
  exact ⟨rfl,fun _ => .inl h⟩

/-- What a call that starts an instance knows when it stores the records of the instance. -/
structure Recording (S : Server) (request : StartProtocolOperatorRequest) (i : String)
    (list : List String) (past : Past) : Prop where
  locked : Locked request.protocolName past
  id : (⟨.newInstanceId,i⟩ : Event Op Res) ∈ past
  unlisted : ∀ u p, ¬Listed u p past
  spawned : Spawned past
  found : Found S request.userId request.protocolName list past

theorem Recording.cons {request : StartProtocolOperatorRequest} (h : Recording S request i list past)
    {k : String} (hk : ∀ p, k ≠ groupsKey p) (payload : Bytes) (r : Except UpdateError Unit) :
    Recording S request i list (⟨.storageUpdate u k payload,r⟩ :: past) where
  locked := h.locked.cons (by simp)
  id := List.mem_cons_of_mem _ h.id
  unlisted u' p := by
    rintro ⟨payload',r',hm⟩
    refine h.unlisted u' p ⟨payload',r',of_mem_cons (fun he => ?_) hm⟩
    exact hk p (Op.storageUpdate.inj he).2.1.symm
  spawned := by
    obtain ⟨name,jwt,vt,addr,started,hm⟩ := h.spawned
    exact ⟨name,jwt,vt,addr,started,List.mem_cons_of_mem _ hm⟩
  found := h.found.cons _

theorem stores_of_records {request : StartProtocolOperatorRequest} {k : String} {payload : Bytes}
    (hq : q.call = .start request) (h : Recording S request i list past)
    (hr : Records S request i past u k payload) : Stores S q past u k payload := by
  unfold Stores
  rw [hq]
  exact ⟨i,h.id,h.locked,hr⟩

theorem traced_recordInstance {request : StartProtocolOperatorRequest} (hq : q.call = .start request)
    (h : Recording S request i list past) (started : Instance) :
    (recordInstance S request i started list).Traced (Orderly S q) past
      fun _ past' => Locked request.protocolName past' ∧ Done S q request.protocolName past' := by
  have hends {prog : Service Unit} {past : Past} (hp : prog.Traced (Orderly S q) past (Prog.Ends
      (fun _ past' => Locked request.protocolName past' ∧ Done S q request.protocolName past')
      fun past' => Locked request.protocolName past' ∧ Done S q request.protocolName past')) :
      prog.Traced (Orderly S q) past fun _ past' =>
        Locked request.protocolName past' ∧ Done S q request.protocolName past' :=
    hp.mono fun r _ hr => by cases r <;> exact hr
  have hupdate {u k : String} {payload : Bytes} {past : Past} (h : Recording S request i list past)
      (hk : ∀ p, k ≠ groupsKey p) (hr : Records S request i past u k payload) :
      (storageUpdate u k payload).Traced (Orderly S q) past (Prog.Ends
        (fun _ => Recording S request i list)
        fun past' => Locked request.protocolName past' ∧ Done S q request.protocolName past') :=
    traced_storageUpdate (stores_of_records hq h hr) (h.cons hk _ _)
      fun e => ⟨h.locked.cons (by simp),done_of_failure hq⟩
  refine hends (Prog.Traced.seqEnds (hupdate h (instanceUserKey_ne i) .user) fun _ past h => ?_)
  refine Prog.Traced.seqEnds (hupdate h (instanceKey_ne i _) (.started started)) fun _ past h => ?_
  refine Prog.Traced.seqEnds (hupdate h (instanceKey_ne i _) .protocolName) fun _ past h => ?_
  have hlisted (r : Except UpdateError Unit) : Listed request.userId request.protocolName
      (⟨.storageUpdate request.userId (groupsKey request.protocolName)
        (S.listOfString.encode (list ++ [i])),r⟩ :: past) := ⟨_,r,List.mem_cons_self ..⟩
  exact traced_storageUpdate (stores_of_records hq h (.list h.found h.spawned h.unlisted))
    ⟨h.locked.cons (by simp),done_of_listed hq (hlisted _)⟩
    fun e => ⟨h.locked.cons (by simp),done_of_listed hq (hlisted _)⟩

theorem traced_startLocked {request : StartProtocolOperatorRequest} (hq : q.call = .start request)
    (h : Working request.protocolName past) (hid : (⟨.newInstanceId,i⟩ : Event Op Res) ∈ past)
    (coreAddr userJwt : String) :
    (startLocked S request coreAddr userJwt i).Traced (Orderly S q) past fun _ past' =>
      Locked request.protocolName past' ∧ Done S q request.protocolName past' := by
  have hidle {past' : Past} (h : Working request.protocolName past') :
      Locked request.protocolName past' ∧ Done S q request.protocolName past' :=
    ⟨h.locked,done_of_idle hq h.toIdle⟩
  refine (Prog.Traced.seqEnds (P := fun list past => Working request.protocolName past ∧
      (⟨.newInstanceId,i⟩ : Event Op Res) ∈ past ∧
      Found S request.userId request.protocolName list past)
    (E := fun past => Locked request.protocolName past ∧ Done S q request.protocolName past)
    (Q := fun _ past => Locked request.protocolName past ∧ Done S q request.protocolName past)
    ((traced_readRunningInstances hq h hid).mono fun r past' hr => ?_) fun list past h => ?_).mono
      fun r past' hr => ?_
  · cases r with
    | ok list => exact hr
    | error e => exact hidle hr
  · have hquiet {prog : Service Unit} (hprog : prog.All Quiet) {past : Past}
        (h : Working request.protocolName past ∧ (⟨.newInstanceId,i⟩ : Event Op Res) ∈ past ∧
          Found S request.userId request.protocolName list past) :
        prog.Traced (Orderly S q) past (Prog.Ends
          (fun _ past => Working request.protocolName past ∧
            (⟨.newInstanceId,i⟩ : Event Op Res) ∈ past ∧
            Found S request.userId request.protocolName list past)
          fun past => Locked request.protocolName past ∧ Done S q request.protocolName past) := by
      refine (traced_quiet (J := fun past => Working request.protocolName past ∧
        (⟨.newInstanceId,i⟩ : Event Op Res) ∈ past ∧
        Found S request.userId request.protocolName list past) hprog (fun o r past ho h => ?_) h).mono
          fun r past hr => ?_
      · exact ⟨h.1.cons (passive_of_quiet ho),List.mem_cons_of_mem _ h.2.1,h.2.2.cons _⟩
      · cases r with
        | ok _ => exact hr
        | error e => exact hidle hr.1
    refine Prog.Traced.seqEnds (hquiet (quiet_upgradePackage _ _ _) h) fun _ past h => ?_
    refine Prog.Traced.seqEnds (hquiet (quiet_fetchPackage _) h) fun _ past h => ?_
    obtain ⟨hworking,hid,hfound⟩ := h
    intro r
    refine ⟨trivial,?_⟩
    have hlocked : Locked request.protocolName
        (⟨.startInstance request.protocolName userJwt request.vtPublicAddr coreAddr,r⟩ :: past) :=
      hworking.locked.cons (by simp)
    cases r with
    | ok started =>
      refine (traced_recordInstance hq ⟨hlocked,List.mem_cons_of_mem _ hid,?_,?_,hfound.cons _⟩
        started).mono fun r past hr => ?_
      · exact fun u p ⟨payload,r,hm⟩ => hworking.unlisted u p ⟨payload,r,of_mem_cons (by simp) hm⟩
      · exact ⟨_,_,_,_,started,List.mem_cons_self ..⟩
      · cases r <;> exact hr
    | error e =>
      refine ⟨hlocked,done_of_idle hq ⟨?_,?_⟩⟩
      · exact fun u p ⟨payload,r,hm⟩ => hworking.unlisted u p ⟨payload,r,of_mem_cons (by simp) hm⟩
      · rintro ⟨name,jwt,vt,addr,started,hm⟩
        rcases List.mem_cons.mp hm with hm | hm
        · cases eq_of_heq (Sigma.mk.inj hm).2
        · exact hworking.unspawned ⟨name,jwt,vt,addr,started,hm⟩
  · cases r <;> exact hr

theorem traced_locked {work : Service Unit} {G : Past → Prop} (h : Lockless past)
    (hwork : work.Traced (Orderly S q) (⟨.lockExclusive p,()⟩ :: past) fun r past' =>
      Locked p past' ∧ Done S q p past' ∧ (r = .ok () → G past')) :
    (locked p work).Traced (Orderly S q) past fun r past' =>
      r = .ok () → ∃ r' past'', past' = ⟨.unlock p,r'⟩ :: past'' ∧ G past'' := by
  intro r
  refine ⟨h,?_⟩
  show (work.attempt >>= fun r => (perform (.unlock p) >>= Prog.ofExcept) >>= fun _ =>
    Prog.ofExcept r).Traced _ _ _
  refine Prog.Traced.bind (Prog.Traced.attempt (hwork.mono fun r past' hr => ?_))
  refine Prog.Traced.bind fun r' => ⟨⟨hr.1,hr.2.1⟩,?_⟩
  cases r' with
  | ok _ =>
    show (Prog.ofExcept r).Traced _ _ _
    exact Prog.Traced.ofExcept fun he => ⟨_,past',rfl,hr.2.2 he⟩
  | error e => exact fun he => by cases he

/-- Before a call takes the lock. -/
structure Free (past : Past) : Prop extends Idle past where
  lockless : Lockless past

theorem Free.cons (h : Free past) (ho : Passive o) : Free (⟨o,r⟩ :: past) :=
  ⟨h.toIdle.cons ho,h.lockless.cons ho⟩

theorem Free.locked (h : Free past) (p : String) : Working p (⟨.lockExclusive p,()⟩ :: past) where
  unlisted u p' := fun ⟨payload,r,hm⟩ => h.unlisted u p' ⟨payload,r,of_mem_cons (by simp) hm⟩
  unspawned := fun ⟨name,jwt,vt,addr,started,hm⟩ =>
    h.unspawned ⟨name,jwt,vt,addr,started,of_mem_cons (by simp) hm⟩
  locked := h.lockless.locked p

theorem free_nil : Free [] where
  unlisted _ _ := fun ⟨_,_,hm⟩ => by cases hm
  unspawned := fun ⟨_,_,_,_,_,hm⟩ => by cases hm
  lockless _ := ⟨List.not_mem_nil,fun _ => List.not_mem_nil⟩

theorem traced_quiet_bind {β : Type} {prog : Service α} {f : α → Service β} {J : Past → Prop}
    {Q : Except Abort β → Past → Prop} (hprog : prog.All Quiet)
    (hJ : ∀ o r past, Quiet o → J past → J (⟨o,r⟩ :: past)) (h : J past)
    (hf : ∀ a past, J past → (f a).Traced (Orderly S q) past Q)
    (herr : ∀ e past, Q (.error e) past) : (prog >>= f).Traced (Orderly S q) past Q := by
  refine Prog.Traced.bind ((traced_quiet hprog hJ h).mono fun r past hr => ?_)
  cases r with
  | ok a => exact hf a past hr
  | error e => exact herr e past

theorem userJwtKey_ne (userId p : String) : "users:" ++ userId ++ ":user_jwt" ≠ groupsKey p := by
  have hu : ("users:" ++ userId ++ ":user_jwt").toList.head? = some 'u' := by
    rw [String.append_assoc,String.toList_append]
    rfl
  intro h
  rw [h,groupsKey_head] at hu
  cases hu

theorem traced_startProtocolOperator {metadata : MetadataMap}
    {request : StartProtocolOperatorRequest} (hq : q.call = .start request) :
    (startProtocolOperator S metadata request).Traced (Orderly S q) [] fun _ _ => True := by
  have hfree (o : Op) (r : Res o) (past : Past) (ho : Quiet o)
      (h : Free past ∧ ∀ i : String, (⟨.newInstanceId,i⟩ : Event Op Res) ∉ past) :
      Free (⟨o,r⟩ :: past) ∧ ∀ i : String, (⟨.newInstanceId,i⟩ : Event Op Res) ∉ ⟨o,r⟩ :: past := by
    refine ⟨h.1.cons (passive_of_quiet ho),fun i hm => h.2 i (of_mem_cons ?_ hm)⟩
    rintro rfl
    exact ho
  refine traced_quiet_bind (quiet_perform trivial fun _ => .ofExcept _) hfree
    ⟨free_nil,fun _ => List.not_mem_nil⟩ (fun _ past h => ?_) fun _ _ => trivial
  refine traced_quiet_bind (quiet_checkCaller _ _) hfree h (fun _ past h => ?_) fun _ _ => trivial
  cases S.coreUri with
  | none => trivial
  | some coreAddr =>
    refine traced_quiet_bind (quiet_storageRead (userJwtKey_ne _)) hfree h (fun _ past h => ?_)
      fun _ _ => trivial
    refine traced_quiet_bind (quiet_unwrap _) hfree h (fun userJwt past h => ?_) fun _ _ => trivial
    intro i
    refine ⟨h.2,?_⟩
    have hi : Free (⟨.newInstanceId,i⟩ :: past) ∧
        (⟨.newInstanceId,i⟩ : Event Op Res) ∈ (⟨.newInstanceId,i⟩ : Event Op Res) :: past :=
      ⟨h.1.cons trivial,List.mem_cons_self ..⟩
    have hkeep (o : Op) (r : Res o) (past : Past) (ho : Quiet o)
        (h : Free past ∧ (⟨.newInstanceId,i⟩ : Event Op Res) ∈ past) :
        Free (⟨o,r⟩ :: past) ∧ (⟨.newInstanceId,i⟩ : Event Op Res) ∈ ⟨o,r⟩ :: past :=
      ⟨h.1.cons (passive_of_quiet ho),List.mem_cons_of_mem _ h.2⟩
    show Prog.Traced _ (if _ then _ else _) _ _
    split_ifs
    · trivial
    · refine traced_quiet_bind (quiet_perform trivial fun _ => .ofExcept _) hkeep hi
        (fun _ past h => ?_) fun _ _ => trivial
      refine traced_quiet_bind (quiet_perform trivial fun _ => .ofExcept _) hkeep h
        (fun _ past h => ?_) fun _ _ => trivial
      refine traced_quiet_bind (quiet_perform trivial fun _ => .ofExcept _) hkeep h
        (fun _ past h => ?_) fun _ _ => trivial
      refine Prog.Traced.bind ((traced_locked (G := fun _ => True) h.1.lockless
        ((traced_startLocked hq (h.1.locked _) (List.mem_cons_of_mem _ h.2) _ _).mono
          fun r past hr => ⟨hr.1,hr.2,fun _ => trivial⟩)).mono fun r past _ => ?_)
      cases r <;> trivial

theorem quiet_readInstance (userId i : String) : (readInstance userId i).All Quiet := by
  refine quiet_perform (instanceKey_ne i _) fun r => ?_
  cases r with
  | ok pid => exact (quiet_unwrap _).bind fun _ => trivial
  | error e =>
    refine quiet_perform (instanceKey_ne i _) fun r => ?_
    cases r with
    | ok cid => exact (quiet_unwrap _).bind fun _ => trivial
    | error e' => trivial

theorem traced_stopLocked (hq : q.call = .stop i) (h : Working p past) (howner : Owner S i u past)
    (hrunning : Running i u p past) :
    (stopLocked S u p i).Traced (Orderly S q) past fun r past' => Locked p past' ∧
      Done S q p past' ∧ (r = .ok () → Owner S i u past' ∧ Listed u p past') := by
  intro r
  refine ⟨fun p' hk => ?_,?_⟩
  · obtain rfl := groupsKey_inj.mp hk
    refine ⟨h.locked,fun i' hq' => ?_⟩
    obtain rfl := OperatorCall.stop.inj (hq.symm.trans hq')
    exact ⟨howner,hrunning⟩
  have h' : Working p (⟨.storageRead u (groupsKey p),r⟩ :: past) := h.cons trivial
  have hfailed (hr : ∀ payload, r = .ok payload → S.listOfString.decode payload = none) :
      Done S q p (⟨.storageRead u (groupsKey p),r⟩ :: past) := by
    unfold Done
    rw [hq]
    exact ⟨u,howner.cons _,hrunning.cons _,.inr ⟨r,List.mem_cons_self ..,hr⟩⟩
  cases r with
  | error e => exact ⟨h'.locked,hfailed (fun _ he => by cases he),fun he => by cases he⟩
  | ok payload =>
    show (unwrap (S.listOfString.decode payload) >>= fun list => storageUpdate u (groupsKey p)
      (S.listOfString.encode (list.filter fun x => x ≠ i))).Traced _ _ _
    cases hd : S.listOfString.decode payload with
    | none =>
      refine ⟨h'.locked,hfailed fun payload' he => ?_,fun he => by cases he⟩
      rwa [← Except.ok.inj he]
    | some list =>
      have hlisted (r : Except UpdateError Unit) : Listed u p (⟨.storageUpdate u (groupsKey p)
          (S.listOfString.encode (list.filter fun x => x ≠ i)),r⟩ ::
            ⟨.storageRead u (groupsKey p),(.ok payload : Except String Bytes)⟩ :: past) :=
        ⟨_,r,List.mem_cons_self ..⟩
      have hdone (r : Except UpdateError Unit) : Done S q p (⟨.storageUpdate u (groupsKey p)
          (S.listOfString.encode (list.filter fun x => x ≠ i)),r⟩ ::
            ⟨.storageRead u (groupsKey p),(.ok payload : Except String Bytes)⟩ :: past) := by
        unfold Done
        rw [hq]
        exact ⟨u,(howner.cons _).cons _,(hrunning.cons _).cons _,.inl (hlisted r)⟩
      have hstores : Stores S q
          (⟨.storageRead u (groupsKey p),(.ok payload : Except String Bytes)⟩ :: past) u (groupsKey p)
          (S.listOfString.encode (list.filter fun x => x ≠ i)) := by
        unfold Stores
        rw [hq]
        exact ⟨p,list,h'.locked,howner.cons _,hrunning.cons _,
          .inr ⟨payload,List.mem_cons_self ..,hd⟩,h'.unlisted,rfl,rfl⟩
      intro r
      refine ⟨hstores,?_⟩
      cases r with
      | ok _ => exact ⟨h'.locked.cons (by simp),hdone _,fun _ => ⟨(howner.cons _).cons _,hlisted _⟩⟩
      | error e => exact ⟨h'.locked.cons (by simp),hdone _,fun he => by cases he⟩

theorem traced_readString {β : Type} {k : String} {f : String → Service β}
    {Q : Except Abort β → Past → Prop} (hk : ∀ p, k ≠ groupsKey p)
    (hf : ∀ s payload, stringOfBytes payload = some s →
      (f s).Traced (Orderly S q) (⟨.storageRead u k,(.ok payload : Except String Bytes)⟩ :: past) Q)
    (herr : ∀ e past, Q (.error e) past) :
    (storageRead u k >>= fun payload => unwrap (stringOfBytes payload) >>= f).Traced (Orderly S q)
      past Q := by
  intro r
  refine ⟨fun p hp => absurd hp (hk p),?_⟩
  cases r with
  | error e => exact herr _ _
  | ok payload =>
    show (unwrap (stringOfBytes payload) >>= f).Traced _ _ _
    cases hs : stringOfBytes payload with
    | none => exact herr _ _
    | some s => exact hf s payload hs

theorem traced_stopProtocolOperator {metadata : MetadataMap} (hq : q.call = .stop i) :
    (stopProtocolOperator S metadata i).Traced (Orderly S q) []
      fun r past => (∃ a, r = .ok a) → Ended S q past := by
  have herr (e : Abort) (past : Past) :
      (∃ a, (Except.error e : Except Abort String) = .ok a) → Ended S q past := by
    rintro ⟨a,ha⟩
    cases ha
  refine traced_quiet_bind (quiet_perform trivial fun _ => .ofExcept _)
    (fun o r past ho h => Free.cons h (passive_of_quiet ho)) free_nil (fun _ past h => ?_) herr
  refine traced_readString (instanceUserKey_ne i) (fun u payload hu => ?_) herr
  have howned (o : Op) (r : Res o) (past : Past) (ho : Quiet o) (h : Free past ∧ Owner S i u past) :
      Free (⟨o,r⟩ :: past) ∧ Owner S i u (⟨o,r⟩ :: past) :=
    ⟨h.1.cons (passive_of_quiet ho),h.2.cons _⟩
  refine traced_quiet_bind (quiet_checkCaller _ _) howned
    ⟨h.cons trivial,payload,List.mem_cons_self ..,hu⟩ (fun _ past h => ?_) herr
  refine traced_quiet_bind (quiet_readInstance u i) howned h (fun running past h => ?_) herr
  intro r
  refine ⟨⟨i,u,hq,h.2⟩,?_⟩
  cases r with
  | error e => exact herr _ _
  | ok _ =>
    refine traced_readString (instanceKey_ne i _) (fun p payload hp => ?_) herr
    have hrun (o : Op) (r : Res o) (past : Past) (ho : Quiet o)
        (h : Free past ∧ Owner S i u past ∧ Running i u p past) :
        Free (⟨o,r⟩ :: past) ∧ Owner S i u (⟨o,r⟩ :: past) ∧ Running i u p (⟨o,r⟩ :: past) :=
      ⟨h.1.cons (passive_of_quiet ho),h.2.1.cons _,h.2.2.cons _⟩
    refine traced_quiet_bind (quiet_perform trivial fun _ => .ofExcept _) hrun
      ⟨(h.1.cons (o := .kill running) trivial).cons trivial,(h.2.cons _).cons _,payload,
        List.mem_cons_self ..,hp⟩
      (fun _ past h => ?_) herr
    refine traced_quiet_bind (quiet_perform trivial fun _ => .ofExcept _) hrun h
      (fun _ past h => ?_) herr
    obtain ⟨hfree,howner,hrunning⟩ := h
    refine Prog.Traced.bind ((traced_locked hfree.lockless (traced_stopLocked hq (hfree.locked p)
      (howner.cons _) (hrunning.cons _))).mono fun r past hr => ?_)
    cases r with
    | error e => exact herr _ _
    | ok _ =>
      rintro - i' hq'
      obtain rfl := OperatorCall.stop.inj (hq.symm.trans hq')
      obtain ⟨r',past',rfl,howner,payload,r'',hlisted⟩ := hr rfl
      exact ⟨u,p,howner.cons _,payload,r'',List.mem_cons_of_mem _ hlisted⟩

theorem traced_handle (q : Request) : (handle S q).Traced (Orderly S q) []
    fun r past => (∃ a, r = .ok a) → Ended S q past := by
  unfold handle
  cases hq : q.call with
  | start request =>
    refine (traced_startProtocolOperator hq).mono fun r past _ _ i hi => ?_
    rw [hq] at hi
    cases hi
  | stop i => exact traced_stopProtocolOperator hq

end Traces

/-- No instance has been recorded yet. -/
def Clean (x : Shared) : Prop :=
  Init x ∧ ∀ i, x.before S.hostId (instanceUserKey i) = none ∧
    ∀ u field, x.before u (instanceKey i field) = none

def Run (c : Config Op Res Abort Request String Shared) : Prop := (system S).Reach (Clean S) c

/-- No two calls are given the same id for a new instance. -/
def FreshIds (h : History) : Prop := ∀ t t' q q', ∀ i : String,
  .op t q .newInstanceId i ∈ h → .op t' q' .newInstanceId i ∈ h → t = t'

/-- The call that starts an instance, after it has taken the lock. -/
def StartedBy (past : History) (t : ℕ) (q : Request) (request : StartProtocolOperatorRequest)
    (i : String) : Prop :=
  q.call = .start request ∧ .op t q .newInstanceId i ∈ past ∧
    .op t q (.lockExclusive request.protocolName) () ∈ past

/-- The call that starts the instance has stored the list. -/
def Appended (past : History) (u p i : String) : Prop :=
  ∃ t q request payload r, StartedBy past t q request i ∧
    .op t q (.storageUpdate u (groupsKey p) payload) r ∈ past

/-- A call that stops the instance has stored the list. -/
def Removed (past : History) (u p i : String) : Prop :=
  ∃ t q payload r, q.call = .stop i ∧ .op t q (.storageUpdate u (groupsKey p) payload) r ∈ past

/-- The call that starts the instance has spawned it and given back the lock. -/
def Started (h : History) (u p i : String) : Prop :=
  ∃ t q request r past, q.call = .start request ∧ request.userId = u ∧ request.protocolName = p ∧
    .op t q .newInstanceId i ∈ h ∧ .op t q (.unlock p) r :: past <:+ h ∧ Spawned (events t past)

/-- A call that stops the instance has given back the lock. -/
def Stopped (h : History) (i : String) : Prop :=
  ∃ t q p r, q.call = .stop i ∧ .op t q (.unlock p) r ∈ h

/-- All updates of the storage have succeeded. -/
def StorageSucceeds (h : History) : Prop :=
  ∀ t q u k payload, ∀ r : Except UpdateError Unit, .op t q (.storageUpdate u k payload) r ∈ h → r = .ok ()

section Runs

variable {S} {c : Config Op Res Abort Request String Shared} {t t' : ℕ} {q : Request} {o : Op}
  {r : Res o} {past : History} {p u i : String} {payload : Bytes}

theorem stringOfBytes_stringBytes (s : String) : stringOfBytes (stringBytes s) = some s := by
  have hvalid : s.toUTF8.IsValidUTF8 := s.isValidUTF8
  simp only [stringOfBytes,stringBytes,String.fromUTF8?]
  exact dif_pos hvalid

theorem orderly_op (hc : Run S c) (hs : .op t q o r :: past <:+ c.state.history) :
    Orderly S q (⟨o,r⟩ :: events t past) :=
  System.Reach.traced_op traced_handle hc hs

theorem locks_exec {s : State Op Res Request Shared} {x : Shared} (hl : ∀ p, o ≠ .lockExclusive p)
    (hu : ∀ p, o ≠ .unlock p) (he : exec t s o r x) : x.locks = s.shared.locks := by
  cases o with
  | lockExclusive p => exact absurd rfl (hl p)
  | unlock p => exact absurd rfl (hu p)
  | removePackage p =>
    obtain ⟨present,rfl⟩ := he
    rfl
  | fetchProtocol p _ _ =>
    obtain ⟨present,rfl⟩ := he
    rfl
  | checkPrivilegeIn _ _ => rw [he.2]
  | storageContains _ _ => rw [he.2]
  | storageRead _ _ => rw [he.2]
  | packageExists _ => rw [he.2]
  | _ => rw [show x = s.shared from he]

theorem before_exec {s : State Op Res Request Shared} {x : Shared} (he : exec t s o r x) :
    x.before = s.shared.before := by
  cases o with
  | lockExclusive p => rw [he.2]
  | unlock p => rw [show x = _ from he]
  | removePackage p =>
    obtain ⟨present,rfl⟩ := he
    rfl
  | fetchProtocol p _ _ =>
    obtain ⟨present,rfl⟩ := he
    rfl
  | checkPrivilegeIn _ _ => rw [he.2]
  | storageContains _ _ => rw [he.2]
  | storageRead _ _ => rw [he.2]
  | packageExists _ => rw [he.2]
  | _ => rw [show x = s.shared from he]

theorem clean_run (hc : Run S c) : (∀ u p, c.state.shared.before u (groupsKey p) = none) ∧
    ∀ i, c.state.shared.before S.hostId (instanceUserKey i) = none ∧
      ∀ u field, c.state.shared.before u (instanceKey i field) = none := by
  induction hc with
  | init hx => exact ⟨hx.1.1,hx.2⟩
  | step hc s ih =>
    cases s with
    | start fresh begins => rwa [State.push_shared,show _ = _ from begins]
    | env moves => exact absurd moves id
    | op runs does => rwa [State.push_shared,before_exec does]

/-- A lock belongs to the call that has taken it and not given it back. -/
theorem locks_iff (hc : Run S c) (t : ℕ) (p : String) :
    c.state.shared.locks p = some t ↔ Locked p (events t c.state.history) := by
  induction hc generalizing t p with
  | init hx => simp [hx.1.2 p,Locked]
  | @step c c' a hc s ih =>
    have horder := hc.step s
    cases s with
    | start fresh begins =>
      rw [State.push_shared,show _ = _ from begins,ih]
      exact Iff.rfl
    | env moves => exact absurd moves id
    | @op t₁ q o k r x runs does =>
      have hevent := orderly_op horder List.suffix_rfl
      have hsame (hl : ∀ p, o ≠ .lockExclusive p) (hu : ∀ p, o ≠ .unlock p) :
          x.locks p = some t ↔ Locked p (events t (.op t₁ q o r :: c.state.history)) := by
        rw [locks_exec hl hu does,ih]
        by_cases ht : t₁ = t
        · subst ht
          rw [events_op_self]
          refine ⟨fun h => h.cons hu,fun h => ⟨of_mem_cons (hl p).symm h.1,fun r hm => ?_⟩⟩
          exact h.2 r (List.mem_cons_of_mem _ hm)
        · rw [events_op_of_ne ht]
      cases o with
      | lockExclusive p' =>
        obtain ⟨hfree,rfl⟩ := does
        show Function.update c.state.shared.locks p' (some t₁) p = some t ↔
          Locked p (events t (.op t₁ q (.lockExclusive p') r :: c.state.history))
        have hother (t' : ℕ) : ¬Locked p' (events t' c.state.history) := by
          rw [← ih,hfree]
          simp
        by_cases ht : t₁ = t
        · subst ht
          rw [events_op_self]
          by_cases hp : p = p'
          · subst hp
            exact iff_of_true (Function.update_self ..) (Lockless.locked hevent p)
          · rw [Function.update_of_ne hp,ih]
            refine ⟨fun h => absurd h.1 (hevent p).1,fun h => absurd (of_mem_cons ?_ h.1) (hevent p).1⟩
            simpa using hp
        · rw [events_op_of_ne ht]
          by_cases hp : p = p'
          · subst hp
            simpa [ht] using hother t
          · rw [Function.update_of_ne hp,ih]
      | unlock p' =>
        obtain rfl : x = { c.state.shared with
          locks := Function.update c.state.shared.locks p' none } := does
        show Function.update c.state.shared.locks p' none p = some t ↔
          Locked p (events t (.op t₁ q (.unlock p') r :: c.state.history))
        have hheld := (ih t₁ p').mpr hevent.1
        by_cases ht : t₁ = t
        · subst ht
          rw [events_op_self]
          by_cases hp : p = p'
          · subst hp
            simp only [Function.update_self,reduceCtorEq,false_iff]
            exact fun h => h.2 r (List.mem_cons_self ..)
          · rw [Function.update_of_ne hp,ih]
            refine ⟨fun h => ⟨List.mem_cons_of_mem _ h.1,fun r' hm => ?_⟩,
              fun h => ⟨of_mem_cons (by simp) h.1,fun r' hm => h.2 r' (List.mem_cons_of_mem _ hm)⟩⟩
            exact h.2 r' (of_mem_cons (by simpa using hp) hm)
        · rw [events_op_of_ne ht]
          by_cases hp : p = p'
          · subst hp
            rw [Function.update_self,← ih,hheld]
            simpa using ht
          · rw [Function.update_of_ne hp,ih]
      | _ => exact hsame (by simp) (by simp)

theorem exclusive (hc : Run S c) (hs : past <:+ c.state.history) (h : Locked p (events t past))
    (h' : Locked p (events t' past)) : t = t' := by
  obtain ⟨c',hc',rfl,-⟩ := System.Reach.passed hc hs
  have hlock := (locks_iff hc' t p).mpr h
  rw [(locks_iff hc' t' p).mpr h'] at hlock
  exact (Option.some.inj hlock).symm

/-- A list is stored by a call that has the lock, has read the list and has not stored one yet. -/
theorem listing_cases (hc : Run S c) {r : Except UpdateError Unit}
    (hs : .op t q (.storageUpdate u (groupsKey p) payload) r :: past <:+ c.state.history) :
    Locked p (events t past) ∧ (∀ u p, ¬Listed u p (events t past)) ∧
      ∃ list, Found S u p list (events t past) ∧
      ((∃ request, ∃ i : String, q.call = .start request ∧ u = request.userId ∧ p = request.protocolName ∧
          (⟨.newInstanceId,i⟩ : Event Op Res) ∈ events t past ∧ Spawned (events t past) ∧
          payload = S.listOfString.encode (list ++ [i])) ∨
        ∃ i, q.call = .stop i ∧ Owner S i u (events t past) ∧ Running i u p (events t past) ∧
          payload = S.listOfString.encode (list.filter fun x => x ≠ i)) := by
  have hstores : Stores S q (events t past) u (groupsKey p) payload := orderly_op hc hs
  unfold Stores at hstores
  cases hq : q.call with
  | start request =>
    rw [hq] at hstores
    obtain ⟨i,hi,hlocked,hrecords⟩ := hstores
    generalize hk : groupsKey p = k at hrecords
    cases hrecords with
    | user => exact absurd hk.symm (instanceUserKey_ne i p)
    | started started => exact absurd hk.symm (instanceKey_ne i _ p)
    | protocolName => exact absurd hk.symm (instanceKey_ne i _ p)
    | list found spawned first =>
      obtain rfl := groupsKey_inj.mp hk
      exact ⟨hlocked,first,_,found,.inl ⟨request,i,rfl,rfl,rfl,hi,spawned,rfl⟩⟩
  | stop i =>
    rw [hq] at hstores
    obtain ⟨p',list,hlocked,howner,hrunning,hfound,hfirst,hk,rfl⟩ := hstores
    obtain rfl := groupsKey_inj.mp hk
    exact ⟨hlocked,hfirst,list,hfound,.inr ⟨i,rfl,howner,hrunning,rfl⟩⟩

theorem payloadAt_eq_some {a : Action Op Res Request} {k : String} :
    payloadAt u k a = some payload ↔ ∃ t q r, a = .op t q (.storageUpdate u k payload) r := by
  constructor
  · intro h
    unfold payloadAt at h
    split at h
    · split_ifs at h with he
      obtain ⟨rfl,rfl⟩ := he
      obtain rfl := Option.some.inj h
      exact ⟨_,_,_,rfl⟩
    · cases h
  · rintro ⟨t,q,r,rfl⟩
    simp [payloadAt]

/-- While a call has the lock and has not stored a list, the lists stay as they are. -/
theorem running_since (hc : Run S c) (hpast : past <:+ c.state.history) {before : History}
    (hs : .op t q o r :: before <:+ past) (hbefore : Locked p (events t before))
    (hlocked : Locked p (events t past)) (hfirst : ∀ u p, ¬Listed u p (events t past)) (u : String) :
    running S past u p = running S before u p := by
  obtain ⟨later,rfl⟩ := hs
  have hnone : ∀ a ∈ later ++ [.op t q o r], payloadAt u (groupsKey p) a = none := by
    intro a ha
    by_contra hsome
    obtain ⟨payload,hpayload⟩ := Option.ne_none_iff_exists'.mp hsome
    obtain ⟨t',q',r',rfl⟩ := payloadAt_eq_some.mp hpayload
    obtain ⟨front,rest,hsplit⟩ := List.append_of_mem ha
    have heq : later ++ .op t q o r :: before =
        front ++ .op t' q' (.storageUpdate u (groupsKey p) payload) r' :: (rest ++ before) := by
      rw [List.append_cons,hsplit]
      simp
    have hmem : ⟨.storageUpdate u (groupsKey p) payload,r'⟩ ∈
        events t' (later ++ .op t q o r :: before) := by
      rw [heq]
      exact mem_events.mpr ⟨q',by simp⟩
    have hsuffix : .op t' q' (.storageUpdate u (groupsKey p) payload) r' :: (rest ++ before) <:+
        c.state.history := (List.suffix_append front _).trans (by rwa [heq] at hpast)
    have hheld : Locked p (events t (rest ++ before)) := by
      refine ⟨by rw [events_append]; exact List.mem_append_right _ hbefore.1,fun r hm => ?_⟩
      refine hlocked.2 r ?_
      obtain ⟨q'',hm⟩ := mem_events.mp hm
      rw [heq]
      exact mem_events.mpr ⟨q'',List.mem_append_right _ (List.mem_cons_of_mem _ hm)⟩
    obtain rfl := exclusive hc ((List.suffix_cons _ _).trans hsuffix) hheld
      (listing_cases hc hsuffix).1
    exact hfirst u p ⟨payload,r',hmem⟩
  have hwritten : written (later ++ .op t q o r :: before) u (groupsKey p) =
      written before u (groupsKey p) := by
    rw [List.append_cons,written,List.findSome?_append,List.findSome?_eq_none_iff.mpr hnone]
    rfl
  rw [running,running,hwritten]

theorem stored_before (hc : Run S c) (hs : .op t q o r :: past <:+ c.state.history) :
    ∃ s x, s.history = past ∧ exec t s o r x ∧
      (∀ u p, s.shared.before u (groupsKey p) = none) ∧
      ∀ i, s.shared.before S.hostId (instanceUserKey i) = none ∧
        ∀ u field, s.shared.before u (instanceKey i field) = none := by
  obtain ⟨c₀,c₁,hc₀,hpast,hstep,-⟩ := System.Reach.before hc hs
  cases hstep with
  | op runs does => exact ⟨c₀.state,_,hpast,does,clean_run hc₀⟩

/-- The list that a call has found while it has the lock is the current one. -/
theorem found_eq (hc : Run S c) (hpast : past <:+ c.state.history)
    (hlocked : Locked p (events t past)) (hfirst : ∀ u p, ¬Listed u p (events t past))
    {list : List String} (hfound : Found S u p list (events t past)) :
    list = running S past u p := by
  rcases hfound with ⟨hcontains,rfl⟩ | ⟨payload,hread,hdecode⟩
  · obtain ⟨q,hm⟩ := mem_events.mp hcontains
    obtain ⟨before,hs⟩ := suffix_of_mem hm
    have hheld : Locked p (events t before) := orderly_op hc (hs.trans hpast) p rfl
    obtain ⟨s,x,rfl,hexec,hclean,-⟩ := stored_before hc (hs.trans hpast)
    have hnone : written s.history u (groupsKey p) = none := by
      have hstored := Option.isSome_eq_false_iff.mp hexec.1.symm
      rw [stored,hclean,Option.or_none] at hstored
      exact Option.isNone_iff_eq_none.mp hstored
    rw [running_since hc hpast hs hheld hlocked hfirst,running,hnone]
    rfl
  · obtain ⟨q,hm⟩ := mem_events.mp hread
    obtain ⟨before,hs⟩ := suffix_of_mem hm
    have hheld : Locked p (events t before) := (orderly_op hc (hs.trans hpast) p rfl).1
    obtain ⟨s,x,rfl,hexec,hclean,-⟩ := stored_before hc (hs.trans hpast)
    have hsome := (hexec.1 payload).mp rfl
    rw [stored,hclean,Option.or_none] at hsome
    rw [running_since hc hpast hs hheld hlocked hfirst,running,hsome,Option.bind_some,hdecode]
    rfl

theorem written_eq_some {k : String} (h : written past u k = some payload) :
    ∃ t q r before, .op t q (.storageUpdate u k payload) r :: before <:+ past := by
  obtain ⟨a,ha,hpayload⟩ := List.exists_of_findSome?_eq_some h
  obtain ⟨t,q,r,rfl⟩ := payloadAt_eq_some.mp hpayload
  obtain ⟨before,hs⟩ := suffix_of_mem ha
  exact ⟨t,q,r,before,hs⟩

theorem instanceKey_inj {i' field field' : String} (hf : ':' ∉ field.toList)
    (hf' : ':' ∉ field'.toList) (h : instanceKey i field = instanceKey i' field') :
    i = i' ∧ field = field' := by
  have hkey (i field : String) : ("protocol_operator_instances:" ++ i ++ ":" ++ field).toList =
      ("protocol_operator_instances:" ++ i).toList ++ ':' :: field.toList := by
    rw [String.toList_append,String.toList_append,List.append_assoc]
    rfl
  have hh := congrArg String.toList ((String.append_right_inj _).mp h)
  rw [hkey,hkey,SeparatedText.last_sep_inj hf hf',String.toList_inj,String.toList_inj] at hh
  exact ⟨(String.append_right_inj _).mp hh.1,hh.2⟩

theorem instanceUserKey_inj {i' : String} (h : instanceUserKey i = instanceUserKey i') : i = i' :=
  (String.append_right_inj _).mp h

theorem instanceUserKey_head (i : String) : (instanceUserKey i).toList.head? = some 'p' := by
  unfold instanceUserKey
  rw [String.toList_append]
  rfl

theorem instanceKey_head (i field : String) : (instanceKey i field).toList.head? = some '_' := by
  unfold instanceKey
  rw [String.toList_append]
  rfl

theorem instanceUserKey_ne_instanceKey (i i' field : String) :
    instanceUserKey i ≠ instanceKey i' field := by
  intro h
  have hu := instanceUserKey_head i
  rw [h,instanceKey_head] at hu
  cases hu

theorem same_request (hc : Run S c) (hpast : past <:+ c.state.history) {q' : Request} {o' : Op}
    {r' : Res o'} (h : .op t q o r ∈ past) (h' : .op t q' o' r' ∈ past) : q = q' :=
  System.Reach.same_request hc (hpast.subset h) (hpast.subset h')

/-- A record of an instance is made by the call that starts the instance. -/
theorem record_cases (hc : Run S c) {k : String} {r : Except UpdateError Unit}
    (hs : .op t q (.storageUpdate u k payload) r :: past <:+ c.state.history)
    (hk : ∀ p, k ≠ groupsKey p) : ∃ request i, StartedBy past t q request i ∧
      Records S request i (events t past) u k payload := by
  have hstores : Stores S q (events t past) u k payload := orderly_op hc hs
  unfold Stores at hstores
  cases hq : q.call with
  | start request =>
    rw [hq] at hstores
    obtain ⟨i,hi,hlocked,hrecords⟩ := hstores
    obtain ⟨q',hi⟩ := mem_events.mp hi
    obtain ⟨q'',hl⟩ := mem_events.mp hlocked.1
    have hmem : Action.op t q (.storageUpdate u k payload) r ∈
        .op t q (.storageUpdate u k payload) r :: past := List.mem_cons_self ..
    obtain rfl := same_request hc hs hmem (List.mem_cons_of_mem _ hi)
    obtain rfl := same_request hc hs hmem (List.mem_cons_of_mem _ hl)
    exact ⟨request,i,⟨hq,hi,hl⟩,hrecords⟩
  | stop i =>
    rw [hq] at hstores
    obtain ⟨p,list,-,-,-,-,-,rfl,-⟩ := hstores
    exact absurd rfl (hk p)

/-- Whose instance it is has been recorded by the call that starts it. -/
theorem started_of_owner (hc : Run S c) (hpast : past <:+ c.state.history)
    (h : Owner S i u (events t past)) :
    ∃ t' q request, StartedBy past t' q request i ∧ request.userId = u := by
  obtain ⟨payload,hread,hu⟩ := h
  obtain ⟨q,hm⟩ := mem_events.mp hread
  obtain ⟨before,hs⟩ := suffix_of_mem hm
  obtain ⟨s,x,rfl,hexec,-,hclean⟩ := stored_before hc (hs.trans hpast)
  have hsome := (hexec.1 payload).mp rfl
  rw [stored,(hclean i).1,Option.or_none] at hsome
  obtain ⟨t',q',r,before',hs'⟩ := written_eq_some hsome
  have hbefore := ((List.suffix_cons _ _).trans hs)
  obtain ⟨request,i',hstarted,hrecords⟩ :=
    record_cases hc (hs'.trans (hbefore.trans hpast)) (instanceUserKey_ne i)
  have hsub := (((List.suffix_cons _ _).trans hs').trans hbefore).subset
  generalize hk : instanceUserKey i = k at hrecords
  generalize hhost : S.hostId = host at hrecords
  cases hrecords with
  | user =>
    obtain rfl := instanceUserKey_inj hk
    rw [stringOfBytes_stringBytes] at hu
    exact ⟨t',q',request,⟨hstarted.1,hsub hstarted.2.1,hsub hstarted.2.2⟩,Option.some.inj hu⟩
  | started started => exact absurd hk (instanceUserKey_ne_instanceKey _ _ _)
  | protocolName => exact absurd hk (instanceUserKey_ne_instanceKey _ _ _)
  | list => exact absurd hk (instanceUserKey_ne _ _)

/-- So has been which protocol it runs. -/
theorem started_of_running (hc : Run S c) (hpast : past <:+ c.state.history)
    (h : Running i u p (events t past)) : ∃ t' q request, StartedBy past t' q request i ∧
      request.userId = u ∧ request.protocolName = p := by
  obtain ⟨payload,hread,hp⟩ := h
  obtain ⟨q,hm⟩ := mem_events.mp hread
  obtain ⟨before,hs⟩ := suffix_of_mem hm
  obtain ⟨s,x,rfl,hexec,-,hclean⟩ := stored_before hc (hs.trans hpast)
  have hsome := (hexec.1 payload).mp rfl
  rw [stored,(hclean i).2,Option.or_none] at hsome
  obtain ⟨t',q',r,before',hs'⟩ := written_eq_some hsome
  have hbefore := ((List.suffix_cons _ _).trans hs)
  obtain ⟨request,i',hstarted,hrecords⟩ :=
    record_cases hc (hs'.trans (hbefore.trans hpast)) (instanceKey_ne i _)
  have hsub := (((List.suffix_cons _ _).trans hs').trans hbefore).subset
  generalize hk : instanceKey i "protocol_name" = k at hrecords
  cases hrecords with
  | user => exact absurd hk.symm (instanceUserKey_ne_instanceKey _ _ _)
  | started started =>
    have hfield : "protocol_name" ≠ started.key ∧ ':' ∉ started.key.toList := by
      cases started <;> simp [Instance.key]
    exact absurd (instanceKey_inj (by decide) hfield.2 hk).2 hfield.1
  | protocolName =>
    obtain ⟨rfl,-⟩ := instanceKey_inj (by decide) (by decide) hk
    rw [stringOfBytes_stringBytes] at hp
    exact ⟨t',q',request,⟨hstarted.1,hsub hstarted.2.1,hsub hstarted.2.2⟩,rfl,Option.some.inj hp⟩
  | list => exact absurd hk (instanceKey_ne _ _ _)

theorem id_unique (hc : Run S c) {q' : Request} {i' : String}
    (h : .op t q .newInstanceId i ∈ c.state.history)
    (h' : .op t q' .newInstanceId i' ∈ c.state.history) : i = i' := by
  have hlater {j j' : String} {q q' : Request} {past : History}
      (hs : .op t q .newInstanceId j :: past <:+ c.state.history)
      (hm : .op t q' .newInstanceId j' ∈ past) : False :=
    orderly_op hc hs j' (mem_events.mpr ⟨q',hm⟩)
  rcases before_or_after h h' with he | ⟨past,hs,hm⟩ | ⟨past,hs,hm⟩
  · exact (Action.op.inj he).2.2.2 |> eq_of_heq
  · exact (hlater hs hm).elim
  · exact (hlater hs hm).elim

theorem startedBy_unique (hc : Run S c) (hfresh : FreshIds c.state.history)
    {h h' : History} (hh : h <:+ c.state.history) (hh' : h' <:+ c.state.history) {q' : Request}
    {request request' : StartProtocolOperatorRequest} (hs : StartedBy h t q request i)
    (hs' : StartedBy h' t' q' request' i) : t = t' ∧ q = q' ∧ request = request' := by
  obtain rfl := hfresh t t' q q' i (hh.subset hs.2.1) (hh'.subset hs'.2.1)
  obtain rfl := System.Reach.same_request hc (hh.subset hs.2.1) (hh'.subset hs'.2.1)
  exact ⟨rfl,rfl,OperatorCall.start.inj (hs.1.symm.trans hs'.1)⟩

theorem StartedBy.mono {h h' : History} (hs : h <:+ h') {request : StartProtocolOperatorRequest}
    (h : StartedBy h t q request i) : StartedBy h' t q request i :=
  ⟨h.1,hs.subset h.2.1,hs.subset h.2.2⟩

theorem listing_step (hc : Run S c) {r : Except UpdateError Unit}
    (hs : .op t q (.storageUpdate u (groupsKey p) payload) r :: past <:+ c.state.history) :
    Locked p (events t past) ∧ (∀ u p, ¬Listed u p (events t past)) ∧
      ((∃ request i, StartedBy past t q request i ∧ u = request.userId ∧ p = request.protocolName ∧
          Spawned (events t past) ∧
          payload = S.listOfString.encode (running S past u p ++ [i])) ∨
        ∃ i, q.call = .stop i ∧ Owner S i u (events t past) ∧ Running i u p (events t past) ∧
          payload = S.listOfString.encode ((running S past u p).filter fun x => x ≠ i)) := by
  have hpast := (List.suffix_cons _ _).trans hs
  obtain ⟨hlocked,hfirst,list,hfound,hcases⟩ := listing_cases hc hs
  obtain rfl := found_eq hc hpast hlocked hfirst hfound
  refine ⟨hlocked,hfirst,hcases.imp_left ?_⟩
  rintro ⟨request,i,hq,rfl,rfl,hi,hspawned,rfl⟩
  obtain ⟨q',hi⟩ := mem_events.mp hi
  obtain ⟨q'',hl⟩ := mem_events.mp hlocked.1
  obtain rfl := same_request hc hs (List.mem_cons_self ..) (List.mem_cons_of_mem _ hi)
  obtain rfl := same_request hc hs (List.mem_cons_self ..) (List.mem_cons_of_mem _ hl)
  exact ⟨request,i,⟨hq,hi,hl⟩,rfl,rfl,hspawned,rfl⟩

/-- An instance is not taken off a list before the call that starts it has stored the list. -/
theorem not_removed_of_starting (hc : Run S c) (hfresh : FreshIds c.state.history)
    (hpast : past <:+ c.state.history) {request : StartProtocolOperatorRequest}
    (hstarted : StartedBy past t q request i)
    (hlocked : Locked request.protocolName (events t past)) (u : String) :
    ¬Removed past u request.protocolName i := by
  rintro ⟨t',q',payload,r,hq',hm⟩
  obtain ⟨before,hs⟩ := suffix_of_mem hm
  have hbefore := ((List.suffix_cons _ _).trans hs)
  obtain ⟨hheld,-,⟨request',i',hstarted',-⟩ | ⟨i',hq'',howner,-⟩⟩ := listing_step hc (hs.trans hpast)
  · rw [hstarted'.1] at hq'
    cases hq'
  · obtain rfl := OperatorCall.stop.inj (hq'.symm.trans hq'')
    obtain ⟨t'',q'',request'',hstarted'',-⟩ := started_of_owner hc (hbefore.trans hpast) howner
    obtain ⟨rfl,rfl,rfl⟩ := startedBy_unique hc hfresh hpast (hbefore.trans hpast) hstarted hstarted''
    have hheld' : Locked request.protocolName (events t before) := by
      refine ⟨mem_events.mpr ⟨q,hstarted''.2.2⟩,fun r hm => hlocked.2 r ?_⟩
      obtain ⟨q₁,hm⟩ := mem_events.mp hm
      exact mem_events.mpr ⟨q₁,hbefore.subset hm⟩
    obtain rfl := exclusive hc (hbefore.trans hpast) hheld' hheld
    obtain rfl := same_request hc hpast hstarted.2.1 hm
    rw [hstarted.1] at hq'
    cases hq'

theorem startedBy_of_listing (hc : Run S c) {r : Except UpdateError Unit}
    {request : StartProtocolOperatorRequest} (hq : q.call = .start request)
    (hs : .op t q (.storageUpdate u (groupsKey p) payload) r :: past <:+ c.state.history)
    (hi : .op t q .newInstanceId i ∈ c.state.history) :
    StartedBy past t q request i ∧ running S (.op t q (.storageUpdate u (groupsKey p) payload) r ::
      past) u p = running S past u p ++ [i] := by
  obtain ⟨-,-,⟨request',i',hstarted,rfl,rfl,-,rfl⟩ | ⟨i',hq',-⟩⟩ := listing_step hc hs
  · obtain rfl := OperatorCall.start.inj (hq.symm.trans hstarted.1)
    obtain rfl := id_unique hc hi (hs.subset (List.mem_cons_of_mem _ hstarted.2.1))
    exact ⟨hstarted,by simp [running,written,payloadAt]⟩
  · rw [hq] at hq'
    cases hq'

theorem appended_cons_none (hc : Run S c) {a : Action Op Res Request}
    (hs : a :: past <:+ c.state.history) (ha : payloadAt u (groupsKey p) a = none) :
    Appended (a :: past) u p i ↔ Appended past u p i := by
  constructor
  · rintro ⟨t,q,request,payload,r,hstarted,hm⟩
    rcases List.mem_cons.mp hm with rfl | hm
    · simp [payloadAt] at ha
    · obtain ⟨before,hs'⟩ := suffix_of_mem hm
      have hbefore := (startedBy_of_listing hc hstarted.1
        (hs'.trans ((List.suffix_cons _ _).trans hs)) (hs.subset hstarted.2.1)).1
      exact ⟨t,q,request,payload,r,hbefore.mono ((List.suffix_cons _ _).trans hs'),hm⟩
  · rintro ⟨t,q,request,payload,r,hstarted,hm⟩
    exact ⟨t,q,request,payload,r,hstarted.mono (List.suffix_cons _ _),List.mem_cons_of_mem _ hm⟩

theorem appended_cons_self (hc : Run S c) {r : Res (.storageUpdate u (groupsKey p) payload)}
    (hs : .op t q (.storageUpdate u (groupsKey p) payload) r :: past <:+ c.state.history) :
    Appended (.op t q (.storageUpdate u (groupsKey p) payload) r :: past) u p i ↔
      Appended past u p i ∨ ∃ request, q.call = .start request ∧ .op t q .newInstanceId i ∈ past := by
  constructor
  · rintro ⟨t',q',request,payload',r',hstarted,hm⟩
    rcases List.mem_cons.mp hm with he | hm
    · obtain ⟨rfl,rfl,-⟩ := Action.op.inj he
      exact .inr ⟨request,hstarted.1,
        (startedBy_of_listing hc hstarted.1 hs (hs.subset hstarted.2.1)).1.2.1⟩
    · obtain ⟨before,hs'⟩ := suffix_of_mem hm
      have hbefore := (startedBy_of_listing hc hstarted.1
        (hs'.trans ((List.suffix_cons _ _).trans hs)) (hs.subset hstarted.2.1)).1
      exact .inl ⟨t',q',request,payload',r',hbefore.mono ((List.suffix_cons _ _).trans hs'),hm⟩
  · rintro (⟨t',q',request,payload',r',hstarted,hm⟩ | ⟨request,hq,hi⟩)
    · exact ⟨t',q',request,payload',r',hstarted.mono (List.suffix_cons _ _),List.mem_cons_of_mem _ hm⟩
    · have hstarted := (startedBy_of_listing hc hq hs (hs.subset (List.mem_cons_of_mem _ hi))).1
      exact ⟨t,q,request,payload,r,hstarted.mono (List.suffix_cons _ _),List.mem_cons_self ..⟩

theorem removed_cons_none {a : Action Op Res Request} (ha : payloadAt u (groupsKey p) a = none) :
    Removed (a :: past) u p i ↔ Removed past u p i := by
  constructor
  · rintro ⟨t,q,payload,r,hq,hm⟩
    rcases List.mem_cons.mp hm with rfl | hm
    · simp [payloadAt] at ha
    · exact ⟨t,q,payload,r,hq,hm⟩
  · rintro ⟨t,q,payload,r,hq,hm⟩
    exact ⟨t,q,payload,r,hq,List.mem_cons_of_mem _ hm⟩

theorem removed_cons_self {r : Res (.storageUpdate u (groupsKey p) payload)} :
    Removed (.op t q (.storageUpdate u (groupsKey p) payload) r :: past) u p i ↔
      Removed past u p i ∨ q.call = .stop i := by
  constructor
  · rintro ⟨t',q',payload',r',hq,hm⟩
    rcases List.mem_cons.mp hm with he | hm
    · obtain ⟨-,rfl,-⟩ := Action.op.inj he
      exact .inr hq
    · exact .inl ⟨t',q',payload',r',hq,hm⟩
  · rintro (⟨t',q',payload',r',hq,hm⟩ | hq)
    · exact ⟨t',q',payload',r',hq,List.mem_cons_of_mem _ hm⟩
    · exact ⟨t,q,payload,r,hq,List.mem_cons_self ..⟩

/-- A list has the instances that have been put on it and not been taken off it. -/
theorem running_spec (hc : Run S c) (hfresh : FreshIds c.state.history)
    (hpast : past <:+ c.state.history) (u p : String) : (running S past u p).Nodup ∧
      ∀ i, i ∈ running S past u p ↔ Appended past u p i ∧ ¬Removed past u p i := by
  induction past with
  | nil =>
    refine ⟨List.nodup_nil,fun i => ⟨fun h => absurd h List.not_mem_nil,fun h => ?_⟩⟩
    obtain ⟨⟨t,q,request,payload,r,-,hm⟩,-⟩ := h
    cases hm
  | cons a past ih =>
    have hbefore := (List.suffix_cons _ _).trans hpast
    obtain ⟨hnodup,hmem⟩ := ih hbefore
    cases ha : payloadAt u (groupsKey p) a with
    | none =>
      rw [running_of_no_payload ha]
      refine ⟨hnodup,fun i => ?_⟩
      rw [hmem i,appended_cons_none hc hpast ha,removed_cons_none ha]
    | some payload =>
      obtain ⟨t,q,r,rfl⟩ := payloadAt_eq_some.mp ha
      obtain ⟨hlocked,hfirst,⟨request,i,hstarted,rfl,rfl,hspawned,rfl⟩ | ⟨i,hq,howner,hrunning,rfl⟩⟩ :=
        listing_step hc hpast
      · rw [(startedBy_of_listing hc hstarted.1 hpast (hbefore.subset hstarted.2.1)).2]
        have hnew : ¬Appended past request.userId request.protocolName i := by
          rintro ⟨t',q',request',payload,r',hstarted',hm⟩
          obtain ⟨rfl,-,-⟩ := startedBy_unique hc hfresh hbefore hbefore hstarted hstarted'
          exact hfirst _ _ ⟨payload,r',mem_events.mpr ⟨q',hm⟩⟩
        have hkept := not_removed_of_starting hc hfresh hbefore hstarted hlocked request.userId
        refine ⟨List.concat_eq_append ▸ hnodup.concat fun h => hnew ((hmem i).mp h).1,fun j => ?_⟩
        have hid : (∃ request', q.call = .start request' ∧ .op t q .newInstanceId j ∈ past) ↔ j = i :=
          ⟨fun ⟨_,_,hj⟩ => id_unique hc (hbefore.subset hj) (hbefore.subset hstarted.2.1),
            fun he => ⟨request,hstarted.1,he ▸ hstarted.2.1⟩⟩
        have hstop : q.call ≠ .stop j := by simp [hstarted.1]
        have happended := (appended_cons_self hc hpast).trans (or_congr_right hid)
        have hremoved := (@removed_cons_self t q past request.protocolName request.userId j _ r).trans
          (or_iff_left hstop)
        rw [List.mem_append,List.mem_singleton,hmem j,happended,hremoved]
        constructor
        · rintro (⟨happ,hrem⟩ | rfl)
          · exact ⟨.inl happ,hrem⟩
          · exact ⟨.inr rfl,hkept⟩
        · rintro ⟨happ | he,hrem⟩
          · exact .inl ⟨happ,hrem⟩
          · exact .inr he
      · have hafter : running S (.op t q (.storageUpdate u (groupsKey p) (S.listOfString.encode
            ((running S past u p).filter fun x => x ≠ i))) r :: past) u p =
            (running S past u p).filter fun x => x ≠ i := by
          simp [running,written,payloadAt]
        rw [hafter]
        refine ⟨hnodup.filter _,fun j => ?_⟩
        have hstart : ¬∃ request, q.call = .start request ∧ .op t q .newInstanceId j ∈ past := by
          simp [hq]
        have hstop : q.call = .stop j ↔ j = i := by
          rw [hq,OperatorCall.stop.injEq,eq_comm]
        have happended := (appended_cons_self hc hpast).trans (or_iff_left hstart)
        have hremoved := (@removed_cons_self t q past p u j _ r).trans (or_congr_right hstop)
        rw [List.mem_filter,hmem j,happended,hremoved,decide_eq_true_eq,not_or,and_assoc]

theorem spawned_mono {h h' : Past} (hs : h <:+ h') (h₀ : Spawned h) : Spawned h' := by
  obtain ⟨name,jwt,vt,addr,started,hm⟩ := h₀
  exact ⟨name,jwt,vt,addr,started,hs.subset hm⟩

theorem unlocked_of_free (hc : Run S c) (hfree : c.state.shared.locks p = none)
    (hlock : ⟨.lockExclusive p,()⟩ ∈ events t c.state.history) :
    ∃ r, ⟨.unlock p,r⟩ ∈ events t c.state.history := by
  by_contra hnot
  have hlocked : Locked p (events t c.state.history) := ⟨hlock,fun r hm => hnot ⟨r,hm⟩⟩
  rw [← locks_iff hc,hfree] at hlocked
  cases hlocked

theorem started_of_appended (hc : Run S c) (hfree : c.state.shared.locks p = none)
    (h : Appended c.state.history u p i) : Started c.state.history u p i := by
  obtain ⟨t,q,request,payload,r,hstarted,hm⟩ := h
  obtain ⟨before,hs⟩ := suffix_of_mem hm
  have hbefore := (List.suffix_cons _ _).trans hs
  obtain ⟨hlocked,-,⟨request',i',hstarted',rfl,rfl,hspawned,-⟩ | ⟨i',hq,-⟩⟩ := listing_step hc hs
  · obtain rfl := OperatorCall.start.inj (hstarted.1.symm.trans hstarted'.1)
    obtain ⟨r',hunlock⟩ := unlocked_of_free hc hfree
      ((events_mono hbefore t).subset hlocked.1)
    obtain ⟨q',hunlock⟩ := mem_events.mp hunlock
    obtain rfl := System.Reach.same_request hc hm hunlock
    obtain ⟨past,hs'⟩ := suffix_of_mem hunlock
    refine ⟨t,q,request,r',past,hstarted.1,rfl,rfl,hstarted.2.1,hs',?_⟩
    rcases List.suffix_or_suffix_of_suffix hs hs' with hle | hle
    · rcases List.suffix_cons_iff.mp hle with he | hle
      · cases (Action.op.inj (List.cons.inj he).1).2.2.1
      · exact spawned_mono (events_mono ((List.suffix_cons _ _).trans hle) t) hspawned
    · rcases List.suffix_cons_iff.mp hle with he | hle
      · cases (Action.op.inj (List.cons.inj he).1).2.2.1
      · exact absurd (mem_events.mpr ⟨q,hle.subset (List.mem_cons_self ..)⟩) (hlocked.2 r')
  · rw [hstarted.1] at hq
    cases hq

theorem appended_of_started (hc : Run S c) (hstorage : StorageSucceeds c.state.history)
    (h : Started c.state.history u p i) : Appended c.state.history u p i := by
  obtain ⟨t,q,request,r,past,hq,rfl,rfl,hi,hs,hspawned⟩ := h
  obtain ⟨-,hdone⟩ := orderly_op hc hs
  unfold Done at hdone
  rw [hq] at hdone
  have hmem {o : Op} {r : Res o} (hm : ⟨o,r⟩ ∈ events t past) : ∃ q, .op t q o r ∈ c.state.history := by
    obtain ⟨q,hm⟩ := mem_events.mp hm
    exact ⟨q,hs.subset (List.mem_cons_of_mem _ hm)⟩
  rcases hdone.2 hspawned with ⟨payload,r',hlisted⟩ | ⟨u,k,payload,e,hfailed⟩
  · obtain ⟨q',hm⟩ := hmem hlisted
    obtain rfl := System.Reach.same_request hc hi hm
    obtain ⟨before,hs'⟩ := suffix_of_mem hm
    have hstarted := (startedBy_of_listing hc hq hs' hi).1
    exact ⟨t,q,request,payload,r',hstarted.mono ((List.suffix_cons _ _).trans hs'),hm⟩
  · obtain ⟨q',hm⟩ := hmem hfailed
    cases hstorage _ _ _ _ _ _ hm

theorem stopped_of_removed (hc : Run S c) (hfree : c.state.shared.locks p = none)
    (h : Removed c.state.history u p i) : Stopped c.state.history i := by
  obtain ⟨t,q,payload,r,hq,hm⟩ := h
  obtain ⟨before,hs⟩ := suffix_of_mem hm
  obtain ⟨r',hunlock⟩ := unlocked_of_free hc hfree
    ((events_mono ((List.suffix_cons _ _).trans hs) t).subset (listing_step hc hs).1.1)
  obtain ⟨q',hunlock⟩ := mem_events.mp hunlock
  obtain rfl := System.Reach.same_request hc hm hunlock
  exact ⟨t,q,p,r',hq,hunlock⟩

theorem stored_list (hc : Run S c) (hpast : past <:+ c.state.history) {r : Except UpdateError Unit}
    (h : .op t q (.storageUpdate u (groupsKey p) payload) r ∈ past) :
    ∃ payload', written past u (groupsKey p) = some payload' ∧
      S.listOfString.decode payload' ≠ none := by
  obtain ⟨payload',hwritten⟩ : ∃ payload', written past u (groupsKey p) = some payload' := by
    refine Option.isSome_iff_exists.mp (List.findSome?_isSome_iff.mpr ⟨_,h,?_⟩)
    rw [payloadAt_eq_some.mpr ⟨t,q,r,rfl⟩]
    rfl
  refine ⟨payload',hwritten,?_⟩
  obtain ⟨t',q',r',before,hs⟩ := written_eq_some hwritten
  obtain ⟨-,-,⟨request,i,-,-,-,-,rfl⟩ | ⟨i,-,-,-,rfl⟩⟩ := listing_step hc (hs.trans hpast) <;> simp

/-- A call that stops an instance finds the list that the call has stored that starts it. -/
theorem removed_of_stopped (hc : Run S c) (hfresh : FreshIds c.state.history)
    (happended : Appended c.state.history u p i) (h : Stopped c.state.history i) :
    Removed c.state.history u p i := by
  obtain ⟨t,q,p',r,hq,hm⟩ := h
  obtain ⟨past,hs⟩ := suffix_of_mem hm
  have hpast := (List.suffix_cons _ _).trans hs
  obtain ⟨hlocked,hdone⟩ := orderly_op hc hs
  unfold Done at hdone
  rw [hq] at hdone
  obtain ⟨u',howner,hrunning,hdone⟩ := hdone
  obtain ⟨t₁,q₁,request,payload,r₁,hstarted,hlisted⟩ := happended
  obtain ⟨b₁,hs₁⟩ := suffix_of_mem hlisted
  obtain ⟨hlocked₁,-,⟨request',i',hstarted',rfl,rfl,-⟩ | ⟨i',hq',-⟩⟩ := listing_step hc hs₁
  · obtain rfl := OperatorCall.start.inj (hstarted.1.symm.trans hstarted'.1)
    obtain ⟨t₂,q₂,request₂,hstarted₂,rfl,rfl⟩ := started_of_running hc hpast hrunning
    obtain ⟨rfl,rfl,rfl⟩ := startedBy_unique hc hfresh List.suffix_rfl hpast hstarted hstarted₂
    rcases hdone with ⟨payload',r',hm'⟩ | ⟨r',hread,hfailed⟩
    · obtain ⟨q',hm'⟩ := mem_events.mp hm'
      obtain rfl := System.Reach.same_request hc hm (hpast.subset hm')
      exact ⟨t,q,payload',r',hq,hpast.subset hm'⟩
    · obtain ⟨q',hread⟩ := mem_events.mp hread
      obtain ⟨before,hs'⟩ := suffix_of_mem hread
      have hbefore := ((List.suffix_cons _ _).trans hs').trans hpast
      obtain ⟨hheld,hknown⟩ := orderly_op hc (hs'.trans hpast) request.protocolName rfl
      obtain rfl := System.Reach.same_request hc hm (hpast.subset hread)
      obtain ⟨t₃,q₃,request₃,hstarted₃,-,-⟩ := started_of_running hc hbefore (hknown i hq).2
      obtain ⟨rfl,rfl,rfl⟩ := startedBy_unique hc hfresh List.suffix_rfl hbefore hstarted hstarted₃
      have hreleased : ∃ r, ⟨.unlock request.protocolName,r⟩ ∈ events t₁ before := by
        by_contra hnot
        obtain rfl := exclusive hc hbefore hheld
          ⟨mem_events.mpr ⟨q₁,hstarted₃.2.2⟩,fun r hm => hnot ⟨r,hm⟩⟩
        rw [System.Reach.same_request hc hm hlisted,hstarted.1] at hq
        cases hq
      have hin : .op t₁ q₁ (.storageUpdate request.userId (groupsKey request.protocolName) payload) r₁ ∈
          before := by
        rcases List.suffix_or_suffix_of_suffix hs₁ hbefore with hle | hle
        · exact hle.subset (List.mem_cons_self ..)
        · rcases List.suffix_cons_iff.mp hle with he | hle
          · rw [he]
            exact List.mem_cons_self ..
          · obtain ⟨r₂,hr₂⟩ := hreleased
            exact absurd ((events_mono hle t₁).subset hr₂) (hlocked₁.2 r₂)
      obtain ⟨payload',hwritten,hdecode⟩ := stored_list hc hbefore hin
      obtain ⟨s,x,rfl,hexec,-,-⟩ := stored_before hc (hs'.trans hpast)
      have hstored : stored s request.userId (groupsKey request.protocolName) = some payload' := by
        rw [stored,hwritten]
        rfl
      exact absurd (hfailed payload' ((hexec.1 payload').mpr hstored)) hdecode
  · rw [hstarted.1] at hq'
    cases hq'

end Runs

/-- Whenever nobody has the lock of a protocol, the list of a user has, each once, the instances that
have been started and not been stopped. -/
theorem running_complete {c : Config Op Res Abort Request String Shared} (hc : Run S c)
    (hfresh : FreshIds c.state.history) (hstorage : StorageSucceeds c.state.history) {p : String}
    (hfree : c.state.shared.locks p = none) (u : String) :
    (running S c.state.history u p).Nodup ∧ ∀ i, i ∈ running S c.state.history u p ↔
      Started c.state.history u p i ∧ ¬Stopped c.state.history i := by
  obtain ⟨hnodup,hmem⟩ := running_spec hc hfresh List.suffix_rfl u p
  refine ⟨hnodup,fun i => ?_⟩
  rw [hmem i]
  constructor
  · rintro ⟨happended,hremoved⟩
    exact ⟨started_of_appended hc hfree happended,
      fun hstopped => hremoved (removed_of_stopped hc hfresh happended hstopped)⟩
  · rintro ⟨hstarted,hstopped⟩
    exact ⟨appended_of_started hc hstorage hstarted,
      fun hremoved => hstopped (stopped_of_removed hc hfree hremoved)⟩

/-- The instance is in the list of its user for its protocol. -/
def Alive (h : History) (i : String) : Prop :=
  ∃ t q request, q.call = .start request ∧ .op t q .newInstanceId i ∈ h ∧
    i ∈ running S h request.userId request.protocolName

/-- A process or a container is killed only while its instance is in the list. -/
def KilledAlive : Action Op Res Request → History → Prop
  | .op _ q (.kill _) _,h => ∀ i, q.call = .stop i → Alive S h i
  | _,_ => True

/-- An instance is killed only while it is in the list, and not after a call has stopped it. -/
structure KilledOnce (c : Config Op Res Abort Request String Shared) : Prop where
  alive : Everywhere (KilledAlive S) c.state.history
  once : ∀ t q killed r past i, .op t q (.kill killed) r :: past <:+ c.state.history →
    q.call = .stop i → ∀ c₀, Run S c₀ → c₀.state.history = past →
      ∀ t' q' a, c₀.threads t' = some (q',.ret a) → q'.call ≠ .stop i

/-- The condition: a call that stops an instance kills it after the call that starts it has stored
the list, and before any call that stops it has. -/
def InTime : Action Op Res Request → History → Prop
  | .op _ q (.kill _) _,h => ∀ i, q.call = .stop i →
      (∃ u p, Appended h u p i) ∧ ∀ u p, ¬Removed h u p i
  | _,_ => True

section Kills

variable {S} {c : Config Op Res Abort Request String Shared} {past : History} {u p i : String}

theorem appended_spec (hc : Run S c) (hpast : past <:+ c.state.history) (h : Appended past u p i) :
    ∃ t q request, StartedBy past t q request i ∧ request.userId = u ∧ request.protocolName = p := by
  obtain ⟨t,q,request,payload,r,hstarted,hm⟩ := h
  obtain ⟨before,hs⟩ := suffix_of_mem hm
  obtain ⟨-,-,⟨request',i',hstarted',rfl,rfl,-⟩ | ⟨i',hq,-⟩⟩ := listing_step hc (hs.trans hpast)
  · obtain rfl := OperatorCall.start.inj (hstarted.1.symm.trans hstarted'.1)
    exact ⟨t,q,request,hstarted,rfl,rfl⟩
  · rw [hstarted.1] at hq
    cases hq

theorem removed_spec (hc : Run S c) (hpast : past <:+ c.state.history) (h : Removed past u p i) :
    ∃ t q request, StartedBy past t q request i ∧ request.userId = u ∧ request.protocolName = p := by
  obtain ⟨t,q,payload,r,hq,hm⟩ := h
  obtain ⟨before,hs⟩ := suffix_of_mem hm
  have hbefore := (List.suffix_cons _ _).trans hs
  obtain ⟨-,-,⟨request,i',hstarted,-⟩ | ⟨i',hq',-,hrunning,-⟩⟩ := listing_step hc (hs.trans hpast)
  · rw [hstarted.1] at hq
    cases hq
  · obtain rfl := OperatorCall.stop.inj (hq.symm.trans hq')
    obtain ⟨t',q',request,hstarted,hu,hp⟩ := started_of_running hc (hbefore.trans hpast) hrunning
    exact ⟨t',q',request,hstarted.mono hbefore,hu,hp⟩

theorem alive_iff (hc : Run S c) (hfresh : FreshIds c.state.history)
    (hpast : past <:+ c.state.history) : Alive S past i ↔
      (∃ u p, Appended past u p i) ∧ ∀ u p, ¬Removed past u p i := by
  constructor
  · rintro ⟨t,q,request,hq,hi,hmem⟩
    obtain ⟨happended,hremoved⟩ := ((running_spec hc hfresh hpast _ _).2 i).mp hmem
    obtain ⟨t₁,q₁,request₁,hstarted₁,hu,hp⟩ := appended_spec hc hpast happended
    refine ⟨⟨_,_,happended⟩,fun u p h => hremoved ?_⟩
    obtain ⟨t₂,q₂,request₂,hstarted₂,rfl,rfl⟩ := removed_spec hc hpast h
    obtain ⟨-,-,rfl⟩ := startedBy_unique hc hfresh hpast hpast hstarted₁ hstarted₂
    rwa [← hu,← hp]
  · rintro ⟨⟨u,p,happended⟩,hremoved⟩
    obtain ⟨t,q,request,hstarted,rfl,rfl⟩ := appended_spec hc hpast happended
    exact ⟨t,q,request,hstarted.1,hstarted.2.1,
      ((running_spec hc hfresh hpast _ _).2 i).mpr ⟨happended,hremoved _ _⟩⟩

theorem killedAlive_iff (hc : Run S c) (hfresh : FreshIds c.state.history)
    {a : Action Op Res Request} (hs : a :: past <:+ c.state.history) :
    KilledAlive S a past ↔ InTime a past := by
  have hpast := (List.suffix_cons _ _).trans hs
  unfold KilledAlive InTime
  split
  · exact forall₂_congr fun i _ => alive_iff hc hfresh hpast
  · simp_all

end Kills

/-- Instances are killed as they have to be exactly if nobody stops an instance that is not in the
list yet or that another call has taken off it. -/
theorem killed_once_iff {c : Config Op Res Abort Request String Shared} (hc : Run S c)
    (hfresh : FreshIds c.state.history) : KilledOnce S c ↔ Everywhere InTime c.state.history := by
  constructor
  · exact fun h => everywhere_iff.mpr fun a past hs =>
      (killedAlive_iff hc hfresh hs).mp (everywhere_iff.mp h.alive a past hs)
  · intro h
    refine ⟨everywhere_iff.mpr fun a past hs =>
      (killedAlive_iff hc hfresh hs).mpr (everywhere_iff.mp h a past hs),?_⟩
    rintro t q killed r past i hs hq c₀ hc₀ rfl t' q' a ht' hq'
    obtain ⟨u,p,-,payload,r',hlisted⟩ :=
      System.Reach.traced_end (r := .ok a) traced_handle hc₀ ht' ⟨a,rfl⟩ i hq'
    obtain ⟨q'',hm⟩ := mem_events.mp hlisted
    obtain rfl := ((System.Reach.history_thread hc₀ t').2 q' _ ht').2 q'' _ _ hm
    exact (everywhere_iff.mp h _ _ hs i hq).2 u p ⟨t',q'',payload,r',hq',hm⟩

def player : Player (system S) Request where
  answer t _ := answer t
  does := exec_of_answer
  serves _ q s := some (q,s.shared)
  begins h := (Prod.mk.inj (Option.some.inj h)).2.symm

/-- Alice starts an operator, and then stops it so many times. -/
def stopping (n : ℕ) : Config Op Res Abort Request String Shared :=
  (player sampleServer).play sampleShared (.start 0 (sampleStart "alice" false) ::
    List.replicate 15 (.step 0) ++ (List.range n).flatMap fun m =>
      .start (m + 1) (sampleStop "alice") :: List.replicate 11 (.step (m + 1)))

/-- The steps at which something is killed, with what has happened before. -/
def kills : History → List (Request × History)
  | [] => []
  | .op _ q (.kill _) _ :: past => (q,past) :: kills past
  | _ :: past => kills past

/-- The calls that have been given an id for a new instance, and the ids. -/
def named : Action Op Res Request → Option (ℕ × String)
  | .op t _ .newInstanceId i => some (t,i)
  | _ => none

def failedUpdates (h : History) : List String := h.filterMap fun a => match a with
  | .op _ _ (.storageUpdate _ k _) (.error _) => some k
  | _ => none

section Samples

variable {S : Server} {h past : History}

theorem mem_kills {q : Request} (hk : (q,past) ∈ kills h) :
    ∃ t killed r, .op t q (.kill killed) r :: past <:+ h := by
  induction h with
  | nil => cases hk
  | cons a h ih =>
    have hrest (hk : (q,past) ∈ kills h) : ∃ t killed r, .op t q (.kill killed) r :: past <:+ a :: h := by
      obtain ⟨t,killed,r,hs⟩ := ih hk
      exact ⟨t,killed,r,hs.trans (List.suffix_cons _ _)⟩
    unfold kills at hk
    split at hk
    · cases hk
    · next he =>
      obtain ⟨rfl,rfl⟩ := List.cons.inj he
      rcases List.mem_cons.mp hk with hk | hk
      · obtain ⟨rfl,rfl⟩ := Prod.mk.inj hk
        exact ⟨_,_,_,List.suffix_rfl⟩
      · exact hrest hk
    · next he =>
      obtain ⟨-,rfl⟩ := List.cons.inj he
      exact hrest hk

theorem kills_of_suffix {t : ℕ} {q : Request} {killed : Instance} {r : Res (.kill killed)}
    (hs : .op t q (.kill killed) r :: past <:+ h) : (q,past) ∈ kills h := by
  induction h with
  | nil => simp at hs
  | cons a h ih =>
    rcases List.suffix_cons_iff.mp hs with he | hs
    · rw [← he]
      exact List.mem_cons_self ..
    · have hm := ih hs
      unfold kills
      split
      · next he => cases he
      · next he =>
        obtain ⟨rfl,rfl⟩ := List.cons.inj he
        exact List.mem_cons_of_mem _ hm
      · next he =>
        obtain ⟨-,rfl⟩ := List.cons.inj he
        exact hm

theorem freshIds_of_named (hn : ∀ x ∈ h.filterMap named, ∀ y ∈ h.filterMap named, x.2 = y.2 → x = y) :
    FreshIds h := by
  have hall {t : ℕ} {q : Request} {i : String} (hm : .op t q .newInstanceId i ∈ h) :
      (t,i) ∈ h.filterMap named := List.mem_filterMap.mpr ⟨_,hm,rfl⟩
  exact fun t t' q q' i hm hm' => (Prod.mk.inj (hn _ (hall hm) _ (hall hm') rfl)).1

theorem storageSucceeds_of_failed (hn : failedUpdates h = []) : StorageSucceeds h := by
  rintro t q u k payload (e | _) hm
  · have hk : k ∈ failedUpdates h := List.mem_filterMap.mpr ⟨_,hm,rfl⟩
    rw [hn] at hk
    cases hk
  · rfl

end Samples

theorem sampleShared_before {u k : String} (hk : k.toList.head? ≠ some 'u') :
    sampleShared.before u k = none := by
  refine if_neg fun h => hk ?_
  have hhead : ∀ k ∈ ["users:alice:user_jwt","users:bob:user_jwt"], k.toList.head? = some 'u' := by
    decide
  exact hhead k h.2

theorem sampleShared_clean : Clean sampleServer sampleShared :=
  ⟨sampleShared_init,fun i => ⟨sampleShared_before (by simp [instanceUserKey_head]),
    fun _ _ => sampleShared_before (by simp [instanceKey_head])⟩⟩

theorem run_stopping (n : ℕ) : Run sampleServer (stopping n) :=
  (player sampleServer).reach_play (Clean sampleServer) sampleShared_clean _

/-- Alice starts two operators at the same time, and stops the first one. -/
def startingTwo : Config Op Res Abort Request String Shared :=
  (player sampleServer).play sampleShared (.start 0 (sampleStart "alice" false) ::
    .start 1 (sampleStart "alice" false) :: (List.replicate 30 [.step 0,.step 1]).flatten ++
    .start 2 (sampleStop "alice") :: List.replicate 11 (.step 2))

/-- The second operator is the one that has been started and not been stopped. -/
theorem running_complete_two : {i | Started startingTwo.state.history "alice" "protocol" i ∧
    ¬Stopped startingTwo.state.history i} = {"other"} := by
  have hc : Run sampleServer startingTwo :=
    (player sampleServer).reach_play (Clean sampleServer) sampleShared_clean _
  have hlist : running sampleServer startingTwo.state.history "alice" "protocol" = ["other"] := by
    decide +kernel
  obtain ⟨-,hmem⟩ := running_complete sampleServer hc (freshIds_of_named (by decide +kernel))
    (storageSucceeds_of_failed (by decide +kernel)) (p := "protocol") (by decide +kernel) "alice"
  ext i
  rw [Set.mem_singleton_iff,← List.mem_singleton,← hlist]
  exact (hmem i).symm

/-- The instance that the call is to stop. -/
def Request.stopped (q : Request) : Option String :=
  match q.call with
  | .start _ => none
  | .stop i => some i

def aliceIsStopped (x : Request × History) : Bool :=
  x.1.stopped = some "instance" && "instance" ∈ running sampleServer x.2 "alice" "protocol"

theorem inTime_of_kills {c : Config Op Res Abort Request String Shared} (hc : Run sampleServer c)
    (hfresh : FreshIds c.state.history) (hkills : (kills c.state.history).all aliceIsStopped = true) :
    Everywhere InTime c.state.history := by
  refine everywhere_iff.mpr fun a past hs => (killedAlive_iff hc hfresh hs).mp ?_
  unfold KilledAlive
  split
  · next t q killed r =>
    intro i hi
    have hx := List.all_eq_true.mp hkills _ (kills_of_suffix hs)
    obtain ⟨hstopped,hmem⟩ : q.stopped = some "instance" ∧
        "instance" ∈ running sampleServer past "alice" "protocol" := by
      simpa [aliceIsStopped] using hx
    obtain rfl : i = "instance" := by simpa [Request.stopped,hi] using hstopped
    have hpast := (List.suffix_cons _ _).trans hs
    obtain ⟨happended,-⟩ := ((running_spec hc hfresh hpast _ _).2 _).mp hmem
    obtain ⟨t,q,request,hstarted,hu,hp⟩ := appended_spec hc hpast happended
    exact ⟨t,q,request,hstarted.1,hstarted.2.1,by rwa [hu,hp]⟩
  · trivial

/-- The first call that stops the operator kills a running instance. -/
theorem killed_once_stopped : KilledOnce sampleServer (stopping 1) :=
  have hfresh : FreshIds (stopping 1).state.history := freshIds_of_named (by decide +kernel)
  (killed_once_iff sampleServer (run_stopping 1) hfresh).mpr
    (inTime_of_kills (run_stopping 1) hfresh (by decide +kernel))

/-- What the calls of a run are about. -/
def aboutAlice : Action Op Res Request → Bool
  | .op _ q _ _ => match q.call with
    | .start request => request.userId = "alice" && request.protocolName = "protocol"
    | .stop _ => true
  | _ => true

theorem not_alive_of_kills {h : History} (habout : h.all aboutAlice = true)
    (hlast : ((kills h).head?.map fun x =>
      (x.1.stopped,running sampleServer x.2 "alice" "protocol")) = some (some "instance",[])) :
    ¬Everywhere (KilledAlive sampleServer) h := by
  intro halive
  obtain ⟨⟨q,past⟩,hx,he⟩ := Option.map_eq_some_iff.mp hlast
  obtain ⟨hq,hempty⟩ := Prod.mk.inj he
  obtain ⟨t,killed,r,hs⟩ := mem_kills (List.mem_of_head? hx)
  have hstop : q.call = .stop "instance" := by
    unfold Request.stopped at hq
    split at hq
    · cases hq
    · next hc => rw [hc,Option.some.inj hq]
  obtain ⟨t',q',request,hstart,hi,hmem⟩ := everywhere_iff.mp halive _ _ hs _ hstop
  have hrequest := List.all_eq_true.mp habout _ (hs.subset (List.mem_cons_of_mem _ hi))
  simp only [aboutAlice,hstart,Bool.and_eq_true,decide_eq_true_eq] at hrequest
  rw [hrequest.1,hrequest.2,hempty] at hmem
  cases hmem

/-- The second call kills the process of an instance that is no longer in the list. -/
theorem killed_twice : Run sampleServer (stopping 2) ∧ FreshIds (stopping 2).state.history ∧
    ¬KilledOnce sampleServer (stopping 2) :=
  ⟨run_stopping 2,freshIds_of_named (by decide +kernel),
    fun h => not_alive_of_kills (by decide +kernel) (by decide +kernel) h.alive⟩

end ProtocolOperators
end CoLinkServer
