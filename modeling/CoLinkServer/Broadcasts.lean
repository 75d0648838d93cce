import CoLinkServer.Announcements
import CoLinkServer.Deliveries

/-! Whom the initiator tells of a new status. The participants are told one after the other, and the
first one who cannot be told ends the loop, so that nobody after it hears of the status. -/
namespace CoLinkServer

open Interleaving

namespace Broadcasts

open TaskTraces TaskService SoloTasks Deliveries
open Announcements (addressees)

variable {σ : Type} {f : Machine Op Res σ} {M : Prost} {u v w : String} {task : Task}
  {x : σ} {h h' : List TaskEvent} {α : Type}

/-- `inter_core_sync_task` up to the broadcast; it says whether the status of a task has changed. -/
def changeOfStatus (M : Prost) (metadata : Metadata) (request : Task) :
    Service (Option (String × Task)) := do
  checkPrivilegeIn metadata ["user","guest"]
  let userId ← unwrap metadata.userId
  match metadata.forwardingTarget with
  | some value => do
    let forwardingTarget ← unwrap value.toStr
    forwardInterCoreSyncTask userId forwardingTarget request
    .ret none
  | none => do
    let present ← internalStorageContains userId ("tasks:" ++ request.taskId)
    if !present then do
      admitTask M userId request
      .ret none
    else do
      let task ← mergeDecisions M userId request
      if task.status = "started" ∨ task.status = "rejected" then .ret none
      else if isDecided task then do
        let task ← changeStatus M userId request (anyoneRejected task)
        .ret (some (userId,task))
      else .ret none

def announce (M : Prost) : Option (String × Task) → Service Unit
  | none => .ret ()
  | some (userId,task) => broadcast M userId task

theorem interCoreSyncTask_eq (metadata : Metadata) (request : Task) :
    interCoreSyncTask M metadata request = changeOfStatus M metadata request >>= announce M := by
  have hret (p : Service Unit) : p = (p >>= fun _ => .ret none) >>= announce M := by
    rw [Prog.bind_assoc]
    exact (Prog.bind_ret p).symm
  unfold interCoreSyncTask changeOfStatus
  rw [Prog.bind_assoc]
  refine congrArg _ (funext fun _ => ?_)
  rw [Prog.bind_assoc]
  refine congrArg _ (funext fun userId => ?_)
  cases metadata.forwardingTarget with
  | some value =>
    dsimp only
    rw [Prog.bind_assoc]
    exact congrArg _ (funext fun forwardingTarget => hret _)
  | none =>
    dsimp only
    rw [Prog.bind_assoc]
    refine congrArg _ (funext fun present => ?_)
    split
    · exact hret _
    · rw [Prog.bind_assoc]
      refine congrArg _ (funext fun merged => ?_)
      split
      · rfl
      · split
        · rw [Prog.bind_assoc]
          rfl
        · rfl

def sendAll (M : Prost) (u : String) (task : Task) (vs : List String) : Service Unit :=
  vs.foldlM (fun _ v => sendInterCoreSyncTask M u v task) ()

theorem broadcast_eq {initiator : Participant} (hfirst : task.participants[0]? = some initiator)
    (hself : initiator.userId = u) (hmany : 2 < task.participants.length) :
    broadcast M u task = sendAll M u task (addressees task) := by
  unfold broadcast
  rw [hfirst]
  show (if initiator.userId = u ∧ 2 < task.participants.length then _ else _ : Service Unit) = _
  rw [if_pos ⟨hself,hmany⟩,sendAll,addressees,List.foldlM_map]

def sends (u v : String) (task : Task) : TaskEvent → Bool
  | ⟨.post m,_⟩ => decide (m.target = v ∧ m.task = task)
  | ⟨.sendersSend u' v' task',.ok _⟩ => decide (u' = u ∧ v' = v ∧ task' = task)
  | _ => false

/-- The task has left for the user, in a call or through a reverse connection. -/
def SentTo (u v : String) (task : Task) (h : List TaskEvent) : Prop := ∃ e ∈ h, sends u v task e

instance (u v : String) (task : Task) (h : List TaskEvent) : Decidable (SentTo u v task h) :=
  inferInstanceAs (Decidable (∃ e ∈ h, _))

theorem SentTo.mono (hs : SentTo u v task h) (hh : h <:+ h') : SentTo u v task h' := by
  obtain ⟨e,he,hv⟩ := hs
  exact ⟨e,hh.subset he,hv⟩

theorem sentTo_of_delivered (hd : Delivered u v task h) : SentTo u v task h := by
  cases hd with
  | @accepted m id past target whole addressed answered =>
    exact ⟨_,answered.subset (List.mem_cons_of_mem _ (List.mem_cons_self ..)),
      decide_eq_true ⟨target,whole⟩⟩
  | queued entered =>
    exact ⟨_,entered.subset (List.mem_cons_self ..),decide_eq_true ⟨rfl,rfl,rfl⟩⟩

def Silent (o : Op) : Prop := o.kind ≠ .post ∧ o.kind ≠ .sendersSend

/-- An operation that sends nothing, or sends to this user. -/
def SendsOnly (v : String) : Op → Prop
  | .post m => m.target = v
  | .sendersSend _ v' _ => v' = v
  | _ => True

theorem Silent.sendsOnly {o : Op} (ho : Silent o) : SendsOnly v o := by
  cases o <;> first | exact absurd rfl ho.1 | exact absurd rfl ho.2 | trivial

theorem Silent.not_sends {e : TaskEvent} (he : Silent e.1) : ¬ sends u v task e := by
  obtain ⟨o,r⟩ := e
  cases o <;> first | exact absurd rfl he.1 | exact absurd rfl he.2 | exact Bool.false_ne_true

theorem SendsOnly.eq {e : TaskEvent} (he : SendsOnly w e.1) (hs : sends u v task e) : v = w := by
  obtain ⟨o,r⟩ := e
  cases o with
  | post m => exact (of_decide_eq_true hs).1.symm.trans he
  | sendersSend u' v' task' =>
    cases r with
    | error e => cases hs
    | ok a => exact (of_decide_eq_true hs).2.1.symm.trans he
  | _ => cases hs

theorem silent_of_lists {p : Service α} (hp : p.All (OnLists M u task)) : p.All Silent := by
  refine hp.mono fun o ho => ?_
  have hk := ho.kind
  constructor <;> intro hn <;> rw [hn] at hk <;> exact absurd hk (by decide)

theorem silent_storeTask (site : Site) (task : Task) : (storeTask M site u task).All Silent :=
  all_storeTask (by simp [Silent,Op.kind])

theorem silent_locked (s : Section) {p : Service α} (hp : p.All Silent) : (locked s p).All Silent :=
  all_locked (by simp [Silent,Op.kind]) (by simp [Silent,Op.kind]) hp

theorem silent_readTask (id : String) : (readTask M u id).All Silent :=
  all_readTask (by simp [Silent,Op.kind])

theorem silent_queryUserRecord (v : String) : (queryUserRecord M u v).All Silent :=
  (asks_all fun o ho => by
    constructor <;> intro hk <;> rw [hk] at ho <;> exact absurd ho (by decide)).queryUserRecord v

theorem sendsOnly_send (v : String) (task : Task) :
    (sendInterCoreSyncTask M u v task).All (SendsOnly v) := by
  have hquiet {α : Type} {p : Service α} (hp : p.All Silent) : p.All (SendsOnly v) :=
    hp.mono fun _ => Silent.sendsOnly
  have hcall {m : Outgoing} (hm : m.target = v) (address : String) :
      (grpcConnect address >>= fun _ => call m : Service Unit).All (SendsOnly v) :=
    (all_grpcConnect trivial).bind fun _ => all_call hm fun _ => trivial
  refine (all_perform trivial).bind fun connected => ?_
  split
  · exact all_sendersSend rfl
  · refine (hquiet (silent_queryUserRecord v)).bind fun record => ?_
    obtain ⟨coreAddr,guestJwt,forwardingUserId⟩ := record
    cases forwardingUserId with
    | none => exact hcall rfl _
    | some w =>
      refine (hquiet (silent_queryUserRecord w)).bind fun record => ?_
      exact (all_require _ _).bind fun _ => hcall rfl _

theorem silent_mergeDecisions (request : Task) : (mergeDecisions M u request).All Silent := by
  refine silent_locked _ ((silent_readTask _).bind fun task => (all_require _ _).bind fun _ => ?_)
  refine (all_perform (by simp [Silent,Op.kind])).bind fun now => (all_require _ _).bind fun _ => ?_
  exact (all_takeDecisions fun _ _ _ => by simp [Silent,Op.kind]).bind fun task =>
    (silent_storeTask _ _).bind fun _ => trivial

theorem silent_changeStatus (request : Task) (rejected : Bool) :
    (changeStatus M u request rejected).All Silent := by
  refine silent_locked _ ((silent_readTask _).bind fun task => ?_)
  refine (silent_of_lists (all_removeTaskOldStatus task)).bind fun _ => ?_
  refine (silent_storeTask _ _).bind fun _ => ?_
  exact (silent_of_lists (all_addTaskNewStatus _)).bind fun _ => trivial

/-- Nothing has been sent when the status of a task has changed. -/
theorem traced_changeOfStatus (metadata : Metadata) (request : Task) :
    (changeOfStatus M metadata request).Traced Free [] (Prog.OnOk fun r h =>
      r ≠ none → ∀ e ∈ h, Silent e.1) := by
  have hkeep {α : Type} {p : Service α} (hp : p.All Silent) {h : List TaskEvent}
      (hh : ∀ e ∈ h, Silent e.1) : p.Traced Free h (Prog.OnOk fun _ h' => ∀ e ∈ h', Silent e.1) := by
    refine (Prog.Traced.of_all hp (J := fun h' => ∀ e ∈ h', Silent e.1)
      (fun o ho r h' hj => ⟨trivial,fun e he => ?_⟩) hh).onOk
    rcases List.mem_cons.mp he with rfl | he
    · exact ho
    · exact hj e he
  have hnone {p : Service Unit} (h : List TaskEvent) :
      (p >>= fun _ => .ret none : Service (Option (String × Task))).Traced Free h
        (Prog.OnOk fun r h' => r ≠ none → ∀ e ∈ h', Silent e.1) :=
    traced_skip fun _ _ _ hr => absurd rfl hr
  refine Prog.Traced.seq (hkeep ?privileges fun _ he => absurd he List.not_mem_nil) fun _ h₁ hh₁ => ?_
  case privileges => exact all_checkPrivilegeIn fun _ => by simp [Silent,Op.kind]
  refine Prog.Traced.seq (hkeep (all_unwrap _) hh₁) fun userId h₂ hh₂ => ?_
  cases metadata.forwardingTarget with
  | some value => exact Prog.Traced.seq (hkeep (all_unwrap _) hh₂) fun _ h₃ _ => hnone h₃
  | none =>
    refine Prog.Traced.seq (hkeep ?present hh₂) fun present h₃ hh₃ => ?_
    case present => exact all_perform (by simp [Silent,Op.kind])
    split
    · exact hnone h₃
    · refine Prog.Traced.seq (hkeep (silent_mergeDecisions request) hh₃) fun task h₄ hh₄ => ?_
      split
      · exact fun hr => absurd rfl hr
      · split
        · refine Prog.Traced.seq (hkeep (silent_changeStatus request _) hh₄) fun task h₅ hh₅ => ?_
          exact fun _ => hh₅
        · exact fun hr => absurd rfl hr

/-- What comes of sending the task to those it is meant for, as long as `Inv` holds of the state:
some of them cannot be reached, and some of the others refuse. -/
structure Outcomes (f : Machine Op Res σ) (M : Prost) (u : String) (task : Task) (Inv : σ → Prop)
    (unreachable refusing : Set String) : Prop where
  keeps : ∀ v ∈ addressees task, (sendInterCoreSyncTask M u v task).Keeps f Inv
  unreached : ∀ v ∈ addressees task, v ∈ unreachable → ∀ x h, Inv x →
    ∃ e, ((sendInterCoreSyncTask M u v task).eval f x h).result = .error e
  refused : ∀ v ∈ addressees task, v ∉ unreachable → v ∈ refusing → ∀ x h, Inv x →
    (∃ e, ((sendInterCoreSyncTask M u v task).eval f x h).result = .error e) ∧
      SentTo u v task ((sendInterCoreSyncTask M u v task).eval f x h).events
  accepted : ∀ v ∈ addressees task, v ∉ unreachable → v ∉ refusing → ∀ x h, Inv x →
    ((sendInterCoreSyncTask M u v task).eval f x h).result = .ok ()

section Loop

variable {Inv : σ → Prop} {unreachable refusing : Set String}
  (hout : Outcomes f M u task Inv unreachable refusing)
include hout

theorem failed_of_not_fine (hv : v ∈ addressees task) (hbad : ¬(v ∉ unreachable ∧ v ∉ refusing))
    (hx : Inv x) : ∃ e, ((sendInterCoreSyncTask M u v task).eval f x h).result = .error e := by
  by_cases hu : v ∈ unreachable
  · exact hout.unreached v hv hu x h hx
  · have hr : v ∈ refusing := Classical.not_not.mp fun hr => hbad ⟨hu,hr⟩
    exact (hout.refused v hv hu hr x h hx).1

theorem sent_of_reachable (hv : v ∈ addressees task) (hu : v ∉ unreachable) (hx : Inv x) :
    SentTo u v task ((sendInterCoreSyncTask M u v task).eval f x h).events := by
  by_cases hr : v ∈ refusing
  · exact (hout.refused v hv hu hr x h hx).2
  · have hd : Prog.OnOk (fun _ h' => Delivered u v task h') _ _ :=
      (traced_sendInterCoreSyncTask (M := M) (u := u) v task h).eval (f := f) (x := x)
    rw [hout.accepted v hv hu hr x h hx] at hd
    exact sentTo_of_delivered hd

/-- The users that a task is sent to stand in front of the first one who fails, or are that one. -/
theorem position_of_sent {vs : List String} (hvs : ∀ w ∈ vs, w ∈ addressees task) (hx : Inv x)
    (hno : ¬ SentTo u v task h)
    (hs : SentTo u v task ((sendAll M u task vs).eval f x h).events) :
    ∃ before after, vs = before ++ v :: after ∧ ∀ w ∈ before, w ∉ unreachable ∧ w ∉ refusing := by
  induction vs generalizing x h with
  | nil => exact absurd hs hno
  | cons w vs ih =>
    have hw := hvs w (List.mem_cons_self ..)
    have hself {h' : List TaskEvent} (hh' : h' = ((sendInterCoreSyncTask M u w task).eval f x h).events)
        (hs : SentTo u v task h') : v = w := by
      obtain ⟨added,he,hall⟩ := (sendsOnly_send (M := M) (u := u) w task).events f x h
      obtain ⟨e,hm,hse⟩ := hs
      rw [hh',he] at hm
      rcases List.mem_append.mp hm with hm | hm
      · exact (hall e hm).eq hse
      · exact absurd ⟨e,hm,hse⟩ hno
    by_cases hvw : v = w
    · exact ⟨[],vs,by rw [hvw]; rfl,nofun⟩
    · have hround : ¬ SentTo u v task ((sendInterCoreSyncTask M u w task).eval f x h).events :=
        fun hs => hvw (hself rfl hs)
      have hcons : sendAll M u task (w :: vs) =
        sendInterCoreSyncTask M u w task >>= fun _ => sendAll M u task vs := List.foldlM_cons ..
      rw [hcons] at hs
      by_cases hfine : w ∉ unreachable ∧ w ∉ refusing
      · rw [Prog.eval_bind_ok (hout.accepted w hw hfine.1 hfine.2 x h hx)] at hs
        obtain ⟨before,after,rfl,hb⟩ := ih (fun w' hw' => hvs w' (List.mem_cons_of_mem _ hw'))
          (hout.keeps w hw x h hx) hround hs
        refine ⟨w :: before,after,rfl,fun w' hw' => ?_⟩
        rcases List.mem_cons.mp hw' with rfl | hw'
        · exact hfine
        · exact hb w' hw'
      · obtain ⟨e,he⟩ := failed_of_not_fine hout (h := h) hw hfine hx
        rw [Prog.eval_bind_error he] at hs
        exact absurd hs hround

/-- Whoever stands in front of the first one who fails is sent the task, and so is that one if it
can be reached. -/
theorem sent_of_position {before after : List String}
    (hvs : ∀ w ∈ before ++ v :: after, w ∈ addressees task) (hu : v ∉ unreachable)
    (hb : ∀ w ∈ before, w ∉ unreachable ∧ w ∉ refusing) (hx : Inv x) :
    SentTo u v task ((sendAll M u task (before ++ v :: after)).eval f x h).events := by
  induction before generalizing x h with
  | nil =>
    have hsent := sent_of_reachable hout (h := h) (hvs v (List.mem_cons_self ..)) hu hx
    have hcons : sendAll M u task (v :: after) =
      sendInterCoreSyncTask M u v task >>= fun _ => sendAll M u task after := List.foldlM_cons ..
    rw [List.nil_append,hcons]
    cases hr : ((sendInterCoreSyncTask M u v task).eval f x h).result with
    | ok a =>
      rw [Prog.eval_bind_ok hr]
      exact hsent.mono (events_suffix ..)
    | error e =>
      rw [Prog.eval_bind_error hr]
      exact hsent
  | cons w before ih =>
    have hw := hvs w (List.mem_cons_self ..)
    have hfine := hb w (List.mem_cons_self ..)
    have hcons : sendAll M u task (w :: (before ++ v :: after)) =
      sendInterCoreSyncTask M u w task >>= fun _ => sendAll M u task (before ++ v :: after) :=
      List.foldlM_cons ..
    rw [List.cons_append,hcons,Prog.eval_bind_ok (hout.accepted w hw hfine.1 hfine.2 x h hx)]
    exact ih (fun w' hw' => hvs w' (List.mem_cons_of_mem _ hw'))
      (fun w' hw' => hb w' (List.mem_cons_of_mem _ hw')) (hout.keeps w hw x h hx)

end Loop

/-- A task of `a` to which everybody has to agree; the others consent to it below. -/
def proposal (others : List String) : Task where
  taskId := "t"
  protocolName := "p"
  participants := ("a" :: others).map fun v => ⟨v,"r"⟩
  requireAgreement := true
  status := "approved"
  decisions := { isApproved := true } :: others.map fun _ => {}

def consent (others : List String) : Task where
  taskId := "t"
  decisions := ("a" :: others).map fun _ => { isApproved := true }

def started (others : List String) : Task :=
  { proposal others with decisions := (consent others).decisions, status := "started" }

def proposalStored (others : List String) : Stored :=
  [(("a",recordKey "t"),Prost.selfDelimiting.task.encode (proposal others)),
    (("a","_internal:protocols:p:approved"),Prost.selfDelimiting.taskIdList.encode ⟨[⟨"","t"⟩]⟩),
    (("a","_internal:tasks:status:approved"),Prost.selfDelimiting.taskIdList.encode ⟨[⟨"","t"⟩]⟩)]

def guestOfA : Metadata := { privilege := some "guest", userId := some "a" }

end Broadcasts
end CoLinkServer
