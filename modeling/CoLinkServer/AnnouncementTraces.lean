import CoLinkServer.Credits
import CoLinkServer.TaskTraces

/-! What entitles a handler to announce a task. Each change of a record to a new status earns one
notice in the list of the status and one in the list of the protocol; no handler ever gives a notice
that it has not earned. -/
namespace CoLinkServer

open Interleaving

namespace Announcements

open TaskTraces

/-- A task is named under the `latest` key of one of its lists. -/
structure Notice where
  user : String
  key : String
  taskId : String
deriving DecidableEq

def pointer (listKey : String) : String := "_internal:" ++ (listKey ++ ":latest")

theorem pointer_inj {k k' : String} (he : pointer k = pointer k') : k = k' :=
  (String.append_left_inj ":latest").mp ((String.append_right_inj "_internal:").mp he)

/-- The two notices that are due when the task has got its status. -/
def notices (u : String) (task : Task) : List Notice :=
  [⟨u,pointer (TaskService.protocolListKey u task),task.taskId⟩,
    ⟨u,pointer (TaskService.statusListKey task),task.taskId⟩]

/-- The statements that store a task with a new status. -/
def entering : List Site := [.create,.query,.admission,.decide,.confirm,.finish]

variable (M : Prost)

def earned : TaskEvent → List Notice
  | ⟨.storageUpdate site u _ payload,_⟩ => if site ∈ entering then
      ((M.task.decode payload).map (notices u)).getD []
    else []
  | _ => []

def spent : TaskEvent → Option Notice
  | ⟨.storageUpdate .latest u k payload,_⟩ =>
    (M.task.decode payload).map fun task => ⟨u,k,task.taskId⟩
  | _ => none

def account : Account Op Res Notice where
  earns n e := decide (n ∈ earned M e)
  spends n e := decide (spent M e = some n)

abbrev Affords {α : Type} (c d : Notice → ℕ) (p : Service α) : Prop := (account M).Affords c d p

def due (n : Notice) : Notice → ℕ := Pi.single n 1

variable {M} {u : String} {α : Type}

def Mute : Op → Prop
  | .storageUpdate .latest _ _ _ => False
  | _ => True

theorem affords_mute {p : Service α} (hp : p.All Mute) (c : Notice → ℕ) : Affords M c c p := by
  refine Account.affords_of_all (fun o ho r n => decide_eq_false ?_) hp c
  cases o with
  | storageUpdate site u k payload => cases site <;> first | exact ho.elim | nofun
  | _ => nofun

theorem mute_of_ordinary {o : Op} (ho : o.kind ≠ .storageUpdate) : Mute o := by
  cases o <;> first | exact absurd rfl ho | trivial

theorem affords_perform {o : Op} (ho : Mute o) (c : Notice → ℕ) : Affords M c c (perform o) :=
  affords_mute (TaskService.all_perform ho) c

theorem affords_locked {s : Section} {body : Service α} {c d : Notice → ℕ}
    (hb : Affords M c d body) : Affords M c d (TaskService.locked s body) :=
  .bracket (affords_perform (o := .lock s) trivial 0) (affords_perform (o := .unlock s) trivial 0) hb

theorem mute_generateDecision (a r : Bool) (reason : String) (task : Task) :
    (TaskService.generateDecision a r reason u task).All Mute :=
  TaskService.all_generateDecision trivial fun _ => trivial

theorem mute_checkPrivilegeIn (metadata : Metadata) (privileges : List String) :
    (TaskService.checkPrivilegeIn metadata privileges).All Mute :=
  TaskService.all_checkPrivilegeIn fun _ => trivial

theorem mute_readTask (id : String) : (TaskService.readTask M u id).All Mute :=
  TaskService.all_readTask trivial

theorem mute_removeTaskOldStatus (task : Task) : (TaskService.removeTaskOldStatus M u task).All Mute :=
  TaskService.all_removeTaskOldStatus (fun _ => trivial) fun _ _ => trivial

/-- The notice in the protocol's list and that in the list of the status. -/
def dues (u : String) (task : Task) : Notice → ℕ :=
  due ⟨u,pointer (TaskService.protocolListKey u task),task.taskId⟩ +
    due ⟨u,pointer (TaskService.statusListKey task),task.taskId⟩

theorem dues_le (u : String) (task : Task) (n : Notice) :
    dues u task n ≤ (decide (n ∈ notices u task)).toNat := by
  have hne : TaskService.protocolListKey u task ≠ TaskService.statusListKey task := by
    intro he
    have hl := congrArg String.toList he
    simp [TaskService.protocolListKey,TaskService.statusListKey] at hl
  have hne' : pointer (TaskService.protocolListKey u task) ≠
      pointer (TaskService.statusListKey task) := fun he => hne (pointer_inj he)
  have hmem : n ∈ notices u task ↔ n = ⟨u,pointer (TaskService.protocolListKey u task),task.taskId⟩ ∨
      n = ⟨u,pointer (TaskService.statusListKey task),task.taskId⟩ := by simp [notices]
  simp only [dues,due,Pi.add_apply,Pi.single_apply,hmem]
  split_ifs with h h'
  · rw [h] at h'
    exact absurd (Notice.mk.inj h').2.1 hne'
  · simp [h]
  · simp_all
  · simp

theorem affords_storeTask {site : Site} (hs : site ∈ entering) (task : Task) :
    Affords M 0 (dues u task) (TaskService.storeTask M site u task) := by
  refine Account.affords_call (dues u task) (fun r n => ?_) fun r => ?_
  · have hspent : spent M ⟨.storageUpdate site u (recordKey task.taskId) (M.task.encode task),r⟩ = none := by
      cases site <;> first | rfl | simp [entering] at hs
    have hearned : earned M ⟨.storageUpdate site u (recordKey task.taskId) (M.task.encode task),r⟩ =
        notices u task := by simp [earned,hs]
    show (decide (spent M ⟨.storageUpdate site u (recordKey task.taskId) (M.task.encode task),r⟩ =
      some n)).toNat + _ ≤ (decide (n ∈ earned M ⟨.storageUpdate site u (recordKey task.taskId)
        (M.task.encode task),r⟩)).toNat + 0
    rw [hspent,hearned]
    simpa using dues_le u task n
  · cases r with
    | ok k => exact Account.affords_ret _
    | error e => exact Account.affords_fail _

theorem affords_addTaskToList (task : Task) (listKey : String) :
    Affords M (due ⟨u,pointer listKey,task.taskId⟩) 0
      (TaskService.addTaskToListInStorage M u task listKey) := by
  refine Account.affords_call 0 (fun r n => ?_) fun r => ?_
  · have hspent : spent M ⟨.storageUpdate .latest u (pointer listKey)
        (M.task.encode { taskId := task.taskId }),r⟩ = some ⟨u,pointer listKey,task.taskId⟩ := by
      simp [spent]
    show (decide (spent M ⟨.storageUpdate .latest u (pointer listKey)
      (M.task.encode { taskId := task.taskId }),r⟩ = some n)).toNat + 0 ≤ _ + due _ n
    rw [hspent]
    by_cases hn : (⟨u,pointer listKey,task.taskId⟩ : Notice) = n
    · subst hn
      simp [due]
    · simp [hn]
  · cases r with
    | error e => exact Account.affords_fail _
    | ok keyPath =>
      refine affords_mute ?_ 0
      refine (TaskService.all_perform trivial).bind fun present => ?_
      refine Prog.All.bind ?_ fun list => TaskService.all_storeTaskIdList trivial
      split_ifs
      · exact TaskService.all_readTaskIdList trivial
      · trivial

theorem affords_addTaskNewStatus (task : Task) :
    Affords M (dues u task) 0 (TaskService.addTaskNewStatus M u task) := by
  have hfirst := (affords_addTaskToList (M := M) (u := u) task
    (TaskService.protocolListKey u task)).frame (due ⟨u,pointer (TaskService.statusListKey task),
      task.taskId⟩)
  rw [zero_add] at hfirst
  exact hfirst.bind fun _ => affords_addTaskToList task _

theorem affords_indexTask (task : Task) :
    Affords M (dues u task) 0 (TaskService.indexTask M u task) :=
  affords_locked (affords_addTaskNewStatus task)

theorem affords_queryFromRegistries (v : String) :
    Affords M 0 0 (TaskService.queryFromRegistries M u v) := by
  refine (affords_perform (o := .newUuid) trivial 0).bind fun id => ?_
  refine (affords_perform (o := .utcNow) trivial 0).bind fun now => ?_
  refine (affords_mute (mute_generateDecision _ _ _ _) 0).bind fun d => ?_
  refine (affords_mute (TaskService.all_setDecision _ _ _) 0).bind fun task => ?_
  exact (affords_storeTask (by decide) task).bind fun _ => affords_indexTask task

theorem contacts_affords : TaskService.Contacts M u fun _ p => Affords M 0 0 p where
  toClosed := Account.closed_affords (account M)
  ask o ho := affords_perform (mute_of_ordinary fun hk => by
    rw [hk] at ho
    exact absurd ho (by decide)) 0
  query := affords_queryFromRegistries
  contact o ho := affords_perform (mute_of_ordinary fun hk => by
    rw [hk] at ho
    exact absurd ho (by decide)) 0

theorem affords_createTask (reverse : Bool) (metadata : Metadata) (request : Task) :
    Affords M 0 0 (TaskService.createTask M reverse metadata request) := by
  refine (affords_mute (mute_checkPrivilegeIn _ _) 0).bind fun _ => ?_
  refine (affords_mute (TaskService.all_unwrap _) 0).bind fun u => ?_
  refine (affords_perform (o := .newUuid) trivial 0).bind fun id => ?_
  refine (affords_mute (mute_generateDecision _ _ _ _) 0).bind fun d => ?_
  refine (affords_mute (TaskService.all_setDecision _ _ _) 0).bind fun task => ?_
  refine (affords_storeTask (by decide) task).bind fun _ => ?_
  have hsend (a : Unit) (p : Participant) : Affords M 0 0 (if reverse then
      TaskService.sendInterCoreSyncTaskWithReverseConnection M u p.userId task
      else TaskService.sendInterCoreSyncTask M u p.userId task) := by
    split
    · exact contacts_affords.sendWithReverseConnection p.userId task
    · exact contacts_affords.sendInterCoreSyncTask p.userId task
  refine (Account.affords_foldlM (fun a p => (hsend a p).keep _) _ ()).bind fun _ => ?_
  exact (affords_indexTask task).bind fun _ => Account.affords_ret _

theorem affords_confirmTask (metadata : Metadata) (request : ConfirmTaskRequest) :
    Affords M 0 0 (TaskService.confirmTask M metadata request) := by
  refine (affords_mute (mute_checkPrivilegeIn _ _) 0).bind fun _ => ?_
  refine (affords_mute (TaskService.all_unwrap _) 0).bind fun u => ?_
  cases request.decision with
  | none => exact Account.affords_fail _
  | some d =>
    refine (affords_mute (TaskService.all_userStatus d) 0).bind fun status => ?_
    refine Account.Affords.bind (d := 0) (affords_locked ?_) fun task => ?_
    · refine (affords_mute (mute_readTask _) 0).bind fun task => ?_
      refine (affords_mute (TaskService.all_require _ _) 0).bind fun _ => ?_
      refine (affords_perform (o := .utcNow) trivial 0).bind fun now => ?_
      refine (affords_mute (TaskService.all_require _ _) 0).bind fun _ => ?_
      refine (affords_mute (mute_removeTaskOldStatus task) 0).bind fun _ => ?_
      refine (affords_mute (TaskService.all_enterDecision trivial fun _ _ => trivial) 0).bind fun task => ?_
      refine (affords_storeTask (by decide) _).bind fun _ => ?_
      exact (affords_addTaskNewStatus _).bind fun _ => Account.affords_ret _
    · split
      · exact (affords_mute (TaskService.all_unwrap _) 0).bind fun p =>
          contacts_affords.sendInterCoreSyncTask _ _
      · exact Account.affords_ret ()

theorem affords_finishTask (metadata : Metadata) (request : Task) :
    Affords M 0 0 (TaskService.finishTask M metadata request) := by
  refine (affords_mute (mute_checkPrivilegeIn _ _) 0).bind fun _ => ?_
  refine (affords_mute (TaskService.all_unwrap _) 0).bind fun u => affords_locked ?_
  refine (affords_mute (mute_readTask _) 0).bind fun task => ?_
  refine (affords_mute (TaskService.all_require _ _) 0).bind fun _ => ?_
  refine (affords_mute (mute_removeTaskOldStatus task) 0).bind fun _ => ?_
  exact (affords_storeTask (by decide) _).bind fun _ => affords_addTaskNewStatus _

theorem affords_admitTask (request : Task) : Affords M 0 0 (TaskService.admitTask M u request) := by
  refine (affords_mute (TaskService.all_unwrap _) 0).bind fun d => ?_
  refine (affords_mute (TaskService.all_unwrap _) 0).bind fun p => ?_
  refine (affords_mute (TaskService.all_checkDecision trivial) 0).bind fun _ => ?_
  refine (affords_mute (TaskService.all_require _ _) 0).bind fun _ => ?_
  exact (affords_storeTask (by decide) _).bind fun _ => affords_indexTask _

theorem mute_mergeDecisions (request : Task) :
    (TaskService.mergeDecisions M u request).All Mute := by
  refine TaskService.all_locked trivial trivial ?_
  refine (mute_readTask _).bind fun task => (TaskService.all_require _ _).bind fun _ => ?_
  refine (TaskService.all_perform trivial).bind fun now => (TaskService.all_require _ _).bind fun _ => ?_
  refine (TaskService.all_takeDecisions fun _ _ _ => trivial).bind fun task => Prog.All.bind ?_ fun _ => trivial
  refine Prog.All.bind ?_ fun _ => trivial
  exact TaskService.all_internalStorageUpdate trivial

theorem affords_changeStatus (request : Task) (rejected : Bool) :
    Affords M 0 0 (TaskService.changeStatus M u request rejected) := by
  refine affords_locked ?_
  refine (affords_mute (mute_readTask _) 0).bind fun task => ?_
  refine (affords_mute (mute_removeTaskOldStatus task) 0).bind fun _ => ?_
  refine (affords_storeTask (by decide) _).bind fun _ => ?_
  exact (affords_addTaskNewStatus _).bind fun _ => Account.affords_ret _

theorem affords_interCoreSyncTask (metadata : Metadata) (request : Task) :
    Affords M 0 0 (TaskService.interCoreSyncTask M metadata request) := by
  refine (affords_mute (mute_checkPrivilegeIn _ _) 0).bind fun _ => ?_
  refine (affords_mute (TaskService.all_unwrap _) 0).bind fun u => ?_
  cases metadata.forwardingTarget with
  | some value =>
    refine (affords_mute (TaskService.all_unwrap _) 0).bind fun target => ?_
    refine (affords_perform (o := .sendersContains u target) trivial 0).bind fun connected => ?_
    split
    · exact affords_mute (TaskService.all_sendersSend trivial) 0
    · exact Account.affords_fail _
  | none =>
    refine (affords_perform (o := .storageContains u _) trivial 0).bind fun present => ?_
    split
    · exact affords_admitTask request
    · refine (affords_mute (mute_mergeDecisions request) 0).bind fun task => ?_
      split_ifs
      · exact Account.affords_ret ()
      · exact (affords_changeStatus _ _).bind fun _ => contacts_affords.broadcast _
      · exact Account.affords_ret ()

theorem affords_handle (D : Deployment) (q : Request) : Affords D.prost 0 0 (D.handle q) := by
  unfold Deployment.handle
  cases q.call with
  | createTask task => exact (affords_createTask _ _ _).bind fun _ => Account.affords_ret ()
  | confirmTask request => exact affords_confirmTask _ _
  | finishTask task => exact affords_finishTask _ _
  | interCoreSyncTask task => exact affords_interCoreSyncTask _ _
  | interCoreSyncTaskWithReverseConnection task =>
    refine (affords_mute (TaskService.all_unwrap _) 0).bind fun u => ?_
    refine (affords_mute (TaskService.all_unwrap _) 0).bind fun receiver => ?_
    exact (affords_interCoreSyncTask _ _).bind fun _ =>
      affords_perform (o := .sendersInsert u receiver.userId) trivial 0

theorem covers_serve (D : Deployment) (q : Request) :
    (D.serve q).Traced ((account D.prost).Covers 0) [] fun _ _ => True := by
  have hnil : (account D.prost).Covers (0 + 0) [] := fun n => by simp
  refine Prog.Traced.bind (Prog.Traced.attempt ((affords_handle D q 0 [] hnil).mono fun r h hr => ?_))
  have hcover : (account D.prost).Covers (0 + 0) h := by cases r <;> exact hr
  have hreply := affords_perform (M := D.prost) (o := .reply r) trivial 0 0 h hcover
  exact fun w => ⟨(hreply w).1,Prog.Traced.ofExcept trivial⟩

theorem spent_le_earned {D : Deployment} {c : Config Op Res Abort Request Unit World} (hc : D.Reach c)
    (on : Request → Bool) (n : Notice) :
    c.state.history.countP (Action.meets on ((account D.prost).spends n)) ≤
      c.state.history.countP (Action.meets on ((account D.prost).earns n)) :=
  hc.covered (covers_serve D) on n

end Announcements
end CoLinkServer
