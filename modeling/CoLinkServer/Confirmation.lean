import CoLinkServer.SoloTasks
import CoLinkServer.StatusOrder

/-! What a confirmation that fails leaves behind. The first thing that the handler changes is the list
of the waiting tasks, and nothing that comes after it puts the task back. -/
namespace CoLinkServer

open Interleaving

namespace Confirmation

open TaskRecords TaskTraces TaskKeys TaskService SoloTasks

variable {σ : Type} {f : Machine Op Res σ} {M : Prost} {u k : String}
  {value : σ → String → Option Bytes} {x : σ} {h : List TaskEvent} {metadata : Metadata}
  {request : ConfirmTaskRequest}

/-- What is checked before the mutex is taken. -/
def admission (metadata : Metadata) (request : ConfirmTaskRequest) :
    Service (String × Decision × String) := do
  checkPrivilegeIn metadata ["user"]
  let userId ← unwrap metadata.userId
  match request.decision with
  | none => abort (.invalidArgument "The decision does not exist.")
  | some userDecision => do
    let userStatus ← userStatus userDecision
    .ret (userId,userDecision,userStatus)

def waitingTask (M : Prost) (userId : String) (request : ConfirmTaskRequest) : Service Task := do
  let task ← readTask M userId request.taskId
  require (task.status == "waiting")
    (.internal ("Task " ++ task.taskId ++ " has already confirmed."))
  let now ← perform .utcNow
  require (decide (now ≤ task.expirationTime))
    (.internal ("Task " ++ task.taskId ++ " has expired."))
  .ret task

/-- The rest of the critical section, after the task has been taken out of its protocol's list. -/
def decided (M : Prost) (userId : String) (userDecision : Decision) (userStatus : String)
    (task : Task) : Service Task := do
  removeTaskFromListInStorage M userId task (statusListKey task)
  let task ← enterDecision userDecision userId task
  let task := { task with status := confirmedStatus userStatus task }
  storeTask M .confirm userId task
  addTaskNewStatus M userId task
  .ret task

def criticalSection (M : Prost) (request : ConfirmTaskRequest) (a : String × Decision × String) :
    Service Task := do
  let task ← waitingTask M a.1 request
  removeTaskFromListInStorage M a.1 task (protocolListKey a.1 task)
  decided M a.1 a.2.1 a.2.2 task

def notify (M : Prost) (userId userStatus : String) (task : Task) : Service Unit :=
  if task.requireAgreement && userStatus ≠ "ignored" then do
    let initiator ← unwrap task.participants[0]?
    sendInterCoreSyncTask M userId initiator.userId
      { taskId := task.taskId, decisions := task.decisions }
  else .ret ()

theorem confirmTask_eq (metadata : Metadata) (request : ConfirmTaskRequest) :
    confirmTask M metadata request = admission metadata request >>= fun a =>
      locked .confirm (criticalSection M request a) >>= notify M a.1 a.2.2 := by
  unfold confirmTask admission
  simp only [Prog.bind_assoc]
  refine congrArg _ (funext fun _ => congrArg _ (funext fun userId => ?_))
  cases request.decision with
  | none => rfl
  | some d =>
    dsimp only
    simp only [Prog.bind_assoc]
    refine congrArg _ (funext fun s => ?_)
    simp only [criticalSection,waitingTask,decided,removeTaskOldStatus,Prog.bind_assoc,Prog.ret_bind]
    rfl

theorem spares_admission (metadata : Metadata) (request : ConfirmTaskRequest) :
    (admission metadata request).All (SoloTasks.Spares u k) := by
  refine (all_checkPrivilegeIn fun _ => trivial).bind fun _ => (all_unwrap _).bind fun userId => ?_
  cases request.decision with
  | none => trivial
  | some d => exact (all_userStatus d).bind fun _ => trivial

theorem checkPrivilegeIn_user (hprivilege : metadata.privilege = some "user")
    (huser : metadata.userId = some u) : checkPrivilegeIn metadata ["user"] =
      perform (.importedUsersContains u) >>= fun imported => require imported
        (.permissionDenied ("User " ++ u ++
          " in the JWT is created before the latest server start.")) := by
  simp [checkPrivilegeIn,hprivilege,huser,unwrap]

theorem admission_eq_ok (huser : metadata.userId = some u) {a : String × Decision × String} {x' : σ}
    {h' : List TaskEvent} (hrun : (admission metadata request).eval f x h = ⟨.ok a,x',h'⟩) :
    a.1 = u ∧ metadata.privilege = some "user" ∧ (f (.importedUsersContains u) x).1 = true ∧
    request.decision = some a.2.1 ∧ userStatus a.2.1 = .ret a.2.2 ∧
    x' = (f (.importedUsersContains u) x).2 := by
  obtain ⟨a₁,x₁,h₁,hcheck,hrun⟩ := Prog.eval_bind_eq_ok hrun
  have hprivilege : metadata.privilege = some "user" := by
    cases hp : metadata.privilege with
    | none =>
      rw [checkPrivilegeIn,hp] at hcheck
      cases hcheck
    | some p =>
      rw [checkPrivilegeIn,hp] at hcheck
      by_cases hpu : p = "user"
      · rw [hpu]
      · simp [unwrap,hpu,abort] at hcheck
  rw [checkPrivilegeIn_user hprivilege huser] at hcheck
  obtain ⟨imported,x₂,h₂,hop,hcheck⟩ := Prog.eval_bind_eq_ok hcheck
  obtain rfl : (f (.importedUsersContains u) x).1 = imported := Except.ok.inj (congrArg Ending.result hop)
  obtain rfl : (f (.importedUsersContains u) x).2 = x₂ := congrArg Ending.state hop
  have himported : (f (.importedUsersContains u) x).1 = true := by
    cases hi : (f (.importedUsersContains u) x).1 with
    | true => rfl
    | false =>
      rw [hi] at hcheck
      cases hcheck
  rw [himported] at hcheck
  obtain rfl : (f (.importedUsersContains u) x).2 = x₁ := congrArg Ending.state hcheck
  rw [huser] at hrun
  cases hd : request.decision with
  | none =>
    rw [hd] at hrun
    cases hrun
  | some d =>
    rw [hd] at hrun
    obtain ⟨s,x₃,h₃,hs,hrun⟩ := Prog.eval_bind_eq_ok (p := userStatus d) hrun
    obtain rfl : (u,d,s) = a := Except.ok.inj (congrArg Ending.result hrun)
    obtain rfl : x₃ = x' := congrArg Ending.state hrun
    have hstatus : userStatus d = .ret s ∧ (f (.importedUsersContains u) x).2 = x₃ := by
      unfold userStatus at hs ⊢
      split_ifs at hs ⊢ <;> first | (cases hs; exact ⟨rfl,rfl⟩) | cases hs
    exact ⟨rfl,hprivilege,himported,rfl,hstatus.1,hstatus.2.symm⟩

theorem admission_ok (huser : metadata.userId = some u) (hprivilege : metadata.privilege = some "user")
    (himported : (f (.importedUsersContains u) x).1 = true) {d : Decision} {s : String}
    (hd : request.decision = some d) (hs : userStatus d = .ret s) :
    ((admission metadata request).eval f x h).result = .ok (u,d,s) := by
  simp [admission,checkPrivilegeIn_user hprivilege huser,huser,hd,hs,unwrap,perform,himported,require]

theorem eval_internalStorageRead (hf : Lawful f u value) {keyName : String} {b : Bytes}
    (hk : Guarded ("_internal:" ++ keyName)) (hb : value x ("_internal:" ++ keyName) = some b) :
    (internalStorageRead u keyName).eval f x h =
      ⟨.ok b,(f (.storageRead u ("_internal:" ++ keyName)) x).2,
        ⟨.storageRead u ("_internal:" ++ keyName),.ok b⟩ :: h⟩ := by
  have hanswer := (hf (.storageRead u ("_internal:" ++ keyName)) x).answers rfl hk
  rw [hb] at hanswer
  unfold internalStorageRead perform
  simp only [Prog.call_bind,Prog.ret_bind,Prog.eval_call]
  cases hr : (f (.storageRead u ("_internal:" ++ keyName)) x).1 with
  | ok payload =>
    rw [hr] at hanswer
    obtain rfl := Option.some.inj hanswer
    rfl
  | error e =>
    rw [hr] at hanswer
    cases hanswer

theorem stored_of_internalStorageRead (hf : Lawful f u value) {keyName : String} {b : Bytes} {x' : σ}
    {h' : List TaskEvent} (hk : Guarded ("_internal:" ++ keyName))
    (hrun : (internalStorageRead u keyName).eval f x h = ⟨.ok b,x',h'⟩) :
    value x ("_internal:" ++ keyName) = some b ∧
      x' = (f (.storageRead u ("_internal:" ++ keyName)) x).2 := by
  have hanswer := (hf (.storageRead u ("_internal:" ++ keyName)) x).answers rfl hk
  cases hv : value x ("_internal:" ++ keyName) with
  | some b' =>
    rw [eval_internalStorageRead hf hk hv] at hrun
    rw [← Except.ok.inj (congrArg Ending.result hrun)]
    exact ⟨rfl,(congrArg Ending.state hrun).symm⟩
  | none =>
    rw [hv] at hanswer
    unfold internalStorageRead perform at hrun
    simp only [Prog.call_bind,Prog.ret_bind,Prog.eval_call] at hrun
    cases hr : (f (.storageRead u ("_internal:" ++ keyName)) x).1 with
    | ok payload =>
      rw [hr] at hanswer
      cases hanswer
    | error e =>
      rw [hr] at hrun
      cases hrun

def clockAt (f : Machine Op Res σ) (u : String) (request : ConfirmTaskRequest) (x : σ) : ℤ :=
  (f .utcNow (f (.storageRead u (recordKey request.taskId)) x).2).1

theorem spares_waitingTask (request : ConfirmTaskRequest) :
    (waitingTask M u request).All (SoloTasks.Spares u k) := by
  refine Prog.All.bind ((all_internalStorageRead trivial).bind fun _ => all_unwrap _) fun task => ?_
  refine (all_require _ _).bind fun _ => (all_perform trivial).bind fun now => ?_
  exact (all_require _ _).bind fun _ => trivial

theorem require_eq_ok {b : Bool} {e : Abort} {x' : σ} {h' : List TaskEvent}
    (hrun : (require b e).eval f x h = ⟨.ok (),x',h'⟩) : b = true ∧ x' = x := by
  cases b with
  | true => exact ⟨rfl,(congrArg Ending.state hrun).symm⟩
  | false => cases hrun

theorem waitingTask_eq_ok (hf : Lawful f u value) {task : Task} {x' : σ} {h' : List TaskEvent}
    (hrun : (waitingTask M u request).eval f x h = ⟨.ok task,x',h'⟩) :
    (value x (recordKey request.taskId)).bind M.task.decode = some task ∧ task.status = "waiting" ∧
    clockAt f u request x ≤ task.expirationTime := by
  obtain ⟨task',x₁,h₁,hread,hrun⟩ := Prog.eval_bind_eq_ok hrun
  obtain ⟨bytes,x₂,h₂,hread,hdecode⟩ := Prog.eval_bind_eq_ok hread
  obtain ⟨hv,rfl⟩ := stored_of_internalStorageRead hf (guarded_recordKey _) hread
  have hv : value x (recordKey request.taskId) = some bytes := hv
  have hdecoded : M.task.decode bytes = some task' ∧
      x₁ = (f (.storageRead u (recordKey request.taskId)) x).2 := by
    cases hd : M.task.decode bytes with
    | none =>
      rw [hd] at hdecode
      cases hdecode
    | some t =>
      rw [hd] at hdecode
      cases hdecode
      exact ⟨rfl,rfl⟩
  obtain ⟨hd,rfl⟩ := hdecoded
  obtain ⟨a,x₃,h₃,hwaiting,hrun⟩ := Prog.eval_bind_eq_ok hrun
  obtain ⟨hstatus,rfl⟩ := require_eq_ok hwaiting
  obtain ⟨now,x₄,h₄,hclock,hrun⟩ := Prog.eval_bind_eq_ok hrun
  obtain ⟨a',x₅,h₅,hexpired,hrun⟩ := Prog.eval_bind_eq_ok hrun
  obtain rfl : task' = task := Except.ok.inj (congrArg Ending.result hrun)
  obtain rfl : clockAt f u request x = now := Except.ok.inj (congrArg Ending.result hclock)
  rw [hv]
  exact ⟨hd,beq_iff_eq.mp hstatus,of_decide_eq_true (require_eq_ok hexpired).1⟩

theorem waitingTask_ok (hf : Lawful f u value) {task : Task}
    (htask : (value x (recordKey request.taskId)).bind M.task.decode = some task)
    (hwaiting : task.status = "waiting") (hclock : clockAt f u request x ≤ task.expirationTime) :
    ((waitingTask M u request).eval f x h).result = .ok task := by
  obtain ⟨bytes,hv,hd⟩ := Option.bind_eq_some_iff.mp htask
  have hread := eval_internalStorageRead (h := h) hf (guarded_recordKey request.taskId) hv
  unfold waitingTask readTask
  rw [Prog.bind_assoc,Prog.eval_bind_ok (a := bytes) (by rw [hread]),hread]
  have hnow : decide ((f .utcNow (f (.storageRead u (recordKey request.taskId)) x).2).1 ≤
    task.expirationTime) = true := decide_eq_true hclock
  unfold recordKey at hnow
  simp only [hd,unwrap,hwaiting,require,perform,Prog.ret_bind,Prog.call_bind,Prog.eval_call,beq_self_eq_true,
    if_true,hnow]
  rfl

/-- The value is that of a list with an entry for the task. -/
def HasEntry (M : Prost) (id : String) (b : Option Bytes) : Prop :=
  ∃ list, b.bind M.taskIdList.decode = some list ∧ ∃ e ∈ list.taskIdsWithKeyPaths, e.taskId = id

theorem findIdx_isSome_iff {list : CoLinkInternalTaskIdList} {id : String} :
    (list.taskIdsWithKeyPaths.findIdx? (·.taskId = id)).isSome ↔
      ∃ e ∈ list.taskIdsWithKeyPaths, e.taskId = id := by
  simp [List.findIdx?_isSome]

theorem spares_removeTaskFromList {task : Task} {listKey : String} (hk : k ≠ "_internal:" ++ listKey) :
    (removeTaskFromListInStorage M u task listKey).All (SoloTasks.Spares u k) :=
  all_removeTaskFromList trivial fun _ hh => hk hh.2.symm

/-- Where there is an entry, it is taken out: the list that is stored has become another one. -/
theorem removal_of_entry (hf : Lawful f u value) {task : Task} {listKey : String}
    (hk : Guarded ("_internal:" ++ listKey))
    (hentry : HasEntry M task.taskId (value x ("_internal:" ++ listKey))) :
    ∃ b, value ((removeTaskFromListInStorage M u task listKey).eval f x h).state
      ("_internal:" ++ listKey) = some b ∧ value x ("_internal:" ++ listKey) ≠ some b := by
  obtain ⟨list,hlist,hmem⟩ := hentry
  obtain ⟨bytes,hv,hd⟩ := Option.bind_eq_some_iff.mp hlist
  obtain ⟨i,hi⟩ := Option.isSome_iff_exists.mp (findIdx_isSome_iff.mpr hmem)
  have hread := eval_internalStorageRead (h := h) hf hk hv
  unfold removeTaskFromListInStorage readTaskIdList
  rw [Prog.bind_assoc,Prog.eval_bind_ok (a := bytes) (by rw [hread]),hread]
  simp only [hd,unwrap,Prog.ret_bind,hi,storeTaskIdList,internalStorageUpdate,perform,Prog.call_bind,
    Prog.eval_call]
  refine ⟨M.taskIdList.encode ⟨list.taskIdsWithKeyPaths.eraseIdx i⟩,?stored,fun he => ?other⟩
  case stored =>
    generalize hupdate : f (.storageUpdate .list u ("_internal:" ++ listKey) _) _ = y
    have hstored := hf.stored hk .list (M.taskIdList.encode ⟨list.taskIdsWithKeyPaths.eraseIdx i⟩)
      (f (.storageRead u ("_internal:" ++ listKey)) x).2
    rw [hupdate] at hstored
    cases hr : y.1 with
    | ok keyPath => exact hstored
    | error e => exact hstored
  case other =>
    obtain rfl := Option.some.inj (hv.symm.trans he)
    rw [M.taskIdList.decode_encode] at hd
    have hlen := congrArg (fun l => l.taskIdsWithKeyPaths.length) (Option.some.inj hd)
    have hi := (List.findIdx?_eq_some_iff_getElem.mp hi).1
    simp only [List.length_eraseIdx_of_lt hi] at hlen
    omega

/-- Where there is none, the removal fails and nothing is written. -/
theorem removal_without_entry (hf : Lawful f u value) {task : Task} {listKey : String}
    (hk : Guarded ("_internal:" ++ listKey))
    (hentry : ¬ HasEntry M task.taskId (value x ("_internal:" ++ listKey))) :
    (∃ e, ((removeTaskFromListInStorage M u task listKey).eval f x h).result = .error e) ∧
    ∀ k, Guarded k → value ((removeTaskFromListInStorage M u task listKey).eval f x h).state k =
      value x k := by
  have hspares (k : String) : (readTaskIdList M u listKey).All (SoloTasks.Spares u k) :=
    (all_internalStorageRead trivial).bind fun _ => all_unwrap _
  rcases hread : (readTaskIdList M u listKey).eval f x h with ⟨r,x₁,h₁⟩
  have hsame (k : String) (hk : Guarded k) : value x₁ k = value x k := by
    have hs := hf.eval_spared (x := x) (h := h) hk (hspares k)
    rw [hread] at hs
    exact hs
  unfold removeTaskFromListInStorage
  cases r with
  | error e =>
    rw [Prog.eval_bind_error (e := e) (by rw [hread]),hread]
    exact ⟨⟨e,rfl⟩,hsame⟩
  | ok list =>
    rw [Prog.eval_bind_ok (a := list) (by rw [hread]),hread]
    have hnone : list.taskIdsWithKeyPaths.findIdx? (·.taskId = task.taskId) = none := by
      rw [← Option.not_isSome_iff_eq_none,findIdx_isSome_iff]
      obtain ⟨bytes,x₂,h₂,hbytes,hdecode⟩ := Prog.eval_bind_eq_ok hread
      refine fun hmem => hentry ⟨list,?_,hmem⟩
      rw [(stored_of_internalStorageRead hf hk hbytes).1]
      cases hd : M.taskIdList.decode bytes with
      | none =>
        rw [hd] at hdecode
        cases hdecode
      | some list' =>
        rw [hd] at hdecode
        cases hdecode
        exact hd
    simp only [hnone]
    exact ⟨⟨_,rfl⟩,hsame⟩

theorem waitingKey_ne {task task' : Task} (hwaiting : task.status = "waiting")
    (hs : task'.status ∈ statuses) (hne : task'.status ≠ "waiting") {l : String}
    (hl : ListOf u task' l) : "_internal:" ++ protocolListKey u task ≠ l ∧
      "_internal:" ++ protocolListKey u task ≠ l ++ ":latest" := by
  have hlist : ListOf u task ("_internal:" ++ protocolListKey u task) := .inl rfl
  obtain ⟨list,hlist,hkey⟩ := list_of_listOf hlist
  obtain ⟨list',hlist',rfl⟩ := list_of_listOf hl
  have hknown : Known list := known_of_listsAt (by rw [hwaiting]; decide) hlist
  have hknown' : Known list' := known_of_listsAt hs hlist'
  rw [hkey,String.append_assoc]
  refine ⟨fun he => hne ?_,fun he => listKey_ne_latest hknown (internal_inj.mp he)⟩
  rw [← statusOf_listsAt hlist',← statusOf_eq hknown hknown' (internal_inj.mp he),
    statusOf_listsAt hlist,hwaiting]

theorem recordKey_ne_protocolListKey (id : String) (task : Task) :
    recordKey id ≠ "_internal:" ++ protocolListKey u task := by
  simp only [protocolListKey,String.append_assoc]
  exact recordKey_ne_protocolList id _

theorem spares_decided {d : Decision} {s : String} (hs : userStatus d = .ret s) {task : Task}
    (hwaiting : task.status = "waiting") : (decided M u d s task).All
      (SoloTasks.Spares u ("_internal:" ++ protocolListKey u task)) := by
  refine (spares_removeTaskFromList (protocolListKey_ne task task).1).bind fun _ => ?_
  refine Prog.All.bind (Prog.All.foldlM _ (fun task y _ => ?_) task) fun task' => ?_
  · obtain ⟨p,i⟩ := y
    dsimp only
    split
    · refine Prog.All.bind ?_ fun _ => all_setDecision _ _ _
      refine (all_internalStorageRead trivial).bind fun bytes => (all_perform trivial).bind fun r => ?_
      cases r <;> trivial
    · trivial
  · refine (spares_storeTask (recordKey_ne_protocolListKey _ _)).bind fun _ => ?_
    have hnew : confirmedStatus s task' ∈ statuses ∧ confirmedStatus s task' ≠ "waiting" := by
      rcases StatusOrder.confirmedStatus_eq s task' with he | he
      · rw [he]
        decide
      · rw [he]
        rcases StatusOrder.userStatus_mem hs with rfl | rfl | ⟨rfl,-⟩ <;> decide
    refine (spares_of_lists (all_addTaskNewStatus _) fun l hl => ?_).bind fun _ => trivial
    exact waitingKey_ne hwaiting hnew.1 hnew.2 hl

theorem keeps_notify (hf : Lawful f u value) {task : Task} (hwaiting : task.status = "waiting")
    (s : String) (task' : Task) (b : Bytes) : (notify M u s task').Keeps f
      fun x => value x ("_internal:" ++ protocolListKey u task) = some b := by
  unfold notify
  split
  · refine Prog.Keeps.bind (hf.keeps (guarded_listOf (.inl rfl)) (all_unwrap _) _) fun initiator => ?_
    refine (contacts_keeps hf (guarded_listOf (.inl rfl)) fun task'' hs l hl => ?_).sendInterCoreSyncTask _ _
    exact waitingKey_ne hwaiting (by rw [hs]; decide) (by rw [hs]; decide) hl
  · exact fun _ _ hx => hx

/-- The task waits and has not expired, and it is in the list of its protocol. -/
def Waits (M : Prost) (u : String) (request : ConfirmTaskRequest) (value : String → Option Bytes)
    (now : ℤ) (task : Task) : Prop :=
  (value (recordKey request.taskId)).bind M.task.decode = some task ∧ task.status = "waiting" ∧
  now ≤ task.expirationTime ∧
  HasEntry M task.taskId (value ("_internal:" ++ protocolListKey u task))

theorem criticalSection_changes (hf : Lawful f u value) {d : Decision} {s : String}
    (hs : userStatus d = .ret s) {task : Task}
    (hw : Waits M u request (value x) (clockAt f u request x) task) :
    ∃ b, value ((criticalSection M request (u,d,s)).eval f x h).state
        ("_internal:" ++ protocolListKey u task) = some b ∧
      value x ("_internal:" ++ protocolListKey u task) ≠ some b := by
  obtain ⟨htask,hwaiting,hclock,hentry⟩ := hw
  have hk : Guarded ("_internal:" ++ protocolListKey u task) := guarded_listOf (.inl rfl)
  have hsame := hf.eval_spared (x := x) (h := h) hk (spares_waitingTask (M := M) request)
  unfold criticalSection
  rw [Prog.eval_bind_ok (waitingTask_ok hf htask hwaiting hclock)]
  rw [← hsame] at hentry ⊢
  obtain ⟨b,hb,hne⟩ := removal_of_entry (h := ((waitingTask M u request).eval f x h).events) hf hk hentry
  exact ⟨b,Prog.Keeps.after hb fun _ => hf.keeps hk (spares_decided hs hwaiting) _,hne⟩

theorem criticalSection_unchanged (hf : Lawful f u value) (d : Decision) (s : String)
    (hno : ∀ task, ¬ Waits M u request (value x) (clockAt f u request x) task) :
    (∃ e, ((criticalSection M request (u,d,s)).eval f x h).result = .error e) ∧
    ∀ k, Guarded k → value ((criticalSection M request (u,d,s)).eval f x h).state k = value x k := by
  have hsame (k : String) (hk : Guarded k) :=
    hf.eval_spared (x := x) (h := h) hk (spares_waitingTask (M := M) request)
  unfold criticalSection
  rcases hrun : (waitingTask M u request).eval f x h with ⟨r,x₁,h₁⟩
  rw [hrun] at hsame
  cases r with
  | error e =>
    rw [Prog.eval_bind_error (e := e) (by rw [hrun]),hrun]
    exact ⟨⟨e,rfl⟩,hsame⟩
  | ok task =>
    obtain ⟨htask,hwaiting,hclock⟩ := waitingTask_eq_ok hf hrun
    have hk : Guarded ("_internal:" ++ protocolListKey u task) := guarded_listOf (.inl rfl)
    have hentry : ¬ HasEntry M task.taskId (value x₁ ("_internal:" ++ protocolListKey u task)) := by
      rw [hsame _ hk]
      exact fun he => hno task ⟨htask,hwaiting,hclock,he⟩
    obtain ⟨⟨e,he⟩,hvalue⟩ := removal_without_entry (h := h₁) hf hk hentry
    rw [Prog.eval_bind_ok (a := task) (by rw [hrun]),hrun,Prog.eval_bind_error he]
    exact ⟨⟨e,rfl⟩,fun k hk => (hvalue k hk).trans (hsame k hk)⟩

/-- The confirmation gets as far as its first change: it comes from a known user, its decision can be
understood, and the task waits. -/
structure Confirmable (M : Prost) (u : String) (imported : Bool) (value : String → Option Bytes)
    (now : ℤ) (metadata : Metadata) (request : ConfirmTaskRequest) : Prop where
  privilege : metadata.privilege = some "user"
  imported : imported = true
  decision : ∃ d s, request.decision = some d ∧ userStatus d = .ret s
  task : ∃ task, Waits M u request value now task

theorem not_confirmable (request : ConfirmTaskRequest) {imported : Bool}
    {value : String → Option Bytes} {now : ℤ} {d : Decision} (hd : request.decision = some d)
    (happroved : d.isApproved = true) (hrejected : d.isRejected = true) :
    ¬ Confirmable M u imported value now metadata request := by
  intro hc
  obtain ⟨d',s,hd',hs⟩ := hc.decision
  obtain rfl := Option.some.inj (hd.symm.trans hd')
  simp [userStatus,Decision.approves,Decision.rejects,happroved,hrejected,abort] at hs

/-- A confirmation leaves the user's records and lists as they were exactly if it does not get as far
as its first change, and then it fails. Any other confirmation that fails has taken the task out of
the list of the waiting tasks for good. -/
theorem failure_undone_iff (hf : Lawful f u value) (huser : metadata.userId = some u)
    (request : ConfirmTaskRequest) (x : σ) :
    let ending := (confirmTask M metadata request).eval f x []
    let confirmable := Confirmable M u (f (.importedUsersContains u) x).1 (value x)
      (clockAt f u request (f (.lock .confirm) (f (.importedUsersContains u) x).2).2) metadata request
    ((∀ k, Guarded k → value ending.state k = value x k) ↔ ¬ confirmable) ∧
    (¬ confirmable → ∃ e, ending.result = .error e) := by
  intro ending confirmable
  have hending : ending = (admission metadata request >>= fun a =>
      locked .confirm (criticalSection M request a) >>= notify M a.1 a.2.2).eval f x [] := by
    rw [← confirmTask_eq]
  rw [hending]
  rcases hrun : (admission metadata request).eval f x [] with ⟨r,x₁,h₁⟩
  cases r with
  | error e =>
    rw [Prog.eval_bind_error (e := e) (by rw [hrun])]
    refine ⟨iff_of_true (fun k hk => ?_) fun hc => ?_,fun _ => ⟨e,rfl⟩⟩
    · exact hf.eval_spared hk (spares_admission metadata request)
    · obtain ⟨d,s,hd,hs⟩ := hc.decision
      have hok := admission_ok (h := []) huser hc.privilege hc.imported hd hs
      rw [hrun] at hok
      cases hok
  | ok a =>
    obtain ⟨v,d,s⟩ := a
    obtain ⟨hv,hprivilege,himported,hd,hs,rfl⟩ := admission_eq_ok huser hrun
    obtain rfl : v = u := hv
    rw [Prog.eval_bind_ok (a := (v,d,s)) (by rw [hrun]),hrun]
    let x₂ := (f (.lock .confirm) (f (.importedUsersContains v) x).2).2
    let h₂ : List TaskEvent := ⟨.lock .confirm,()⟩ :: h₁
    have hsame (k : String) (hk : Guarded k) : value x₂ k = value x k :=
      (hf.spared hk (o := .lock _) trivial _).trans (hf.spared hk (o := .importedUsersContains _) trivial _)
    have hwaits (task : Task) : Waits M v request (value x₂) (clockAt f v request x₂) task ↔
        Waits M v request (value x) (clockAt f v request x₂) task := by
      unfold Waits
      rw [hsame _ (guarded_recordKey _),hsame _ (guarded_listOf (u := v) (.inl rfl))]
    have hlocked : (locked .confirm (criticalSection M request (v,d,s))).eval f
        (f (.importedUsersContains v) x).2 h₁ =
          ⟨((criticalSection M request (v,d,s)).eval f x₂ h₂).result,
            (f (.unlock .confirm) ((criticalSection M request (v,d,s)).eval f x₂ h₂).state).2,
            ⟨.unlock .confirm,()⟩ :: ((criticalSection M request (v,d,s)).eval f x₂ h₂).events⟩ :=
      Prog.eval_bracket ..
    by_cases hw : ∃ task, Waits M v request (value x) (clockAt f v request x₂) task
    · obtain ⟨task,hw⟩ := hw
      have hconfirmable : confirmable := ⟨hprivilege,himported,⟨d,s,hd,hs⟩,task,hw⟩
      have hk : Guarded ("_internal:" ++ protocolListKey v task) := guarded_listOf (.inl rfl)
      obtain ⟨b,hb,hne⟩ := criticalSection_changes (h := h₂) hf hs ((hwaits task).mpr hw)
      refine ⟨iff_of_false (fun hall => hne ?_) fun hc => hc hconfirmable,fun hc => absurd hconfirmable hc⟩
      rw [hsame _ hk,← hall _ hk]
      refine Prog.Keeps.after ?_ fun task' => keeps_notify hf hw.2.1 s task' b
      rw [hlocked]
      exact (hf.spared hk (o := .unlock _) trivial _).trans hb
    · obtain ⟨⟨e,he⟩,hvalue⟩ := criticalSection_unchanged (h := h₂) hf d s
        (fun task ht => hw ⟨task,(hwaits task).mp ht⟩)
      rw [Prog.eval_bind_error (e := e) (by rw [hlocked]; exact he),hlocked]
      refine ⟨iff_of_true (fun k hk => ?_) fun hc => hw hc.task,fun _ => ⟨e,rfl⟩⟩
      exact ((hf.spared hk (o := .unlock _) trivial _).trans (hvalue k hk)).trans (hsame k hk)

def userOfB : Metadata := { privilege := some "user", userId := some "b" }

def awaiting : Task where
  taskId := "t"
  protocolName := "p"
  participants := [⟨"a","r"⟩,⟨"b","r"⟩]
  requireAgreement := true
  status := "waiting"
  decisions := [{ isApproved := true },{}]

def storedByB : Stored :=
  [(("b",recordKey "t"),Prost.selfDelimiting.task.encode awaiting),
    (("b","_internal:protocols:p:waiting"),Prost.selfDelimiting.taskIdList.encode ⟨[⟨"","t"⟩]⟩),
    (("b","_internal:tasks:status:waiting"),Prost.selfDelimiting.taskIdList.encode ⟨[⟨"","t"⟩]⟩),
    (("b","_internal:user_consent"),[])] ++ contact "b" "a" "A"

/-- A decision that nobody can understand is turned away before anything has been changed. -/
theorem failure_undone_iff_sample :
    let ending := (confirmTask Prost.selfDelimiting userOfB
      ⟨"t",some { isApproved := true, isRejected := true }⟩).eval (sampleMachine {}) storedByB []
    (∀ k, Guarded k → valueIn "b" ending.state k = valueIn "b" storedByB k) ∧
    ∃ e, ending.result = .error e := by
  intro ending
  have huser : userOfB.userId = some "b" := rfl
  have hiff := failure_undone_iff (M := Prost.selfDelimiting) (sample_lawful {} "b") huser
    ⟨"t",some { isApproved := true, isRejected := true }⟩ storedByB
  exact ⟨hiff.1.mpr (not_confirmable ⟨"t",some _⟩ rfl rfl rfl),
    hiff.2 (not_confirmable ⟨"t",some _⟩ rfl rfl rfl)⟩

/-- The core of the initiator accepts no connection. The confirmation fails, but the record says that
the task has been started, it is in the list of the waiting tasks no more, and the confirmation
cannot be repeated. -/
theorem failure_not_undone :
    let machine := sampleMachine { refusing := ["A"] }
    let ending := (confirmTask Prost.selfDelimiting userOfB ⟨"t",some { isApproved := true }⟩).eval
      machine storedByB []
    let again := (confirmTask Prost.selfDelimiting userOfB ⟨"t",some { isApproved := true }⟩).eval
      machine ending.state []
    ending.result = .error (.internal "transport error") ∧
    valueIn "b" ending.state (recordKey "t") = some (Prost.selfDelimiting.task.encode { awaiting with
      decisions := [{ isApproved := true },{ isApproved := true }], status := "started" }) ∧
    valueIn "b" ending.state "_internal:protocols:p:waiting" =
      some (Prost.selfDelimiting.taskIdList.encode {}) ∧
    (∀ e ∈ ending.events, e.1.kind ≠ .post) ∧
    again.result = .error (.internal "Task t has already confirmed.") := by
  decide +kernel

end Confirmation
end CoLinkServer
