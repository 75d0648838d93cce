import CoLinkServer.Deliveries

/-! What the creation of a task leaves behind: its record, its entries in the lists, and the tasks
that have been handed over to the other participants. -/
namespace CoLinkServer

open Interleaving

namespace Creation

open TaskRecords TaskTraces TaskKeys TaskService SoloTasks Deliveries

variable {σ : Type} {f : Machine Op Res σ} {M : Prost} {u k : String}
  {value : σ → String → Option Bytes} {x x' : σ} {h h' : List TaskEvent}

/-- The value is that of a list with an entry for the task. -/
def Lists (M : Prost) (id : String) (b : Option Bytes) : Prop :=
  ∃ list, b = some (M.taskIdList.encode list) ∧ ∃ e ∈ list.taskIdsWithKeyPaths, e.taskId = id

theorem state_internalStorageUpdate {site : Site} {payload : Bytes} {keyPath : String}
    (hrun : (internalStorageUpdate site u k payload).eval f x h = ⟨.ok keyPath,x',h'⟩) :
    x' = (f (.storageUpdate site u ("_internal:" ++ k) payload) x).2 := by
  obtain ⟨r,x₁,h₁,hop,hrest⟩ := Prog.eval_bind_eq_ok hrun
  obtain rfl := congrArg Ending.state hop
  cases r with
  | ok keyPath' => exact (congrArg Ending.state hrest).symm
  | error e => cases hrest

theorem lists_of_add (hf : Lawful f u value) {task : Task} {listKey : String}
    (hk : Guarded ("_internal:" ++ listKey))
    (hrun : (addTaskToListInStorage M u task listKey).eval f x h = ⟨.ok (),x',h'⟩) :
    Lists M task.taskId (value x' ("_internal:" ++ listKey)) := by
  obtain ⟨keyPath,x₁,h₁,-,hrun⟩ := Prog.eval_bind_eq_ok hrun
  obtain ⟨present,x₂,h₂,-,hrun⟩ := Prog.eval_bind_eq_ok hrun
  obtain ⟨list,x₃,h₃,-,hrun⟩ := Prog.eval_bind_eq_ok hrun
  obtain ⟨keyPath',x₄,h₄,hstore,hrun⟩ := Prog.eval_bind_eq_ok hrun
  obtain rfl : x₄ = x' := congrArg Ending.state hrun
  rw [state_internalStorageUpdate hstore,hf.stored hk]
  exact ⟨_,rfl,⟨keyPath,task.taskId⟩,by simp,rfl⟩

theorem spares_addTaskToList {task : Task} {listKey : String} (hk : k ≠ "_internal:" ++ listKey)
    (hk' : k ≠ "_internal:" ++ (listKey ++ ":latest")) :
    (addTaskToListInStorage M u task listKey).All (SoloTasks.Spares u k) :=
  all_addTaskToList (fun hh => hk' hh.2.symm) trivial trivial fun _ hh => hk hh.2.symm

/-- A task that has been indexed is in both of its lists. -/
theorem lists_of_index (hf : Lawful f u value) {task : Task}
    (hrun : (indexTask M u task).eval f x h = ⟨.ok (),x',h'⟩) :
    ∀ l, ListOf u task l → Lists M task.taskId (value x' l) := by
  have hne := protocolListKey_ne (u := u) task task
  have hprotocol : Guarded ("_internal:" ++ protocolListKey u task) := guarded_listOf (.inl rfl)
  have hstatus : Guarded ("_internal:" ++ statusListKey task) := guarded_listOf (u := u) (.inr rfl)
  unfold indexTask locked perform at hrun
  rw [Prog.eval_bracket] at hrun
  have hresult := congrArg Ending.result hrun
  have hstate := congrArg Ending.state hrun
  generalize he : (addTaskNewStatus M u task).eval f _ _ = ending at hresult hstate
  obtain ⟨r,x₂,h₂⟩ := ending
  obtain rfl : r = .ok () := hresult
  obtain ⟨a,x₁,h₁,hfirst,hsecond⟩ := Prog.eval_bind_eq_ok he
  obtain rfl : _ = x' := hstate
  rintro l (rfl | rfl)
  · have hl := lists_of_add hf hprotocol hfirst
    have hspared : value ((addTaskToListInStorage M u task (statusListKey task)).eval f x₁ h₁).state _ =
      _ := hf.eval_spared hprotocol (spares_addTaskToList hne.1 hne.2)
    rw [hsecond] at hspared
    rw [hf.spared hprotocol (o := .unlock _) trivial,hspared]
    exact hl
  · rw [hf.spared hstatus (o := .unlock _) trivial]
    exact lists_of_add hf hstatus hsecond

def record (request : Task) (taskId : String) (decision : Decision) : Task :=
  { newTask request taskId with decisions := (newTask request taskId).decisions.set 0 decision }

@[simp] theorem record_taskId (request : Task) (taskId : String) (decision : Decision) :
    (record request taskId decision).taskId = taskId := rfl

theorem record_status_mem (request : Task) (taskId : String) (decision : Decision) :
    (record request taskId decision).status ∈ statuses := newTask_status request taskId

/-- `create_task` up to the storing of the record. -/
def opening (metadata : Metadata) (request : Task) : Service (String × Task) := do
  checkPrivilegeIn metadata ["user"]
  let userId ← unwrap metadata.userId
  let taskId ← perform .newUuid
  let decision ← generateDecision true false "" userId (newTask request taskId)
  let task ← setDecision (newTask request taskId) 0 decision
  .ret (userId,task)

def sendTo (M : Prost) (reverse : Bool) (u : String) (task : Task) (p : Participant) : Service Unit :=
  if reverse then sendInterCoreSyncTaskWithReverseConnection M u p.userId task
  else sendInterCoreSyncTask M u p.userId task

def completion (M : Prost) (reverse : Bool) (u : String) (task : Task) : Service Task := do
  (task.participants.drop 1).foldlM (fun _ p => sendTo M reverse u task p) ()
  indexTask M u task
  .ret { taskId := task.taskId }

theorem createTask_eq (reverse : Bool) (metadata : Metadata) (request : Task) :
    createTask M reverse metadata request = opening metadata request >>= fun o =>
      storeTask M .create o.1 o.2 >>= fun _ => completion M reverse o.1 o.2 := by
  unfold createTask opening
  simp only [Prog.bind_assoc]
  refine congrArg _ (funext fun _ => congrArg _ (funext fun userId => ?_))
  refine congrArg _ (funext fun (taskId : String) => congrArg _ (funext fun decision => ?_))
  have hset : setDecision (newTask request taskId) 0 decision =
      if 0 < (newTask request taskId).decisions.length then .ret (record request taskId decision)
      else .fail .panic := rfl
  show setDecision (newTask request taskId) 0 decision >>= _ = _
  rw [hset]
  split <;> rfl

theorem spares_opening (metadata : Metadata) (request : Task) :
    (opening metadata request).All (SoloTasks.Spares u k) := by
  refine (all_checkPrivilegeIn fun _ => trivial).bind fun _ => (all_unwrap _).bind fun userId => ?_
  refine (all_perform trivial).bind fun taskId => Prog.All.bind ?_ fun decision => ?_
  · refine (all_internalStorageRead trivial).bind fun bytes => (all_perform trivial).bind fun r => ?_
    cases r <;> trivial
  · exact (all_setDecision _ _ _).bind fun _ => trivial

theorem opening_eq_ok {metadata : Metadata} {request task : Task} (huser : metadata.userId = some u)
    {v : String} (hrun : (opening metadata request).eval f x h = ⟨.ok (v,task),x',h'⟩) : v = u ∧
    ∃ x₁ decision, task = record request (f .newUuid x₁).1 decision := by
  unfold opening at hrun
  rw [huser] at hrun
  obtain ⟨-,x₁,h₁,-,hrun⟩ := Prog.eval_bind_eq_ok hrun
  obtain ⟨taskId,x₂,h₂,hid,hrun⟩ := Prog.eval_bind_eq_ok (p := perform .newUuid) hrun
  obtain ⟨decision,x₃,h₃,-,hrun⟩ := Prog.eval_bind_eq_ok hrun
  obtain ⟨task',x₄,h₄,hset,hrun⟩ := Prog.eval_bind_eq_ok hrun
  obtain ⟨rfl,rfl⟩ := Prod.mk.inj (Except.ok.inj (congrArg Ending.result hrun))
  refine ⟨rfl,x₁,decision,?_⟩
  obtain rfl := Except.ok.inj (congrArg Ending.result hid)
  unfold setDecision at hset
  split at hset
  · exact (Except.ok.inj (congrArg Ending.result hset)).symm
  · cases hset

theorem traced_sendTo (reverse : Bool) (task : Task) (p : Participant) (h : List TaskEvent) :
    (sendTo M reverse u task p).Traced Free h (Prog.OnOk fun _ h' => Delivered u p.userId task h') := by
  unfold sendTo
  split
  · exact Deliveries.traced_sendWithReverseConnection _ _ _
  · exact Deliveries.traced_sendInterCoreSyncTask _ _ _

theorem delivered_of_loop {reverse : Bool} {task : Task} {ps : List Participant}
    (hrun : (ps.foldlM (fun _ p => sendTo M reverse u task p) () : Service Unit).eval f x h =
      ⟨.ok (),x',h'⟩) : ∀ p ∈ ps, Delivered u p.userId task h' := by
  induction ps generalizing x h with
  | nil => exact nofun
  | cons p ps ih =>
    rw [List.foldlM_cons] at hrun
    obtain ⟨a,x₁,h₁,hsend,hrest⟩ := Prog.eval_bind_eq_ok hrun
    have hsent := (traced_sendTo (M := M) (u := u) reverse task p h).eval (f := f) (x := x)
    rw [hsend] at hsent
    have hlater := events_suffix f (ps.foldlM (fun _ p => sendTo M reverse u task p) () : Service Unit) x₁ h₁
    rw [hrest] at hlater
    intro p' hp'
    rcases List.mem_cons.mp hp' with rfl | hp'
    · exact hsent.mono hlater
    · exact ih hrest p' hp'

/-- What is true when the task has been handed over and indexed. -/
theorem completion_eq_ok (hf : Lawful f u value) {reverse : Bool} {task reply : Task} {b : Bytes}
    (hs : task.status ∈ statuses) (hid : ¬ Reserved task.taskId)
    (hx : value x (recordKey task.taskId) = some b)
    (hrun : (completion M reverse u task).eval f x h = ⟨.ok reply,x',h'⟩) :
    reply.taskId = task.taskId ∧ value x' (recordKey task.taskId) = some b ∧
    (∀ l, ListOf u task l → Lists M task.taskId (value x' l)) ∧
    ∀ p ∈ task.participants.drop 1, Delivered u p.userId task h' := by
  have hk := guarded_recordKey task.taskId
  have hlists (task' : Task) (hs' : task'.status = "started") (l : String) (hl : ListOf u task' l) :=
    recordKey_ne_list (by rw [hs']; decide) hid hl
  obtain ⟨a,x₁,h₁,hloop,hrun⟩ := Prog.eval_bind_eq_ok hrun
  obtain ⟨a',x₂,h₂,hindex,hrun⟩ := Prog.eval_bind_eq_ok hrun
  obtain rfl : x₂ = x' := congrArg Ending.state hrun
  obtain rfl : h₂ = h' := congrArg Ending.events hrun
  have hkept := Prog.Keeps.foldlM (f := f) (P := fun x => value x (recordKey task.taskId) = some b)
    (g := fun (_ : Unit) p => sendTo M reverse u task p) (task.participants.drop 1)
    (fun _ p _ => ?send) () x h hx
  case send =>
    unfold sendTo
    split
    · exact (contacts_keeps hf hk hlists).sendWithReverseConnection _ _
    · exact (contacts_keeps hf hk hlists).sendInterCoreSyncTask _ _
  rw [hloop] at hkept
  have hrecord : value ((indexTask M u task).eval f x₁ h₁).state _ = _ := hf.eval_spared hk
    (spares_locked (spares_of_lists (all_addTaskNewStatus task) fun l hl => recordKey_ne_list hs hid hl))
  have hlater := events_suffix f (indexTask M u task) x₁ h₁
  rw [hindex] at hlater
  rw [hindex] at hrecord
  refine ⟨?_,hrecord.trans hkept,lists_of_index hf hindex,fun p hp =>
    (delivered_of_loop hloop p hp).mono hlater⟩
  rw [← Except.ok.inj (congrArg Ending.result hrun)]

theorem stored_first (reverse : Bool) (u : String) (task : Task) (x : σ) (h : List TaskEvent) :
    ∃ payload r k, ⟨.storageUpdate .create u k payload,r⟩ ∈ ((storeTask M .create u task >>= fun _ =>
      completion M reverse u task).eval f x h).events := by
  simp only [storeTask,internalStorageUpdate,perform,Prog.call_bind,Prog.ret_bind,Prog.eval_call]
  exact ⟨_,_,_,(events_suffix ..).subset (List.mem_cons_self ..)⟩

def userOfA : Metadata := { privilege := some "user", userId := some "a" }

def offer (others : List String) : Task where
  protocolName := "p"
  participants := ("a" :: others).map fun v => ⟨v,"r"⟩

def storedByA : Stored := (("a","_internal:user_consent"),[]) :: contact "a" "b" "B"

end Creation
end CoLinkServer
