import CoLinkServer.Balances
import CoLinkServer.TaskVersions

/-! How often a task id stands in the lists of a user. Storing a new record entitles a handler to one
entry in the lists of the protocols and one in those of the statuses, and so does taking the entry out
that is there; no handler ever makes an entry to which it is not entitled. -/
namespace CoLinkServer

open Interleaving

namespace TaskLists

open TaskTraces TaskRecords

/-- The lists of the protocols and those of the statuses. -/
inductive Family
  | protocol | status
deriving DecidableEq

def Family.start : Family → String
  | .protocol => "_internal:protocols:"
  | .status => "_internal:tasks:status:"

/-- A task id in the lists of one family. -/
structure Entry where
  user : String
  family : Family
  taskId : String
deriving DecidableEq

def Entry.concerns (x : Entry) (u k : String) : Bool :=
  decide (u = x.user ∧ x.family.start.toList <+: k.toList)

/-- The statements that store a record for the first time. -/
def introducing : List Site := [.create,.query,.admission]

variable (M : Prost)

def copies (taskId : String) (payload : Bytes) : ℕ :=
  ((M.taskIdList.decode payload).map fun list =>
    list.taskIdsWithKeyPaths.countP (·.taskId = taskId)).getD 0

/-- What an event does to the entries, as far as the thread can know, and what it is entitled to. -/
def price (x : Entry) : Price Op Res
  | ⟨.storageUpdate .list u k payload,_⟩,h => if x.concerns u k then
      copies M x.taskId payload - ((knows u k h).map (copies M x.taskId)).getD 0
    else 0
  | ⟨.storageUpdate site u k _,_⟩,_ =>
    if site ∈ introducing ∧ u = x.user ∧ k = recordKey x.taskId then -1 else 0
  | _,_ => 0

/-- The one entry of the task in these lists. -/
def share (x : Entry) (u : String) (task : Task) : ℤ :=
  if u = x.user ∧ task.taskId = x.taskId then 1 else 0

abbrev Costs {α : Type} (x : Entry) (n d : ℤ) (p : Service α) : Prop := p.Costs (price M x) n d

variable {M} {x : Entry} {u : String} {α : Type}

theorem share_nonneg (x : Entry) (u : String) (task : Task) : 0 ≤ share x u task := by
  unfold share
  split_ifs <;> decide

def Listless : Op → Prop
  | .storageUpdate .list _ _ _ => False
  | _ => True

theorem listless_of_kind {o : Op} (ho : o.kind ≠ .storageUpdate) : Listless o := by
  cases o <;> first | exact absurd rfl ho | trivial

theorem price_listless {o : Op} (ho : Listless o) (r : Res o) (h : List TaskEvent) :
    price M x ⟨o,r⟩ h ≤ 0 := by
  cases o with
  | storageUpdate site u k payload =>
    cases site with
    | list => exact ho.elim
    | _ =>
      simp only [price]
      split_ifs <;> decide
  | _ => exact le_rfl

theorem costs_listless {p : Service α} (hp : p.All Listless) : Costs M x 0 0 p :=
  Prog.costs_of_all (fun _ ho => price_listless ho) hp

theorem costs_perform {o : Op} (ho : Listless o) : Costs M x 0 0 (perform o) :=
  costs_listless (TaskService.all_perform ho)

theorem costs_locked {s : Section} {body : Service α} {n d : ℤ} (hb : Costs M x n d body)
    (hn : 0 ≤ n) (hd : d ≤ n) : Costs M x n d (TaskService.locked s body) :=
  .bracket (costs_perform (o := .lock s) trivial) (costs_perform (o := .unlock s) trivial) hb hn hd

theorem countP_eraseIdx_add {β : Type} {p : β → Bool} {l : List β} {i : ℕ} (hi : i < l.length) :
    (l.eraseIdx i).countP p + (if p l[i] then 1 else 0) = l.countP p := by
  have hsplit : l = l.take i ++ l[i] :: l.drop (i + 1) := by simp
  have hcount : l.countP p = (l.take i ++ l[i] :: l.drop (i + 1)).countP p := congrArg _ hsplit
  rw [hcount,List.countP_append,List.countP_cons,List.eraseIdx_eq_take_drop_succ,List.countP_append,
    Nat.add_assoc]

theorem countP_eraseIdx {β : Type} {p : β → Bool} {l : List β} {i : ℕ} (hi : l.findIdx? p = some i) :
    (l.eraseIdx i).countP p + 1 = l.countP p := by
  obtain ⟨hlt,hp,-⟩ := List.findIdx?_eq_some_iff_getElem.mp hi
  rw [← countP_eraseIdx_add hlt,if_pos hp]

@[simp] theorem copies_encode (taskId : String) (list : CoLinkInternalTaskIdList) :
    copies M taskId (M.taskIdList.encode list) =
      list.taskIdsWithKeyPaths.countP (·.taskId = taskId) := by
  simp [copies]

theorem knows_read (u k : String) (payload : Bytes) (h : List TaskEvent) :
    knows u k (⟨.storageRead u k,.ok payload⟩ :: h) = some payload := by simp [knows]

theorem costs_storeTask {site : Site} (hs : site ∈ introducing) (task : Task) :
    Costs M x 0 (-share x u task) (TaskService.storeTask M site u task) := by
  have hprice (r : Except UpdateError String) (h : List TaskEvent) :
      price M x ⟨.storageUpdate site u (recordKey task.taskId) (M.task.encode task),r⟩ h ≤
        -share x u task := by
    cases site <;> simp [introducing] at hs <;>
      (simp only [price,introducing,share,recordKey_inj]
       split_ifs <;> simp_all)
  refine (Prog.costs_call hprice (fun r => (?_ : Costs M x 0 0 _)) ?_ ?_).mono le_rfl (by omega)
  · cases r with
    | ok k => exact Prog.costs_ret ()
    | error e => exact Prog.costs_fail _ le_rfl
  · have hn := share_nonneg x u task
    omega
  · have hn := share_nonneg x u task
    omega

/-- What there is to be had in a list. -/
def shareIn (x : Entry) (u : String) (task : Task) (listKey : String) : ℤ :=
  if x.concerns u ("_internal:" ++ listKey) then share x u task else 0

theorem shareIn_nonneg (x : Entry) (u : String) (task : Task) (listKey : String) :
    0 ≤ shareIn x u task listKey := by
  unfold shareIn
  split_ifs
  · exact share_nonneg x u task
  · exact le_rfl

theorem share_of_concerns {k : String} (hk : x.concerns u k) (task : Task) :
    share x u task = if task.taskId = x.taskId then 1 else 0 := by
  have hu : u = x.user := (of_decide_eq_true hk).1
  simp [share,hu]

/-- Who removes an entry has read the list just before. -/
theorem price_remove {task : Task} {listKey : String} {payload : Bytes}
    {list : CoLinkInternalTaskIdList} {index : ℕ} (hd : M.taskIdList.decode payload = some list)
    (hi : list.taskIdsWithKeyPaths.findIdx? (·.taskId = task.taskId) = some index)
    (r : Except UpdateError String) (h : List TaskEvent) :
    price M x ⟨.storageUpdate .list u ("_internal:" ++ listKey)
      (M.taskIdList.encode ⟨list.taskIdsWithKeyPaths.eraseIdx index⟩),r⟩
      (⟨.storageRead u ("_internal:" ++ listKey),.ok payload⟩ :: h) ≤ -shareIn x u task listKey := by
  simp only [price,shareIn]
  split_ifs with hk
  · have hbefore : copies M x.taskId payload =
        list.taskIdsWithKeyPaths.countP (·.taskId = x.taskId) := by simp [copies,hd]
    have hafter : copies M x.taskId (M.taskIdList.encode ⟨list.taskIdsWithKeyPaths.eraseIdx index⟩) =
        (list.taskIdsWithKeyPaths.eraseIdx index).countP (·.taskId = x.taskId) := copies_encode _ _
    rw [knows_read,Option.map_some,Option.getD_some,hbefore,hafter,share_of_concerns hk]
    split_ifs with hid
    · rw [hid] at hi
      have hcount := countP_eraseIdx hi
      omega
    · have hle := (List.eraseIdx_sublist list.taskIdsWithKeyPaths index).countP_le
        (p := fun e => decide (e.taskId = x.taskId))
      omega
  · exact le_rfl

theorem costs_removeTaskFromList (task : Task) (listKey : String) :
    Costs M x 0 (-shareIn x u task listKey)
      (TaskService.removeTaskFromListInStorage M u task listKey) := by
  intro h r
  have hread : spent (price M x) (⟨.storageRead u ("_internal:" ++ listKey),r⟩ :: h) =
      spent (price M x) h := add_zero _
  refine ⟨by omega,?_⟩
  cases r with
  | error e => exact le_of_eq (hread.trans (add_zero _).symm)
  | ok payload =>
    show (unwrap (M.taskIdList.decode payload) >>= _).Traced _ _ _
    cases hd : M.taskIdList.decode payload with
    | none => exact le_of_eq (hread.trans (add_zero _).symm)
    | some list =>
      show ((.ret list : Service _) >>= _).Traced _ _ _
      rw [Prog.ret_bind]
      cases hi : list.taskIdsWithKeyPaths.findIdx? fun e => e.taskId = task.taskId with
      | none => exact le_of_eq (hread.trans (add_zero _).symm)
      | some index =>
        intro r
        have hprice : price M x ⟨.storageUpdate .list u ("_internal:" ++ listKey)
            (M.taskIdList.encode ⟨list.taskIdsWithKeyPaths.eraseIdx index⟩),r⟩
            (⟨.storageRead u ("_internal:" ++ listKey),.ok payload⟩ :: h) ≤ -shareIn x u task listKey :=
          price_remove hd hi r h
        have hn := shareIn_nonneg x u task listKey
        have hwrite : spent (price M x) (⟨.storageUpdate .list u ("_internal:" ++ listKey)
            (M.taskIdList.encode ⟨list.taskIdsWithKeyPaths.eraseIdx index⟩),r⟩ ::
            ⟨.storageRead u ("_internal:" ++ listKey),.ok payload⟩ :: h) ≤
            spent (price M x) h - shareIn x u task listKey := by
          rw [spent,hread]
          omega
        refine ⟨by omega,?_⟩
        cases r with
        | ok keyPath => exact hwrite
        | error e => exact hwrite.trans (by omega)

theorem price_append {task : Task} {listKey keyPath : String}
    {list : List CoLinkInternalTaskIdWithKeyPath} {h : List TaskEvent}
    (hlist : list.countP (·.taskId = x.taskId) ≤
      ((knows u ("_internal:" ++ listKey) h).map (copies M x.taskId)).getD 0)
    (r : Except UpdateError String) :
    price M x ⟨.storageUpdate .list u ("_internal:" ++ listKey)
      (M.taskIdList.encode ⟨list ++ [⟨keyPath,task.taskId⟩]⟩),r⟩ h ≤ shareIn x u task listKey := by
  simp only [price,shareIn]
  split_ifs with hk
  · have hafter : copies M x.taskId (M.taskIdList.encode ⟨list ++ [⟨keyPath,task.taskId⟩]⟩) =
        list.countP (·.taskId = x.taskId) + if task.taskId = x.taskId then 1 else 0 := by
      simp [List.countP_append,List.countP_singleton]
    rw [hafter,share_of_concerns hk]
    split_ifs <;> omega
  · exact le_rfl

theorem traced_append {task : Task} {listKey keyPath : String}
    {list : List CoLinkInternalTaskIdWithKeyPath} {h : List TaskEvent}
    (hlist : list.countP (·.taskId = x.taskId) ≤
      ((knows u ("_internal:" ++ listKey) h).map (copies M x.taskId)).getD 0) :
    (TaskService.storeTaskIdList M u listKey ⟨list ++ [⟨keyPath,task.taskId⟩]⟩).Traced
      (fun h' => spent (price M x) h' ≤ spent (price M x) h + shareIn x u task listKey) h
      (Prog.Ends (fun _ h' => spent (price M x) h' ≤ spent (price M x) h + shareIn x u task listKey)
        (fun h' => spent (price M x) h' ≤ spent (price M x) h + shareIn x u task listKey)) := by
  intro r
  have hprice : price M x ⟨.storageUpdate .list u ("_internal:" ++ listKey)
      (M.taskIdList.encode ⟨list ++ [⟨keyPath,task.taskId⟩]⟩),r⟩ h ≤ shareIn x u task listKey :=
    price_append hlist r
  have hwrite : spent (price M x) (⟨.storageUpdate .list u ("_internal:" ++ listKey)
      (M.taskIdList.encode ⟨list ++ [⟨keyPath,task.taskId⟩]⟩),r⟩ :: h) ≤
      spent (price M x) h + shareIn x u task listKey := by
    rw [spent]
    omega
  refine ⟨hwrite,?_⟩
  cases r with
  | ok k => exact hwrite
  | error e => exact hwrite

theorem costs_addTaskToList (task : Task) (listKey : String) :
    Costs M x (shareIn x u task listKey) (shareIn x u task listKey)
      (TaskService.addTaskToListInStorage M u task listKey) := by
  have hn := shareIn_nonneg x u task listKey
  have hlatest : (TaskService.internalStorageUpdate .latest u (listKey ++ ":latest")
      (M.task.encode { taskId := task.taskId })).All Listless :=
    TaskService.all_internalStorageUpdate trivial
  refine (costs_listless hlatest).seq (fun keyPath => ?_) hn
  refine (costs_perform (o := .storageContains u ("_internal:" ++ listKey)) trivial).seq
    (fun present => ?_) hn
  cases present with
  | false =>
    have hnone (n : ℕ) : ([] : List CoLinkInternalTaskIdWithKeyPath).countP (·.taskId = x.taskId) ≤ n :=
      Nat.zero_le n
    exact fun h => traced_append (hnone _)
  | true =>
    intro h r
    have hread : spent (price M x) (⟨.storageRead u ("_internal:" ++ listKey),r⟩ :: h) =
        spent (price M x) h := add_zero _
    refine ⟨by omega,?_⟩
    cases r with
    | error e => exact le_trans (le_of_eq hread) (by omega)
    | ok payload =>
      show ((unwrap (M.taskIdList.decode payload) : Service CoLinkInternalTaskIdList) >>= fun list =>
        TaskService.storeTaskIdList M u listKey
          ⟨list.taskIdsWithKeyPaths ++ [⟨keyPath,task.taskId⟩]⟩).Traced _ _ _
      cases hd : M.taskIdList.decode payload with
      | none => exact le_trans (le_of_eq hread) (by omega)
      | some list =>
        rw [← hread]
        refine traced_append ?_
        rw [knows_read]
        simp [copies,hd]

theorem concerns_protocolListKey (u : String) (task : Task) :
    x.concerns u ("_internal:" ++ TaskService.protocolListKey u task) =
      decide (u = x.user ∧ x.family = .protocol) := by
  refine decide_eq_decide.mpr (and_congr_right fun _ => ?_)
  cases hf : x.family with
  | protocol => simp [Family.start,TaskService.protocolListKey]
  | status => simp [Family.start,TaskService.protocolListKey]

theorem concerns_statusListKey (u : String) (task : Task) :
    x.concerns u ("_internal:" ++ TaskService.statusListKey task) =
      decide (u = x.user ∧ x.family = .status) := by
  refine decide_eq_decide.mpr (and_congr_right fun _ => ?_)
  cases hf : x.family with
  | protocol => simp [Family.start,TaskService.statusListKey]
  | status => simp [Family.start,TaskService.statusListKey]

theorem shareIn_add (u : String) (task : Task) :
    shareIn x u task (TaskService.protocolListKey u task) +
      shareIn x u task (TaskService.statusListKey task) = share x u task := by
  simp only [shareIn,concerns_protocolListKey,concerns_statusListKey,share]
  cases x.family <;> by_cases hu : u = x.user <;> simp [hu]

theorem costs_removeTaskOldStatus (task : Task) :
    Costs M x 0 (-share x u task) (TaskService.removeTaskOldStatus M u task) := by
  have hn := shareIn_nonneg x u task
  have hsum := shareIn_add (x := x) u task
  refine ((costs_removeTaskFromList task _).bind (fun _ => costs_removeTaskFromList task _) le_rfl ?_).mono
    le_rfl (by omega)
  have hp := hn (TaskService.protocolListKey u task)
  omega

theorem costs_addTaskNewStatus (task : Task) :
    Costs M x (share x u task) (share x u task) (TaskService.addTaskNewStatus M u task) := by
  have hn := shareIn_nonneg x u task
  have hsum := shareIn_add (x := x) u task
  have hs := hn (TaskService.statusListKey task)
  exact ((costs_addTaskToList task _).bind (fun _ => costs_addTaskToList task _) (by omega)
    (le_of_eq hsum)).mono le_rfl (le_of_eq hsum)

theorem costs_indexTask (task : Task) :
    Costs M x (share x u task) (share x u task) (TaskService.indexTask M u task) :=
  costs_locked (costs_addTaskNewStatus task) (share_nonneg x u task) le_rfl

theorem costs_afterwards {β : Type} {p : Service α} {f : α → Service β} {task : Task}
    (hp : Costs M x 0 (-share x u task) p)
    (hf : ∀ a, Costs M x (share x u task) (share x u task) (f a)) : Costs M x 0 0 (p >>= f) :=
  (hp.bind hf le_rfl (le_of_eq (neg_add_cancel _))).mono le_rfl (le_of_eq (neg_add_cancel _))

theorem listless_readTask (id : String) : (TaskService.readTask M u id).All Listless :=
  TaskService.all_readTask trivial

theorem listless_checkPrivilegeIn (metadata : Metadata) (privileges : List String) :
    (TaskService.checkPrivilegeIn metadata privileges).All Listless :=
  TaskService.all_checkPrivilegeIn fun _ => trivial

theorem listless_generateDecision (a r : Bool) (reason : String) (task : Task) :
    (TaskService.generateDecision a r reason u task).All Listless :=
  TaskService.all_generateDecision trivial fun _ => trivial

theorem costs_queryFromRegistries (v : String) :
    Costs M x 0 0 (TaskService.queryFromRegistries M u v) := by
  refine (costs_perform (o := .newUuid) trivial).seq (fun id => ?_) le_rfl
  refine (costs_perform (o := .utcNow) trivial).seq (fun now => ?_) le_rfl
  refine (costs_listless (listless_generateDecision _ _ _ _)).seq (fun d => ?_) le_rfl
  refine (costs_listless (TaskService.all_setDecision _ _ _)).seq (fun task => ?_) le_rfl
  exact costs_afterwards (costs_storeTask (by decide) task) fun _ => costs_indexTask task

theorem contacts_costs : TaskService.Contacts M u fun _ p => Costs M x 0 0 p where
  toClosed := Prog.closed_costs (price M x)
  ask o ho := costs_perform (listless_of_kind fun hk => by
    rw [hk] at ho
    exact absurd ho (by decide))
  query := costs_queryFromRegistries
  contact o ho := costs_perform (listless_of_kind fun hk => by
    rw [hk] at ho
    exact absurd ho (by decide))

theorem costs_createTask (reverse : Bool) (metadata : Metadata) (request : Task) :
    Costs M x 0 0 (TaskService.createTask M reverse metadata request) := by
  refine (costs_listless (listless_checkPrivilegeIn _ _)).seq (fun _ => ?_) le_rfl
  refine (costs_listless (TaskService.all_unwrap _)).seq (fun u => ?_) le_rfl
  refine (costs_perform (o := .newUuid) trivial).seq (fun id => ?_) le_rfl
  refine (costs_listless (listless_generateDecision _ _ _ _)).seq (fun d => ?_) le_rfl
  refine (costs_listless (TaskService.all_setDecision _ _ _)).seq (fun task => ?_) le_rfl
  refine costs_afterwards (costs_storeTask (by decide) task) fun _ => ?_
  have hsend (a : Unit) (p : Participant) : Costs M x 0 0 (if reverse then
      TaskService.sendInterCoreSyncTaskWithReverseConnection M u p.userId task
      else TaskService.sendInterCoreSyncTask M u p.userId task) := by
    split
    · exact contacts_costs.sendWithReverseConnection p.userId task
    · exact contacts_costs.sendInterCoreSyncTask p.userId task
  exact ((Prog.closed_costs _).foldlM hsend _ ()).seq (fun _ => (costs_indexTask task).map _)
    (share_nonneg x u task)

theorem returns_enterDecision (d : Decision) (task : Task) :
    (TaskService.enterDecision d u task).Returns fun task' => task'.taskId = task.taskId := by
  refine Prog.Returns.foldlM _ (fun task' y ht => ?_) rfl
  obtain ⟨p,i⟩ := y
  dsimp only
  split
  · refine Prog.Returns.bind (Prog.returns_of_forall (fun _ => trivial) _) fun d _ => ?_
    unfold TaskService.setDecision
    split
    · exact ht
    · trivial
  · exact ht

theorem costs_enter {site : Site} {task task' : Task} (hs : site ≠ .list)
    (hid : task'.taskId = task.taskId) : Costs M x (share x u task) (share x u task)
      (TaskService.storeTask M site u task' >>= fun _ => TaskService.addTaskNewStatus M u task') := by
  have hstore : (TaskService.storeTask M site u task').All Listless :=
    TaskService.all_storeTask (by cases site <;> trivial)
  have hshare : share x u task' = share x u task := by simp only [share,hid]
  rw [← hshare]
  exact (costs_listless hstore).seq (fun _ => costs_addTaskNewStatus task') (share_nonneg x u task')

theorem costs_entered {site : Site} {task task' : Task} (hs : site ≠ .list)
    (hid : task'.taskId = task.taskId) : Costs M x (share x u task) (share x u task)
      (TaskService.storeTask M site u task' >>= fun _ =>
        TaskService.addTaskNewStatus M u task' >>= fun _ => .ret task') := by
  have henter := (costs_enter (M := M) (x := x) (u := u) hs hid).map fun _ => task'
  rwa [Prog.bind_assoc] at henter

theorem costs_confirmTask (metadata : Metadata) (request : ConfirmTaskRequest) :
    Costs M x 0 0 (TaskService.confirmTask M metadata request) := by
  refine (costs_listless (listless_checkPrivilegeIn _ _)).seq (fun _ => ?_) le_rfl
  refine (costs_listless (TaskService.all_unwrap _)).seq (fun u => ?_) le_rfl
  cases request.decision with
  | none => exact Prog.costs_fail _ le_rfl
  | some d =>
    refine (costs_listless (TaskService.all_userStatus d)).seq (fun status => ?_) le_rfl
    refine (costs_locked ?_ le_rfl le_rfl).seq (fun task => ?_) le_rfl
    · refine (costs_listless (listless_readTask _)).seq (fun task => ?_) le_rfl
      refine (costs_listless (TaskService.all_require _ _)).seq (fun _ => ?_) le_rfl
      refine (costs_perform (o := .utcNow) trivial).seq (fun now => ?_) le_rfl
      refine (costs_listless (TaskService.all_require _ _)).seq (fun _ => ?_) le_rfl
      refine costs_afterwards (costs_removeTaskOldStatus task) fun _ => ?_
      refine Prog.Costs.seqOf (costs_listless (TaskService.all_enterDecision trivial fun _ _ => trivial))
        (returns_enterDecision d task) (fun task' hid => ?_) (share_nonneg x u task)
      exact costs_entered (by decide) hid
    · split
      · exact (costs_listless (TaskService.all_unwrap _)).seq
          (fun p => contacts_costs.sendInterCoreSyncTask _ _) le_rfl
      · exact Prog.costs_ret ()

theorem costs_finishTask (metadata : Metadata) (request : Task) :
    Costs M x 0 0 (TaskService.finishTask M metadata request) := by
  refine (costs_listless (listless_checkPrivilegeIn _ _)).seq (fun _ => ?_) le_rfl
  refine (costs_listless (TaskService.all_unwrap _)).seq (fun u => costs_locked ?_ le_rfl le_rfl) le_rfl
  refine (costs_listless (listless_readTask _)).seq (fun task => ?_) le_rfl
  refine (costs_listless (TaskService.all_require _ _)).seq (fun _ => ?_) le_rfl
  exact costs_afterwards (costs_removeTaskOldStatus task) fun _ => costs_enter (by decide) rfl

theorem costs_admitTask (request : Task) : Costs M x 0 0 (TaskService.admitTask M u request) := by
  refine (costs_listless (TaskService.all_unwrap _)).seq (fun d => ?_) le_rfl
  refine (costs_listless (TaskService.all_unwrap _)).seq (fun p => ?_) le_rfl
  refine (costs_listless (TaskService.all_checkDecision trivial)).seq (fun _ => ?_) le_rfl
  refine (costs_listless (TaskService.all_require _ _)).seq (fun _ => ?_) le_rfl
  exact costs_afterwards (costs_storeTask (by decide) _) fun _ => costs_indexTask _

theorem listless_mergeDecisions (request : Task) :
    (TaskService.mergeDecisions M u request).All Listless := by
  refine TaskService.all_locked trivial trivial ?_
  refine (listless_readTask _).bind fun task => (TaskService.all_require _ _).bind fun _ => ?_
  refine (TaskService.all_perform trivial).bind fun now => (TaskService.all_require _ _).bind fun _ => ?_
  refine (TaskService.all_takeDecisions fun _ _ _ => trivial).bind fun task => Prog.All.bind ?_ fun _ => trivial
  exact TaskService.all_storeTask trivial

theorem costs_changeStatus (request : Task) (rejected : Bool) :
    Costs M x 0 0 (TaskService.changeStatus M u request rejected) := by
  refine costs_locked ?_ le_rfl le_rfl
  refine (costs_listless (listless_readTask _)).seq (fun task => ?_) le_rfl
  refine costs_afterwards (costs_removeTaskOldStatus task) fun _ => ?_
  exact costs_entered (by decide) rfl

theorem costs_interCoreSyncTask (metadata : Metadata) (request : Task) :
    Costs M x 0 0 (TaskService.interCoreSyncTask M metadata request) := by
  refine (costs_listless (listless_checkPrivilegeIn _ _)).seq (fun _ => ?_) le_rfl
  refine (costs_listless (TaskService.all_unwrap _)).seq (fun u => ?_) le_rfl
  cases metadata.forwardingTarget with
  | some value =>
    refine (costs_listless (TaskService.all_unwrap _)).seq (fun target => ?_) le_rfl
    exact costs_listless (TaskService.all_forward trivial trivial)
  | none =>
    refine (costs_perform (o := .storageContains u _) trivial).seq (fun present => ?_) le_rfl
    split
    · exact costs_admitTask request
    · refine (costs_listless (listless_mergeDecisions request)).seq (fun task => ?_) le_rfl
      split_ifs
      · exact Prog.costs_ret ()
      · exact (costs_changeStatus _ _).seq (fun _ => contacts_costs.broadcast _) le_rfl
      · exact Prog.costs_ret ()

theorem costs_serve (D : Deployment) (q : Request) : Costs D.prost x 0 0 (D.serve q) := by
  have hhandle : Costs D.prost x 0 0 (D.handle q) := by
    unfold Deployment.handle
    cases q.call with
    | createTask task => exact (costs_createTask _ _ _).map _
    | confirmTask request => exact costs_confirmTask _ _
    | finishTask task => exact costs_finishTask _ _
    | interCoreSyncTask task => exact costs_interCoreSyncTask _ _
    | interCoreSyncTaskWithReverseConnection task =>
      refine (costs_listless (TaskService.all_unwrap _)).seq (fun u => ?_) le_rfl
      refine (costs_listless (TaskService.all_unwrap _)).seq (fun receiver => ?_) le_rfl
      exact (costs_interCoreSyncTask _ _).seq
        (fun _ => costs_perform (o := .sendersInsert u receiver.userId) trivial) le_rfl
  refine hhandle.attempt.seq (fun r => ?_) le_rfl
  exact (costs_perform (o := .reply r) trivial).seq (fun _ => Prog.costs_ofExcept r) le_rfl

end TaskLists
end CoLinkServer
