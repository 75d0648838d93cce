import CoLinkServer.TaskTraces

/-! Every path through the handlers meets the obligations. -/
namespace CoLinkServer

open Interleaving

namespace TaskTraces

/-- More has happened, but nothing has been sent. -/
def Grows (h h' : List TaskEvent) : Prop := h <:+ h' ∧ targets h' = targets h

theorem Grows.refl (h : List TaskEvent) : Grows h h := ⟨List.suffix_rfl,rfl⟩

theorem Grows.trans {h h' h'' : List TaskEvent} (hh : Grows h h') (hh' : Grows h' h'') :
    Grows h h'' := ⟨hh.1.trans hh'.1,hh'.2.trans hh.2⟩

theorem Grows.cons {e : TaskEvent} (he : e.1.kind ≠ .post) (he' : e.1.kind ≠ .sendersSend)
    (h : List TaskEvent) : Grows h (e :: h) := by
  refine ⟨List.suffix_cons _ _,?_⟩
  obtain ⟨o,r⟩ := e
  cases o <;> simp [Op.kind] at he he' <;> rfl

theorem Grows.append {added : List TaskEvent}
    (ha : ∀ e ∈ added, e.1.kind ≠ .post ∧ e.1.kind ≠ .sendersSend) (h : List TaskEvent) :
    Grows h (added ++ h) := by
  induction added with
  | nil => exact .refl h
  | cons e added ih =>
    have he := ha e (List.mem_cons_self ..)
    exact (ih fun e' he' => ha e' (List.mem_cons_of_mem _ he')).trans (.cons he.1 he.2 _)

theorem ActsFor.mono {q : Request} {u : String} {h h' : List TaskEvent} (hu : ActsFor q u h)
    (hh : h <:+ h') : ActsFor q u h' := ⟨hu.1,hh.subset hu.2⟩

theorem held_append {added : List TaskEvent}
    (ha : ∀ e ∈ added, e.1.kind ≠ .lock ∧ e.1.kind ≠ .unlock) (h : List TaskEvent) :
    held (added ++ h) = held h := by
  induction added with
  | nil => rfl
  | cons e added ih =>
    have he := ha e (List.mem_cons_self ..)
    rw [List.cons_append,← ih fun e' he' => ha e' (List.mem_cons_of_mem _ he')]
    obtain ⟨o,r⟩ := e
    cases o <;> simp [Op.kind] at he <;> rfl

/-- The operation neither touches the mutex nor this key. -/
def Leaves (u k : String) : Op → Prop
  | .lock _ => False
  | .unlock _ => False
  | .storageRead u' k' => ¬(u' = u ∧ k' = k)
  | .storageUpdate _ u' k' _ => ¬(u' = u ∧ k' = k)
  | _ => True

theorem knows_append {u k : String} {added : List TaskEvent} (ha : ∀ e ∈ added, Leaves u k e.1)
    (h : List TaskEvent) : knows u k (added ++ h) = knows u k h := by
  induction added with
  | nil => rfl
  | cons e added ih =>
    have he := ha e (List.mem_cons_self ..)
    rw [List.cons_append,← ih fun e' he' => ha e' (List.mem_cons_of_mem _ he')]
    obtain ⟨o,r⟩ := e
    cases o with
    | storageRead u' k' =>
      cases r with
      | ok payload => exact if_neg he
      | error e => rfl
    | storageUpdate site u' k' payload => exact if_neg he
    | lock s => exact he.elim
    | unlock s => exact he.elim
    | _ => rfl

/-- Operations that carry no obligation and leave the mutex alone. -/
def Quiet (o : Op) : Prop :=
  o.kind ∉ [.storageUpdate,.post,.sendersSend,.lock,.unlock]

variable {M : Prost} {q : Request} {u : String} {h : List TaskEvent}

theorem obligation_of_kind {e : TaskEvent}
    (he : e.1.kind ∉ [OpKind.storageUpdate,.post,.sendersSend]) : Obligation M q (e :: h) := by
  obtain ⟨o,r⟩ := e
  cases o <;> simp [Op.kind] at he <;> trivial

theorem Quiet.obligation {e : TaskEvent} (he : Quiet e.1) : Obligation M q (e :: h) := by
  refine obligation_of_kind fun hm => he ?_
  simp only [List.mem_cons,List.not_mem_nil,or_false] at hm ⊢
  tauto

theorem Quiet.grows {added : List TaskEvent} (ha : ∀ e ∈ added, Quiet e.1) :
    Grows h (added ++ h) := by
  refine Grows.append (fun e he => ?_) h
  have hq := ha e he
  simp only [Quiet,List.mem_cons,List.not_mem_nil,or_false,not_or] at hq
  exact ⟨hq.2.1,hq.2.2.1⟩

theorem Quiet.held {added : List TaskEvent} (ha : ∀ e ∈ added, Quiet e.1) :
    held (added ++ h) = held h := by
  refine held_append (fun e he => ?_) h
  have hq := ha e he
  simp only [Quiet,List.mem_cons,List.not_mem_nil,or_false,not_or] at hq
  exact ⟨hq.2.2.2.1,hq.2.2.2.2⟩

theorem quiet_of_kind {o : Op} (k : OpKind) (hk : o.kind = k)
    (h : k ∉ [OpKind.storageUpdate,.post,.sendersSend,.lock,.unlock]) : Quiet o := by
  rw [Quiet,hk]
  exact h

theorem traced_quiet {α : Type} {p : Service α} (hp : p.All Quiet) :
    p.Traced (Obligation M q) h fun _ h' => ∃ added, h' = added ++ h ∧ ∀ e ∈ added, Quiet e.1 :=
  Prog.Traced.adds hp fun _ _ _ he => he.obligation

theorem traced_grows {α : Type} {p : Service α} (hp : p.All Quiet) :
    p.Traced (Obligation M q) h (Prog.OnOk fun _ h' => Grows h h') := by
  refine (traced_quiet hp).onOk.ok fun _ h' hr => ?_
  obtain ⟨added,rfl,ha⟩ := hr
  exact Quiet.grows ha

theorem traced_perform {o : Op} {α : Type} {f : Res o → Service α}
    {Q : Except Abort α → List TaskEvent → Prop} (ho : ∀ r, Obligation M q (⟨o,r⟩ :: h))
    (hf : ∀ r, (f r).Traced (Obligation M q) (⟨o,r⟩ :: h) Q) :
    (perform o >>= f).Traced (Obligation M q) h Q := fun r => ⟨ho r,hf r⟩

theorem quiet_perform {o : Op} (ho : Quiet o) : (perform o).All Quiet := TaskService.all_perform ho

theorem quiet_read (userId keyName : String) :
    (TaskService.internalStorageRead userId keyName).All Quiet :=
  TaskService.all_internalStorageRead (quiet_of_kind .storageRead rfl (by decide))

def OnLists (M : Prost) (u : String) (task : Task) : Op → Prop
  | .storageRead u' k => u' = u ∧ ListOf u task k
  | .storageContains u' k => u' = u ∧ ListOf u task k
  | .storageUpdate .list u' k payload => u' = u ∧ ListOf u task k ∧
      ∃ list, payload = M.taskIdList.encode list
  | .storageUpdate .latest u' k payload => u' = u ∧ ∃ listKey, ListOf u task listKey ∧
      k = listKey ++ ":latest" ∧ payload = M.task.encode { taskId := task.taskId }
  | _ => False

theorem recordKey_eq_statusList {id status : String} :
    recordKey id = "_internal:" ++ ("tasks:status:" ++ status) ↔ id = "status:" ++ status := by
  have hh : "_internal:" ++ ("tasks:status:" ++ status) = recordKey ("status:" ++ status) := by
    simp [recordKey,← String.append_assoc]
  rw [hh,recordKey,recordKey,String.append_right_inj,String.append_right_inj]

theorem recordKey_ne_protocolList (id list : String) :
    recordKey id ≠ "_internal:" ++ ("protocols:" ++ list) := by
  intro he
  have hl := congrArg String.toList he
  simp [recordKey] at hl

theorem recordKey_inj {id id' : String} : recordKey id = recordKey id' ↔ id = id' := by
  rw [recordKey,recordKey,String.append_right_inj,String.append_right_inj]

theorem ListOf.ne_recordKey {task : Task} {k id : String} (hk : ListOf u task k)
    (hc : ¬ Collides id task.status) : k ≠ recordKey id ∧ k ++ ":latest" ≠ recordKey id := by
  rcases hk with rfl | rfl
  · have hp := recordKey_ne_protocolList id
    simp only [TaskService.protocolListKey,String.append_assoc]
    exact ⟨fun he => hp _ he.symm,fun he => hp _ he.symm⟩
  · simp only [TaskService.statusListKey,String.append_assoc]
    refine ⟨fun he => hc (.inl ?_),fun he => hc (.inr ?_)⟩
    · exact recordKey_eq_statusList.mp he.symm
    · rw [recordKey_eq_statusList.mp he.symm,String.append_assoc]

theorem OnLists.leaves {task : Task} {o : Op} (ho : OnLists M u task o) {id : String}
    (hc : ¬ Collides id task.status) : Leaves u (recordKey id) o := by
  cases o with
  | storageRead u' k => exact fun he => (ho.2.ne_recordKey hc).1 he.2
  | storageUpdate site u' k payload =>
    cases site with
    | list => exact fun he => (ho.2.1.ne_recordKey hc).1 he.2
    | latest =>
      obtain ⟨-,listKey,hl,rfl,-⟩ := ho
      exact fun he => (hl.ne_recordKey hc).2 he.2
    | _ => exact ho.elim
  | storageContains u' k => trivial
  | _ => exact ho.elim

theorem OnLists.kind {task : Task} {o : Op} (ho : OnLists M u task o) :
    o.kind ∈ [OpKind.storageRead,.storageContains,.storageUpdate] := by
  cases o <;> first | exact ho.elim | simp [Op.kind]

theorem OnLists.held {task : Task} {added : List TaskEvent}
    (ha : ∀ e ∈ added, OnLists M u task e.1) : held (added ++ h) = held h := by
  refine held_append (fun e he => ?_) h
  have hk := (ha e he).kind
  constructor <;> intro hn <;> rw [hn] at hk <;> exact absurd hk (by decide)

theorem OnLists.grows {task : Task} {added : List TaskEvent}
    (ha : ∀ e ∈ added, OnLists M u task e.1) : Grows h (added ++ h) := by
  refine Grows.append (fun e he => ?_) h
  have hk := (ha e he).kind
  constructor <;> intro hn <;> rw [hn] at hk <;> exact absurd hk (by decide)

theorem all_removeTaskOldStatus (task : Task) :
    (TaskService.removeTaskOldStatus M u task).All (OnLists M u task) := by
  have hr {k : String} (hk : ListOf u task ("_internal:" ++ k)) :
      (TaskService.removeTaskFromListInStorage M u task k).All (OnLists M u task) :=
    TaskService.all_removeTaskFromList ⟨rfl,hk⟩ fun list => ⟨rfl,hk,list,rfl⟩
  exact (hr (.inl rfl)).bind fun _ => hr (.inr rfl)

theorem all_addTaskNewStatus (task : Task) :
    (TaskService.addTaskNewStatus M u task).All (OnLists M u task) := by
  have ha {k : String} (hk : ListOf u task ("_internal:" ++ k)) :
      (TaskService.addTaskToListInStorage M u task k).All (OnLists M u task) :=
    TaskService.all_addTaskToList ⟨rfl,_,hk,by rw [String.append_assoc],rfl⟩ ⟨rfl,hk⟩ ⟨rfl,hk⟩
      fun list => ⟨rfl,hk,list,rfl⟩
  exact (ha (.inl rfl)).bind fun _ => ha (.inr rfl)

theorem Indexes.mono {task : Task} {h' : List TaskEvent} (hi : Indexes M q u task h)
    (hh : h <:+ h') : Indexes M q u task h' := by
  refine hi.imp_right fun hi => ?_
  obtain ⟨request,payload,merged,r,hs,hr,hd,hm⟩ := hi
  exact ⟨request,payload,merged,r,hs,hh.subset hr,hd,hh.subset hm⟩

/-- Work on the lists of a task, by a thread that holds the mutex. -/
theorem traced_lists {α : Type} {p : Service α} {task : Task} (hp : p.All (OnLists M u task))
    (hu : ActsFor q u h) (hh : held h) (hi : Indexes M q u task h) :
    p.Traced (Obligation M q) h fun _ h' => ∃ added, h' = added ++ h ∧
      ∀ e ∈ added, OnLists M u task e.1 := by
  refine Prog.Traced.adds hp fun e added ha he => ?_
  have hs : h <:+ added ++ h := List.suffix_append _ _
  have hheld : held (added ++ h) := (OnLists.held ha).trans hh
  obtain ⟨o,r⟩ := e
  cases o with
  | storageUpdate site u' k payload =>
    cases site with
    | list =>
      obtain ⟨rfl,hk,list,hl⟩ := he
      exact ⟨hu.mono hs,hheld,task,list,hk,hl,hi.mono hs⟩
    | latest =>
      obtain ⟨rfl,listKey,hk,hl,hpay⟩ := he
      exact ⟨hu.mono hs,hheld,task,listKey,hk,hl,hpay,hi.mono hs⟩
    | _ => exact he.elim
  | storageRead u' k => trivial
  | storageContains u' k => trivial
  | _ => exact he.elim

theorem traced_indexTask {task : Task} (hu : ActsFor q u h) (hs : task.status ∈ statuses) :
    (TaskService.indexTask M u task).Traced (Obligation M q) h (Prog.OnOk fun _ h' => Grows h h') := by
  refine Prog.Traced.bracket (A := fun h' => h' = ⟨.lock (.index u task.taskId),()⟩ :: h)
    (B := fun _ h' => Grows h h') ?lock (fun h' hA => ?body) (fun h' => ?release)
    (fun _ h' hB => ?unlock)
  case lock => exact fun w => ⟨trivial,rfl⟩
  case release => exact fun w => ⟨trivial,trivial⟩
  case unlock =>
    exact fun w => ⟨trivial,hB.trans (.cons (by simp [Op.kind]) (by simp [Op.kind]) _)⟩
  case body =>
    subst hA
    have hg : Grows h (⟨.lock (.index u task.taskId),()⟩ :: h) :=
      .cons (by simp [Op.kind]) (by simp [Op.kind]) h
    refine (traced_lists (all_addTaskNewStatus task) (hu.mono hg.1) rfl (.inl hs)).onOk.ok
      fun _ h' hr => ?_
    obtain ⟨added,rfl,ha⟩ := hr
    exact hg.trans (OnLists.grows ha)

theorem traced_checkPrivilegeIn {metadata : Metadata} {privileges : List String}
    (hp : ∀ p ∈ privileges, p ∈ ["user","guest"]) :
    (TaskService.checkPrivilegeIn metadata privileges).Traced (Obligation M q) []
      (Prog.OnOk fun _ h => ∃ u, metadata.userId = some u ∧ h = [⟨.importedUsersContains u,true⟩]) := by
  unfold TaskService.checkPrivilegeIn
  cases metadata.privilege with
  | none => trivial
  | some privilege =>
    show (if privilege ∈ privileges then _ else _ : Service Unit).Traced _ _ _
    split
    · next hm =>
      cases metadata.userId with
      | none => trivial
      | some u =>
        show (if privilege ∈ ["user","guest"] then _ else _ : Service Unit).Traced _ _ _
        rw [if_pos (hp privilege hm)]
        refine fun r => ⟨trivial,?_⟩
        cases r with
        | false => trivial
        | true => exact ⟨u,rfl,rfl⟩
    · trivial

theorem traced_readTask (id : String) :
    (TaskService.readTask M u id).Traced (Obligation M q) h (Prog.OnOk fun task h' =>
      ∃ payload, h' = ⟨.storageRead u (recordKey id),.ok payload⟩ :: h ∧
        M.task.decode payload = some task) := by
  refine fun r => ⟨trivial,?_⟩
  cases r with
  | error e => trivial
  | ok payload =>
    show (unwrap (M.task.decode payload)).Traced _ _ _
    cases hd : M.task.decode payload with
    | none => trivial
    | some task => exact ⟨payload,rfl,hd⟩

theorem Stores.obligation {site : Site} {task : Task} (hs : Stores M q u h site task)
    (hu : ActsFor q u h) (r : Except UpdateError String) : Obligation M q
      (⟨.storageUpdate site u (recordKey task.taskId) (M.task.encode task),r⟩ :: h) := by
  refine ⟨hu,?_⟩
  cases hs with
  | _ => exact ⟨_,rfl,rfl,by constructor <;> assumption⟩

theorem traced_storeTask {site : Site} {task : Task}
    (ho : ∀ r, Obligation M q
      (⟨.storageUpdate site u (recordKey task.taskId) (M.task.encode task),r⟩ :: h)) :
    (TaskService.storeTask M site u task).Traced (Obligation M q) h (Prog.OnOk fun _ h' =>
      ∃ r, h' = ⟨.storageUpdate site u (recordKey task.taskId) (M.task.encode task),r⟩ :: h) := by
  refine fun r => ⟨ho r,?_⟩
  cases r with
  | error e => trivial
  | ok keyPath => exact ⟨.ok keyPath,rfl⟩

theorem traced_generateDecision (a r : Bool) (reason : String) (task : Task) :
    (TaskService.generateDecision a r reason u task).Traced (Obligation M q) h
      (Prog.OnOk fun d h' => ∃ bs, h' = ⟨.makeDecision a r reason u task bs,.ok d⟩ ::
        ⟨.storageRead u "_internal:user_consent",.ok bs⟩ :: h) := by
  refine fun w => ⟨trivial,?_⟩
  cases w with
  | error e => trivial
  | ok bs =>
    refine fun w => ⟨trivial,?_⟩
    cases w with
    | error e => trivial
    | ok d => exact ⟨bs,rfl⟩

/-- The reads of the consent and the making of decisions. -/
def Decides (o : Op) : Prop := Quiet o ∧ ∀ u id, Leaves u (recordKey id) o

theorem decides_read (u : String) : Decides (.storageRead u "_internal:user_consent") := by
  refine ⟨quiet_of_kind .storageRead rfl (by decide),fun u' id he => ?_⟩
  have hl := congrArg String.toList he.2
  simp [recordKey] at hl

theorem traced_setDecision {α : Type} {task : Task} {i : ℕ} {d : Decision} {f : Task → Service α}
    {Q : α → List TaskEvent → Prop} (hf : i < task.decisions.length →
      (f { task with decisions := task.decisions.set i d }).Traced (Obligation M q) h (Prog.OnOk Q)) :
    (TaskService.setDecision task i d >>= f).Traced (Obligation M q) h (Prog.OnOk Q) := by
  unfold TaskService.setDecision
  split_ifs with hi
  · exact hf hi
  · trivial

theorem traced_enterDecision (userDecision : Decision) (task : Task) :
    (TaskService.enterDecision userDecision u task).Traced (Obligation M q) h
      (Prog.OnOk fun task' h' => ∃ ds added, task' = { task with decisions := ds } ∧
        h' = added ++ h ∧ (∀ e ∈ added, Decides e.1) ∧ Entered u userDecision task ds h') := by
  -- `At n ds h'`: the entries before position `n` have been made
  let At (n : ℕ) (ds : List Decision) (h' : List TaskEvent) : Prop :=
    ∀ (j : ℕ) (p : Participant), task.participants[j]? = some p →
      if p.userId = u ∧ j < n then ∃ d, ds[j]? = some d ∧ ∃ task' bs, task'.terms = task.terms ∧
        ⟨.makeDecision userDecision.isApproved userDecision.isRejected userDecision.reason u task'
          bs,.ok d⟩ ∈ h'
      else ds[j]? = task.decisions[j]?
  refine (Prog.Traced.foldlM_zipIdx (J := fun n task' h' => ∃ ds added,
    task' = { task with decisions := ds } ∧ h' = added ++ h ∧ (∀ e ∈ added, Decides e.1) ∧
      ds.length = task.decisions.length ∧ At n ds h')
    (fun n p a h' hp hj => ?round) ?start).ok fun task' h' hr => ?done
  case start => exact ⟨task.decisions,[],rfl,rfl,by simp,rfl,fun j p _ => by simp⟩
  case done =>
    obtain ⟨ds,added,rfl,rfl,hadd,hlen,hat⟩ := hr
    refine ⟨ds,added,rfl,rfl,hadd,hlen,fun j p hp => ?_⟩
    have hj : j < task.participants.length := (List.getElem?_eq_some_iff.mp hp).1
    have hh := hat j p hp
    simpa only [hj,and_true] using hh
  case round =>
    obtain ⟨ds,added,rfl,rfl,hadd,hlen,hat⟩ := hj
    by_cases hu : p.userId = u
    · simp only [hu,if_true]
      refine Prog.Traced.seq (traced_generateDecision _ _ _ _) fun d h' hd => ?_
      obtain ⟨bs,rfl⟩ := hd
      refine Prog.bind_ret (TaskService.setDecision { task with decisions := ds } n d) ▸
        traced_setDecision fun hn => ?_
      refine ⟨ds.set n d,_ :: _ :: added,rfl,rfl,?_,by simp [hlen],fun j p' hp' => ?_⟩
      · intro e he
        simp only [List.mem_cons] at he
        rcases he with rfl | rfl | he
        · exact ⟨quiet_of_kind .makeDecision rfl (by decide),fun _ _ => trivial⟩
        · exact decides_read u
        · exact hadd e he
      · have hh := hat j p' hp'
        by_cases hjn : j = n
        · subst hjn
          rw [hp] at hp'
          obtain rfl := Option.some.inj hp'
          rw [if_pos ⟨hu,Nat.lt_succ_self j⟩]
          refine ⟨d,by simp [hn],{ task with decisions := ds },bs,rfl,?_⟩
          exact List.mem_cons_self ..
        · have hiff : (p'.userId = u ∧ j < n + 1) ↔ (p'.userId = u ∧ j < n) :=
            and_congr_right fun _ => by omega
          have hset : (ds.set n d)[j]? = ds[j]? := List.getElem?_set_ne (Ne.symm hjn)
          rw [hset]
          simp only [hiff]
          split_ifs at hh ⊢ with hc
          · obtain ⟨d',hd',task',bs',ht,hm⟩ := hh
            exact ⟨d',hd',task',bs',ht,by simp [hm]⟩
          · exact hh
    · simp only [hu,if_false]
      refine ⟨ds,added,rfl,rfl,hadd,hlen,fun j p' hp' => ?_⟩
      have hh := hat j p' hp'
      have hiff : (p'.userId = u ∧ j < n + 1) ↔ (p'.userId = u ∧ j < n) := by
        refine and_congr_right fun hu' => ⟨fun hj => ?_,fun hj => by omega⟩
        by_cases hjn : j = n
        · subst hjn
          rw [hp] at hp'
          exact absurd ((congrArg Participant.userId (Option.some.inj hp')).trans hu') hu
        · omega
      simpa only [hiff] using hh

section Taken

variable {request task : Task} {ds : List Decision} {n : ℕ} {p : Participant}

theorem take_succ_of_some {d : Decision} {j : ℕ}
    (hd : (request.decisions.take (n + 1))[j]? = some d) (hj : j ≠ n) :
    (request.decisions.take n)[j]? = some d := by
  rw [List.getElem?_take] at hd ⊢
  split_ifs at hd with hlt
  rwa [if_pos (by omega)]

theorem some_of_take {d : Decision} {j : ℕ} (hd : (request.decisions.take n)[j]? = some d) :
    request.decisions[j]? = some d := by
  rw [List.getElem?_take] at hd
  split_ifs at hd
  exact hd

theorem Taken.skip (ht : Taken u { request with decisions := request.decisions.take n } task ds h)
    (hp : task.participants[n]? = some p)
    (hskip : p.userId ≠ u → request.decisions[n]? = some default) :
    Taken u { request with decisions := request.decisions.take (n + 1) } task ds h where
  length := ht.length
  source j d hd := (ht.source j d hd).imp_right fun hh => by
    obtain ⟨p',hp',hu,hr,hne,hcheck⟩ := hh
    refine ⟨p',hp',hu,?_,hne,hcheck⟩
    rw [List.getElem?_take] at hr ⊢
    split_ifs at hr with hlt
    rwa [if_pos (by omega)]
  carried j p' d hp' hu hd hne := by
    by_cases hj : j = n
    · subst hj
      obtain rfl := Option.some.inj (hp.symm.trans hp')
      have hdef := (some_of_take hd).symm.trans (hskip hu)
      exact absurd (Option.some.inj hdef) hne
    · exact ht.carried j p' d hp' hu (take_succ_of_some hd hj) hne

theorem Taken.set (ht : Taken u { request with decisions := request.decisions.take n } task ds h)
    (hp : task.participants[n]? = some p) (hu : p.userId ≠ u) {d : Decision}
    (hd : request.decisions[n]? = some d) (hne : d ≠ default) (hn : n < ds.length) {task' : Task}
    (hterms : task'.terms = task.terms) :
    Taken u { request with decisions := request.decisions.take (n + 1) } task (ds.set n d)
      (⟨.checkDecision d p.userId task',.ok ()⟩ :: h) where
  length := by rw [List.length_set,ht.length]
  source j d' hd' := by
    by_cases hj : j = n
    · subst hj
      rw [List.getElem?_set_self hn] at hd'
      obtain rfl := Option.some.inj hd'
      have hr : (request.decisions.take (j + 1))[j]? = some d := by
        rwa [List.getElem?_take,if_pos (Nat.lt_succ_self j)]
      exact .inr ⟨p,hp,hu,hr,hne,task',hterms,List.mem_cons_self ..⟩
    · rw [List.getElem?_set_ne (Ne.symm hj)] at hd'
      refine (ht.source j d' hd').imp_right fun hh => ?_
      obtain ⟨p',hp',hu',hr,hne',task'',ht'',hm⟩ := hh
      have hr' : (request.decisions.take (n + 1))[j]? = some d' := by
        rw [List.getElem?_take] at hr ⊢
        split_ifs at hr with hlt
        rwa [if_pos (by omega)]
      exact ⟨p',hp',hu',hr',hne',task'',ht'',List.mem_cons_of_mem _ hm⟩
  carried j p' d' hp' hu' hd' hne' := by
    by_cases hj : j = n
    · subst hj
      rw [List.getElem?_set_self hn,← hd]
      exact some_of_take hd'
    · rw [List.getElem?_set_ne (Ne.symm hj)]
      exact ht.carried j p' d' hp' hu' (take_succ_of_some hd' hj) hne'

theorem Taken.all (ht : Taken u { request with
    decisions := request.decisions.take task.participants.length } task ds h) :
    Taken u request task ds h where
  length := ht.length
  source j d hd := (ht.source j d hd).imp_right fun hh => by
    obtain ⟨p,hp,hu,hr,hne,hcheck⟩ := hh
    exact ⟨p,hp,hu,some_of_take hr,hne,hcheck⟩
  carried j p d hp hu hd hne := by
    refine ht.carried j p d hp hu ?_ hne
    rwa [List.getElem?_take,if_pos (List.getElem?_eq_some_iff.mp hp).1]

end Taken

theorem traced_takeDecisions (request task : Task) :
    (TaskService.takeDecisions u request task).Traced (Obligation M q) h
      (Prog.OnOk fun task' h' => ∃ ds added, task' = { task with decisions := ds } ∧
        h' = added ++ h ∧ (∀ e ∈ added, e.1.kind = .checkDecision) ∧ Taken u request task ds h') := by
  -- after `n` rounds the first `n` decisions have been taken over
  let J (n : ℕ) (task' : Task) (h' : List TaskEvent) : Prop := ∃ ds added,
    task' = { task with decisions := ds } ∧ h' = added ++ h ∧
      (∀ e ∈ added, e.1.kind = .checkDecision) ∧ Taken u { request with
        decisions := request.decisions.take n } task ds h'
  have hrounds : (TaskService.takeDecisions u request task).Traced (Obligation M q) h
      (Prog.OnOk (J task.participants.length)) := by
    refine Prog.Traced.foldlM_zipIdx (J := J) (fun n p a h' hp hj => ?_)
      ⟨task.decisions,[],rfl,rfl,by simp,rfl,fun j d hd => .inl hd,by simp⟩
    obtain ⟨ds,added,rfl,rfl,hadd,htaken⟩ := hj
    by_cases hu : p.userId = u
    · simp only [hu,ne_eq,not_true_eq_false,if_false]
      exact ⟨ds,added,rfl,rfl,hadd,htaken.skip hp fun hne => absurd hu hne⟩
    · simp only [ne_eq,hu,not_false_eq_true,if_true]
      cases hd : request.decisions[n]? with
      | none => trivial
      | some d =>
        show (if d ≠ default then do
            TaskService.checkDecision d p.userId { task with decisions := ds }
            TaskService.setDecision { task with decisions := ds } n d
          else Prog.ret { task with decisions := ds }).Traced _ _ _
        split_ifs with hdef
        · refine fun r => ⟨trivial,?_⟩
          cases r with
          | error e => trivial
          | ok w =>
            refine Prog.bind_ret (TaskService.setDecision { task with decisions := ds } n d) ▸
              traced_setDecision fun hn => ?_
            refine ⟨ds.set n d,_ :: added,rfl,rfl,fun e he => ?_,
              htaken.set hp hu hd hdef hn (Task.terms_decisions task ds)⟩
            rcases List.mem_cons.mp he with rfl | he
            · rfl
            · exact hadd e he
        · have hd' : d = default := Classical.not_not.mp hdef
          exact ⟨ds,added,rfl,rfl,hadd,htaken.skip hp fun _ => hd' ▸ hd⟩
  refine hrounds.ok fun task' h' hh => ?_
  obtain ⟨ds,added,rfl,rfl,hadd,htaken⟩ := hh
  exact ⟨ds,added,rfl,rfl,hadd,htaken.all⟩

theorem traced_queryFromRegistries (target : String) (hu : ActsFor q u h) :
    (TaskService.queryFromRegistries M u target).Traced (Obligation M q) h
      (Prog.OnOk fun _ h' => Grows h h') := by
  refine traced_perform (fun _ => trivial) fun id => traced_perform (fun _ => trivial) fun now => ?_
  refine Prog.Traced.seq (traced_generateDecision _ _ _ _) fun d h' hd => ?_
  obtain ⟨bs,rfl⟩ := hd
  refine traced_setDecision fun _ => ?_
  let h₁ : List TaskEvent := ⟨.makeDecision true false "" u
    (TaskService.registryTask M id u target now) bs,.ok d⟩ ::
    ⟨.storageRead u "_internal:user_consent",.ok bs⟩ :: ⟨.utcNow,now⟩ :: ⟨.newUuid,id⟩ :: h
  have hg : Grows h h₁ := by
    have hh : ∀ e ∈ h₁.take 4, e.1.kind ≠ .post ∧ e.1.kind ≠ .sendersSend := by
      simp [h₁,Op.kind]
    exact Grows.append hh h
  have hin : Introduces id h₁ := by
    refine ⟨h₁.take 3,h,rfl,?_⟩
    simp [h₁,Op.kind]
  have hstore (r : Except UpdateError String) : Obligation M q (⟨.storageUpdate .query u (recordKey id)
      (M.task.encode { TaskService.registryTask M id u target now with decisions := [d] }),r⟩ :: h₁) :=
    (Stores.query hin).obligation (hu.mono hg.1) r
  refine Prog.Traced.seq (traced_storeTask hstore) fun _ h' hr => ?_
  obtain ⟨r,rfl⟩ := hr
  have hg' := hg.trans (.cons (e := ⟨.storageUpdate .query u (recordKey id) (M.task.encode
    { TaskService.registryTask M id u target now with decisions := [d] }),r⟩) (by simp [Op.kind])
    (by simp [Op.kind]) h₁)
  refine (traced_indexTask (hu.mono hg'.1) ?_).mono fun r h' hr => ?_
  · show "started" ∈ statuses
    decide
  · cases r with
    | ok a => exact hg'.trans hr
    | error e => trivial

theorem quiet_userIsKnown (userId queryUserId : String) :
    (TaskService.userIsKnown userId queryUserId).All Quiet :=
  TaskService.all_userIsKnown fun _ => quiet_of_kind .storageRead rfl (by decide)

theorem traced_waitForUserRecord (target : String) (rounds : ℕ) (hu : ActsFor q u h) :
    (TaskService.waitForUserRecord M u target rounds).Traced (Obligation M q) h
      (Prog.OnOk fun _ h' => Grows h h') := by
  induction rounds generalizing h with
  | zero => exact .refl h
  | succ n ih =>
    refine Prog.Traced.seq (traced_grows (quiet_userIsKnown _ _)) fun known h₁ hg => ?_
    split
    · exact hg
    · have hask : (if n = 60 then TaskService.queryFromRegistries M u target else .ret () :
          Service Unit).Traced (Obligation M q) h₁ (Prog.OnOk fun _ h' => Grows h h') := by
        split_ifs
        · refine (traced_queryFromRegistries target (hu.mono hg.1)).ok fun _ h' hr => ?_
          exact hg.trans hr
        · exact hg
      refine Prog.Traced.seq hask fun _ h₂ hg₂ => fun w => ⟨trivial,?_⟩
      have hg₃ : Grows h (⟨.sleep,w⟩ :: h₂) :=
        hg₂.trans (.cons (by simp [Op.kind]) (by simp [Op.kind]) h₂)
      refine (ih (hu.mono hg₃.1)).ok fun _ h' hr => ?_
      exact hg₃.trans hr

theorem traced_queryUserRecord (target : String) (hu : ActsFor q u h) :
    (TaskService.queryUserRecord M u target).Traced (Obligation M q) h
      (Prog.OnOk fun _ h' => Grows h h') := by
  refine Prog.Traced.seq (traced_waitForUserRecord target 61 hu) fun _ h₁ hg => ?_
  refine Prog.Traced.ok (traced_grows ?rest) fun _ h' hr => hg.trans hr
  refine (quiet_read _ _).bind fun bs => (TaskService.all_fromUtf8 bs).bind fun coreAddr => ?_
  refine (quiet_read _ _).bind fun bs => (TaskService.all_fromUtf8 bs).bind fun guestJwt => ?_
  refine (quiet_perform (quiet_of_kind .storageRead rfl (by decide))).bind fun r => ?_
  cases r with
  | error e => trivial
  | ok bs => exact (TaskService.all_fromUtf8 bs).bind fun _ => trivial

def Sent (target : String) (h h' : List TaskEvent) : Prop :=
  h <:+ h' ∧ targets h' = target :: targets h

theorem Grows.sent {target : String} {h h' h'' : List TaskEvent} (hg : Grows h h')
    (hs : Sent target h' h'') : Sent target h h'' := ⟨hg.1.trans hs.1,by rw [hs.2,hg.2]⟩

theorem Sent.grows {target : String} {h h' h'' : List TaskEvent} (hs : Sent target h h')
    (hg : Grows h' h'') : Sent target h h'' := ⟨hs.1.trans hg.1,by rw [hg.2,hs.2]⟩

theorem quiet_grpcConnect (address : String) : (TaskService.grpcConnect address).All Quiet :=
  TaskService.all_grpcConnect (quiet_of_kind .grpcConnect rfl (by decide))

section Sending

variable {target : String} {task : Task}

theorem traced_call {m : Outgoing} (hu : ActsFor q u h)
    (hf : m.forwardingTarget = none ∨ m.forwardingTarget = some m.target)
    (hs : ∀ h', Grows h h' → Sends M q u h' m.target m.task) :
    (TaskService.call m).Traced (Obligation M q) h (Prog.OnOk fun _ h' => Sent m.target h h') := by
  refine Prog.Traced.seq (traced_grows (TaskService.all_checkMetadataValue _)) fun _ h₁ hg => ?_
  refine Prog.Traced.seq (traced_grows (TaskService.all_checkMetadataValue _)) fun _ h₂ hg' => ?_
  have hg₂ := hg.trans hg'
  refine fun id => ⟨⟨hf,u,hu.mono hg₂.1,hs h₂ hg₂⟩,fun r => ⟨trivial,?_⟩⟩
  cases r with
  | error e => trivial
  | ok w =>
    refine hg₂.sent ⟨?_,rfl⟩
    exact (List.suffix_cons _ _).trans (List.suffix_cons _ _)

theorem traced_sendersSend (hu : ActsFor q u h) (hs : Sends M q u h target task) :
    (TaskService.sendersSend u target task).Traced (Obligation M q) h
      (Prog.OnOk fun _ h' => Sent target h h') := by
  refine fun r => ⟨⟨hu,hs⟩,?_⟩
  cases r with
  | error e => trivial
  | ok w => exact ⟨List.suffix_cons _ _,rfl⟩

theorem traced_sendInterCoreSyncTask (hu : ActsFor q u h)
    (hs : ∀ h', Grows h h' → Sends M q u h' target task) :
    (TaskService.sendInterCoreSyncTask M u target task).Traced (Obligation M q) h
      (Prog.OnOk fun _ h' => Sent target h h') := by
  refine traced_perform (fun _ => trivial) fun (connected : Bool) => ?_
  have hg₀ : Grows h (⟨.sendersContains u target,connected⟩ :: h) :=
    .cons (by simp [Op.kind]) (by simp [Op.kind]) h
  have hcall {h₁ : List TaskEvent} (hg : Grows h h₁) (address jwt : String)
      (forwarding : Option String) (hf : forwarding = none ∨ forwarding = some target) :
      (do
        TaskService.grpcConnect address
        TaskService.call ⟨target,address,jwt,forwarding,false,task⟩ : Service Unit).Traced
        (Obligation M q) h₁ (Prog.OnOk fun _ h' => Sent target h h') := by
    refine Prog.Traced.seq (traced_grows (quiet_grpcConnect _)) fun _ h₂ hg' => ?_
    have hg₂ := hg.trans hg'
    refine (traced_call (hu.mono hg₂.1) hf fun h' hh => hs h' (hg₂.trans hh)).ok fun _ h' hr => ?_
    exact hg₂.sent hr
  cases connected with
  | true =>
    refine (traced_sendersSend (hu.mono hg₀.1) (hs _ hg₀)).ok fun _ h' hr => ?_
    exact hg₀.sent hr
  | false =>
    refine Prog.Traced.seq (traced_queryUserRecord target (hu.mono hg₀.1)) fun record h₁ hg => ?_
    obtain ⟨coreAddr,guestJwt,forwardingUserId⟩ := record
    have hg₁ := hg₀.trans hg
    cases forwardingUserId with
    | none => exact hcall hg₁ coreAddr guestJwt none (.inl rfl)
    | some f =>
      refine Prog.Traced.seq (traced_queryUserRecord f (hu.mono hg₁.1)) fun record h₂ hg' => ?_
      refine Prog.Traced.seq (traced_grows (TaskService.all_require _ _)) fun _ h₃ hg'' => ?_
      exact hcall ((hg₁.trans hg').trans hg'') record.1 record.2.1 (some target) (.inr rfl)

theorem traced_sendWithReverseConnection (hu : ActsFor q u h)
    (hs : ∀ h', Grows h h' → Sends M q u h' target task) :
    (TaskService.sendInterCoreSyncTaskWithReverseConnection M u target task).Traced
      (Obligation M q) h (Prog.OnOk fun _ h' => Sent target h h') := by
  refine Prog.Traced.seq (traced_queryUserRecord target hu) fun record h₁ hg₁ => ?_
  obtain ⟨coreAddr,guestJwt,forwardingUserId⟩ := record
  have hcall {h₂ : List TaskEvent} (hg : Grows h h₂) (reverse : Bool) :
      (TaskService.call ⟨target,coreAddr,guestJwt,none,reverse,task⟩).Traced (Obligation M q) h₂
        (Prog.OnOk fun _ h' => Sent target h h') := by
    refine (traced_call (hu.mono hg.1) (.inl rfl) fun h' hh => hs h' (hg.trans hh)).ok fun _ h' hr => ?_
    exact hg.sent hr
  show (if forwardingUserId.isSome then _ else _ : Service Unit).Traced _ _ _
  split
  · refine (traced_sendInterCoreSyncTask (hu.mono hg₁.1) fun h' hh => hs h' (hg₁.trans hh)).ok fun _ h' hr => ?_
    exact hg₁.sent hr
  · refine Prog.Traced.seq (traced_grows (quiet_grpcConnect _)) fun _ h₂ hg₂ => ?_
    refine Prog.Traced.bracket (A := fun h' => Grows h h') (B := fun _ h' => Sent target h h')
      ?lock (fun h' hA => ?body) (fun h' => ?release) (fun _ h' hB => ?unlock)
    case lock =>
      exact fun w => ⟨trivial,(hg₁.trans hg₂).trans (.cons (by simp [Op.kind]) (by simp [Op.kind]) _)⟩
    case release => exact fun w => ⟨trivial,trivial⟩
    case unlock =>
      exact fun w => ⟨trivial,hB.grows (.cons (by simp [Op.kind]) (by simp [Op.kind]) _)⟩
    case body =>
      refine traced_perform (fun _ => trivial) fun (running : Bool) => ?_
      have hg₃ : Grows h (⟨.handlerRunning u target,running⟩ :: h') :=
        hA.trans (.cons (by simp [Op.kind]) (by simp [Op.kind]) _)
      cases running with
      | true => exact hcall hg₃ false
      | false =>
        refine Prog.Traced.seq (hcall hg₃ true) fun _ h₄ hs₄ => fun w => ⟨trivial,?_⟩
        exact hs₄.grows (.cons (by simp [Op.kind]) (by simp [Op.kind]) _)

theorem traced_sendAll {ps : List Participant} {send : Participant → Service Unit}
    (hsend : ∀ p h', h <:+ h' → (targets h').reverse ++ [p.userId] <+: ps.map (·.userId) →
      (send p).Traced (Obligation M q) h' (Prog.OnOk fun _ h'' => Sent p.userId h' h''))
    (hno : targets h = []) :
    (ps.foldlM (fun _ p => send p) () : Service Unit).Traced (Obligation M q) h
      (Prog.OnOk fun _ h' => h <:+ h') := by
  refine (Prog.Traced.foldlM (J := fun is _ h' => h <:+ h' ∧
    (targets h').reverse ++ is.map (·.userId) = ps.map (·.userId))
    (fun p is _ h' hj => ?_) ⟨List.suffix_rfl,by rw [hno]; rfl⟩).ok fun _ _ hr => hr.1
  obtain ⟨hsuf,hto⟩ := hj
  refine (hsend p h' hsuf ?_).ok fun _ h'' hr => ⟨hsuf.trans hr.1,?_⟩
  · rw [← hto]
    exact ⟨is.map (·.userId),by simp⟩
  · rw [hr.2,← hto]
    simp

end Sending

theorem newTask_status (request : Task) (id : String) : (newTask request id).status ∈ statuses := by
  unfold newTask
  dsimp only
  split_ifs <;> decide

theorem traced_createTask (reverse : Bool) {request : Task} (hq : q.call = .createTask request) :
    (TaskService.createTask M reverse q.metadata request).Traced (Obligation M q) []
      (Prog.OnOk fun _ _ => True) := by
  refine Prog.Traced.seq (traced_checkPrivilegeIn (by simp)) fun _ h₀ hh => ?_
  obtain ⟨u,hu,rfl⟩ := hh
  rw [hu]
  have hact : ActsFor q u [⟨.importedUsersContains u,true⟩] := ⟨hu,List.mem_cons_self ..⟩
  refine traced_perform (fun _ => trivial) fun (id : String) => ?_
  refine Prog.Traced.seq (traced_generateDecision true false "" (newTask request id)) fun d h₁ hd => ?_
  obtain ⟨bs,rfl⟩ := hd
  refine traced_setDecision fun hroom => ?_
  let task : Task := { newTask request id with
    decisions := (newTask request id).decisions.set 0 d }
  let h₁ : List TaskEvent := [⟨.makeDecision true false "" u (newTask request id) bs,.ok d⟩,
    ⟨.storageRead u "_internal:user_consent",.ok bs⟩,⟨.newUuid,id⟩,⟨.importedUsersContains u,true⟩]
  have hs₁ : [⟨.importedUsersContains u,true⟩] <:+ h₁ := ⟨h₁.take 3,rfl⟩
  have hlen : 0 < request.participants.length := by
    have hr : 0 < (TaskService.resize request.decisions request.participants.length).length := hroom
    simp only [TaskService.resize,List.length_append,List.length_take,List.length_replicate] at hr
    omega
  have hin : Introduces id h₁ := ⟨h₁.take 2,_,rfl,by simp [h₁,Op.kind]⟩
  have hstore (r : Except UpdateError String) : Obligation M q
      (⟨.storageUpdate .create u (recordKey task.taskId) (M.task.encode task),r⟩ :: h₁) :=
    (Stores.create hq hin (List.mem_cons_self ..) hlen).obligation (hact.mono hs₁) r
  refine Prog.Traced.seq (traced_storeTask hstore) fun _ h₂ hr => ?_
  obtain ⟨r,rfl⟩ := hr
  let h₂ : List TaskEvent :=
    ⟨.storageUpdate .create u (recordKey task.taskId) (M.task.encode task),r⟩ :: h₁
  have hs₂ : [⟨.importedUsersContains u,true⟩] <:+ h₂ := hs₁.trans (List.suffix_cons _ _)
  have hloop : ((task.participants.drop 1).foldlM (fun _ p =>
      if reverse then TaskService.sendInterCoreSyncTaskWithReverseConnection M u p.userId task
      else TaskService.sendInterCoreSyncTask M u p.userId task) () : Service Unit).Traced
      (Obligation M q) h₂ (Prog.OnOk fun _ h => h₂ <:+ h) := by
    refine traced_sendAll (fun p h hsuf hturn => ?_) rfl
    have hu' : ActsFor q u h := hact.mono (hs₂.trans hsuf)
    have hsend (h' : List TaskEvent) (hg : Grows h h') : Sends M q u h' p.userId task :=
      .create hq ((hsuf.trans hg.1).subset (List.mem_cons_self ..)) (by rwa [hg.2])
    split_ifs
    · exact traced_sendWithReverseConnection hu' hsend
    · exact traced_sendInterCoreSyncTask hu' hsend
  refine Prog.Traced.seq hloop fun _ h₃ hs₃ => ?_
  have hindex : (TaskService.indexTask M u task).Traced (Obligation M q) h₃ _ :=
    traced_indexTask (hact.mono (hs₂.trans hs₃)) (newTask_status request id)
  exact Prog.Traced.seq hindex fun _ _ _ => trivial

theorem traced_storeAndList {site : Site} {task : Task} (hs : Stores M q u h site task)
    (hu : ActsFor q u h) (hh : held h) (hst : task.status ∈ statuses) :
    (do
      TaskService.storeTask M site u task
      TaskService.addTaskNewStatus M u task : Service Unit).Traced (Obligation M q) h
      (Prog.OnOk fun _ h' => Grows h h' ∧ ∃ r,
        ⟨.storageUpdate site u (recordKey task.taskId) (M.task.encode task),r⟩ ∈ h') := by
  refine Prog.Traced.seq (traced_storeTask (hs.obligation hu)) fun _ h₁ hr => ?_
  obtain ⟨r,rfl⟩ := hr
  have hg₁ : Grows h (⟨.storageUpdate site u (recordKey task.taskId) (M.task.encode task),r⟩ :: h) :=
    .cons (by simp [Op.kind]) (by simp [Op.kind]) h
  refine (traced_lists (all_addTaskNewStatus task) (hu.mono hg₁.1) hh (.inl hst)).onOk.ok
    fun _ h' hr => ?_
  obtain ⟨added,rfl,ha⟩ := hr
  exact ⟨hg₁.trans (OnLists.grows ha),r,List.mem_append_right _ (List.mem_cons_self ..)⟩

theorem traced_removeTaskOldStatus {task : Task} {k : String} {payload : Bytes}
    (hu : ActsFor q u h) (hh : held h) (hi : Indexes M q u task h)
    (hk : knows u k h = some payload) :
    (TaskService.removeTaskOldStatus M u task).Traced (Obligation M q) h (Prog.OnOk fun _ h' =>
      Grows h h' ∧ held h' ∧ ∀ id, k = recordKey id → ¬ Collides id task.status →
        knows u k h' = some payload) := by
  refine (traced_lists (all_removeTaskOldStatus task) hu hh hi).onOk.ok fun _ h' hr => ?_
  obtain ⟨added,rfl,ha⟩ := hr
  refine ⟨OnLists.grows ha,(OnLists.held ha).trans hh,fun id hid hc => ?_⟩
  subst hid
  rw [knows_append fun e he => (ha e he).leaves hc]
  exact hk

theorem traced_require {α : Type} {b : Bool} {e : Abort} {f : Unit → Service α}
    {Q : α → List TaskEvent → Prop} (hf : b = true → (f ()).Traced (Obligation M q) h (Prog.OnOk Q)) :
    (require b e >>= f).Traced (Obligation M q) h (Prog.OnOk Q) := by
  cases b with
  | false => trivial
  | true => exact hf rfl

theorem traced_locked {α : Type} {s : Section} {body : Service α} {P : α → List TaskEvent → Prop}
    (hb : body.Traced (Obligation M q) (⟨.lock s,()⟩ :: h) (Prog.OnOk P))
    (hP : ∀ a h', P a h' → P a (⟨.unlock s,()⟩ :: h')) :
    (TaskService.locked s body).Traced (Obligation M q) h (Prog.OnOk P) :=
  Prog.Traced.bracket (A := fun h' => h' = ⟨.lock s,()⟩ :: h) (B := P) (fun _ => ⟨trivial,rfl⟩)
    (fun _ hA => hA ▸ hb) (fun _ _ => ⟨trivial,trivial⟩) (fun a h' hB => fun _ => ⟨trivial,hP a h' hB⟩)

theorem confirmedStatus_mem {d : Decision} {status : String}
    (hs : TaskService.userStatus d = .ret status) (task : Task) :
    TaskService.confirmedStatus status task ∈ statuses := by
  have hm : status ∈ statuses := by
    unfold TaskService.userStatus at hs
    split_ifs at hs
    · cases hs
      decide
    · cases hs
      decide
    · cases hs
      decide
    · exact absurd hs (by simp [abort])
  simp only [TaskService.confirmedStatus]
  split_ifs
  · decide
  · exact hm

theorem grows_read (s : Section) (k : String) (payload : Bytes) (h : List TaskEvent) :
    Grows h (⟨.storageRead u k,.ok payload⟩ :: ⟨.lock s,()⟩ :: h) :=
  (Grows.cons (by simp [Op.kind]) (by simp [Op.kind]) h).trans
    (.cons (by simp [Op.kind]) (by simp [Op.kind]) _)

theorem traced_confirmSection {request : ConfirmTaskRequest} {d : Decision} {status : String}
    (hq : q.call = .confirmTask request) (hd : request.decision = some d)
    (hst : TaskService.userStatus d = .ret status) (hu : ActsFor q u h) :
    (TaskService.locked .confirm do
      let task ← TaskService.readTask M u request.taskId
      require (task.status == "waiting")
        (.internal ("Task " ++ task.taskId ++ " has already confirmed."))
      let now ← perform .utcNow
      require (decide (now ≤ task.expirationTime))
        (.internal ("Task " ++ task.taskId ++ " has expired."))
      TaskService.removeTaskOldStatus M u task
      let task ← TaskService.enterDecision d u task
      let task := { task with status := TaskService.confirmedStatus status task }
      TaskService.storeTask M .confirm u task
      TaskService.addTaskNewStatus M u task
      .ret task : Service Task).Traced (Obligation M q) h (Prog.OnOk fun task h' => Grows h h' ∧ ∃ r,
        ⟨.storageUpdate .confirm u (recordKey task.taskId) (M.task.encode task),r⟩ ∈ h') := by
  refine traced_locked ?_ fun task h' hh => ⟨hh.1.trans (.cons (by simp [Op.kind])
    (by simp [Op.kind]) _),hh.2.imp fun r hr => List.mem_cons_of_mem _ hr⟩
  refine Prog.Traced.seq (traced_readTask request.taskId) fun task h₁ hr => ?_
  obtain ⟨payload,rfl,hdec⟩ := hr
  refine traced_require fun hw => traced_perform (fun _ => trivial) fun (now : ℤ) =>
    traced_require fun _ => ?_
  have hwait : task.status = "waiting" := by simpa using hw
  let h₁ : List TaskEvent := ⟨.utcNow,now⟩ ::
    ⟨.storageRead u (recordKey request.taskId),.ok payload⟩ :: ⟨.lock .confirm,()⟩ :: h
  have hg₁ : Grows h h₁ := (grows_read _ _ _ h).trans (.cons (by simp [Op.kind]) (by simp [Op.kind]) _)
  have hk₁ : knows u (recordKey request.taskId) h₁ = some payload := if_pos ⟨rfl,rfl⟩
  have hm₁ : ⟨.storageRead u (recordKey request.taskId),.ok payload⟩ ∈ h₁ := by simp [h₁]
  refine Prog.Traced.seq (traced_removeTaskOldStatus (h := h₁) (hu.mono hg₁.1) rfl
    (.inl (by rw [hwait]; decide)) hk₁) fun _ h₂ hh => ?_
  obtain ⟨hg₂,hheld₂,hk₂⟩ := hh
  refine Prog.Traced.seq (traced_enterDecision d task) fun task' h₃ hh => ?_
  obtain ⟨ds,made,rfl,rfl,hmade,hent⟩ := hh
  have hg₃ : Grows h (made ++ h₂) := (hg₁.trans hg₂).trans (Quiet.grows fun e he => (hmade e he).1)
  have hheld : held (made ++ h₂) := by
    rw [Quiet.held fun e he => (hmade e he).1]
    exact hheld₂
  have hstore : Stores M q u (made ++ h₂) .confirm { task with
      decisions := ds
      status := TaskService.confirmedStatus status { task with decisions := ds } } := by
    refine .confirm hq hd hst hheld ((hg₂.1.trans (List.suffix_append _ _)).subset hm₁)
      (fun hc => ?_) hdec hwait hent
    rw [knows_append fun e he => (hmade e he).2 _ _]
    exact hk₂ _ rfl hc
  show (TaskService.storeTask M .confirm u _ >>= fun _ => TaskService.addTaskNewStatus M u _ >>=
    fun _ => Prog.ret _).Traced _ _ _
  rw [← Prog.bind_assoc]
  refine Prog.Traced.seq (traced_storeAndList hstore (hu.mono hg₃.1) hheld
    (confirmedStatus_mem hst _)) fun _ h₄ hh => ?_
  exact ⟨hg₃.trans hh.1,hh.2⟩

theorem traced_confirmTask {request : ConfirmTaskRequest} (hq : q.call = .confirmTask request) :
    (TaskService.confirmTask M q.metadata request).Traced (Obligation M q) []
      (Prog.OnOk fun _ _ => True) := by
  refine Prog.Traced.seq (traced_checkPrivilegeIn (by simp)) fun _ h₀ hh => ?_
  obtain ⟨u,hu,rfl⟩ := hh
  rw [hu]
  have hact : ActsFor q u [⟨.importedUsersContains u,true⟩] := ⟨hu,List.mem_cons_self ..⟩
  cases hd : request.decision with
  | none => trivial
  | some d =>
    show (TaskService.userStatus d >>= _).Traced _ _ _
    cases hst : TaskService.userStatus d with
    | fail e => trivial
    | call o k =>
      unfold TaskService.userStatus at hst
      split_ifs at hst
      exact absurd hst (by simp [abort])
    | ret status =>
      rw [Prog.ret_bind]
      refine Prog.Traced.seq (traced_confirmSection hq hd hst hact) fun task h hh => ?_
      obtain ⟨hg,r,hr⟩ := hh
      show (if task.requireAgreement && status ≠ "ignored" then _ else Prog.ret () :
        Service Unit).Traced _ _ _
      split_ifs
      · cases hp : task.participants[0]? with
        | none => trivial
        | some initiator =>
          exact (traced_sendInterCoreSyncTask (hact.mono hg.1) fun h' hh =>
            .confirm (hh.1.subset hr) hp).ok fun _ _ _ => trivial
      · trivial

theorem traced_finishTask {request : Task} (hq : q.call = .finishTask request) :
    (TaskService.finishTask M q.metadata request).Traced (Obligation M q) []
      (Prog.OnOk fun _ _ => True) := by
  refine Prog.Traced.seq (traced_checkPrivilegeIn (by simp)) fun _ h₀ hh => ?_
  obtain ⟨u,hu,rfl⟩ := hh
  rw [hu]
  have hact : ActsFor q u [⟨.importedUsersContains u,true⟩] := ⟨hu,List.mem_cons_self ..⟩
  refine traced_locked ?_ fun _ _ _ => trivial
  refine Prog.Traced.seq (traced_readTask request.taskId) fun task h₁ hr => ?_
  obtain ⟨payload,rfl,hdec⟩ := hr
  refine traced_require fun hw => ?_
  have hstart : task.status = "started" := by simpa using hw
  have hg₁ := grows_read (u := u) .finish (recordKey request.taskId) payload
    [⟨.importedUsersContains u,true⟩]
  refine Prog.Traced.seq (traced_removeTaskOldStatus (hact.mono hg₁.1) rfl
    (.inl (by rw [hstart]; decide)) (if_pos ⟨rfl,rfl⟩)) fun _ h₂ hh => ?_
  obtain ⟨hg₂,hheld₂,hk₂⟩ := hh
  have hstore : Stores M q u h₂ .finish { task with status := "finished" } :=
    .finish hq hheld₂ (hg₂.1.subset (List.mem_cons_self ..)) (hk₂ _ rfl) hdec hstart
  have hfin : "finished" ∈ statuses := by decide
  exact (traced_storeAndList hstore (hact.mono (hg₁.trans hg₂).1) hheld₂ hfin).ok
    fun _ _ _ => trivial

section Sync

variable {request : Task}

theorem traced_admitTask (hq : q.call.synced = some request)
    (hf : q.metadata.forwardingTarget = none) (hu : q.metadata.userId = some u) :
    (TaskService.admitTask M u request).Traced (Obligation M q)
      [⟨.storageContains u (recordKey request.taskId),false⟩,⟨.importedUsersContains u,true⟩]
      (Prog.OnOk fun _ _ => True) := by
  unfold TaskService.admitTask
  cases hd : request.decisions[0]? with
  | none => trivial
  | some d =>
    cases hp : request.participants[0]? with
    | none => trivial
    | some p =>
      refine fun r => ⟨trivial,?_⟩
      cases r with
      | error e => trivial
      | ok w =>
        refine traced_require fun happ => ?_
        let h₁ : List TaskEvent := [⟨.checkDecision d p.userId request,.ok ()⟩,
          ⟨.storageContains u (recordKey request.taskId),false⟩,⟨.importedUsersContains u,true⟩]
        have hact : ActsFor q u h₁ := ⟨hu,by simp [h₁]⟩
        have hstore : Stores M q u h₁ .admission { request with status := "waiting" } :=
          .admission hq hf hp hd happ rfl
        refine Prog.Traced.seq (traced_storeTask (hstore.obligation hact)) fun _ h₂ hr => ?_
        obtain ⟨r,rfl⟩ := hr
        have hwait : "waiting" ∈ statuses := by decide
        exact (traced_indexTask (hact.mono (List.suffix_cons _ _)) hwait).ok fun _ _ _ => trivial

/-- The events of a thread that has read a record in order to merge decisions into it. -/
theorem traced_mergeDecisions (hq : q.call.synced = some request)
    (hf : q.metadata.forwardingTarget = none) (hu : ActsFor q u h) :
    (TaskService.mergeDecisions M u request).Traced (Obligation M q) h
      (Prog.OnOk fun task h' => Grows h h' ∧ ∃ r,
        ⟨.storageUpdate .merge u (recordKey task.taskId) (M.task.encode task),r⟩ ∈ h') := by
  refine traced_locked ?_ fun task h' hh => ⟨hh.1.trans (.cons (by simp [Op.kind])
    (by simp [Op.kind]) _),hh.2.imp fun r hr => List.mem_cons_of_mem _ hr⟩
  refine Prog.Traced.seq (traced_readTask request.taskId) fun task h₁ hr => ?_
  obtain ⟨payload,rfl,hdec⟩ := hr
  refine traced_require fun hagree => traced_perform (fun _ => trivial) fun (now : ℤ) =>
    traced_require fun _ => ?_
  let h₁ : List TaskEvent := ⟨.utcNow,now⟩ ::
    ⟨.storageRead u (recordKey request.taskId),.ok payload⟩ :: ⟨.lock .merge,()⟩ :: h
  have hg₁ : Grows h h₁ := (grows_read _ _ _ h).trans (.cons (by simp [Op.kind]) (by simp [Op.kind]) _)
  have hm₁ : ⟨.storageRead u (recordKey request.taskId),.ok payload⟩ ∈ h₁ := by simp [h₁]
  refine Prog.Traced.seq (traced_takeDecisions (h := h₁) request task) fun task' h₂ hh => ?_
  obtain ⟨ds,checks,rfl,rfl,hchecks,htaken⟩ := hh
  have hquiet : ∀ e ∈ checks, Quiet e.1 := fun e he => quiet_of_kind .checkDecision (hchecks e he) (by decide)
  have hleaves : ∀ e ∈ checks, Leaves u (recordKey request.taskId) e.1 := by
    intro e he
    have hk := hchecks e he
    obtain ⟨o,r⟩ := e
    cases o <;> simp [Op.kind] at hk
    trivial
  have hg₂ : Grows h (checks ++ h₁) := hg₁.trans (Quiet.grows hquiet)
  have hstore : Stores M q u (checks ++ h₁) .merge { task with decisions := ds } := by
    refine .merge hq hf ?_ (List.mem_append_right _ hm₁) ?_ hdec hagree htaken
    · rw [Quiet.held hquiet]
      rfl
    · rw [knows_append hleaves]
      exact if_pos ⟨rfl,rfl⟩
  refine Prog.Traced.seq (traced_storeTask (hstore.obligation (hu.mono hg₂.1))) fun _ h₃ hr => ?_
  obtain ⟨r,rfl⟩ := hr
  exact ⟨hg₂.trans (.cons (by simp [Op.kind]) (by simp [Op.kind]) _),r,List.mem_cons_self ..⟩

theorem traced_changeStatus (hq : q.call.synced = some request)
    (hf : q.metadata.forwardingTarget = none) (hu : ActsFor q u h) {merged : Task}
    {r : Except UpdateError String}
    (hm : ⟨.storageUpdate .merge u (recordKey merged.taskId) (M.task.encode merged),r⟩ ∈ h)
    (hopen : merged.status ≠ "started" ∧ merged.status ≠ "rejected")
    (hv : TaskService.isDecided merged) :
    (TaskService.changeStatus M u request (TaskService.anyoneRejected merged)).Traced
      (Obligation M q) h (Prog.OnOk fun task h' => Grows h h' ∧ ∃ r,
        ⟨.storageUpdate .decide u (recordKey task.taskId) (M.task.encode task),r⟩ ∈ h') := by
  refine traced_locked ?_ fun task h' hh => ⟨hh.1.trans (.cons (by simp [Op.kind])
    (by simp [Op.kind]) _),hh.2.imp fun r hr => List.mem_cons_of_mem _ hr⟩
  refine Prog.Traced.seq (traced_readTask request.taskId) fun task h₁ hr => ?_
  obtain ⟨payload,rfl,hdec⟩ := hr
  let h₁ : List TaskEvent :=
    ⟨.storageRead u (recordKey request.taskId),.ok payload⟩ :: ⟨.lock .decide,()⟩ :: h
  have hg₁ : Grows h h₁ := grows_read _ _ _ h
  have hread : ⟨.storageRead u (recordKey request.taskId),.ok payload⟩ ∈ h₁ := by simp [h₁]
  have hidx : Indexes M q u task h₁ :=
    .inr ⟨request,payload,merged,r,hq,hread,hdec,hg₁.1.subset hm⟩
  refine Prog.Traced.seq (traced_removeTaskOldStatus (hu.mono hg₁.1) rfl hidx
    (if_pos ⟨rfl,rfl⟩)) fun _ h₂ hh => ?_
  obtain ⟨hg₂,hheld₂,hk₂⟩ := hh
  have hg := hg₁.trans hg₂
  have hstore : Stores M q u h₂ .decide { task with
      status := if TaskService.anyoneRejected merged then "rejected" else "started" } :=
    .decide hq hf hheld₂ (hg₂.1.subset hread) (hk₂ _ rfl) hdec (hg.1.subset hm) hopen hv
  have hst : (if TaskService.anyoneRejected merged then "rejected" else "started") ∈ statuses := by
    split_ifs <;> decide
  show (TaskService.storeTask M .decide u _ >>= fun _ => TaskService.addTaskNewStatus M u _ >>=
    fun _ => Prog.ret _).Traced _ _ _
  rw [← Prog.bind_assoc]
  refine Prog.Traced.seq (traced_storeAndList hstore (hu.mono hg.1) hheld₂ hst) fun _ h₄ hh => ?_
  exact ⟨hg.trans hh.1,hh.2⟩

theorem traced_broadcast (hu : ActsFor q u h) {task : Task} {r : Except UpdateError String}
    (hm : ⟨.storageUpdate .decide u (recordKey task.taskId) (M.task.encode task),r⟩ ∈ h)
    (hno : targets h = []) :
    (TaskService.broadcast M u task).Traced (Obligation M q) h (Prog.OnOk fun _ _ => True) := by
  unfold TaskService.broadcast
  cases hp : task.participants[0]? with
  | none => trivial
  | some initiator =>
    show (if initiator.userId = u ∧ 2 < task.participants.length then _ else _ :
      Service Unit).Traced _ _ _
    split_ifs with hc
    · refine (traced_sendAll (fun p h' hsuf hturn => ?_) hno).ok fun _ _ _ => trivial
      exact traced_sendInterCoreSyncTask (hu.mono hsuf) fun h'' hg =>
        .broadcast ((hsuf.trans hg.1).subset hm) hp hc.1 (by rwa [hg.2])
    · trivial

theorem traced_forward {target : String} (hq : q.call.synced = some request)
    (hf : q.metadata.forwardingTarget = some ⟨some target⟩) (hu : ActsFor q u h) (hno : targets h = []) :
    (TaskService.forwardInterCoreSyncTask u target request).Traced (Obligation M q) h
      (Prog.OnOk fun _ _ => True) := by
  refine traced_perform (fun _ => trivial) fun (connected : Bool) => ?_
  cases connected with
  | false => trivial
  | true =>
    have hno' : targets (⟨.sendersContains u target,true⟩ :: h) = [] := hno
    exact (traced_sendersSend (hu.mono (List.suffix_cons _ _)) (.forward hq hf hno')).ok
      fun _ _ _ => trivial

theorem traced_interCoreSyncTask (hq : q.call.synced = some request) :
    (TaskService.interCoreSyncTask M q.metadata request).Traced (Obligation M q) []
      (Prog.OnOk fun _ _ => True) := by
  refine Prog.Traced.seq (traced_checkPrivilegeIn (by simp)) fun _ h₀ hh => ?_
  obtain ⟨u,hu,rfl⟩ := hh
  rw [hu]
  have hact : ActsFor q u [⟨.importedUsersContains u,true⟩] := ⟨hu,List.mem_cons_self ..⟩
  cases hf : q.metadata.forwardingTarget with
  | some value =>
    obtain ⟨_ | target⟩ := value
    · trivial
    · exact traced_forward hq hf hact rfl
  | none =>
    refine traced_perform (o := .storageContains u (recordKey request.taskId)) (fun _ => trivial)
      fun (present : Bool) => ?_
    cases present with
    | false => exact traced_admitTask hq hf hu
    | true =>
      have hact' := hact.mono (List.suffix_cons ⟨.storageContains u (recordKey request.taskId),true⟩ _)
      show (TaskService.mergeDecisions M u request >>= _).Traced _ _ _
      refine Prog.Traced.seq (traced_mergeDecisions hq hf hact') fun task h₁ hh => ?_
      obtain ⟨hg₁,r,hm⟩ := hh
      split_ifs with hc hv
      · trivial
      · refine Prog.Traced.seq (traced_changeStatus hq hf (hact'.mono hg₁.1) hm (not_or.mp hc) hv)
          fun task' h₂ hh => ?_
        obtain ⟨hg₂,r',hm'⟩ := hh
        exact traced_broadcast (hact'.mono (hg₁.trans hg₂).1) hm' (hg₁.trans hg₂).2
      · trivial

end Sync

theorem traced_handle (D : Deployment) (q : Request) :
    (D.handle q).Traced (Obligation D.prost q) [] (Prog.OnOk fun _ _ => True) := by
  unfold Deployment.handle
  cases hq : q.call with
  | createTask task =>
    exact Prog.Traced.seq (traced_createTask _ hq) fun _ _ _ => trivial
  | confirmTask request => exact traced_confirmTask hq
  | finishTask task => exact traced_finishTask hq
  | interCoreSyncTask task => exact traced_interCoreSyncTask (by rw [hq]; rfl)
  | interCoreSyncTaskWithReverseConnection task =>
    show (unwrap q.metadata.userId >>= _).Traced _ _ _
    cases q.metadata.userId with
    | none => trivial
    | some u =>
      show (unwrap task.participants[0]? >>= _).Traced _ _ _
      cases task.participants[0]? with
      | none => trivial
      | some receiver =>
        show (TaskService.interCoreSyncTask D.prost q.metadata task >>= _).Traced _ _ _
        exact Prog.Traced.seq (traced_interCoreSyncTask (by rw [hq]; rfl)) fun _ _ _ =>
          fun _ => ⟨trivial,trivial⟩

theorem traced_serve (D : Deployment) (q : Request) :
    (D.serve q).Traced (Obligation D.prost q) [] fun _ _ => True := by
  refine Prog.Traced.bind (Prog.Traced.attempt ((traced_handle D q).mono fun r h _ => ?_))
  exact fun _ => ⟨trivial,Prog.Traced.ofExcept trivial⟩

theorem obligation {D : Deployment} {c : Config Op Res Abort Request Unit World} (hc : D.Reach c)
    {t : ℕ} {q : Request} {o : Op} {r : Res o} {h : List (Action Op Res Request)}
    (hs : .op t q o r :: h <:+ c.state.history) : Obligation D.prost q (⟨o,r⟩ :: events t h) :=
  hc.traced_op (traced_serve D) hs

end TaskTraces
end CoLinkServer
