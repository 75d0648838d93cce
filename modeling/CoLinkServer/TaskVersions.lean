import CoLinkServer.TaskRecords

/-! The versions of a record. New ids are unused until the record that they are for is stored,
and as long as no delivery overtakes another one between its check and its write, a record is
only written anew where there is none and changed under the mutex. -/
namespace CoLinkServer

open Interleaving

namespace TaskRecords

open TaskTraces

variable {D : Deployment} {c : TaskConfig} {i t : ℕ} {q : Request} {u k : String}
  {h : List TaskAction}

/-- No task is admitted whose id makes its record a status list. -/
def Tidy (w : Write) (_ : List TaskAction) : Prop := w.site = .admission → w.key ∉ reservedKeys

instance (w : Write) (h : List TaskAction) : Decidable (Tidy w h) :=
  inferInstanceAs (Decidable (_ → _ ∉ _))

abbrev KeptWrite (M : Prost) (w : Write) (_ : List TaskAction) : Prop := Kept M w.user w.site w.key w.payload

theorem kept_of_read (hc : D.Reach c) (hh : h <:+ c.state.history)
    (hk : Everywhere (OnWrites (KeptWrite D.prost)) h) (hu : NoColon u) {id : String}
    {payload : Bytes} (hm : ⟨.storageRead u (recordKey id),.ok payload⟩ ∈ events t h) :
    ∃ site, Kept D.prost u site (recordKey id) payload := by
  obtain ⟨q,hm⟩ := mem_events.mp hm
  obtain ⟨past,hs⟩ := suffix_of_mem hm
  have hst := stored_of_read hc hu (guarded_recordKey id) (hs.trans hh)
  obtain ⟨t',q',site,r,past',-,hw⟩ := write_of_stored hst
  exact ⟨site,everywhere_writes hk (hw.trans ((List.suffix_cons _ _).trans hs))⟩

/-- What decodes to a task with a status was kept as that task. -/
theorem task_of_kept {M : Prost} {site : Site} {id : String} {payload : Bytes} {task : Task}
    (hk : Kept M u site (recordKey id) payload) (hd : M.task.decode payload = some task)
    (hne : task.status ≠ "" ∨ task.requireAgreement ∨ ¬ Reserved id) :
    payload = M.task.encode task ∧ task.taskId = id ∧ task.status ∈ statuses ∧ ¬ Reserved id := by
  have hlist {task' : Task} {k : String} (hl : ListOf u task' k) (hs : task'.status ∈ statuses)
      (he : k = recordKey id ∨ k ++ ":latest" = recordKey id) : Reserved id := by
    refine ⟨task'.status,hs,Classical.by_contradiction fun hc => ?_⟩
    have hn := hl.ne_recordKey hc
    exact he.elim hn.1 hn.2
  have hrecord (hr : ∃ task, recordKey id = recordKey task.taskId ∧ payload = M.task.encode task ∧
      task.status ∈ statuses ∧ ¬ Reserved task.taskId) : payload = M.task.encode task ∧
      task.taskId = id ∧ task.status ∈ statuses ∧ ¬ Reserved id := by
    obtain ⟨task',hkey,rfl,hs,hres⟩ := hr
    rw [M.task.decode_encode] at hd
    obtain rfl := Option.some.inj hd
    rw [recordKey_inj] at hkey
    exact ⟨rfl,hkey.symm,hs,hkey ▸ hres⟩
  cases site with
  | list =>
    obtain ⟨task',list,hl,hs,rfl⟩ := hk
    have hlaw := M.taskIdList_as_task list task hd
    rcases hne with hn | hn | hn
    · exact absurd hlaw.1 hn
    · exact absurd hn (by simp [hlaw.2])
    · exact absurd (hlist hl hs (.inl rfl)) hn
  | latest =>
    obtain ⟨task',listKey,hl,hs,hkey,rfl⟩ := hk
    rw [M.task.decode_encode] at hd
    obtain rfl := Option.some.inj hd
    rcases hne with hn | hn | hn
    · exact absurd rfl hn
    · exact absurd hn (by simp)
    · exact absurd (hlist hl hs (.inr hkey.symm)) hn
  | _ => exact hrecord hk

theorem uuid_noColon (hc : D.Reach c) {id : String} (hh : h <:+ c.state.history)
    (hi : Introduces id (events t h)) : NoColon id := by
  obtain ⟨added,before,he,-⟩ := hi
  have hm : ⟨.newUuid,id⟩ ∈ events t h := by
    rw [he]
    exact List.mem_append_right _ (List.mem_cons_self ..)
  obtain ⟨q,hm⟩ := mem_events.mp hm
  obtain ⟨past,hs⟩ := suffix_of_mem hm
  obtain ⟨c₀,x,-,-,-,does⟩ := exec_before hc (hs.trans hh)
  cases does with
  | newUuid id format fresh => exact format

theorem not_reserved_of_noColon {id : String} (hn : NoColon id) : ¬ Reserved id := by
  rintro ⟨s,-,rfl | rfl⟩
  · exact hn (by simp)
  · exact hn (by simp)

theorem merged_not_reserved (hc : D.Reach c) (hh : h <:+ c.state.history)
    (hk : Everywhere (OnWrites (KeptWrite D.prost)) h) {o : Op} {r : Res o}
    (hs : .op t q o r :: h <:+ c.state.history) {request merged : Task}
    (hsync : q.call.synced = some request) {r' : Except UpdateError String}
    (hm : ⟨.storageUpdate .merge u (recordKey merged.taskId) (D.prost.task.encode merged),r'⟩ ∈
      events t h) : ¬ Reserved request.taskId := by
  obtain ⟨q',hm⟩ := mem_events.mp hm
  obtain rfl : q' = q := hc.same_request (hs.subset (List.mem_cons_of_mem _ hm))
    (hs.subset (List.mem_cons_self ..))
  obtain ⟨past,hp⟩ := suffix_of_mem hm
  obtain ⟨hu,task,-,-,hst⟩ := obligation hc (hp.trans hh)
  cases hst with
  | @merge request' task' payload ds sync direct holds read known decoded agreement taken =>
    obtain rfl := Option.some.inj (sync.symm.trans hsync)
    have hpast : past <:+ h := (List.suffix_cons _ _).trans hp
    obtain ⟨site,hkept⟩ := kept_of_read hc (hpast.trans hh) (hk.suffix hpast)
      (writer_noColon hc (hp.trans hh)) read
    exact (task_of_kept hkept decoded (.inr (.inl agreement))).2.2.2

theorem registryTask_status {M : Prost} {id target : String} {now : ℤ} {d : Decision} :
    { TaskService.registryTask M id u target now with decisions := [d] }.status ∈ statuses := by
  show "started" ∈ statuses
  decide

/-- Every write keeps the kinds of keys and the statuses apart. -/
theorem kept (hc : D.Reach c) (htidy : Everywhere (OnWrites Tidy) c.state.history) :
    Everywhere (OnWrites (KeptWrite D.prost)) c.state.history := by
  refine everywhere_of_write fun t q site u k payload r past hs hk => ?_
  have hu := writer_noColon hc hs
  have hpast : past <:+ c.state.history := (List.suffix_cons _ _).trans hs
  have hob := obligation hc hs
  have hstatus {task : Task} (hi : Indexes D.prost q u task (events t past)) :
      task.status ∈ statuses := by
    rcases hi with hi | ⟨request,payload,merged,r',hsync,hread,hdec,hm⟩
    · exact hi
    · obtain ⟨site,hkept⟩ := kept_of_read hc hpast hk hu hread
      exact (task_of_kept hkept hdec (.inr (.inr (merged_not_reserved hc hpast hk hs hsync hm)))).2.2.1
  cases site with
  | list =>
    obtain ⟨-,-,task,list,hl,he,hi⟩ := hob
    exact ⟨task,list,hl,hstatus hi,he⟩
  | latest =>
    obtain ⟨-,-,task,listKey,hl,hkey,he,hi⟩ := hob
    exact ⟨task,listKey,hl,hstatus hi,hkey,he⟩
  | create =>
    obtain ⟨-,task,hkey,he,hst⟩ := hob
    refine ⟨task,hkey,he,?_⟩
    cases hst with
    | @create request id bs d call introduced made room =>
      exact ⟨newTask_status request id,not_reserved_of_noColon (uuid_noColon hc hpast introduced)⟩
  | query =>
    obtain ⟨-,task,hkey,he,hst⟩ := hob
    refine ⟨task,hkey,he,?_⟩
    cases hst with
    | query introduced =>
      exact ⟨registryTask_status,not_reserved_of_noColon (uuid_noColon hc hpast introduced)⟩
  | admission =>
    have htidy := everywhere_writes htidy hs rfl
    obtain ⟨-,task,hkey,he,hst⟩ := hob
    refine ⟨task,hkey,he,?_,fun hres => htidy ?_⟩
    · cases hst with
      | admission => exact List.mem_cons_self ..
    · rw [hkey]
      exact recordKey_mem_reservedKeys.mpr hres
  | merge =>
    obtain ⟨-,task,hkey,he,hst⟩ := hob
    refine ⟨task,hkey,he,?_⟩
    cases hst with
    | @merge request task payload ds sync direct holds read known decoded agreement taken =>
      obtain ⟨site,hkept⟩ := kept_of_read hc hpast hk hu read
      have hh := task_of_kept hkept decoded (.inr (.inl agreement))
      exact ⟨hh.2.2.1,hh.2.1 ▸ hh.2.2.2⟩
  | decide =>
    obtain ⟨-,task,hkey,he,hst⟩ := hob
    refine ⟨task,hkey,he,?_⟩
    cases hst with
    | @decide request task merged payload r' sync direct holds read known decoded stored undecided verdict =>
      obtain ⟨site,hkept⟩ := kept_of_read hc hpast hk hu read
      have hh := task_of_kept hkept decoded
        (.inr (.inr (merged_not_reserved hc hpast hk hs sync stored)))
      refine ⟨?_,hh.2.1 ▸ hh.2.2.2⟩
      dsimp only
      split_ifs <;> decide
  | confirm =>
    obtain ⟨-,task,hkey,he,hst⟩ := hob
    refine ⟨task,hkey,he,?_⟩
    cases hst with
    | @confirm request ud status task payload ds call decision reported holds read known decoded waiting entered =>
      obtain ⟨site,hkept⟩ := kept_of_read hc hpast hk hu read
      have hh := task_of_kept hkept decoded (.inl (by rw [waiting]; decide))
      exact ⟨confirmedStatus_mem reported _,hh.2.1 ▸ hh.2.2.2⟩
  | finish =>
    obtain ⟨-,task,hkey,he,hst⟩ := hob
    refine ⟨task,hkey,he,?_⟩
    cases hst with
    | @finish request task payload call holds read known decoded started =>
      obtain ⟨site,hkept⟩ := kept_of_read hc hpast hk hu read
      have hh := task_of_kept hkept decoded (.inl (by rw [started]; decide))
      have hfin : "finished" ∈ statuses := by decide
      exact ⟨hfin,hh.2.1 ▸ hh.2.2.2⟩

theorem taskId_of_synced {request : Task} (hq : q.call.synced = some request) :
    q.call.taskId = request.taskId := by
  cases hcall : q.call with
  | interCoreSyncTask task =>
    rw [hcall] at hq
    exact congrArg Task.taskId (Option.some.inj hq)
  | interCoreSyncTaskWithReverseConnection task =>
    rw [hcall] at hq
    exact congrArg Task.taskId (Option.some.inj hq)
  | _ =>
    rw [hcall] at hq
    cases hq

/-- Who writes the record of an id: a handler that was asked for it, or one that has just
generated it. A list is only in the way of a reserved id. -/
theorem writer_of_record (hc : D.Reach c)
    (hk : Everywhere (OnWrites (KeptWrite D.prost)) c.state.history) {site : Site} {id : String}
    {payload : Bytes} {r : Except UpdateError String}
    (hs : .op t q (.storageUpdate site u (recordKey id) payload) r :: h <:+ c.state.history) :
    (site ∉ [Site.list,.latest,.create,.query] ∧ q.call.taskId = id) ∨
      (site ∈ [Site.create,.query] ∧ Introduces id (events t h)) ∨
      (site ∈ [Site.list,.latest] ∧ Reserved id) := by
  have hu := writer_noColon hc hs
  have hob := obligation hc hs
  have hkept := everywhere_writes hk hs
  have hh : h <:+ c.state.history := (List.suffix_cons _ _).trans hs
  replace hk := hk.suffix hh
  have hlist {task : Task} {listKey : String} (hl : ListOf u task listKey)
      (hst : task.status ∈ statuses)
      (hkey : listKey = recordKey id ∨ listKey ++ ":latest" = recordKey id) : Reserved id := by
    refine ⟨task.status,hst,Classical.by_contradiction fun hcol => ?_⟩
    have hn := hl.ne_recordKey hcol
    exact hkey.elim hn.1 hn.2
  cases site with
  | list =>
    obtain ⟨task,list,hl,hst,-⟩ := hkept
    exact .inr (.inr ⟨by simp,hlist hl hst (.inl rfl)⟩)
  | latest =>
    obtain ⟨task,listKey,hl,hst,hkey,-⟩ := hkept
    exact .inr (.inr ⟨by simp,hlist hl hst (.inr hkey.symm)⟩)
  | create =>
    obtain ⟨-,task,hkey,he,hst⟩ := hob
    rw [recordKey_inj] at hkey
    cases hst with
    | create call introduced made room => exact .inr (.inl ⟨by simp,hkey ▸ introduced⟩)
  | query =>
    obtain ⟨-,task,hkey,he,hst⟩ := hob
    rw [recordKey_inj] at hkey
    cases hst with
    | query introduced => exact .inr (.inl ⟨by simp,hkey ▸ introduced⟩)
  | admission =>
    obtain ⟨-,task,hkey,he,hst⟩ := hob
    rw [recordKey_inj] at hkey
    cases hst with
    | admission sync => exact .inl ⟨by simp,(taskId_of_synced sync).trans hkey.symm⟩
  | merge =>
    obtain ⟨-,task,hkey,he,hst⟩ := hob
    rw [recordKey_inj] at hkey
    cases hst with
    | @merge request task payload ds sync direct holds read known decoded agreement taken =>
      obtain ⟨site,hkept⟩ := kept_of_read hc hh hk hu read
      have hid := (task_of_kept hkept decoded (.inr (.inl agreement))).2.1
      exact .inl ⟨by simp,(taskId_of_synced sync).trans (hid.symm.trans hkey.symm)⟩
  | decide =>
    obtain ⟨-,task,hkey,he,hst⟩ := hob
    rw [recordKey_inj] at hkey
    cases hst with
    | @decide request task merged payload r' sync direct holds read known decoded stored undecided verdict =>
      obtain ⟨site,hkept⟩ := kept_of_read hc hh hk hu read
      have hres := merged_not_reserved hc hh hk hs sync stored
      have hid := (task_of_kept hkept decoded (.inr (.inr hres))).2.1
      exact .inl ⟨by simp,(taskId_of_synced sync).trans (hid.symm.trans hkey.symm)⟩
  | confirm =>
    obtain ⟨-,task,hkey,he,hst⟩ := hob
    rw [recordKey_inj] at hkey
    cases hst with
    | @confirm request ud status task payload ds call decision reported holds read known decoded waiting entered =>
      obtain ⟨site,hkept⟩ := kept_of_read hc hh hk hu read
      have hid := (task_of_kept hkept decoded (.inl (by rw [waiting]; decide))).2.1
      exact .inl ⟨by simp,by rw [call]; exact hid.symm.trans hkey.symm⟩
  | finish =>
    obtain ⟨-,task,hkey,he,hst⟩ := hob
    rw [recordKey_inj] at hkey
    cases hst with
    | @finish request task payload call holds read known decoded started =>
      obtain ⟨site,hkept⟩ := kept_of_read hc hh hk hu read
      have hid := (task_of_kept hkept decoded (.inl (by rw [started]; decide))).2.1
      exact .inl ⟨by simp,by rw [call]; exact hid.symm.trans hkey.symm⟩

theorem asked_of_write (hc : D.Reach c)
    (hk : Everywhere (OnWrites (KeptWrite D.prost)) c.state.history) {site : Site} {id : String}
    {payload : Bytes} {r : Except UpdateError String} (hsite : site = .merge ∨ site = .decide)
    (hs : .op t q (.storageUpdate site u (recordKey id) payload) r :: h <:+ c.state.history) :
    q.call.taskId = id := by
  rcases writer_of_record hc hk hs with ⟨-,hq⟩ | ⟨hno,-⟩ | ⟨hno,-⟩
  · exact hq
  · rcases hsite with rfl | rfl <;> simp at hno
  · rcases hsite with rfl | rfl <;> simp at hno

theorem introduces_of_cons {e : TaskEvent} {past : List TaskEvent} {id : String}
    (hi : Introduces id (e :: past)) :
    e = ⟨.newUuid,id⟩ ∨ (e.1.kind ≠ .storageUpdate ∧ e.1.kind ≠ .newUuid ∧ Introduces id past) := by
  obtain ⟨added,before,he,ha⟩ := hi
  cases added with
  | nil => exact .inl (List.cons.inj he).1
  | cons e' added =>
    obtain ⟨rfl,rfl⟩ := List.cons.inj he
    have hk := ha e (List.mem_cons_self ..)
    exact .inr ⟨hk.1,hk.2,added,before,rfl,fun e' he' => ha e' (List.mem_cons_of_mem _ he')⟩

theorem introduces_mem {past : List TaskEvent} {id : String} (hi : Introduces id past) :
    ⟨.newUuid,id⟩ ∈ past := by
  obtain ⟨added,before,rfl,-⟩ := hi
  exact List.mem_append_right _ (List.mem_cons_self ..)

/-- What is known about the ids in use: a pending one is in nobody's request and in no record,
and only the thread that has generated it is going to store it. -/
structure IdsFresh (c : TaskConfig) : Prop where
  generated : ∀ t q id, .op t q .newUuid id ∈ c.state.history → id ∈ c.state.shared.usedIds
  requested : ∀ t q, .start t q ∈ c.state.history → q.call.taskId ∈ c.state.shared.usedIds
  unasked : ∀ id ∈ c.state.shared.pendingIds, ∀ t q, .start t q ∈ c.state.history →
    q.call.taskId ≠ id
  unwritten : ∀ id ∈ c.state.shared.pendingIds, ∀ t q site u payload r,
    .op t q (.storageUpdate site u (recordKey id) payload) r ∉ c.state.history
  noColon : ∀ id ∈ c.state.shared.pendingIds, NoColon id
  once : ∀ t t' q q' id, .op t q .newUuid id ∈ c.state.history →
    .op t' q' .newUuid id ∈ c.state.history → t = t'
  written : ∀ id, NoColon id → ∀ t q site u payload r,
    .op t q (.storageUpdate site u (recordKey id) payload) r ∈ c.state.history →
    id ∈ c.state.shared.usedIds
  pending : ∀ t id, Introduces id (events t c.state.history) → id ∈ c.state.shared.pendingIds

theorem exec_ids {o : Op} {r : Res o} {w w' : World} (hx : D.Exec t q w o r w')
    (hu : o.kind ≠ .newUuid) : w'.usedIds = w.usedIds ∧ ∀ id, id ∈ w'.pendingIds ↔
      id ∈ w.pendingIds ∧ ∀ site u payload, o ≠ .storageUpdate site u (recordKey id) payload := by
  cases hx with
  | newUuid => exact absurd rfl hu
  | storageUpdate site u k payload now r tick result =>
    refine ⟨rfl,fun id => ?_⟩
    rw [World.mem_stored_pendingIds,World.setCore_pendingIds]
    refine and_congr_right fun _ => ⟨fun hk site' u' p' he => hk ?_,fun hk he => hk site u payload ?_⟩
    · simp only [Op.storageUpdate.injEq] at he
      exact he.2.2.1
    · rw [he]
  | _ => exact ⟨rfl,fun id => by simp⟩

theorem idsFresh (hc : D.Reach c) (htidy : Everywhere (OnWrites Tidy) c.state.history) :
    IdsFresh c := by
  induction hc with
  | init hx =>
    refine ⟨by simp,by simp,?_,?_,?_,by simp,by simp,?_⟩
    · simp [hx.2.2.2.2]
    · simp [hx.2.2.2.2]
    · simp [hx.2.2.2.2]
    · rintro t id ⟨added,before,he,-⟩
      simp at he
  | @step c c' a hc s ih =>
    have hc' := hc.step s
    have hk := kept hc' htidy
    rw [s.history] at htidy
    have hf := ih htidy.2
    cases s with
    | @start t₀ q₀ x fresh begins =>
      obtain ⟨hnew,-,rfl⟩ := begins
      refine ⟨fun t q id hm => ?_,fun t q hm => ?_,fun id hid t q hm => ?_,fun id hid t q site u p r hm => ?_,
        hf.noColon,fun t t' q q' id hm hm' => ?_,fun id hn t q site u p r hm => ?_,fun t id hi => ?_⟩
      · exact Finset.mem_insert_of_mem (hf.generated t q id (by simpa using hm))
      · rcases List.mem_cons.mp hm with he | hm
        · obtain ⟨rfl,rfl⟩ := Action.start.inj he
          exact Finset.mem_insert_self ..
        · exact Finset.mem_insert_of_mem (hf.requested t q hm)
      · rcases List.mem_cons.mp hm with he | hm
        · obtain ⟨rfl,rfl⟩ := Action.start.inj he
          exact fun he => hnew (he ▸ hid)
        · exact hf.unasked id hid t q hm
      · exact hf.unwritten id hid t q site u p r (by simpa using hm)
      · exact hf.once t t' q q' id (by simpa using hm) (by simpa using hm')
      · exact Finset.mem_insert_of_mem (hf.written id hn t q site u p r (by simpa using hm))
      · exact hf.pending t id hi
    | @env x moves =>
      have hsame : x.usedIds = c.state.shared.usedIds ∧ x.pendingIds = c.state.shared.pendingIds := by
        cases moves with
        | _ => exact ⟨rfl,rfl⟩
      refine ⟨fun t q id hm => ?_,fun t q hm => ?_,fun id hid t q hm => ?_,fun id hid t q site u p r hm => ?_,
        fun id hid => ?_,fun t t' q q' id hm hm' => ?_,fun id hn t q site u p r hm => ?_,fun t id hi => ?_⟩
      · rw [State.push_shared,hsame.1]
        exact hf.generated t q id (by simpa using hm)
      · rw [State.push_shared,hsame.1]
        exact hf.requested t q (by simpa using hm)
      · rw [State.push_shared,hsame.2] at hid
        exact hf.unasked id hid t q (by simpa using hm)
      · rw [State.push_shared,hsame.2] at hid
        exact hf.unwritten id hid t q site u p r (by simpa using hm)
      · rw [State.push_shared,hsame.2] at hid
        exact hf.noColon id hid
      · exact hf.once t t' q q' id (by simpa using hm) (by simpa using hm')
      · rw [State.push_shared,hsame.1]
        exact hf.written id hn t q site u p r (by simpa using hm)
      · rw [State.push_shared,hsame.2]
        exact hf.pending t id hi
    | @op t₀ q₀ o kont r x runs does =>
      have hstart : .start t₀ q₀ ∈ c.state.history := ((hc.history_thread t₀).2 q₀ _ runs).1
      have hwriter {site : Site} {u id : String} {p : Bytes} (ho : o = .storageUpdate site u (recordKey id) p)
          (hn : NoColon id) : q₀.call.taskId = id ∨ Introduces id (events t₀ c.state.history) := by
        subst ho
        rcases writer_of_record hc' hk List.suffix_rfl with hw | hw | hw
        · exact .inl hw.2
        · exact .inr hw.2
        · exact absurd hw.2 (not_reserved_of_noColon hn)
      have hgen {id : String} (hi : Introduces id (events t₀ c.state.history)) :
          ∃ q, .op t₀ q .newUuid id ∈ c.state.history := mem_events.mp (introduces_mem hi)
      have hwritten {id : String} (hn : NoColon id) {t : ℕ} {q : Request} {site : Site} {u : String}
          {p : Bytes} {r' : Except UpdateError String}
          (hm : .op t q (.storageUpdate site u (recordKey id) p) r' ∈ .op t₀ q₀ o r :: c.state.history) :
          id ∈ c.state.shared.usedIds := by
        rcases List.mem_cons.mp hm with he | hm
        · obtain ⟨-,-,ho,-⟩ := Action.op.inj he
          rcases hwriter ho.symm hn with hid | hi
          · exact hid ▸ hf.requested t₀ q₀ hstart
          · obtain ⟨q',hq'⟩ := hgen hi
            exact hf.generated t₀ q' id hq'
        · exact hf.written id hn t q site u p r' hm
      by_cases hu : o.kind = .newUuid
      · cases does <;> simp [Op.kind] at hu
        rename_i id₀ format fresh
        have hold {id : String} (hid : id ∈ c.state.shared.usedIds) : id ≠ id₀ := fun he => fresh (he ▸ hid)
        refine ⟨fun t q id hm => ?_,fun t q hm => ?_,fun id hid t q hm => ?_,
          fun id hid t q site u p r hm => ?_,fun id hid => ?_,fun t t' q q' id hm hm' => ?_,
          fun id hn t q site u p r hm => ?_,fun t id hi => ?_⟩
        · rcases List.mem_cons.mp hm with he | hm
          · obtain ⟨-,-,-,hid⟩ := Action.op.inj he
            obtain rfl := eq_of_heq hid
            exact Finset.mem_insert_self ..
          · exact Finset.mem_insert_of_mem (hf.generated t q id hm)
        · exact Finset.mem_insert_of_mem (hf.requested t q (by simpa using hm))
        · have hm' : .start t q ∈ c.state.history := by simpa using hm
          rcases Finset.mem_insert.mp hid with rfl | hid
          · exact hold (hf.requested t q hm')
          · exact hf.unasked id hid t q hm'
        · rcases Finset.mem_insert.mp hid with rfl | hid
          · exact hold (hwritten format hm) rfl
          · exact hf.unwritten id hid t q site u p r (by simpa using hm)
        · rcases Finset.mem_insert.mp hid with rfl | hid
          · exact format
          · exact hf.noColon id hid
        · rcases List.mem_cons.mp hm with he | hm <;> rcases List.mem_cons.mp hm' with he' | hm'
          · obtain ⟨rfl,-⟩ := Action.op.inj he
            obtain ⟨rfl,-⟩ := Action.op.inj he'
            rfl
          · obtain ⟨-,-,-,hid⟩ := Action.op.inj he
            exact absurd (eq_of_heq hid) (hold (hf.generated t' q' id hm'))
          · obtain ⟨-,-,-,hid⟩ := Action.op.inj he'
            exact absurd (eq_of_heq hid) (hold (hf.generated t q id hm))
          · exact hf.once t t' q q' id hm hm'
        · exact Finset.mem_insert_of_mem (hwritten hn hm)
        · by_cases ht : t = t₀
          · subst ht
            rw [State.push_history,events_op_self] at hi
            rcases introduces_of_cons hi with he | ⟨-,hk,-⟩
            · have hid := (Sigma.mk.inj he).2
              obtain rfl := eq_of_heq hid
              exact Finset.mem_insert_self ..
            · exact absurd rfl hk
          · rw [State.push_history,events_op_of_ne (Ne.symm ht)] at hi
            exact Finset.mem_insert_of_mem (hf.pending t id hi)
      · obtain ⟨hused,hpend⟩ := exec_ids does hu
        have hnot {t : ℕ} {q : Request} {id : String}
            (hm : .op t q .newUuid id ∈ .op t₀ q₀ o r :: c.state.history) :
            .op t q .newUuid id ∈ c.state.history := by
          rcases List.mem_cons.mp hm with he | hm
          · obtain ⟨-,-,ho,-⟩ := Action.op.inj he
            exact absurd (by rw [← ho]; rfl) hu
          · exact hm
        refine ⟨fun t q id hm => ?_,fun t q hm => ?_,fun id hid t q hm => ?_,
          fun id hid t q site u p r' hm => ?_,fun id hid => ?_,fun t t' q q' id hm hm' => ?_,
          fun id hn t q site u p r hm => ?_,fun t id hi => ?_⟩
        · rw [State.push_shared,hused]
          exact hf.generated t q id (hnot hm)
        · rw [State.push_shared,hused]
          exact hf.requested t q (by simpa using hm)
        · exact hf.unasked id ((hpend id).mp hid).1 t q (by simpa using hm)
        · rcases List.mem_cons.mp hm with he | hm
          · obtain ⟨-,-,ho,-⟩ := Action.op.inj he
            exact ((hpend id).mp hid).2 site u p ho.symm
          · exact hf.unwritten id ((hpend id).mp hid).1 t q site u p r' hm
        · exact hf.noColon id ((hpend id).mp hid).1
        · exact hf.once t t' q q' id (hnot hm) (hnot hm')
        · rw [State.push_shared,hused]
          exact hwritten hn hm
        · by_cases ht : t = t₀
          · subst ht
            rw [State.push_history,events_op_self] at hi
            rcases introduces_of_cons hi with he | ⟨hk,-,hi⟩
            · exact absurd (congrArg (fun e : TaskEvent => e.1.kind) he) hu
            · refine (hpend id).mpr ⟨hf.pending t id hi,fun site u p ho => hk ?_⟩
              show o.kind = .storageUpdate
              rw [ho]
              rfl
          · rw [State.push_history,events_op_of_ne (Ne.symm ht)] at hi
            have hid := hf.pending t id hi
            refine (hpend id).mpr ⟨hid,fun site u p ho => ?_⟩
            rcases hwriter ho (hf.noColon id hid) with hq | hi'
            · exact hf.unasked id hid t₀ q₀ hstart hq
            · obtain ⟨q',hq'⟩ := hgen hi'
              obtain ⟨q'',hq''⟩ := mem_events.mp (introduces_mem hi)
              exact ht (hf.once t t₀ q'' q' id hq'' hq')

theorem fresh_write (hc : D.Reach c) (htidy : Everywhere (OnWrites Tidy) c.state.history) {o : Op}
    {r : Res o} (hs : .op t q o r :: h <:+ c.state.history) {id : String}
    (hi : Introduces id (events t h)) (i : ℕ) (u : String) : stored i u (recordKey id) h = none := by
  obtain ⟨c₀,x,hc₀,rfl,-,-⟩ := exec_before hc hs
  have hf := idsFresh hc₀ (htidy.suffix ((List.suffix_cons _ _).trans hs))
  cases hst : stored i u (recordKey id) c₀.state.history with
  | none => rfl
  | some payload =>
    obtain ⟨t',q',site,r',past,-,hw⟩ := write_of_stored hst
    exact absurd (hw.subset (List.mem_cons_self ..))
      (hf.unwritten id (hf.pending t id hi) t' q' site u payload r')

/-- A stored task is about to be replaced, under the mutex. -/
inductive Changes (M : Prost) (q : Request) (u : String) (h : List TaskEvent) (old : Task) :
    Site → Task → Prop
  | merge {request : Task} {decisions : List Decision} (sync : q.call.synced = some request)
      (direct : q.metadata.forwardingTarget = none) (agreement : old.requireAgreement)
      (taken : Taken u request old decisions h) :
      Changes M q u h old .merge { old with decisions := decisions }
  | decide {request merged : Task} {r : Except UpdateError String} (sync : q.call.synced = some request)
      (direct : q.metadata.forwardingTarget = none)
      (stored : ⟨.storageUpdate .merge u (recordKey merged.taskId) (M.task.encode merged),r⟩ ∈ h)
      (undecided : merged.status ≠ "started" ∧ merged.status ≠ "rejected")
      (verdict : TaskService.isDecided merged) :
      Changes M q u h old .decide { old with
        status := if TaskService.anyoneRejected merged then "rejected" else "started" }
  | confirm {request : ConfirmTaskRequest} {userDecision : Decision} {status : String}
      {decisions : List Decision} (call : q.call = .confirmTask request)
      (decision : request.decision = some userDecision)
      (reported : TaskService.userStatus userDecision = .ret status)
      (waiting : old.status = "waiting") (entered : Entered u userDecision old decisions h) :
      Changes M q u h old .confirm { old with
        decisions := decisions
        status := TaskService.confirmedStatus status { old with decisions := decisions } }
  | finish {request : Task} (call : q.call = .finishTask request) (started : old.status = "started") :
      Changes M q u h old .finish { old with status := "finished" }

theorem changes_terms {M : Prost} {past : List TaskEvent} {old new : Task} {site : Site}
    (hch : Changes M q u past old site new) : new.terms = old.terms := by
  cases hch <;> rfl

/-- Who replaces a record has read a task of the same id under the mutex. -/
theorem change_of_write (hc : D.Reach c)
    (hk : Everywhere (OnWrites (KeptWrite D.prost)) c.state.history) {site : Site} {id : String}
    {payload : Bytes} {r : Except UpdateError String}
    (hs : .op t q (.storageUpdate site u (recordKey id) payload) r :: h <:+ c.state.history)
    (hsite : site ∈ [Site.merge,.decide,.confirm,.finish]) :
    ∃ old new, payload = D.prost.task.encode new ∧ old.taskId = id ∧ old.status ∈ statuses ∧
      ¬ Reserved id ∧ held (events t h) ∧
      ⟨.storageRead u (recordKey id),.ok (D.prost.task.encode old)⟩ ∈ events t h ∧
      knows u (recordKey id) (events t h) = some (D.prost.task.encode old) ∧
      Changes D.prost q u (events t h) old site new := by
  have hu := writer_noColon hc hs
  have hh : h <:+ c.state.history := (List.suffix_cons _ _).trans hs
  have hob := obligation hc hs
  have hbase {id' : String} {old : Task} {payload' : Bytes}
      (read : ⟨.storageRead u (recordKey id'),.ok payload'⟩ ∈ events t h)
      (known : ¬ Collides id' old.status → knows u (recordKey id') (events t h) = some payload')
      (decoded : D.prost.task.decode payload' = some old)
      (hne : old.status ≠ "" ∨ old.requireAgreement ∨ ¬ Reserved id') (hkey : old.taskId = id) :
      old.status ∈ statuses ∧ ¬ Reserved id ∧
      ⟨.storageRead u (recordKey id),.ok (D.prost.task.encode old)⟩ ∈ events t h ∧
      knows u (recordKey id) (events t h) = some (D.prost.task.encode old) := by
    obtain ⟨site',hkept⟩ := kept_of_read hc hh (hk.suffix hh) hu read
    obtain ⟨rfl,hid,hst,hres⟩ := task_of_kept hkept decoded hne
    obtain rfl : id' = id := hid.symm.trans hkey
    exact ⟨hst,hres,read,known fun hcol => hres ⟨_,hst,hcol⟩⟩
  cases site with
  | merge =>
    obtain ⟨-,task,hkey,he,hst⟩ := hob
    rw [recordKey_inj] at hkey
    cases hst with
    | @merge request task payload ds sync direct holds read known decoded agreement taken =>
      obtain ⟨hst,hres,hr,hkn⟩ := hbase read (fun _ => known) decoded (.inr (.inl agreement)) hkey.symm
      exact ⟨task,_,he,hkey.symm,hst,hres,holds,hr,hkn,.merge sync direct agreement taken⟩
  | decide =>
    obtain ⟨-,task,hkey,he,hst⟩ := hob
    rw [recordKey_inj] at hkey
    cases hst with
    | @decide request task merged payload r' sync direct holds read known decoded stored undecided verdict =>
      have hr' := merged_not_reserved hc hh (hk.suffix hh) hs sync stored
      obtain ⟨hst,hres,hr,hkn⟩ := hbase read known decoded (.inr (.inr hr')) hkey.symm
      exact ⟨task,_,he,hkey.symm,hst,hres,holds,hr,hkn,.decide sync direct stored undecided verdict⟩
  | confirm =>
    obtain ⟨-,task,hkey,he,hst⟩ := hob
    rw [recordKey_inj] at hkey
    cases hst with
    | @confirm request ud status task payload ds call decision reported holds read known decoded waiting entered =>
      have hne : task.status ≠ "" := by rw [waiting]; decide
      obtain ⟨hst,hres,hr,hkn⟩ := hbase read known decoded (.inl hne) hkey.symm
      exact ⟨task,_,he,hkey.symm,hst,hres,holds,hr,hkn,.confirm call decision reported waiting entered⟩
  | finish =>
    obtain ⟨-,task,hkey,he,hst⟩ := hob
    rw [recordKey_inj] at hkey
    cases hst with
    | @finish request task payload call holds read known decoded started =>
      have hne : task.status ≠ "" := by rw [started]; decide
      obtain ⟨hst,hres,hr,hkn⟩ := hbase read known decoded (.inl hne) hkey.symm
      exact ⟨task,_,he,hkey.symm,hst,hres,holds,hr,hkn,.finish call started⟩
  | _ => simp at hsite

theorem present_of_change (hc : D.Reach c)
    (hk : Everywhere (OnWrites (KeptWrite D.prost)) c.state.history) {site : Site} {id : String}
    {payload : Bytes} {r : Except UpdateError String}
    (hs : .op t q (.storageUpdate site u (recordKey id) payload) r :: h <:+ c.state.history)
    (hsite : site ∈ [Site.merge,.decide,.confirm,.finish]) :
    stored q.core u (recordKey id) h ≠ none := by
  obtain ⟨old,new,-,-,-,-,-,hread,-⟩ := change_of_write hc hk hs hsite
  obtain ⟨q',hm⟩ := mem_events.mp hread
  obtain rfl : q' = q := hc.same_request (hs.subset (List.mem_cons_of_mem _ hm))
    (hs.subset (List.mem_cons_self ..))
  obtain ⟨later,past,rfl⟩ := List.append_of_mem hm
  have hs' := (List.suffix_append later _).trans ((List.suffix_cons _ _).trans hs)
  have hst := stored_of_read hc (writer_noColon hc hs) (guarded_recordKey id) hs'
  obtain ⟨t',q'',site',r',past',hq,hw⟩ := write_of_stored hst
  rw [← hq]
  exact stored_of_write (List.mem_append_right _ (List.mem_cons_of_mem _ (hw.subset (List.mem_cons_self ..))))

def checks (t : ℕ) : TaskAction → Bool
  | .op t' _ (.storageContains _ _) _ => t' = t
  | _ => false

/-- Between the existence check of a delivery and its write, no other delivery of the task to
the same user has written the record. -/
def Alone (w : Write) (h : List TaskAction) : Prop := w.site = .admission →
  ∀ a ∈ h.takeWhile fun a => !checks w.thread a, ∀ w' ∈ writeOf a, ¬(w'.site = .admission ∧
    w'.request.core = w.request.core ∧ w'.user = w.user ∧ w'.key = w.key)

instance (w : Write) (h : List TaskAction) : Decidable (Alone w h) :=
  inferInstanceAs (Decidable (_ → ∀ a ∈ _, ∀ w' ∈ writeOf a, _))

theorem takeWhile_append_cons {α : Type} {f : α → Bool} {before rest : List α} {x : α}
    (hb : ∀ a ∈ before, f a = true) (hx : f x = false) :
    (before ++ x :: rest).takeWhile f = before := by
  rw [List.takeWhile_append_of_pos hb,List.takeWhile_cons]
  simp [hx]

/-- Who stores a task that has been delivered has checked before that it is not there. -/
theorem check_of_admission (hc : D.Reach c) {id : String} {payload : Bytes} {r : Except UpdateError String}
    (hs : .op t q (.storageUpdate .admission u (recordKey id) payload) r :: h <:+ c.state.history) :
    ∃ (request : Task) (d : Decision) (v : String) (later past : List TaskAction),
      q.call.synced = some request ∧ request.taskId = id ∧
      h = later ++ .op t q (.storageContains u (recordKey id)) false :: past ∧
      events t later = [⟨.checkDecision d v request,.ok ()⟩] ∧
      stored q.core u (recordKey id) past = none ∧ .start t q ∈ past := by
  obtain ⟨-,task,hkey,-,hst⟩ := obligation hc hs
  rw [recordKey_inj] at hkey
  cases hst with
  | @admission request p d sync direct initiator decision approved steps =>
    obtain rfl : id = request.taskId := hkey
    have hsplit : events t h = [⟨.checkDecision d p.userId request,.ok ()⟩] ++
        ⟨.storageContains u (recordKey request.taskId),false⟩ :: [⟨.importedUsersContains u,true⟩] := steps
    obtain ⟨later,q',past,rfl,hlater,-⟩ := split_at_event hsplit
    have hcheck : .op t q' (.storageContains u (recordKey request.taskId)) false :: past <:+
        c.state.history := (List.suffix_append _ _).trans ((List.suffix_cons _ _).trans hs)
    obtain rfl : q' = q := hc.same_request (hcheck.subset (List.mem_cons_self ..))
      (hs.subset (List.mem_cons_self ..))
    have hb := stored_of_contains hc (writer_noColon hc hs) (guarded_recordKey _) hcheck
    refine ⟨request,d,p.userId,later,past,sync,rfl,rfl,hlater,by simpa using hb,?_⟩
    obtain ⟨c₀,x,hc₀,rfl,⟨kont,runs⟩,-⟩ := exec_before hc hcheck
    exact ((hc₀.history_thread t).2 q' _ runs).1

/-- A delivery that nobody has overtaken finds nothing when it stores the task. -/
theorem admission_absent (hc : D.Reach c) (htidy : Everywhere (OnWrites Tidy) c.state.history)
    (halone : Everywhere (OnWrites Alone) c.state.history) {id : String} {payload : Bytes}
    {r : Except UpdateError String}
    (hs : .op t q (.storageUpdate .admission u (recordKey id) payload) r :: h <:+ c.state.history) :
    stored q.core u (recordKey id) h = none := by
  have hk := kept hc htidy
  have hres : ¬ Reserved id := fun hres =>
    everywhere_writes htidy hs rfl (recordKey_mem_reservedKeys.mpr hres)
  obtain ⟨request,d,v,later,past,sync,rfl,rfl,hlater,hnone,hstart⟩ := check_of_admission hc hs
  have hh : later ++ .op t q (.storageContains u (recordKey request.taskId)) false :: past <:+
      c.state.history := (List.suffix_cons _ _).trans hs
  have hwhile : (later ++ .op t q (.storageContains u (recordKey request.taskId)) false ::
      past).takeWhile (fun a => !checks t a) = later := by
    refine takeWhile_append_cons (fun a ha => ?_) (by simp [checks])
    rw [Bool.not_eq_true',Bool.eq_false_iff]
    intro hch
    cases a with
    | op t' q₂ o r' =>
      cases o with
      | storageContains u' k' =>
        obtain rfl : t' = t := by simpa [checks] using hch
        have hm : ⟨.storageContains u' k',r'⟩ ∈ events t' later := mem_events.mpr ⟨q₂,ha⟩
        rw [hlater] at hm
        simp at hm
      | _ => cases hch
    | _ => cases hch
  have hal := everywhere_writes halone hs rfl
  rw [hwhile] at hal
  have hwritten {h' : List TaskAction} : h' <:+ later →
      stored q.core u (recordKey request.taskId) (h' ++ .op t q (.storageContains u
        (recordKey request.taskId)) false :: past) = none := by
    intro hsuf
    induction h' with
    | nil => exact hnone
    | cons a h' ih =>
      have hs' : a :: (h' ++ .op t q (.storageContains u (recordKey request.taskId)) false :: past) <:+
          c.state.history := by
        obtain ⟨newer,rfl⟩ := hsuf
        refine List.IsSuffix.trans ?_ hh
        exact ⟨newer,by simp⟩
      have hprev := ih ((List.suffix_cons _ _).trans hsuf)
      by_cases hsp : Spares q.core u (recordKey request.taskId) a
      · rw [List.cons_append,stored_cons_of_spares hsp]
        exact hprev
      · have hal := hal a (hsuf.subset (List.mem_cons_self ..))
        exfalso
        obtain ⟨t₁,q₁,site,payload₁,r₁,rfl,hq⟩ := write_of_not_spares hsp
        rcases writer_of_record hc hk hs' with ⟨hsite,-⟩ | ⟨-,hi⟩ | ⟨-,hr⟩
        · by_cases had : site = .admission
          · exact hal _ rfl ⟨had,hq,rfl,rfl⟩
          · refine present_of_change hc hk hs' ?_ (hq ▸ hprev)
            cases site <;> simp at hsite had ⊢
        · obtain ⟨c₀,x,hc₀,he,-,-⟩ := exec_before hc hs'
          have hf := idsFresh hc₀ (he ▸ htidy.suffix ((List.suffix_cons _ _).trans hs'))
          rw [← he] at hi
          refine hf.unasked _ (hf.pending t₁ _ hi) t q ?_ (taskId_of_synced sync)
          rw [he]
          exact List.mem_append_right _ (List.mem_cons_of_mem _ hstart)
        · exact hres hr
  exact hwritten List.suffix_rfl

/-- The first version of a record replaces nothing. -/
def First (w : Write) (h : List TaskAction) : Prop := w.site ∈ [Site.create,.query,.admission] →
  stored w.request.core w.user w.key h = none

instance (w : Write) (h : List TaskAction) : Decidable (First w h) :=
  inferInstanceAs (Decidable (_ ∈ _ → _ = none))

theorem first_of_alone (hc : D.Reach c) (htidy : Everywhere (OnWrites Tidy) c.state.history)
    (halone : Everywhere (OnWrites Alone) c.state.history) :
    Everywhere (OnWrites First) c.state.history := by
  refine everywhere_of_write fun t q site u k payload r past hs _ => ?_
  intro hsite
  have hob := obligation hc hs
  cases site with
  | create =>
    obtain ⟨-,task,rfl,he,hst⟩ := hob
    cases hst with
    | create call introduced => exact fresh_write hc htidy hs introduced q.core u
  | query =>
    obtain ⟨-,task,rfl,he,hst⟩ := hob
    cases hst with
    | query introduced => exact fresh_write hc htidy hs introduced q.core u
  | admission =>
    obtain ⟨-,task,rfl,he,hst⟩ := hob
    exact admission_absent hc htidy halone hs
  | _ => simp at hsite

/-- The same from the moment `base` on, for one record. -/
def FirstSince (base : List TaskAction) (i : ℕ) (u k : String) (w : Write) (h : List TaskAction) :
    Prop := base <:+ h → w.request.core = i → w.user = u → w.key = k → First w h

theorem firstSince_of_first {base : List TaskAction} (hfirst : Everywhere (OnWrites First) h) :
    Everywhere (OnWrites (FirstSince base i u k)) h := hfirst.mono fun _ _ hh w hw _ _ _ _ => hh w hw

theorem exclusive (hc : D.Reach c) (htidy : Everywhere (OnWrites Tidy) c.state.history) {id : String}
    (hid : ¬ Reserved id) {base : List TaskAction}
    (hfirst : Everywhere (OnWrites (FirstSince base i u (recordKey id))) c.state.history) :
    Everywhere (OnWrites fun w past => base <:+ past → Exclusive i u (recordKey id) w past)
      c.state.history := by
  have hk := kept hc htidy
  refine everywhere_of_write fun t q site u' k payload r past hs _ hbase => ?_
  rintro ⟨rfl,rfl,rfl⟩
  by_cases hsite : site ∈ [Site.merge,.decide,.confirm,.finish]
  · obtain ⟨old,new,-,-,-,-,hheld,-⟩ := change_of_write hc hk hs hsite
    exact .inl hheld
  · refine .inr (everywhere_writes hfirst hs hbase rfl rfl rfl ?_)
    rcases writer_of_record hc hk hs with ⟨hno,-⟩ | ⟨hmem,-⟩ | ⟨-,hr⟩
    · cases site <;> simp at hsite hno ⊢
    · cases site <;> simp at hmem ⊢
    · exact absurd hr hid

theorem exclusive_list (hc : D.Reach c) (htidy : Everywhere (OnWrites Tidy) c.state.history)
    {task : Task} (hl : ListOf u task k) (hst : task.status ∈ statuses) (i : ℕ) :
    Everywhere (OnWrites (Exclusive i u k)) c.state.history := by
  have hk := kept hc htidy
  refine everywhere_of_write fun t q site u' k' payload r past hs _ => ?_
  rintro ⟨rfl,rfl,rfl⟩
  have hob := obligation hc hs
  have hkept := everywhere_writes hk hs
  have hrecord (hr : ∃ task, k' = recordKey task.taskId ∧ payload = D.prost.task.encode task ∧
      task.status ∈ statuses ∧ ¬ Reserved task.taskId) : False := by
    obtain ⟨task',hkey,-,-,hres⟩ := hr
    exact (hl.ne_recordKey fun hcol => hres ⟨_,hst,hcol⟩).1 hkey
  left
  cases site with
  | list => exact hob.2.1
  | latest => exact hob.2.1
  | _ => exact (hrecord hkept).elim

/-- The first version of a record, or the next one. -/
inductive Version (M : Prost) (q : Request) (u : String) (h : List TaskEvent) (site : Site)
    (new : Task) : Option Bytes → Prop
  | first (site_mem : site ∈ [Site.create,.query,.admission]) (stores : Stores M q u h site new) :
      Version M q u h site new none
  | next {old : Task} (changes : Changes M q u h old site new) (id_eq : old.taskId = new.taskId) :
      Version M q u h site new (some (M.task.encode old))

/-- Every write of a record from an idle moment on is based on what is stored at that moment. -/
theorem version_since (hc : D.Reach c) (htidy : Everywhere (OnWrites Tidy) c.state.history)
    {id : String} (hid : ¬ Reserved id) {base : List TaskAction} (hbase : base <:+ h)
    (hidle : Idle q.core base)
    (hfirst : Everywhere (OnWrites (FirstSince base q.core u (recordKey id))) c.state.history)
    {site : Site} {payload : Bytes} {r : Except UpdateError String}
    (hs : .op t q (.storageUpdate site u (recordKey id) payload) r :: h <:+ c.state.history) :
    ∃ new, payload = D.prost.task.encode new ∧ new.taskId = id ∧
      Version D.prost q u (events t h) site new (stored q.core u (recordKey id) h) := by
  have hk := kept hc htidy
  have hh : h <:+ c.state.history := (List.suffix_cons _ _).trans hs
  by_cases hsite : site ∈ [Site.merge,.decide,.confirm,.finish]
  · obtain ⟨old,new,rfl,hold,-,-,hheld,-,hknows,hch⟩ := change_of_write hc hk hs hsite
    have hst := stored_of_known hc (writer_noColon hc hs) (guarded_recordKey id) hs hbase hidle
      ((exclusive hc htidy hid hfirst).suffix hh) hheld hknows
    have hnew : new.taskId = old.taskId := (Task.eq_of_terms_eq (changes_terms hch)).1
    refine ⟨new,rfl,hnew.trans hold,?_⟩
    rw [hst]
    exact .next hch hnew.symm
  · have hsite' : site ∈ [Site.create,.query,.admission] := by
      rcases writer_of_record hc hk hs with ⟨hno,-⟩ | ⟨hmem,-⟩ | ⟨-,hr⟩
      · cases site <;> simp at hsite hno ⊢
      · cases site <;> simp at hmem ⊢
      · exact absurd hr hid
    have hnone : stored q.core u (recordKey id) h = none :=
      everywhere_writes hfirst hs hbase rfl rfl rfl hsite'
    have hob := obligation hc hs
    rw [hnone]
    cases site with
    | create =>
      obtain ⟨-,task,hkey,rfl,hst⟩ := hob
      exact ⟨task,rfl,(recordKey_inj.mp hkey).symm,.first hsite' hst⟩
    | query =>
      obtain ⟨-,task,hkey,rfl,hst⟩ := hob
      exact ⟨task,rfl,(recordKey_inj.mp hkey).symm,.first hsite' hst⟩
    | admission =>
      obtain ⟨-,task,hkey,rfl,hst⟩ := hob
      exact ⟨task,rfl,(recordKey_inj.mp hkey).symm,.first hsite' hst⟩
    | _ => simp at hsite'

theorem version_of_write (hc : D.Reach c) (htidy : Everywhere (OnWrites Tidy) c.state.history)
    (hfirst : Everywhere (OnWrites First) c.state.history) {id : String} (hid : ¬ Reserved id)
    {site : Site} {payload : Bytes} {r : Except UpdateError String}
    (hs : .op t q (.storageUpdate site u (recordKey id) payload) r :: h <:+ c.state.history) :
    ∃ new, payload = D.prost.task.encode new ∧ new.taskId = id ∧
      Version D.prost q u (events t h) site new (stored q.core u (recordKey id) h) :=
  version_since hc htidy hid List.nil_suffix (idle_nil _) (firstSince_of_first hfirst) hs

/-- A verdict is about a version of the same record, which its thread has merged before. -/
theorem merged_before (hc : D.Reach c) (htidy : Everywhere (OnWrites Tidy) c.state.history)
    {id : String} (hid : ¬ Reserved id)
    (hfirst : Everywhere (OnWrites (FirstSince [] q.core u (recordKey id))) c.state.history)
    {payload : Bytes} {r r' : Except UpdateError String}
    (hs : .op t q (.storageUpdate .decide u (recordKey id) payload) r :: h <:+ c.state.history)
    {merged : Task}
    (hm : ⟨.storageUpdate .merge u (recordKey merged.taskId) (D.prost.task.encode merged),r'⟩ ∈
      events t h) : ∃ later earlier, h = later ++ .op t q (.storageUpdate .merge u (recordKey id)
        (D.prost.task.encode merged)) r' :: earlier ∧ merged.taskId = id ∧
      merged.requireAgreement := by
  have hk := kept hc htidy
  have hh : h <:+ c.state.history := (List.suffix_cons _ _).trans hs
  obtain ⟨later,earlier,rfl⟩ := List.append_of_mem (mem_history hc hs hm)
  have hs' := (List.suffix_append later _).trans hh
  obtain rfl : merged.taskId = id :=
    (asked_of_write hc hk (.inl rfl) hs').symm.trans (asked_of_write hc hk (.inr rfl) hs)
  refine ⟨later,earlier,rfl,rfl,?_⟩
  obtain ⟨new,he,-,hv⟩ := version_since hc htidy hid List.nil_suffix (idle_nil _) hfirst hs'
  obtain rfl := D.prost.task.encode_inj he
  generalize stored q.core u (recordKey merged.taskId) earlier = before at hv
  cases hv with
  | first hsite => simp at hsite
  | next changes =>
    cases changes with
    | merge sync direct agreement => exact agreement

end TaskRecords
end CoLinkServer
