import CoLinkServer.TaskLists

/-! In which lists a task is entered. A handler enters a task in the lists of the version that it has
just stored, and it stores a version with another status only when it has taken the task out of both
the lists in which it was. -/
namespace CoLinkServer

open Interleaving

namespace Placements

open TaskTraces TaskRecords TaskLists

/-- The list of the family in which the user's task is kept. -/
def listIn (u : String) (task : Task) : Family → String
  | .protocol => TaskService.protocolListKey u task
  | .status => TaskService.statusListKey task

/-- The statements that store a version with another status. -/
def changing : List Site := [.confirm,.decide,.finish]

/-- The event stores the task of the entry as a new one. -/
def stores (x : Entry) : TaskEvent → Bool
  | ⟨.storageUpdate site u k _,_⟩ => decide (site ∈ introducing ∧ u = x.user ∧ k = recordKey x.taskId)
  | _ => false

/-- The event stores a version of the task with another status. -/
def changes (x : Entry) : TaskEvent → Bool
  | ⟨.storageUpdate site u k _,_⟩ => decide (site ∈ changing ∧ u = x.user ∧ k = recordKey x.taskId)
  | _ => false

variable (M : Prost)

/-- The thread has stored the task as a new one, has not changed it, and has entered it in no list
of the family. -/
def pending (x : Entry) : List TaskEvent → Bool
  | [] => false
  | ⟨.storageUpdate .list u k payload,_⟩ :: h => pending x h && (!x.concerns u k ||
      decide (copies M x.taskId payload ≤ ((knows u k h).map (copies M x.taskId)).getD 0))
  | e :: h => stores x e || (pending x h && !changes x e)

/-- The same, unless the thread has stored the task as a new one twice. -/
def Pends (x : Entry) (h : List TaskEvent) : Prop := pending M x h ∨ 2 ≤ h.countP (stores x)

/-- The thread may enter the task in its list of the family. -/
inductive Sourced (u : String) (task : Task) (f : Family) (h : List TaskEvent) : Prop
  | changed (status : task.status ∈ statuses) (known : ¬ Reserved task.taskId →
      knows u (recordKey task.taskId) h = some (M.task.encode task))
  | stored {site : Site} {r : Except UpdateError String} (site_mem : site ∈ introducing)
      (mem : ⟨.storageUpdate site u (recordKey task.taskId) (M.task.encode task),r⟩ ∈ h)
      (pends : Pends M ⟨u,f,task.taskId⟩ h)

/-- What has to hold when the newest event happens. -/
def Placed : List TaskEvent → Prop
  | [] => True
  | ⟨.storageUpdate .list u k payload,_⟩ :: h => ∀ id,
      copies M id payload ≤ ((knows u k h).map (copies M id)).getD 0 ∨
      ∃ task f, task.taskId = id ∧ k = "_internal:" ++ listIn u task f ∧ Sourced M u task f h
  | e :: h => ∀ x, changes x e → spent (price M x) h ≤ -1

variable {M} {x : Entry} {u : String} {h h' : List TaskEvent} {α : Type} {task : Task} {f : Family}

theorem listOf_listIn (u : String) (task : Task) (f : Family) :
    ListOf u task ("_internal:" ++ listIn u task f) := by
  cases f with
  | protocol => exact .inl rfl
  | status => exact .inr rfl

theorem concerns_listIn (u : String) (task : Task) (f : Family) :
    x.concerns u ("_internal:" ++ listIn u task f) = decide (u = x.user ∧ x.family = f) := by
  cases f with
  | protocol => exact concerns_protocolListKey u task
  | status => exact concerns_statusListKey u task

theorem listIn_ne {f' : Family} (hf : f ≠ f') : listIn u task f ≠ listIn u task f' := by
  intro he
  have hl := congrArg String.toList he
  cases f <;> cases f' <;> first
    | exact hf rfl
    | simp [listIn,TaskService.protocolListKey,TaskService.statusListKey] at hl

/-- Operations other than the write of a list and that of a version with another status. -/
def Plain : Op → Prop
  | .storageUpdate site _ _ _ => site ∉ Site.list :: changing
  | _ => True

theorem plain_update {site : Site} (hs : site ∉ Site.list :: changing) {k : String} {payload : Bytes} :
    Plain (.storageUpdate site u k payload) := hs

theorem plain_of_kind {o : Op} (ho : o.kind ≠ .storageUpdate) : Plain o := by
  cases o <;> first | exact absurd rfl ho | trivial

theorem Plain.changes {e : TaskEvent} (he : Plain e.1) (x : Entry) : changes x e = false := by
  obtain ⟨o,r⟩ := e
  cases o with
  | storageUpdate site u k payload =>
    exact decide_eq_false fun hh => he (List.mem_cons_of_mem _ hh.1)
  | _ => rfl

theorem Plain.pending {e : TaskEvent} (he : Plain e.1) (hp : pending M x h) :
    pending M x (e :: h) := by
  have hc := he.changes x
  obtain ⟨o,r⟩ := e
  cases o with
  | storageUpdate site u k payload =>
    cases site with
    | list => exact absurd (List.mem_cons_self ..) he
    | _ => simp [Placements.pending,hp,hc]
  | _ => simp [Placements.pending,hp,hc]

theorem Plain.placed {e : TaskEvent} (he : Plain e.1) : Placed M (e :: h) := by
  have hnot (x : Entry) (hc : Placements.changes x e) : spent (price M x) h ≤ -1 := by
    rw [he.changes x] at hc
    cases hc
  obtain ⟨o,r⟩ := e
  cases o with
  | storageUpdate site u k payload =>
    cases site with
    | list => exact absurd (List.mem_cons_self ..) he
    | _ => exact hnot
  | _ => exact hnot

theorem Pends.cons {e : TaskEvent} (hp : Pends M x h) (he : pending M x h → pending M x (e :: h)) :
    Pends M x (e :: h) := by
  refine hp.imp he fun htwo => ?_
  rw [List.countP_cons]
  omega

/-- More has happened, and what was pending still is. -/
def Later (M : Prost) (h h' : List TaskEvent) : Prop :=
  h <:+ h' ∧ ∀ x, Pends M x h → Pends M x h'

theorem Later.refl (h : List TaskEvent) : Later M h h := ⟨List.suffix_rfl,fun _ hp => hp⟩

theorem Later.trans {h'' : List TaskEvent} (hl : Later M h h') (hl' : Later M h' h'') :
    Later M h h'' := ⟨hl.1.trans hl'.1,fun x hp => hl'.2 x (hl.2 x hp)⟩

theorem Plain.later {e : TaskEvent} (he : Plain e.1) (h : List TaskEvent) : Later M h (e :: h) :=
  ⟨List.suffix_cons _ _,fun _ hp => hp.cons he.pending⟩

/-- The program meets the obligations, and leaves alone what is pending. -/
def Keeps (M : Prost) {α : Type} (p : Service α) : Prop :=
  ∀ h, p.Traced (Placed M) h (Prog.OnOk fun _ => Later M h)

theorem keeps_of_all {p : Service α} (hp : p.All Plain) : Keeps M p := fun h =>
  (Prog.Traced.of_all hp (J := Later M h) (fun o ho r _ hl =>
    ⟨Plain.placed (e := ⟨o,r⟩) ho,hl.trans (Plain.later (e := ⟨o,r⟩) ho _)⟩) (.refl h)).onOk

theorem Keeps.bind {β : Type} {p : Service α} {g : α → Service β} (hp : Keeps M p)
    (hg : ∀ a, Keeps M (g a)) : Keeps M (p >>= g) := fun h =>
  (hp h).seq fun a h' hl => (hg a h').ok fun _ _ hl' => hl.trans hl'

theorem Keeps.bracket {acquire release : Service Unit} {body : Service α} (ha : Keeps M acquire)
    (hr : Keeps M release) (hb : Keeps M body) : Keeps M (Prog.bracket acquire release body) := fun h =>
  Prog.Traced.bracket (B := fun _ => Later M h) (ha h)
    (fun h' hl => (hb h').ok fun _ _ hl' => hl.trans hl') (fun h' => (hr h').mono fun _ _ _ => trivial)
    fun _ h' hl => (hr h').ok fun _ _ hl' => hl.trans hl'

theorem closed_keeps (M : Prost) : Prog.Closed fun _ (p : Service _) => Keeps M p where
  ret _ h := Later.refl h
  fail _ _ := trivial
  bind := Keeps.bind
  bracket := Keeps.bracket

theorem placed_removeTaskFromList (task : Task) (listKey : String) :
    (TaskService.removeTaskFromListInStorage M u task listKey).Traced (Placed M) h fun _ _ => True := by
  refine fun r => ⟨Plain.placed (e := ⟨.storageRead u _,r⟩) trivial,?_⟩
  cases r with
  | error e => trivial
  | ok payload =>
    show (unwrap (M.taskIdList.decode payload) >>= _).Traced _ _ _
    cases hd : M.taskIdList.decode payload with
    | none => trivial
    | some list =>
      show ((.ret list : Service _) >>= _).Traced _ _ _
      rw [Prog.ret_bind]
      cases list.taskIdsWithKeyPaths.findIdx? fun e => e.taskId = task.taskId with
      | none => trivial
      | some index =>
        refine fun r => ⟨fun id => .inl ?_,by cases r <;> trivial⟩
        have hbefore : copies M id payload = list.taskIdsWithKeyPaths.countP (·.taskId = id) := by
          simp [copies,hd]
        rw [knows_read,copies_encode,Option.map_some,Option.getD_some,hbefore]
        exact (List.eraseIdx_sublist _ _).countP_le

theorem placed_removeTaskOldStatus (task : Task) :
    (TaskService.removeTaskOldStatus M u task).Traced (Placed M) h fun _ _ => True :=
  Prog.Traced.bind ((placed_removeTaskFromList task _).mono fun r _ _ => by
    cases r with
    | ok a => exact placed_removeTaskFromList task _
    | error e => trivial)

theorem exists_listIn {k : String} (hk : ListOf u task k) : ∃ f, k = "_internal:" ++ listIn u task f := by
  rcases hk with rfl | rfl
  · exact ⟨.protocol,rfl⟩
  · exact ⟨.status,rfl⟩

/-- Work on the lists of the task, short of entering it in that of the family. -/
theorem Sourced.cons {e : TaskEvent} (hs : Sourced M u task f h) (ho : OnLists M u task e.1)
    (hne : ∀ k payload r, e = ⟨.storageUpdate .list u k payload,r⟩ →
      k ≠ "_internal:" ++ listIn u task f) : Sourced M u task f (e :: h) := by
  cases hs with
  | changed status known =>
    refine .changed status fun hres => ?_
    have hleaves : ∀ e' ∈ [e], Leaves u (recordKey task.taskId) e'.1 := fun e' he' => by
      obtain rfl := List.mem_singleton.mp he'
      exact ho.leaves fun hcol => hres ⟨_,status,hcol⟩
    exact (knows_append hleaves h).trans (known hres)
  | stored site_mem mem pends =>
    refine .stored site_mem (List.mem_cons_of_mem e mem) (pends.cons fun hp => ?_)
    obtain ⟨o,r⟩ := e
    cases o with
    | storageUpdate site u' k payload =>
      cases site with
      | list =>
        obtain ⟨rfl,hk,-⟩ := ho
        obtain ⟨f',rfl⟩ := exists_listIn hk
        have hf : f ≠ f' := fun hh => hne _ payload r rfl (hh ▸ rfl)
        have hc : (Entry.mk u' f task.taskId).concerns u' ("_internal:" ++ listIn u' task f') = false := by
          rw [concerns_listIn]
          exact decide_eq_false fun hh => hf hh.2
        simp [pending,hp,hc]
      | latest =>
        exact Plain.pending (e := ⟨.storageUpdate .latest u' k payload,r⟩) (plain_update (by decide)) hp
      | _ => exact ho.elim
    | storageRead u' k => exact Plain.pending (e := ⟨.storageRead u' k,r⟩) trivial hp
    | storageContains u' k => exact Plain.pending (e := ⟨.storageContains u' k,r⟩) trivial hp
    | _ => exact ho.elim

/-- The task has been entered in its list of the family. -/
structure Adds (M : Prost) (u : String) (task : Task) (f : Family) (h h' : List TaskEvent) : Prop where
  suffix : h <:+ h'
  sourced : ∀ f' ≠ f, Sourced M u task f' h → Sourced M u task f' h'
  others : ∀ x : Entry, ¬ (x.user = u ∧ x.taskId = task.taskId) → Pends M x h → Pends M x h'

theorem Adds.trans {h'' : List TaskEvent} (ha : Adds M u task f h h') (ha' : Adds M u task f h' h'') :
    Adds M u task f h h'' where
  suffix := ha.suffix.trans ha'.suffix
  sourced f' hf hs := ha'.sourced f' hf (ha.sourced f' hf hs)
  others x hx hp := ha'.others x hx (ha.others x hx hp)

theorem Adds.of_plain {e : TaskEvent} (he : Plain e.1) (ho : OnLists M u task e.1) (h : List TaskEvent) :
    Adds M u task f h (e :: h) where
  suffix := List.suffix_cons _ _
  sourced f' _ hs := hs.cons ho fun k payload r hh => by
    subst hh
    exact absurd (List.mem_cons_self ..) he
  others _ _ hp := hp.cons he.pending

/-- The task is added to the list as it is known. -/
theorem placed_append {keyPath : String} {list : List CoLinkInternalTaskIdWithKeyPath}
    (hlist : ∀ id, list.countP (·.taskId = id) ≤
      ((knows u ("_internal:" ++ listIn u task f) h).map (copies M id)).getD 0)
    (hs : Sourced M u task f h) :
    (TaskService.storeTaskIdList M u (listIn u task f) ⟨list ++ [⟨keyPath,task.taskId⟩]⟩).Traced
      (Placed M) h (Prog.OnOk fun _ => Adds M u task f h) := by
  have hcopies {id : String} (hid : id ≠ task.taskId) :
      copies M id (M.taskIdList.encode ⟨list ++ [⟨keyPath,task.taskId⟩]⟩) ≤
        ((knows u ("_internal:" ++ listIn u task f) h).map (copies M id)).getD 0 := by
    simpa [List.countP_append,List.countP_singleton,hid.symm] using hlist id
  refine fun r => ⟨fun id => ?_,?_⟩
  · by_cases hid : id = task.taskId
    · exact .inr ⟨task,f,hid.symm,rfl,hs⟩
    · exact .inl (hcopies hid)
  · cases r with
    | error e => trivial
    | ok k =>
      refine ⟨List.suffix_cons _ _,fun f' hf hs' => ?_,fun x hx hp => hp.cons fun hp => ?_⟩
      · refine hs'.cons ⟨rfl,listOf_listIn u task f,_,rfl⟩ fun k' payload r hh he => ?_
        obtain ⟨-,-,hk,-⟩ := Op.storageUpdate.inj (congrArg Sigma.fst hh)
        exact listIn_ne hf ((String.append_right_inj _).mp (he.symm.trans hk.symm))
      · by_cases hu : u = x.user
        · have hid : x.taskId ≠ task.taskId := fun hh => hx ⟨hu.symm,hh⟩
          simp only [pending,hp,Bool.true_and,Bool.or_eq_true,decide_eq_true_eq]
          exact .inr (hcopies hid)
        · simp [pending,hp,Entry.concerns,hu]

theorem placed_addTaskToList (hs : Sourced M u task f h) :
    (TaskService.addTaskToListInStorage M u task (listIn u task f)).Traced (Placed M) h
      (Prog.OnOk fun _ => Adds M u task f h) := by
  have hk := listOf_listIn u task f
  have hlatest : OnLists M u task (.storageUpdate .latest u ("_internal:" ++ (listIn u task f ++
      ":latest")) (M.task.encode { taskId := task.taskId })) :=
    ⟨rfl,_,hk,by rw [String.append_assoc],rfl⟩
  have hstep {e : TaskEvent} {h : List TaskEvent} (he : Plain e.1) (ho : OnLists M u task e.1)
      (hs : Sourced M u task f h) : Sourced M u task f (e :: h) :=
    hs.cons ho fun k payload r hh => by
      subst hh
      exact absurd (List.mem_cons_self ..) he
  intro r
  have hplain : Plain (⟨.storageUpdate .latest u ("_internal:" ++ (listIn u task f ++ ":latest"))
      (M.task.encode { taskId := task.taskId }),r⟩ : TaskEvent).1 := plain_update (by decide)
  refine ⟨hplain.placed,?_⟩
  cases r with
  | error e => trivial
  | ok keyPath =>
    intro present
    have hcontains : Plain (⟨.storageContains u ("_internal:" ++ listIn u task f),present⟩ : TaskEvent).1 :=
      trivial
    have hadds := (Adds.of_plain (f := f) hplain hlatest h).trans
      (.of_plain (f := f) hcontains ⟨rfl,hk⟩ _)
    have hs' := hstep hcontains ⟨rfl,hk⟩ (hstep hplain hlatest hs)
    refine ⟨hcontains.placed,?_⟩
    cases present with
    | false =>
      have hnone (id : String) (n : ℕ) :
          ([] : List CoLinkInternalTaskIdWithKeyPath).countP (·.taskId = id) ≤ n := Nat.zero_le n
      exact (placed_append (fun id => hnone id _) hs').ok fun _ _ ha => hadds.trans ha
    | true =>
      intro r
      have hread : Plain (⟨.storageRead u ("_internal:" ++ listIn u task f),r⟩ : TaskEvent).1 := trivial
      refine ⟨hread.placed,?_⟩
      cases r with
      | error e => trivial
      | ok payload =>
        show ((unwrap (M.taskIdList.decode payload) : Service CoLinkInternalTaskIdList) >>= fun list =>
          TaskService.storeTaskIdList M u (listIn u task f)
            ⟨list.taskIdsWithKeyPaths ++ [⟨keyPath,task.taskId⟩]⟩).Traced _ _ _
        cases hd : M.taskIdList.decode payload with
        | none => trivial
        | some list =>
          refine (placed_append (fun id => ?_) (hstep hread ⟨rfl,hk⟩ hs')).ok fun _ _ ha =>
            (hadds.trans (.of_plain (f := f) hread ⟨rfl,hk⟩ _)).trans ha
          rw [knows_read]
          simp [copies,hd]

/-- The task has been entered in both its lists. -/
structure Listed (M : Prost) (u : String) (task : Task) (h h' : List TaskEvent) : Prop where
  suffix : h <:+ h'
  others : ∀ x : Entry, ¬ (x.user = u ∧ x.taskId = task.taskId) → Pends M x h → Pends M x h'

theorem placed_addTaskNewStatus (hs : ∀ f, Sourced M u task f h) :
    (TaskService.addTaskNewStatus M u task).Traced (Placed M) h (Prog.OnOk fun _ => Listed M u task h) := by
  refine Prog.Traced.seq (placed_addTaskToList (f := .protocol) (hs .protocol)) fun _ h' ha => ?_
  refine (placed_addTaskToList (f := .status) (ha.sourced .status nofun (hs .status))).ok
    fun _ _ ha' => ⟨ha.suffix.trans ha'.suffix,fun x hx hp => ?_⟩
  exact ha'.others x hx (ha.others x hx hp)

/-- The thread has stored the task as a new one and is to enter it in its lists. -/
def Introduced (M : Prost) (u : String) (task : Task) (h : List TaskEvent) : Prop :=
  (∃ site ∈ introducing, ∃ r, ⟨.storageUpdate site u (recordKey task.taskId) (M.task.encode task),r⟩ ∈ h) ∧
  ∀ f, Pends M ⟨u,f,task.taskId⟩ h

theorem Introduced.later (hi : Introduced M u task h) (hl : Later M h h') : Introduced M u task h' := by
  obtain ⟨⟨site,hsite,r,hm⟩,hp⟩ := hi
  exact ⟨⟨site,hsite,r,hl.1.subset hm⟩,fun f => hl.2 _ (hp f)⟩

theorem Introduced.sourced (hi : Introduced M u task h) (f : Family) : Sourced M u task f h := by
  obtain ⟨⟨site,hsite,r,hm⟩,hp⟩ := hi
  exact .stored hsite hm (hp f)

theorem placed_indexTask (hi : Introduced M u task h) :
    (TaskService.indexTask M u task).Traced (Placed M) h (Prog.OnOk fun _ => Listed M u task h) := by
  have hlock : Plain (⟨.lock (.index u task.taskId),()⟩ : TaskEvent).1 := trivial
  have hunlock : Plain (⟨.unlock (.index u task.taskId),()⟩ : TaskEvent).1 := trivial
  refine Prog.Traced.bracket (A := fun h' => h' = ⟨.lock (.index u task.taskId),()⟩ :: h)
    (B := fun _ => Listed M u task h)
    (fun r => ⟨hlock.placed,rfl⟩) (fun h' hA => ?_) (fun h' r => ⟨hunlock.placed,trivial⟩)
    fun _ h' hB r => ⟨hunlock.placed,hB.suffix.trans (List.suffix_cons _ _),fun x hx hp => ?_⟩
  · subst hA
    refine (placed_addTaskNewStatus (hi.later (hlock.later h)).sourced).ok
      fun _ h' hB => ⟨(List.suffix_cons _ _).trans hB.suffix,fun x hx hp => ?_⟩
    exact hB.others x hx (hp.cons hlock.pending)
  · exact (hB.others x hx hp).cons hunlock.pending

theorem pending_of_cons {e : TaskEvent} (hs : stores x e = false) (hp : pending M x (e :: h)) :
    pending M x h := by
  obtain ⟨o,r⟩ := e
  cases o with
  | storageUpdate site u k payload =>
    cases site with
    | list => exact (Bool.and_eq_true_iff.mp hp).1
    | _ =>
      simp only [pending,hs,Bool.false_or] at hp
      exact (Bool.and_eq_true_iff.mp hp).1
  | _ =>
    simp only [pending,hs,Bool.false_or] at hp
    exact (Bool.and_eq_true_iff.mp hp).1

theorem one_le_of_pending (hp : pending M x h) : 1 ≤ h.countP (stores x) := by
  induction h with
  | nil => cases hp
  | cons e h ih =>
    rw [List.countP_cons]
    cases hs : stores x e with
    | true => simp
    | false => simpa using ih (pending_of_cons hs hp)

/-- Storing a new task; if it was one already, then it has been stored twice. -/
theorem placed_storeTask {site : Site} (hs : site ∈ introducing) :
    (TaskService.storeTask M site u task).Traced (Placed M) h (Prog.OnOk fun _ h' => Later M h h' ∧
      Introduced M u task h' ∧ ∀ x : Entry, x.user = u ∧ x.taskId = task.taskId → Pends M x h →
        2 ≤ h'.countP (stores x)) := by
  have hplain : Plain (.storageUpdate site u (recordKey task.taskId) (M.task.encode task)) :=
    plain_update (by revert site; decide)
  intro r
  have hstores {x : Entry} (hx : x.user = u ∧ x.taskId = task.taskId) : stores x
      ⟨.storageUpdate site u (recordKey task.taskId) (M.task.encode task),r⟩ := by
    obtain ⟨rfl,hid⟩ := hx
    exact decide_eq_true ⟨hs,rfl,by rw [hid]⟩
  refine ⟨Plain.placed (e := ⟨.storageUpdate site u _ _,r⟩) hplain,?_⟩
  cases r with
  | error e => trivial
  | ok k =>
    refine ⟨Plain.later (e := ⟨.storageUpdate site u _ _,.ok k⟩) hplain h,
      ⟨⟨site,hs,_,List.mem_cons_self ..⟩,fun f => .inl ?_⟩,fun x hx hp => ?_⟩
    · have hst := hstores (x := ⟨u,f,task.taskId⟩) ⟨rfl,rfl⟩
      cases site <;> first
        | exact absurd hs (by decide)
        | (simp only [pending,Bool.or_eq_true]
           exact .inl hst)
    · have hone : 1 ≤ h.countP (stores x) := hp.elim one_le_of_pending fun htwo => by omega
      have hcount := List.countP_cons_of_pos (l := h) (hstores hx)
      exact (Nat.succ_le_succ hone).trans hcount.ge

theorem keeps_introduce {site : Site} (hs : site ∈ introducing) (task : Task) :
    Keeps M (TaskService.storeTask M site u task >>= fun _ => TaskService.indexTask M u task) := by
  intro h
  refine (placed_storeTask hs).seq fun _ h₁ hstored => ?_
  obtain ⟨hl,hi,htwo⟩ := hstored
  refine (placed_indexTask hi).ok fun _ h' hlisted => ⟨hl.1.trans hlisted.suffix,fun x hp => ?_⟩
  by_cases hx : x.user = u ∧ x.taskId = task.taskId
  · exact .inr ((htwo x hx hp).trans (hlisted.suffix.sublist.countP_le))
  · exact hlisted.others x hx (hl.2 x hp)

theorem plain_checkPrivilegeIn (metadata : Metadata) (privileges : List String) :
    (TaskService.checkPrivilegeIn metadata privileges).All Plain :=
  TaskService.all_checkPrivilegeIn fun _ => trivial

theorem plain_generateDecision (a r : Bool) (reason : String) (task : Task) :
    (TaskService.generateDecision a r reason u task).All Plain :=
  TaskService.all_generateDecision trivial fun _ => trivial

theorem keeps_perform {o : Op} (ho : Plain o) : Keeps M (perform o) :=
  keeps_of_all (TaskService.all_perform ho)

theorem keeps_queryFromRegistries (v : String) : Keeps M (TaskService.queryFromRegistries M u v) := by
  refine (keeps_perform (o := .newUuid) trivial).bind fun id => ?_
  refine (keeps_perform (o := .utcNow) trivial).bind fun now => ?_
  refine (keeps_of_all (plain_generateDecision _ _ _ _)).bind fun d => ?_
  refine (keeps_of_all (TaskService.all_setDecision _ _ _)).bind fun task => ?_
  exact keeps_introduce (by decide) task

theorem contacts_keeps : TaskService.Contacts M u fun _ p => Keeps M p where
  toClosed := closed_keeps M
  ask o ho := keeps_perform (plain_of_kind fun hk => by
    rw [hk] at ho
    exact absurd ho (by decide))
  query := keeps_queryFromRegistries
  contact o ho := keeps_perform (plain_of_kind fun hk => by
    rw [hk] at ho
    exact absurd ho (by decide))

/-- The thread has spent nothing for any entry. -/
def Clear (M : Prost) (h : List TaskEvent) : Prop := ∀ x, spent (price M x) h ≤ 0

/-- It has taken the task out of both lists. -/
def Owes (M : Prost) (u id : String) (h : List TaskEvent) : Prop :=
  ∀ x : Entry, x.user = u → x.taskId = id → spent (price M x) h ≤ -1

theorem Plain.listless {o : Op} (ho : Plain o) : Listless o := by
  cases o with
  | storageUpdate site u k payload =>
    cases site with
    | list => exact absurd (List.mem_cons_self ..) ho
    | _ => trivial
  | _ => trivial

theorem Plain.spent {e : TaskEvent} (he : Plain e.1) (x : Entry) (h : List TaskEvent) :
    spent (price M x) (e :: h) ≤ spent (price M x) h := by
  have hprice : price M x e h ≤ 0 := price_listless he.listless e.2 h
  rw [Interleaving.spent]
  omega

theorem clear_of_all {p : Service α} (hp : p.All Plain) (hc : Clear M h) :
    p.Traced (Placed M) h fun _ => Clear M :=
  Prog.Traced.of_all hp (fun o ho r _ hc =>
    ⟨Plain.placed (e := ⟨o,r⟩) ho,fun x => (Plain.spent (e := ⟨o,r⟩) ho x _).trans (hc x)⟩) hc

theorem owes_of_all {p : Service α} {id : String} (hp : p.All Plain) (ho : Owes M u id h) :
    p.Traced (Placed M) h fun _ => Owes M u id :=
  Prog.Traced.of_all hp (fun o ho r _ hw => ⟨Plain.placed (e := ⟨o,r⟩) ho,
    fun x hx hid => (Plain.spent (e := ⟨o,r⟩) ho x _).trans (hw x hx hid)⟩) ho

theorem owes_removeTaskOldStatus (hc : Clear M h) (task : Task) :
    (TaskService.removeTaskOldStatus M u task).Traced (Placed M) h
      (Prog.OnOk fun _ => Owes M u task.taskId) := by
  have : Nonempty Entry := ⟨⟨u,.status,task.taskId⟩⟩
  have hcosts (x : Entry) : (TaskService.removeTaskOldStatus M u task).Traced (fun _ => True) h
      (Prog.OnOk fun _ h' => spent (price M x) h' ≤ spent (price M x) h + -share x u task) :=
    ((costs_removeTaskOldStatus (M := M) (x := x) (u := u) task h).weaken fun _ _ => trivial).mono
      fun r h' hr => by
        cases r with
        | error e => trivial
        | ok a => exact hr
  refine ((placed_removeTaskOldStatus task).and (Prog.Traced.forall hcosts)).mono fun r h' hr => ?_
  cases r with
  | error e => trivial
  | ok a =>
    intro x hu hid
    have hspent : spent (price M x) h' ≤ spent (price M x) h + -share x u task := hr.2 x
    rw [share,if_pos ⟨hu.symm,hid.symm⟩] at hspent
    have hzero := hc x
    omega

theorem placed_enter {site : Site} (task : Task) (hs : site ∈ changing) (hst : task.status ∈ statuses)
    (ho : Owes M u task.taskId h) :
    (TaskService.storeTask M site u task >>= fun _ => TaskService.addTaskNewStatus M u task).Traced
      (Placed M) h fun _ _ => True := by
  intro r
  refine ⟨?_,?_⟩
  · have hx (x : Entry) (hx : changes x ⟨.storageUpdate site u (recordKey task.taskId)
        (M.task.encode task),r⟩) : spent (price M x) h ≤ -1 := by
      obtain ⟨-,hu,hid⟩ := of_decide_eq_true hx
      exact ho x hu.symm (recordKey_inj.mp hid).symm
    cases site <;> first
      | exact absurd hs (by decide)
      | exact hx
  · cases r with
    | error e => trivial
    | ok k =>
      refine (placed_addTaskNewStatus fun f => .changed hst fun _ => ?_).mono fun _ _ _ => trivial
      exact if_pos ⟨rfl,rfl⟩

/-- The program meets the obligations after whatever costs nothing. -/
def Places (M : Prost) {α : Type} (p : Service α) : Prop :=
  ∀ h, Clear M h → p.Traced (Placed M) h (Prog.OnOk fun _ _ => True)

theorem Keeps.places {p : Service α} (hp : Keeps M p) : Places M p := fun h _ =>
  (hp h).ok fun _ _ _ => trivial

theorem places_seq {β : Type} {p : Service α} {g : α → Service β} (hp : p.All Plain)
    (hg : ∀ a, Places M (g a)) : Places M (p >>= g) := fun _ hc =>
  Prog.Traced.seq (clear_of_all hp hc).onOk fun a h' hc' => hg a h' hc'

theorem places_then {β : Type} {p : Service α} {g : α → Service β} (hp : Places M p)
    (hg : ∀ a, Keeps M (g a)) : Places M (p >>= g) := fun h hc =>
  Prog.Traced.seq (hp h hc) fun a h' _ => (hg a h').ok fun _ _ _ => trivial

theorem places_locked {s : Section} {body : Service α} (hb : Places M body) :
    Places M (TaskService.locked s body) := by
  intro h hc
  have hlock : Plain (⟨.lock s,()⟩ : TaskEvent).1 := trivial
  have hunlock : Plain (⟨.unlock s,()⟩ : TaskEvent).1 := trivial
  refine Prog.Traced.bracket (A := Clear M) (B := fun _ _ => True)
    (fun r => ⟨hlock.placed,fun x => ?_⟩) hb (fun h' r => ⟨hunlock.placed,trivial⟩)
    fun _ h' _ r => ⟨hunlock.placed,trivial⟩
  exact (Plain.spent (e := ⟨.lock s,r⟩) hlock x h).trans (hc x)

theorem plain_readTask (id : String) : (TaskService.readTask M u id).All Plain :=
  TaskService.all_readTask trivial

theorem owes_enterDecision (d : Decision) (ho : Owes M u task.taskId h) :
    (TaskService.enterDecision d u task).Traced (Placed M) h (Prog.OnOk fun task' h' =>
      task'.taskId = task.taskId ∧ Owes M u task.taskId h') := by
  have henter : (TaskService.enterDecision d u task).All Plain :=
    TaskService.all_enterDecision trivial fun _ _ => trivial
  refine ((owes_of_all henter ho).returns (returns_enterDecision d task)).mono fun r h' hr => ?_
  cases r with
  | error e => trivial
  | ok task' => exact ⟨hr.2 task' rfl,hr.1⟩

theorem places_confirmSection (d : Decision) {status id : String}
    (hs : TaskService.userStatus d = .ret status) : Places M (TaskService.locked .confirm do
      let task ← TaskService.readTask M u id
      require (task.status == "waiting")
        (.internal ("Task " ++ task.taskId ++ " has already confirmed."))
      let now ← perform .utcNow
      require (decide (now ≤ task.expirationTime))
        (.internal ("Task " ++ task.taskId ++ " has expired."))
      TaskService.removeTaskOldStatus M u task
      let task ← TaskService.enterDecision d u task
      let task := { task with status := TaskService.confirmedStatus status task }
      TaskService.storeTask M .confirm u task
      TaskService.addTaskNewStatus M u task
      .ret task : Service Task) := by
  refine places_locked (places_seq (plain_readTask _) fun task => ?_)
  refine places_seq (TaskService.all_require _ _) fun _ => ?_
  refine places_seq (TaskService.all_perform trivial) fun now => ?_
  refine places_seq (TaskService.all_require _ _) fun _ h hc => ?_
  refine (owes_removeTaskOldStatus hc task).seq fun _ h₁ howes => ?_
  refine (owes_enterDecision d howes).seq fun task' h₂ hh => ?_
  obtain ⟨hid,howes⟩ := hh
  show (TaskService.storeTask M .confirm u _ >>= fun _ => TaskService.addTaskNewStatus M u _ >>=
    fun _ => Prog.ret _).Traced _ _ _
  rw [← Prog.bind_assoc]
  exact Prog.Traced.seq (placed_enter _ (by decide) (confirmedStatus_mem hs task') (hid ▸ howes)).onOk
    fun _ _ _ => trivial

theorem places_confirmTask (metadata : Metadata) (request : ConfirmTaskRequest) :
    Places M (TaskService.confirmTask M metadata request) := by
  refine places_seq (plain_checkPrivilegeIn _ _) fun _ => ?_
  refine places_seq (TaskService.all_unwrap _) fun u => ?_
  cases request.decision with
  | none => exact fun _ _ => trivial
  | some d =>
    show Places M (TaskService.userStatus d >>= _)
    cases hs : TaskService.userStatus d with
    | fail e => exact fun _ _ => trivial
    | call o k =>
      unfold TaskService.userStatus at hs
      split_ifs at hs
      exact absurd hs (by simp [abort])
    | ret status =>
      rw [Prog.ret_bind]
      refine places_then (places_confirmSection d hs) fun task => ?_
      split
      · exact (keeps_of_all (TaskService.all_unwrap _)).bind fun p =>
          contacts_keeps.sendInterCoreSyncTask _ _
      · exact keeps_of_all trivial

theorem places_finishTask (metadata : Metadata) (request : Task) :
    Places M (TaskService.finishTask M metadata request) := by
  refine places_seq (plain_checkPrivilegeIn _ _) fun _ => ?_
  refine places_seq (TaskService.all_unwrap _) fun u => places_locked ?_
  refine places_seq (plain_readTask _) fun task => ?_
  refine places_seq (TaskService.all_require _ _) fun _ h hc => ?_
  refine (owes_removeTaskOldStatus hc task).seq fun _ h₁ howes => ?_
  exact (placed_enter { task with status := "finished" } (by decide)
    (show "finished" ∈ statuses by decide) howes).onOk

theorem places_createTask (reverse : Bool) (metadata : Metadata) (request : Task) :
    Places M (TaskService.createTask M reverse metadata request) := by
  refine places_seq (plain_checkPrivilegeIn _ _) fun _ => ?_
  refine places_seq (TaskService.all_unwrap _) fun u => ?_
  refine places_seq (TaskService.all_perform trivial) fun id => ?_
  refine places_seq (plain_generateDecision _ _ _ _) fun d => ?_
  refine places_seq (TaskService.all_setDecision _ _ _) fun task h _ => ?_
  refine (placed_storeTask (by decide)).seq fun _ h₁ hstored => ?_
  have hsend (a : Unit) (p : Participant) : Keeps M (if reverse then
      TaskService.sendInterCoreSyncTaskWithReverseConnection M u p.userId task
      else TaskService.sendInterCoreSyncTask M u p.userId task) := by
    split
    · exact contacts_keeps.sendWithReverseConnection p.userId task
    · exact contacts_keeps.sendInterCoreSyncTask p.userId task
  refine Prog.Traced.seq ((closed_keeps M).foldlM hsend (task.participants.drop 1) () h₁)
    fun _ h₂ hl => ?_
  exact (placed_indexTask (hstored.2.1.later hl)).seq fun _ _ _ => trivial

theorem plain_mergeDecisions (request : Task) :
    (TaskService.mergeDecisions M u request).All Plain := by
  refine TaskService.all_locked trivial trivial ?_
  refine (plain_readTask _).bind fun task => (TaskService.all_require _ _).bind fun _ => ?_
  refine (TaskService.all_perform trivial).bind fun now => (TaskService.all_require _ _).bind fun _ => ?_
  refine (TaskService.all_takeDecisions fun _ _ _ => trivial).bind fun task => Prog.All.bind ?_ fun _ => trivial
  exact TaskService.all_storeTask (plain_update (by decide))

theorem places_changeStatus (request : Task) (rejected : Bool) :
    Places M (TaskService.changeStatus M u request rejected) := by
  refine places_locked (places_seq (plain_readTask _) fun task h hc => ?_)
  refine (owes_removeTaskOldStatus hc task).seq fun _ h₁ howes => ?_
  have hst : (if rejected then "rejected" else "started") ∈ statuses := by
    split_ifs <;> decide
  show (TaskService.storeTask M .decide u _ >>= fun _ => TaskService.addTaskNewStatus M u _ >>=
    fun _ => Prog.ret _).Traced _ _ _
  rw [← Prog.bind_assoc]
  exact Prog.Traced.seq (placed_enter { task with status := if rejected then "rejected" else
    "started" } (by decide) hst howes).onOk fun _ _ _ => trivial

theorem places_interCoreSyncTask (metadata : Metadata) (request : Task) :
    Places M (TaskService.interCoreSyncTask M metadata request) := by
  refine places_seq (plain_checkPrivilegeIn _ _) fun _ => ?_
  refine places_seq (TaskService.all_unwrap _) fun u => ?_
  cases metadata.forwardingTarget with
  | some value =>
    refine places_seq (TaskService.all_unwrap _) fun target => ?_
    exact (keeps_of_all (TaskService.all_forward trivial trivial)).places
  | none =>
    refine places_seq (TaskService.all_perform trivial) fun present => ?_
    split
    · refine places_seq (TaskService.all_unwrap _) fun d => ?_
      refine places_seq (TaskService.all_unwrap _) fun p => ?_
      refine places_seq (TaskService.all_checkDecision trivial) fun _ => ?_
      refine places_seq (TaskService.all_require _ _) fun _ => ?_
      exact (keeps_introduce (by decide) _).places
    · refine places_seq (plain_mergeDecisions request) fun task => ?_
      split_ifs
      · exact fun _ _ => trivial
      · exact places_then (places_changeStatus _ _) fun _ => contacts_keeps.broadcast _
      · exact fun _ _ => trivial

theorem placed_serve (D : Deployment) (q : Request) :
    (D.serve q).Traced (Placed D.prost) [] fun _ _ => True := by
  have hhandle : Places D.prost (D.handle q) := by
    unfold Deployment.handle
    cases q.call with
    | createTask task => exact places_then (places_createTask _ _ _) fun _ => keeps_of_all trivial
    | confirmTask request => exact places_confirmTask _ _
    | finishTask task => exact places_finishTask _ _
    | interCoreSyncTask task => exact places_interCoreSyncTask _ _
    | interCoreSyncTaskWithReverseConnection task =>
      refine places_seq (TaskService.all_unwrap _) fun u => ?_
      refine places_seq (TaskService.all_unwrap _) fun receiver => ?_
      exact places_then (places_interCoreSyncTask _ _) fun _ =>
        keeps_perform (o := .sendersInsert u receiver.userId) trivial
  refine Prog.Traced.bind (Prog.Traced.attempt ((hhandle [] fun _ => le_rfl).mono fun r h _ => ?_))
  intro r'
  refine ⟨Plain.placed (e := ⟨.reply r,r'⟩) trivial,?_⟩
  cases r <;> trivial

end Placements
end CoLinkServer
