import CoLinkServer.ConcreteRuns
import CoLinkServer.TaskVersions

/-! The order of the statuses of a task. The second critical section of a synchronisation does
not look at the status it replaces, so a task that has been started, finished or rejected since
the first one, or before it, can be started again. Where that does not happen the status only
moves forward. -/
namespace CoLinkServer

open Interleaving

namespace StatusOrder

open TaskRecords TaskTraces

variable {D : Deployment} {c : TaskConfig} {t : ℕ} {q : Request} {u : String} {h : List TaskAction}

/-- The status in a stored record. -/
def statusIn (M : Prost) (payload : Option Bytes) : Option String :=
  (payload.bind M.task.decode).map (·.status)

/-- The status of a task in the storage of a user on core `i`. -/
def statusOf (M : Prost) (w : World) (i : ℕ) (u id : String) : Option String :=
  statusIn M (w.read i u (recordKey id))

def forward : List (Option String × Option String) := [
  (none,some "waiting"),(none,some "approved"),(none,some "started"),
  (some "waiting",some "approved"),(some "waiting",some "rejected"),
  (some "waiting",some "ignored"),(some "waiting",some "started"),
  (some "approved",some "started"),(some "approved",some "rejected"),
  (some "ignored",some "rejected"),(some "started",some "finished")]

def Forward (s s' : Option String) : Prop := s' = s ∨ (s,s') ∈ forward

instance (s s' : Option String) : Decidable (Forward s s') := inferInstanceAs (Decidable (_ ∨ _))

@[simp] theorem statusIn_none (M : Prost) : statusIn M none = none := rfl
@[simp] theorem statusIn_encode (M : Prost) (task : Task) :
    statusIn M (some (M.task.encode task)) = some task.status := by simp [statusIn]

/-- The user takes part in the task and has not approved it, and there are no more decisions
than participants. -/
def Undecided (u : String) (task : Task) : Prop :=
  u ∈ task.participants.map (·.userId) ∧ task.decisions.length ≤ task.participants.length ∧
    ∀ x ∈ task.participants.zip task.decisions, x.1.userId = u → ¬ x.2.approves

instance (u : String) (task : Task) : Decidable (Undecided u task) :=
  inferInstanceAs (Decidable (_ ∧ _ ∧ _))

/-- A task that needs agreement is admitted for one of its participants, who has not decided. -/
def Admits (M : Prost) (w : Write) : Prop := w.site = .admission →
  ∀ task ∈ M.task.decode w.payload, task.requireAgreement → Undecided w.user task

/-- A verdict finds a task that is neither started nor rejected nor finished. -/
def Pending (M : Prost) (w : Write) (h : List TaskAction) : Prop := w.site = .decide →
  statusIn M (stored w.request.core w.user w.key h) ∈ [some "waiting",some "approved",some "ignored"]

/-- No task is admitted whose id is that of a status list, no delivery overtakes another one
between its check and its write, only undecided participants get a task, and verdicts find it
pending. -/
def Orderly (M : Prost) (w : Write) (h : List TaskAction) : Prop :=
  Tidy w h ∧ Alone w h ∧ Admits M w ∧ Pending M w h

instance (M : Prost) (w : Write) (h : List TaskAction) : Decidable (Orderly M w h) :=
  inferInstanceAs (Decidable (_ ∧ _ ∧ (_ → ∀ task ∈ M.task.decode _, _ → _) ∧ (_ → _ ∈ _)))

variable {M : Prost}

theorem tidy_of_orderly (ho : Everywhere (OnWrites (Orderly M)) h) : Everywhere (OnWrites Tidy) h :=
  ho.mono fun _ _ hh w hw => (hh w hw).1

theorem first_of_orderly (hc : D.Reach c) (ho : Everywhere (OnWrites (Orderly M)) c.state.history) :
    Everywhere (OnWrites First) c.state.history :=
  first_of_alone hc (tidy_of_orderly ho) (ho.mono fun _ _ hh w hw => (hh w hw).2.1)

/-- Somebody who has not approved can only be overruled by a rejection. -/
theorem rejected_of_undecided {task : Task} (hu : Undecided u task) (hd : TaskService.isDecided task) :
    TaskService.anyoneRejected task := by
  obtain ⟨hmem,hlen,hown⟩ := hu
  by_contra hno
  have hvalid : (task.decisions.filter Decision.isValid).length = task.participants.length := by
    simpa [TaskService.isDecided,hno] using hd
  have hle : (task.decisions.filter Decision.isValid).length ≤ task.decisions.length :=
    List.length_filter_le ..
  have hall : ∀ d ∈ task.decisions, d.isValid := by
    apply List.length_filter_eq_length_iff.mp
    omega
  obtain ⟨p,hp,rfl⟩ := List.mem_map.mp hmem
  obtain ⟨j,hj,rfl⟩ := List.mem_iff_getElem.mp hp
  have hj' : j < task.decisions.length := by omega
  have hzip : (task.participants[j],task.decisions[j]) ∈ task.participants.zip task.decisions := by
    apply List.mem_iff_getElem.mpr
    exact ⟨j,by simp; omega,by simp⟩
  have hnot := hown _ hzip rfl
  have hv := hall _ (List.getElem_mem hj')
  rw [Decision.isValid_eq] at hv
  have hrej : task.decisions[j].rejects := by simpa [hnot] using hv
  refine hno ?_
  simp only [TaskService.anyoneRejected,decide_eq_true_eq]
  exact List.length_pos_of_mem (List.mem_filter.mpr ⟨List.getElem_mem hj',hrej⟩)

theorem confirmedStatus_eq (s : String) (task : Task) :
    TaskService.confirmedStatus s task = "started" ∨ TaskService.confirmedStatus s task = s := by
  unfold TaskService.confirmedStatus
  dsimp only
  split_ifs
  · exact .inl rfl
  · exact .inr rfl

theorem userStatus_mem {d : Decision} {s : String} (hr : TaskService.userStatus d = .ret s) :
    s = "approved" ∨ s = "rejected" ∨ s = "ignored" ∧ d.approves = false := by
  unfold TaskService.userStatus at hr
  split_ifs at hr with ha hb hc
  · exact .inl (Prog.ret.inj hr).symm
  · exact .inr (.inl (Prog.ret.inj hr).symm)
  · exact .inr (.inr ⟨(Prog.ret.inj hr).symm,by simpa using ha⟩)
  · cases hr

theorem forward_of_confirmed {d : Decision} {s : String} (hr : TaskService.userStatus d = .ret s)
    (task : Task) : Forward (some "waiting") (some (TaskService.confirmedStatus s task)) := by
  rcases confirmedStatus_eq s task with he | he
  · rw [he]
    decide
  · rw [he]
    rcases userStatus_mem hr with rfl | rfl | ⟨rfl,-⟩
    all_goals decide

theorem mem_zip_iff {ps : List Participant} {ds : List Decision} {x : Participant × Decision} :
    x ∈ ps.zip ds ↔ ∃ j : ℕ, ps[j]? = some x.1 ∧ ds[j]? = some x.2 := by
  simp only [List.mem_iff_getElem?,List.getElem?_zip_eq_some]

theorem undecided_of_taken {request task : Task} {ds : List Decision} {past : List TaskEvent}
    (ht : Taken u request task ds past) (hu : Undecided u task) :
    Undecided u { task with decisions := ds } := by
  obtain ⟨hmem,hlen,hown⟩ := hu
  refine ⟨hmem,ht.length ▸ hlen,fun x hx hxu => ?_⟩
  obtain ⟨j,hp,hd⟩ := mem_zip_iff.mp hx
  rcases ht.source j x.2 hd with hold | ⟨p,hp',hne,-⟩
  · exact hown x (mem_zip_iff.mpr ⟨j,hp,hold⟩) hxu
  · obtain rfl := Option.some.inj (hp.symm.trans hp')
    exact absurd hxu hne

theorem undecided_of_entered (hc : D.Reach c) {o : Op} {r : Res o}
    (hs : .op t q o r :: h <:+ c.state.history) {userDecision : Decision} {task : Task}
    {ds : List Decision} (he : Entered u userDecision task ds (events t h))
    (hno : userDecision.approves = false) (hu : Undecided u task) :
    Undecided u { task with decisions := ds } := by
  obtain ⟨hmem,hlen,-⟩ := hu
  refine ⟨hmem,he.1 ▸ hlen,fun x hx hxu => ?_⟩
  obtain ⟨j,hp,hd⟩ := mem_zip_iff.mp hx
  have hj := he.2 j x.1 hp
  rw [if_pos hxu] at hj
  obtain ⟨d,hd',task',bs,-,hm⟩ := hj
  obtain rfl : d = x.2 := Option.some.inj (hd'.symm.trans hd)
  obtain ⟨ha,hb⟩ := made_flags hc hs hm
  simpa [Decision.approves,ha,hb] using hno

/-- A version of a record whose status is `waiting` or `ignored` has not been approved. -/
def OpenVersion (M : Prost) (w : Write) (_ : List TaskAction) : Prop :=
  ∀ id, ¬ Reserved id → w.key = recordKey id → ∀ task ∈ M.task.decode w.payload,
    task.requireAgreement → task.status ∈ ["waiting","ignored"] → Undecided w.user task

theorem openVersion (hc : D.Reach c) (htidy : Everywhere (OnWrites Tidy) c.state.history)
    (hfirst : Everywhere (OnWrites First) c.state.history)
    (hadmits : Everywhere (OnWrites fun w _ => Admits D.prost w) c.state.history) :
    Everywhere (OnWrites (OpenVersion D.prost)) c.state.history := by
  refine everywhere_of_write fun t q site u k payload r past hs ih => ?_
  rintro id hid rfl task hd hagree hstatus
  obtain ⟨new,rfl,hnew,hv⟩ := version_of_write hc htidy hfirst hid hs
  obtain rfl : new = task := Option.some.inj ((D.prost.task.decode_encode new).symm.trans hd)
  generalize hst : stored q.core u (recordKey id) past = before at hv
  cases hv with
  | first hsite hstores =>
    cases hstores with
    | @create request id' bs d call introduced made room =>
      exfalso
      revert hstatus
      show (newTask request id').status ∉ _
      unfold newTask
      dsimp only
      split_ifs <;> simp
    | query introduced => simp [TaskService.registryTask] at hstatus
    | admission =>
      exact everywhere_writes hadmits hs rfl _ (D.prost.task.decode_encode _) hagree
    | _ => simp at hsite
  | @next old changes id_eq =>
    have hold (hst' : old.status ∈ ["waiting","ignored"]) (hag : old.requireAgreement) :
        Undecided u old := by
      obtain ⟨t',q',site',r',past',-,hw⟩ := write_of_stored hst
      exact everywhere_writes ih hw id hid rfl old (D.prost.task.decode_encode old) hag hst'
    cases changes with
    | merge sync direct agreement taken => exact undecided_of_taken taken (hold hstatus agreement)
    | decide =>
      exfalso
      revert hstatus
      dsimp only
      split_ifs <;> simp
    | @confirm request ud s ds call decision reported waiting entered =>
      have hu := hold (by simp [waiting]) hagree
      rcases confirmedStatus_eq s { old with decisions := ds } with he | he
      · simp [he] at hstatus
      · rcases userStatus_mem reported with rfl | rfl | ⟨rfl,hno⟩
        · simp [he] at hstatus
        · simp [he] at hstatus
        · exact undecided_of_entered hc hs entered hno hu
    | finish => simp at hstatus

def Advances (M : Prost) (w : Write) (h : List TaskAction) : Prop :=
  ∀ id, ¬ Reserved id → w.key = recordKey id →
    Forward (statusIn M (stored w.request.core w.user w.key h)) (statusIn M (some w.payload))

/-- What can be started without the user's approval being entered later. -/
def past : List (Option String) := [some "approved",some "started",some "rejected",some "finished"]

theorem past_of_forward {s s' : Option String} (hf : Forward s s') (hs : s ∈ past) : s' ∈ past := by
  rcases hf with rfl | hf
  · exact hs
  · have hall : ∀ x ∈ forward, x.1 ∈ past → x.2 ∈ past := by decide
    exact hall (s,s') hf hs

theorem status_past {i : ℕ} {id : String} (hid : ¬ Reserved id)
    (ha : Everywhere (OnWrites (Advances M)) h) {earlier : List TaskAction} (hs : earlier <:+ h)
    (hp : statusIn M (stored i u (recordKey id) earlier) ∈ past) :
    statusIn M (stored i u (recordKey id) h) ∈ past := by
  refine stored_preserves (P := fun b => statusIn M b ∈ past) ?_ hs hp
  refine ha.mono fun a h' hw w hmem => ?_
  rintro rfl rfl hk hin
  have hf := hw w hmem id hid hk
  rw [hk] at hf
  exact past_of_forward hf hin

/-- A verdict to start a task is based on a version that was not awaiting the user's approval. -/
theorem past_of_verdict (hc : D.Reach c)
    (ho : Everywhere (OnWrites (Orderly D.prost)) c.state.history) {id : String}
    (hid : ¬ Reserved id) {payload : Bytes} {r : Except UpdateError String}
    (hs : .op t q (.storageUpdate .decide u (recordKey id) payload) r :: h <:+ c.state.history)
    (ha : Everywhere (OnWrites (Advances D.prost)) h) {merged : Task} {r' : Except UpdateError String}
    (hm : ⟨.storageUpdate .merge u (recordKey merged.taskId) (D.prost.task.encode merged),r'⟩ ∈
      events t h) (hne : merged.status ≠ "started" ∧ merged.status ≠ "rejected")
    (hd : TaskService.isDecided merged) (hno : TaskService.anyoneRejected merged = false) :
    statusIn D.prost (stored q.core u (recordKey id) h) ∈ past := by
  have hk := kept hc (tidy_of_orderly ho)
  have hh : h <:+ c.state.history := (List.suffix_cons _ _).trans hs
  obtain ⟨later,earlier,rfl,rfl,hagree⟩ := merged_before hc (tidy_of_orderly ho)
    hid (firstSince_of_first (first_of_orderly hc ho)) hs hm
  have hs' := (List.suffix_append later _).trans hh
  have hopen := everywhere_writes (openVersion hc (tidy_of_orderly ho) (first_of_orderly hc ho)
    (ho.mono fun _ _ hh w hw => (hh w hw).2.2.1)) hs' _ hid rfl merged
    (D.prost.task.decode_encode merged) hagree
  have hnot : merged.status ∉ ["waiting","ignored"] := fun hst => by
    have hrej := rejected_of_undecided (hopen hst) hd
    rw [hno] at hrej
    cases hrej
  have hst : merged.status ∈ statuses := by
    obtain ⟨task,-,he',hst,-⟩ := everywhere_writes hk hs'
    obtain rfl := D.prost.task.encode_inj he'
    exact hst
  refine status_past hid ha (List.suffix_append later _) ?_
  rw [stored_write,statusIn_encode]
  simp only [statuses,List.mem_cons,List.not_mem_nil,or_false] at hst
  simp only [List.mem_cons,List.not_mem_nil,or_false] at hnot
  simp only [past,List.mem_cons,List.not_mem_nil,or_false,Option.some.injEq]
  tauto

theorem advances (hc : D.Reach c) (ho : Everywhere (OnWrites (Orderly D.prost)) c.state.history) :
    Everywhere (OnWrites (Advances D.prost)) c.state.history := by
  refine everywhere_of_write fun t q site u k payload r h hs ih => ?_
  rintro id hid rfl
  obtain ⟨new,rfl,-,hv⟩ := version_of_write hc (tidy_of_orderly ho) (first_of_orderly hc ho) hid hs
  have hpending := (everywhere_writes ho hs).2.2.2
  have hverdict (hsite : site = .decide) {merged : Task} {r' : Except UpdateError String} :
      ⟨.storageUpdate .merge u (recordKey merged.taskId) (D.prost.task.encode merged),r'⟩ ∈
        events t h → merged.status ≠ "started" ∧ merged.status ≠ "rejected" →
      TaskService.isDecided merged → TaskService.anyoneRejected merged = false →
      statusIn D.prost (stored q.core u (recordKey id) h) ∈ past := by
    subst hsite
    exact past_of_verdict hc ho hid hs ih
  dsimp only [Pending] at hpending ⊢
  generalize stored q.core u (recordKey id) h = before at hv hpending hverdict
  rw [statusIn_encode]
  cases hv with
  | first hsite hstores =>
    rw [statusIn_none]
    right
    cases hstores with
    | create =>
      unfold newTask
      dsimp only
      split_ifs <;> simp [forward]
    | query => simp [forward,TaskService.registryTask]
    | admission => simp [forward]
    | _ => simp at hsite
  | @next old changes id_eq =>
    rw [statusIn_encode] at hpending hverdict ⊢
    cases changes with
    | merge => exact .inl rfl
    | @decide request merged r' sync direct stored undecided verdict =>
      right
      have hp := hpending rfl
      simp only [List.mem_cons,List.not_mem_nil,or_false,Option.some.injEq] at hp
      cases hrej : TaskService.anyoneRejected merged with
      | true => rcases hp with hp | hp | hp <;> simp [hp,forward]
      | false =>
        have hin := hverdict rfl stored undecided verdict hrej
        rcases hp with hp | hp | hp <;> simp [hp,forward,past] at hin ⊢
    | @confirm request ud s ds call decision reported waiting entered =>
      rw [waiting]
      exact forward_of_confirmed reported _
    | finish call started => simp [started,forward,Forward]

theorem statusOf_eq (hc : D.Reach c) (hu : NoColon u) (M : Prost) (i : ℕ) (id : String) :
    statusOf M c.state.shared i u id = statusIn M (stored i u (recordKey id) c.state.history) := by
  rw [statusOf,read_eq_stored hc hu (guarded_recordKey id)]

theorem forward_step (hc : D.Reach c) {a : TaskAction} {c' : TaskConfig} (hs : D.system.Step c a c')
    (ho : Everywhere (OnWrites (Orderly D.prost)) c'.state.history) (hu : NoColon u) {id : String}
    (hid : ¬ Reserved id) (i : ℕ) : Forward (statusOf D.prost c.state.shared i u id)
      (statusOf D.prost c'.state.shared i u id) := by
  have hc' := hc.step hs
  have ha := advances hc' ho
  rw [statusOf_eq hc hu,statusOf_eq hc' hu,hs.history]
  rw [hs.history] at ha
  by_cases hsp : Spares i u (recordKey id) a
  · rw [stored_cons_of_spares hsp]
    exact .inl rfl
  · obtain ⟨t,q,site,payload,r,rfl,rfl⟩ := write_of_not_spares hsp
    rw [stored_write]
    exact ha.1 _ rfl id hid rfl

theorem eq_of_terminal {s s' : Option String} (hf : Forward s s')
    (hs : s ∈ [some "finished",some "rejected"]) : s' = s := by
  rcases hf with rfl | hf
  · rfl
  · have hall : ∀ x ∈ forward, x.1 ∉ [some "finished",some "rejected"] := by decide
    exact absurd hs (hall (s,s') hf)

/-- In every orderly run the status of every task moves forward, and a task that is finished or
rejected stays so. -/
theorem status_forward (D : Deployment) (hu : NoColon u) {id : String} (hid : ¬ Reserved id) (i : ℕ) :
    (∀ (c : TaskConfig) (a : TaskAction) (c' : TaskConfig), D.Reach c → D.system.Step c a c' →
      Everywhere (OnWrites (Orderly D.prost)) c'.state.history →
      Forward (statusOf D.prost c.state.shared i u id) (statusOf D.prost c'.state.shared i u id)) ∧
    ∀ c c' : TaskConfig, D.Reach c →
      Relation.ReflTransGen (fun c c' => ∃ a, D.system.Step c a c') c c' →
      Everywhere (OnWrites (Orderly D.prost)) c'.state.history →
      statusOf D.prost c.state.shared i u id ∈ [some "finished",some "rejected"] →
      statusOf D.prost c'.state.shared i u id = statusOf D.prost c.state.shared i u id := by
  refine ⟨fun c a c' hc hs ho => forward_step hc hs ho hu hid i,fun c c' hc hsteps ho ht => ?_⟩
  have hreach : D.Reach c' ∧ statusOf D.prost c'.state.shared i u id =
      statusOf D.prost c.state.shared i u id := by
    induction hsteps with
    | refl => exact ⟨hc,rfl⟩
    | @tail c₁ c₂ _ hs ih =>
      obtain ⟨a,hs⟩ := hs
      have hprev : Everywhere (OnWrites (Orderly D.prost)) c₁.state.history := by
        rw [hs.history] at ho
        exact ho.2
      obtain ⟨hc₁,he⟩ := ih hprev
      refine ⟨hc₁.step hs,?_⟩
      exact (eq_of_terminal (forward_step hc₁ hs ho hu hid i) (he ▸ ht)).trans he
  exact hreach.2

/-- A user creates a task alone, which is started at once, and finishes it. -/
def finishAlone (steps : ℕ) : List Move := Move.settle 7 ++
  [.start 0 (.ofUser 7 (.createTask
      { participants := [⟨hexEncode [7],"initiator"⟩]
        requireAgreement := true
        expirationTime := 1000 })),
    .run 0 14,
    .start 1 (.ofUser 7 (.finishTask { taskId := "id" })),
    .run 1 steps]

/-- The status before the last step of a play and after it. -/
def statusStep (a : TaskAction) (past : List TaskAction) : Option String × Option String :=
  (statusIn Prost.selfDelimiting (stored 0 "07" (recordKey "id") past),
    statusIn Prost.selfDelimiting (stored 0 "07" (recordKey "id") (a :: past)))

theorem status_forward_sample : ∃ c a c', Deployment.ideal.Reach c ∧
    Deployment.ideal.system.Step c a c' ∧
    statusOf Prost.selfDelimiting c.state.shared 0 "07" "id" = some "started" ∧
    Forward (some "started") (statusOf Prost.selfDelimiting c'.state.shared 0 "07" "id") := by
  have hrun : (Play.moves (finishAlone 8) { sim := { ids := ["id"] } }).any
      (Play.newest fun a past => decide (statusStep a past = (some "started",some "finished")) &&
        decide (Everywhere (OnWrites (Orderly Prost.selfDelimiting)) (a :: past))) := by
    decide +kernel
  obtain ⟨c,a,c',hc,hs,hcheck⟩ := Play.run_step hrun
  simp only [Bool.and_eq_true,decide_eq_true_eq] at hcheck
  have hu : NoColon "07" := by decide
  have hid : ¬ Reserved "id" := not_reserved_of_noColon (by decide)
  have hst : statusOf Prost.selfDelimiting c.state.shared 0 "07" "id" = some "started" :=
    (statusOf_eq hc hu Prost.selfDelimiting 0 "id").trans (congrArg Prod.fst hcheck.1)
  have hf := (status_forward Deployment.ideal hu hid 0).1 c a c' hc hs (hs.history ▸ hcheck.2)
  exact ⟨c,a,c',hc,hs,hst,hst ▸ hf⟩

/-- A synchronisation that arrives for a finished task starts it again. -/
theorem started_after_finish : ¬ ∀ (c : TaskConfig) (a : TaskAction) (c' : TaskConfig),
    Deployment.ideal.Reach c → Deployment.ideal.system.Step c a c' →
    Forward (statusOf Prost.selfDelimiting c.state.shared 0 "07" "id")
      (statusOf Prost.selfDelimiting c'.state.shared 0 "07" "id") := by
  intro hall
  have hrun : (Play.moves (finishAlone 16 ++
        [.start 2 (.ofGuest 7 (.interCoreSyncTask { taskId := "id" })),.run 2 14])
      { sim := { ids := ["id"] } }).any (Play.newest fun a past =>
        decide (statusStep a past = (some "finished",some "started"))) := by
    decide +kernel
  obtain ⟨c,a,c',hc,hs,hcheck⟩ := Play.run_step hrun
  rw [decide_eq_true_eq] at hcheck
  have hu : NoColon "07" := by decide
  have hf := hall c a c' hc hs
  rw [statusOf_eq hc hu,statusOf_eq (hc.step hs) hu,hs.history] at hf
  obtain ⟨hbefore,hafter⟩ := Prod.mk.inj hcheck
  rw [hbefore,hafter] at hf
  exact absurd hf (by decide)

end StatusOrder
end CoLinkServer
