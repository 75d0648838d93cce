import CoLinkServer.ConcreteRuns
import CoLinkServer.TaskRecords

/-! Whose consent a started task has. An approval in a stored record has been checked or made
on this core if the first version of the record brought none without a check. A verdict to start
needs all approvals, but it is not reached again when the record is read a second time. -/
namespace CoLinkServer

open Interleaving

namespace Consent

open TaskRecords TaskTraces

variable {D : Deployment} {M : Prost} {c : TaskConfig} {i t : ℕ} {q : Request} {u : String}
  {h : List TaskAction}

/-- The decision of a participant has passed the check against the task on this core. -/
def Checked (i : ℕ) (task : Task) (p : Participant) (d : Decision) (h : List TaskAction) : Prop :=
  ∃ t q task', q.core = i ∧ task'.terms = task.terms ∧
    .op t q (.checkDecision d p.userId task') (.ok ()) ∈ h

/-- The user has made the decision on this core: when creating the task as its initiator, or
when confirming it with an approval. -/
def Made (i : ℕ) (u : String) (task : Task) (d : Decision) (h : List TaskAction) : Prop :=
  ∃ t q task' bs, q.core = i ∧ q.metadata.userId = some u ∧ task'.terms = task.terms ∧
    ((∃ request, q.call = .createTask request ∧ task.participants[0]?.map (·.userId) = some u ∧
      .op t q (.makeDecision true false "" u task' bs) (.ok d) ∈ h) ∨
    ∃ request userDecision, q.call = .confirmTask request ∧
      request.decision = some userDecision ∧ userDecision.approves ∧
      .op t q (.makeDecision userDecision.isApproved userDecision.isRejected userDecision.reason u
        task' bs) (.ok d) ∈ h)

def Source (i : ℕ) (u : String) (task : Task) (p : Participant) (d : Decision)
    (h : List TaskAction) : Prop :=
  if p.userId = u then Made i u task d h else Checked i task p d h

theorem Source.mono {task : Task} {p : Participant} {d : Decision} {h' : List TaskAction}
    (hh : h <:+ h') (hs : Source i u task p d h) : Source i u task p d h' := by
  unfold Source at hs ⊢
  split_ifs at hs ⊢
  · obtain ⟨t,q,task',bs,hq,hu,hterms,hmade⟩ := hs
    refine ⟨t,q,task',bs,hq,hu,hterms,?_⟩
    rcases hmade with ⟨request,hcall,hp,hm⟩ | ⟨request,ud,hcall,hud,happ,hm⟩
    · exact .inl ⟨request,hcall,hp,hh.subset hm⟩
    · exact .inr ⟨request,ud,hcall,hud,happ,hh.subset hm⟩
  · obtain ⟨t,q,task',hq,hterms,hm⟩ := hs
    exact ⟨t,q,task',hq,hterms,hh.subset hm⟩

theorem Source.terms {task task' : Task} {p : Participant} {d : Decision}
    (hterms : task.terms = task'.terms) (hs : Source i u task p d h) :
    Source i u task' p d h := by
  unfold Source at hs ⊢
  unfold Made Checked at hs ⊢
  rw [(Task.eq_of_terms_eq hterms).2.2.1,hterms] at hs
  exact hs

/-- A task that needs the agreement of more than one participant. -/
def NeedsOthers (task : Task) : Prop := task.requireAgreement ∧ 2 ≤ task.participants.length

instance (task : Task) : Decidable (NeedsOthers task) := inferInstanceAs (Decidable (_ ∧ _))

/-- There are no more decisions than participants, and every approval has a source. -/
def Backed (i : ℕ) (u : String) (task : Task) (h : List TaskAction) : Prop :=
  task.decisions.length ≤ task.participants.length ∧ ∀ (j : ℕ) (p : Participant) (d : Decision),
    task.participants[j]? = some p → task.decisions[j]? = some d → d.approves →
    Source i u task p d h

theorem Backed.status {task : Task} (hb : Backed i u task h) (s : String) :
    Backed i u { task with status := s } h :=
  ⟨hb.1,fun j p d hp hd happ => (hb.2 j p d hp hd happ).terms rfl⟩

/-- The task names the user first exactly if the user has created it, and brings no approval but
that of the initiator. -/
def BringsNoApproval (w : Write) (task : Task) : Prop := NeedsOthers task →
  (task.participants[0]?.map (·.userId) = some w.user ↔ w.site = .create) ∧
  (w.site = .admission → task.decisions.length ≤ task.participants.length) ∧
  ∀ d ∈ (task.decisions.take task.participants.length).drop 1, ¬ d.approves

instance (w : Write) (task : Task) : Decidable (BringsNoApproval w task) :=
  inferInstanceAs (Decidable (_ → _ ∧ (_ → _) ∧ _))

def taskOf : TaskCall → Option Task
  | .createTask task => some task
  | .interCoreSyncTask task => some task
  | .interCoreSyncTaskWithReverseConnection task => some task
  | _ => none

def taskRead (M : Prost) : TaskEvent → Option Task
  | ⟨.storageRead _ _,.ok payload⟩ => M.task.decode payload
  | _ => none

/-- A verdict to start a task would be reached on the record as it has been read again. -/
def Warranted (M : Prost) (w : Write) (h : List TaskAction) : Prop := w.site = .decide →
  ∀ e ∈ events w.thread h, ∀ old ∈ taskRead M e, NeedsOthers old →
    w.payload = M.task.encode { old with status := "started" } →
    TaskService.isDecided old ∧ TaskService.anyoneRejected old = false

def Careful (M : Prost) (w : Write) (h : List TaskAction) : Prop :=
  (w.site ∈ [Site.create,.admission] → ∀ task ∈ taskOf w.request.call, BringsNoApproval w task) ∧
  Warranted M w h

instance (M : Prost) (w : Write) (h : List TaskAction) : Decidable (Careful M w h) :=
  inferInstanceAs (Decidable ((_ ∈ _ → ∀ task ∈ taskOf w.request.call, _) ∧ (_ →
    ∀ e ∈ events w.thread h, ∀ old ∈ taskRead M e, _ → _ = _ → _ = true ∧ _ = false)))

theorem mem_take_of_resize {ds : List Decision} {n j : ℕ} {d : Decision}
    (hd : (TaskService.resize ds n)[j+1]? = some d) (happ : d.approves) :
    d ∈ (ds.take n).drop 1 := by
  rw [TaskService.resize,List.getElem?_append] at hd
  split_ifs at hd with hj
  · apply List.mem_iff_getElem?.mpr
    exact ⟨j,by rw [List.getElem?_drop,Nat.add_comm]; exact hd⟩
  · have hm := List.mem_of_getElem? hd
    rw [List.eq_of_mem_replicate hm] at happ
    cases happ

theorem backed_of_taken (hc : D.Reach c) {o : Op} {r : Res o}
    (hs : .op t q o r :: h <:+ c.state.history) {request task : Task} {ds : List Decision}
    (ht : Taken u request task ds (events t h)) (hb : Backed q.core u task h) :
    Backed q.core u { task with decisions := ds } h := by
  refine ⟨ht.length ▸ hb.1,fun j p d hp hd happ => ?_⟩
  rcases ht.source j d hd with hold | ⟨p',hp',hne,-,-,task',hterms,hm⟩
  · exact (hb.2 j p d hp hold happ).terms rfl
  · obtain rfl := Option.some.inj (hp.symm.trans hp')
    unfold Source
    rw [if_neg hne]
    exact ⟨t,q,task',rfl,hterms,mem_history hc hs hm⟩

theorem backed_of_entered (hc : D.Reach c) {o : Op} {r : Res o}
    (hs : .op t q o r :: h <:+ c.state.history) (hu : q.metadata.userId = some u)
    {request : ConfirmTaskRequest} {userDecision : Decision} (hcall : q.call = .confirmTask request)
    (hdec : request.decision = some userDecision) {task : Task} {ds : List Decision}
    (he : Entered u userDecision task ds (events t h)) (hb : Backed q.core u task h) :
    Backed q.core u { task with decisions := ds } h := by
  refine ⟨he.1 ▸ hb.1,fun j p d hp hd happ => ?_⟩
  have hj := he.2 j p hp
  by_cases hpu : p.userId = u
  · rw [if_pos hpu] at hj
    obtain ⟨d',hd',task',bs,hterms,hm⟩ := hj
    obtain rfl : d' = d := Option.some.inj (hd'.symm.trans hd)
    unfold Source
    rw [if_pos hpu]
    refine ⟨t,q,task',bs,rfl,hu,hterms,.inr ⟨request,userDecision,hcall,hdec,?_,mem_history hc hs hm⟩⟩
    obtain ⟨ha,hr⟩ := made_flags hc hs hm
    simpa [Decision.approves,ha,hr] using happ
  · rw [if_neg hpu] at hj
    exact (hb.2 j p d hp (hj ▸ hd) happ).terms rfl

def BackedWrite (M : Prost) (w : Write) (h : List TaskAction) : Prop :=
  ∀ task ∈ M.task.decode w.payload, NeedsOthers task → Backed w.request.core w.user task h

theorem backed_of_read (hc : D.Reach c) (hb : Everywhere (OnWrites (BackedWrite D.prost)) h)
    {o : Op} {r : Res o} (hs : .op t q o r :: h <:+ c.state.history) (hu : NoColon u) {id : String}
    {payload : Bytes} (hm : ⟨.storageRead u (recordKey id),.ok payload⟩ ∈ events t h) {task : Task}
    (hd : D.prost.task.decode payload = some task) (hn : NeedsOthers task) :
    Backed q.core u task h := by
  obtain ⟨past,hmid⟩ := suffix_of_mem (mem_history hc hs hm)
  have hst := stored_of_read hc hu (guarded_recordKey id)
    (hmid.trans ((List.suffix_cons _ _).trans hs))
  obtain ⟨t',q',site,r',earlier,hq,hw⟩ := write_of_stored hst
  have hsuf := (hw.trans (List.suffix_cons _ _)).trans hmid
  have hold := everywhere_writes hb hsuf task hd hn
  have hearlier := (List.suffix_cons _ _).trans hsuf
  rw [← hq]
  exact ⟨hold.1,fun j p d hp hd' happ => (hold.2 j p d hp hd' happ).mono hearlier⟩

theorem backed (hc : D.Reach c) (ho : Everywhere (OnWrites (Careful D.prost)) c.state.history) :
    Everywhere (OnWrites (BackedWrite D.prost)) c.state.history := by
  refine everywhere_of_write fun t q site u k payload r h hs ih => ?_
  intro task hd hn
  have hu := writer_noColon hc hs
  obtain ⟨hacts,hob⟩ := obligation hc hs
  have hcareful := (everywhere_writes ho hs).1
  have hself {task' : Task} (he : payload = D.prost.task.encode task') : task' = task := by
    have hdec : D.prost.task.decode payload = some task' := by
      rw [he]
      exact D.prost.task.decode_encode task'
    exact Option.some.inj (hdec.symm.trans hd)
  have hread {id : String} {payload' : Bytes} {old : Task}
      (hm : ⟨.storageRead u (recordKey id),.ok payload'⟩ ∈ events t h)
      (hd' : D.prost.task.decode payload' = some old) (hn' : NeedsOthers old) :
      Backed q.core u old h := backed_of_read hc ih hs hu hm hd' hn'
  cases site with
  | list =>
    obtain ⟨-,task',list,-,rfl,-⟩ := hob
    have hno := (D.prost.taskIdList_as_task list task hd).2
    exact absurd hn.1 (by simp [hno])
  | latest =>
    obtain ⟨-,task',listKey,-,-,he,-⟩ := hob
    have hno := hn.1
    rw [← hself he] at hno
    cases hno
  | create =>
    obtain ⟨task',-,he,hst⟩ := hob
    obtain rfl := hself he
    cases hst with
    | @create request id bs d call introduced made room =>
      have hbrings := hcareful (by simp) request (by simp [call,taskOf]) hn
      refine ⟨by simp [newTask,TaskService.length_resize],fun j p e hp he happ => ?_⟩
      cases j with
      | zero =>
        have hself' : p.userId = u := by
          have hfirst := hbrings.1.mpr rfl
          have hp' : request.participants[0]? = some p := hp
          simpa [hp'] using hfirst
        obtain rfl : d = e := by
          have hlen : 0 < (newTask request id).decisions.length := by
            show 0 < (TaskService.resize _ _).length
            rw [TaskService.length_resize]
            exact room
          simpa [List.getElem?_set,hlen] using he
        unfold Source
        rw [if_pos hself']
        exact ⟨t,q,newTask request id,bs,rfl,hacts.1,rfl,
          .inl ⟨request,call,hbrings.1.mpr rfl,mem_history hc hs made⟩⟩
      | succ j =>
        have he' : (TaskService.resize request.decisions request.participants.length)[j+1]? =
            some e := by
          simpa [newTask,List.getElem?_set] using he
        exact absurd happ (hbrings.2.2 e (mem_take_of_resize he' happ))
  | query =>
    obtain ⟨task',-,he,hst⟩ := hob
    obtain rfl := hself he
    cases hst with
    | query introduced => exact absurd hn.1 (by simp [TaskService.registryTask])
  | admission =>
    obtain ⟨task',-,he,hst⟩ := hob
    obtain rfl := hself he
    cases hst with
    | @admission request p d sync direct initiator decision approved steps =>
      have hcall : taskOf q.call = some request := by
        cases hq : q.call <;> simp [hq,TaskCall.synced,taskOf] at sync ⊢
        · exact sync
        · exact sync
      have hbrings := hcareful (by simp) request (by simp [hcall]) hn
      have hlen := hbrings.2.1 rfl
      refine ⟨hlen,fun j p' e hp he happ => ?_⟩
      have hp' : request.participants[j]? = some p' := hp
      have he' : request.decisions[j]? = some e := he
      cases j with
      | zero =>
        obtain rfl : p = p' := Option.some.inj (initiator.symm.trans hp')
        obtain rfl : d = e := Option.some.inj (decision.symm.trans he')
        have hother : p.userId ≠ u := fun hpu => by
          have hno := hbrings.1.mp (by simp [initiator,hpu])
          cases hno
        unfold Source
        rw [if_neg hother]
        have hm : ⟨.checkDecision d p.userId request,.ok ()⟩ ∈ events t h := by
          rw [steps]
          exact List.mem_cons_self ..
        exact ⟨t,q,request,rfl,rfl,mem_history hc hs hm⟩
      | succ j =>
        refine absurd happ (hbrings.2.2 e ?_)
        rw [List.take_of_length_le hlen]
        apply List.mem_iff_getElem?.mpr
        exact ⟨j,by rw [List.getElem?_drop,Nat.add_comm]; exact he'⟩
  | merge =>
    obtain ⟨task',-,he,hst⟩ := hob
    obtain rfl := hself he
    cases hst with
    | merge sync direct holds read known decoded agreement taken =>
      exact backed_of_taken hc hs taken (hread read decoded hn)
  | decide =>
    obtain ⟨task',-,he,hst⟩ := hob
    obtain rfl := hself he
    cases hst with
    | @decide request old merged payload' r' sync direct holds read known decoded =>
      exact (hread read decoded hn).status _
  | confirm =>
    obtain ⟨task',-,he,hst⟩ := hob
    obtain rfl := hself he
    cases hst with
    | confirm call decision reported holds read known decoded waiting entered =>
      exact backed_of_entered hc hs hacts.1 call decision entered (hread read decoded hn)
  | finish =>
    obtain ⟨task',-,he,hst⟩ := hob
    obtain rfl := hself he
    cases hst with
    | @finish request old payload' call holds read known decoded started =>
      exact (hread read decoded hn).status _

theorem all_of_count {f : Decision → Bool} {task : Task}
    (hlen : task.decisions.length ≤ task.participants.length)
    (hcount : (task.decisions.filter f).length = task.participants.length) :
    task.decisions.length = task.participants.length ∧ ∀ d ∈ task.decisions, f d := by
  have hle : (task.decisions.filter f).length ≤ task.decisions.length := List.length_filter_le ..
  refine ⟨by omega,List.length_filter_eq_length_iff.mp ?_⟩
  omega

theorem all_approve {task : Task} (hlen : task.decisions.length ≤ task.participants.length)
    (hd : TaskService.isDecided task) (hno : TaskService.anyoneRejected task = false) :
    task.decisions.length = task.participants.length ∧ ∀ d ∈ task.decisions, d.approves := by
  have hcount : (task.decisions.filter Decision.isValid).length = task.participants.length := by
    simpa [TaskService.isDecided,hno] using hd
  obtain ⟨heq,hall⟩ := all_of_count hlen hcount
  refine ⟨heq,fun d hd => ?_⟩
  have hnot : d.rejects = false := by
    rw [Bool.eq_false_iff]
    intro hr
    have hpos := List.length_pos_of_mem (List.mem_filter.mpr ⟨hd,hr⟩)
    simp [TaskService.anyoneRejected] at hno
    simp [hno d hd] at hr
  have hv := hall d hd
  rw [Decision.isValid_eq,hnot,Bool.or_false] at hv
  exact hv

theorem approved_of_confirmed {d : Decision} {s : String} (hr : TaskService.userStatus d = .ret s)
    {task : Task} (ha : task.requireAgreement)
    (hs : TaskService.confirmedStatus s task = "started") :
    (task.decisions.filter Decision.approves).length = task.participants.length := by
  unfold TaskService.confirmedStatus at hs
  dsimp only at hs
  split_ifs at hs with hcond
  · simpa [ha] using hcond
  · exfalso
    unfold TaskService.userStatus at hr
    subst hs
    split_ifs at hr <;> simp [abort] at hr

/-- In every run in which no record begins with an unchecked approval and every verdict to start
is still warranted when it is written, a record that is set to `started` holds the approvals of
all participants: the user's own one has been made on this core, and each of the others has
passed the check there. A merge stores the status that it has read. -/
theorem started_with_consent (D : Deployment) {c : TaskConfig} (hc : D.Reach c)
    (ho : Everywhere (OnWrites (Careful D.prost)) c.state.history) {t : ℕ} {q : Request}
    {site : Site} {u k : String} {payload : Bytes} {r : Except UpdateError String} {h : List TaskAction}
    (hs : .op t q (.storageUpdate site u k payload) r :: h <:+ c.state.history) {task : Task}
    (hd : D.prost.task.decode payload = some task) (hn : NeedsOthers task)
    (hst : task.status = "started") :
    (site = .merge → ∃ id payload' old, ⟨.storageRead u (recordKey id),.ok payload'⟩ ∈ events t h ∧
      D.prost.task.decode payload' = some old ∧ old.status = "started") ∧
    (site ≠ .merge → task.decisions.length = task.participants.length ∧
      (∀ d ∈ task.decisions, d.approves) ∧ ∀ (j : ℕ) (p : Participant) (d : Decision),
        task.participants[j]? = some p → task.decisions[j]? = some d →
        Source q.core u task p d h) := by
  have hb : Backed q.core u task h := everywhere_writes (backed hc ho) hs task hd hn
  obtain ⟨-,hob⟩ := obligation hc hs
  have hself {task' : Task} (he : payload = D.prost.task.encode task') : task' = task := by
    have hdec : D.prost.task.decode payload = some task' := by
      rw [he]
      exact D.prost.task.decode_encode task'
    exact Option.some.inj (hdec.symm.trans hd)
  have hall (happ : task.decisions.length = task.participants.length ∧
      ∀ d ∈ task.decisions, d.approves) : task.decisions.length = task.participants.length ∧
      (∀ d ∈ task.decisions, d.approves) ∧ ∀ (j : ℕ) (p : Participant) (d : Decision),
        task.participants[j]? = some p → task.decisions[j]? = some d → Source q.core u task p d h :=
    ⟨happ.1,happ.2,fun j p d hp hd' => hb.2 j p d hp hd' (happ.2 d (List.mem_of_getElem? hd'))⟩
  cases site with
  | list =>
    obtain ⟨-,task',list,-,rfl,-⟩ := hob
    have hno := (D.prost.taskIdList_as_task list task hd).2
    exact absurd hn.1 (by simp [hno])
  | latest =>
    obtain ⟨-,task',listKey,-,-,he,-⟩ := hob
    rw [← hself he] at hst
    simp at hst
  | create =>
    obtain ⟨task',-,he,hstores⟩ := hob
    obtain rfl := hself he
    cases hstores with
    | @create request id bs d call introduced made room =>
      exfalso
      have hn₁ : request.requireAgreement = true := hn.1
      have hn₂ : 1 < request.participants.length := hn.2
      simp [newTask,hn₁,hn₂] at hst
  | query =>
    obtain ⟨task',-,he,hstores⟩ := hob
    obtain rfl := hself he
    cases hstores with
    | query introduced => exact absurd hn.1 (by simp [TaskService.registryTask])
  | admission =>
    obtain ⟨task',-,he,hstores⟩ := hob
    obtain rfl := hself he
    cases hstores with
    | admission => simp at hst
  | merge =>
    obtain ⟨task',-,he,hstores⟩ := hob
    obtain rfl := hself he
    cases hstores with
    | merge sync direct holds read known decoded => exact ⟨fun _ => ⟨_,_,_,read,decoded,hst⟩,nofun⟩
  | decide =>
    obtain ⟨task',-,he,hstores⟩ := hob
    obtain rfl := hself he
    refine ⟨nofun,fun _ => ?_⟩
    cases hstores with
    | @decide request old merged payload' r' sync direct holds read known decoded =>
      have hwarr := (everywhere_writes ho hs).2 rfl _ read old (by simpa [taskRead] using decoded) hn
      have hstarted : (if TaskService.anyoneRejected merged then "rejected" else "started") =
          "started" := hst
      rw [hstarted] at he
      obtain ⟨hdecided,hno⟩ := hwarr he
      exact hall (all_approve hb.1 hdecided hno)
  | confirm =>
    obtain ⟨task',-,he,hstores⟩ := hob
    obtain rfl := hself he
    refine ⟨nofun,fun _ => ?_⟩
    cases hstores with
    | confirm call decision reported =>
      exact hall (all_of_count hb.1 (approved_of_confirmed reported hn.1 hst))
  | finish =>
    obtain ⟨task',-,he,hstores⟩ := hob
    obtain rfl := hself he
    cases hstores with
    | finish => simp at hst

/-- User 07 is offered a task and approves it, up to the moment when the record is written. -/
def approveOffer (others : List Participant) (decisions : List Decision) : List Move :=
  Move.settle 7 ++ [.start 0 (.ofGuest 7 (sampleOffer (sampleTask "id" others) decisions)),.run 0 13,
    .start 1 (.ofUser 7 sampleApproval),.run 1 11]

/-- The step stores a started task for user 07, of which `φ` is true. -/
def storesStarted (φ : Task → Bool) : TaskAction → Bool
  | .op _ _ (.storageUpdate .confirm u _ payload) _ =>
    (Prost.selfDelimiting.task.decode payload).any fun task => decide (u = "07") &&
      decide (NeedsOthers task) && decide (task.status = "started") && φ task
  | _ => false

theorem storesStarted_iff {φ : Task → Bool} {a : TaskAction} : storesStarted φ a ↔
    ∃ t q k payload r task, a = .op t q (.storageUpdate .confirm "07" k payload) r ∧
      Prost.selfDelimiting.task.decode payload = some task ∧ NeedsOthers task ∧
      task.status = "started" ∧ φ task := by
  constructor
  · intro ha
    unfold storesStarted at ha
    split at ha
    · next t q u k payload r =>
      obtain ⟨task,hd,hcheck⟩ := (Option.any_eq_true _ _).mp ha
      simp only [Bool.and_eq_true,decide_eq_true_eq] at hcheck
      obtain ⟨⟨⟨rfl,hn⟩,hst⟩,hφ⟩ := hcheck
      exact ⟨t,q,k,payload,r,task,rfl,hd,hn,hst,hφ⟩
    · cases ha
  · rintro ⟨t,q,k,payload,r,task,rfl,hd,hn,hst,hφ⟩
    simp [storesStarted,hd,hn,hst,hφ]

theorem started_with_consent_sample : ∃ c t q k payload r h task, Deployment.ideal.Reach c ∧
    .op t q (.storageUpdate .confirm "07" k payload) r :: h <:+ c.state.history ∧
    Prost.selfDelimiting.task.decode payload = some task ∧ task.decisions.length = 2 ∧
    ∀ d ∈ task.decisions, d.approves := by
  have hrun : (Play.moves (approveOffer [] []) {}).any (Play.newest fun a past =>
      storesStarted (fun task => task.participants.length = 2) a &&
        decide (Everywhere (OnWrites (Careful Prost.selfDelimiting)) (a :: past))) := by
    decide +kernel
  obtain ⟨c,a,c',hc,hs,hcheck⟩ := Play.run_step hrun
  simp only [Bool.and_eq_true,decide_eq_true_eq] at hcheck
  obtain ⟨t,q,k,payload,r,task,rfl,hd,hn,hst,hlen⟩ := storesStarted_iff.mp hcheck.1
  have hsuf : .op t q (.storageUpdate .confirm "07" k payload) r :: c.state.history <:+
      c'.state.history := by rw [hs.history]
  have ho : Everywhere (OnWrites (Careful Prost.selfDelimiting)) c'.state.history := by
    rw [hs.history]
    exact hcheck.2
  have hall := (started_with_consent Deployment.ideal (hc.step hs) ho hsuf hd hn hst).2 nofun
  rw [decide_eq_true_eq] at hlen
  exact ⟨c',t,q,k,payload,r,_,task,hc.step hs,hsuf,hd,hall.1.trans hlen,hall.2.1⟩

def checksOther : TaskAction → Bool
  | .op _ _ (.checkDecision _ v _) _ => v ≠ "09"
  | _ => true

/-- The first message about a task may bring an approval that nobody has given. -/
theorem started_without_check : ¬ ∀ (c : TaskConfig) (t : ℕ) (q : Request) (site : Site)
    (u k : String) (payload : Bytes) (r : Except UpdateError String) (h : List TaskAction) (task : Task),
    Deployment.ideal.Reach c → .op t q (.storageUpdate site u k payload) r :: h <:+ c.state.history →
    site ≠ .merge → Prost.selfDelimiting.task.decode payload = some task → NeedsOthers task →
    task.status = "started" → ∀ (j : ℕ) (p : Participant) (d : Decision),
      task.participants[j]? = some p → task.decisions[j]? = some d →
      d.approves ∧ Source q.core u task p d h := by
  intro hall
  have hrun : (Play.moves (approveOffer [⟨"09","member"⟩] [{ isApproved := true }]) {}).any
      (Play.newest fun a past => storesStarted (fun task =>
        decide (task.participants[2]? = some ⟨"09","member"⟩) &&
        decide (task.decisions[2]? = some { isApproved := true })) a && past.all checksOther) := by
    decide +kernel
  obtain ⟨c,a,c',hc,hs,hcheck⟩ := Play.run_step hrun
  rw [Bool.and_eq_true] at hcheck
  obtain ⟨t,q,k,payload,r,task,rfl,hd,hn,hst,hthird⟩ := storesStarted_iff.mp hcheck.1
  simp only [Bool.and_eq_true,decide_eq_true_eq] at hthird
  have hsuf : .op t q (.storageUpdate .confirm "07" k payload) r :: c.state.history <:+
      c'.state.history := by rw [hs.history]
  have hsource := (hall c' t q .confirm "07" k payload r _ task (hc.step hs) hsuf nofun hd hn hst 2
    _ _ hthird.1 hthird.2).2
  unfold Source at hsource
  rw [if_neg (by decide)] at hsource
  obtain ⟨t',q',task',-,-,hm⟩ := hsource
  have hno := List.all_eq_true.mp hcheck.2 _ hm
  simp [checksOther] at hno

end Consent
end CoLinkServer
