import CoLinkServer.FinalDecisions
import CoLinkServer.VerdictTraces

/-! Whether the status at the initiator follows the decisions that are stored there. A reply can be
handled while the creating call is still sending the task and has not listed it; the change of the
status fails then and is never made up for. It is made wherever the lists name the task. -/
namespace CoLinkServer

open Interleaving

namespace InitiatorStatus

open TaskRecords TaskTraces Verdicts
open FinalDecisions (recordOf Keeps SameFlags Consistent Agrees)

variable {D : Deployment} {c : TaskConfig} {i t : ℕ} {q : Request} {u id : String}
  {h : List TaskAction} {M : Prost} {request : Task}

def CreatedBy (i : ℕ) (u id : String) (request : Task) (h : List TaskAction) : Prop :=
  ∃ t q payload r, .op t q (.storageUpdate .create u (recordKey id) payload) r ∈ h ∧ q.core = i ∧
    q.call = .createTask request

def Concerns (i : ℕ) (u id : String) (q : Request) : Prop :=
  q.core = i ∧ q.metadata.userId = some u ∧ q.call.taskId = id

instance (i : ℕ) (u id : String) (q : Request) : Decidable (Concerns i u id q) :=
  inferInstanceAs (Decidable (_ ∧ _ ∧ _))

/-- Both lists of the stored status name the task. -/
def Listed (M : Prost) (i : ℕ) (u id : String) (h : List TaskAction) : Prop :=
  ∀ task ∈ (stored i u (recordKey id) h).bind M.task.decode,
    ∀ k ∈ [TaskService.protocolListKey u task,TaskService.statusListKey task],
      ∃ payload ∈ stored i u ("_internal:" ++ k) h, lists M id payload

/-- Whose request enters the second critical section. -/
def enters : TaskAction → Option Request
  | .op _ q (.lock .decide) _ => some q
  | _ => none

def failed : TaskAction → Option (Request × Site)
  | .op _ q (.storageUpdate site _ _ _) (.error _) => some (q,site)
  | _ => none

/-- A verdict finds the task in its lists, and neither the merge nor a list fails to be stored. -/
def Finds (M : Prost) (i : ℕ) (u id : String) (a : TaskAction) (h : List TaskAction) : Prop :=
  (∀ q ∈ enters a, Concerns i u id q → Listed M i u id h) ∧
  ∀ x ∈ failed a, Concerns i u id x.1 → x.2 ∉ [Site.merge,.list]

/-- What is merged into the record agrees with what is stored there. -/
def ConsistentAt (M : Prost) (i : ℕ) (u id : String) (w : Write) (h : List TaskAction) : Prop :=
  w.request.core = i → w.user = u → w.key = recordKey id → Consistent M w h

def Smooth (M : Prost) (i : ℕ) (u id : String) (a : TaskAction) (h : List TaskAction) : Prop :=
  OnWrites Tidy a h ∧ OnWrites (ConsistentAt M i u id) a h ∧ Finds M i u id a h

instance (M : Prost) (i : ℕ) (u id : String) (w : Write) (h : List TaskAction) :
    Decidable (ConsistentAt M i u id w h) :=
  inferInstanceAs (Decidable (_ → _ → _ → _ → ∀ request ∈ w.request.call.synced,
    ∀ old ∈ (stored _ _ _ h).bind M.task.decode, Agrees _ _ _))

instance (M : Prost) (i : ℕ) (u id : String) (h : List TaskAction) : Decidable (Listed M i u id h) :=
  inferInstanceAs (Decidable (∀ task ∈ (stored i u (recordKey id) h).bind M.task.decode,
    ∀ k ∈ [_,_], ∃ payload ∈ stored i u ("_internal:" ++ k) h, lists M id payload))

instance (M : Prost) (i : ℕ) (u id : String) (a : TaskAction) (h : List TaskAction) :
    Decidable (Smooth M i u id a h) :=
  inferInstanceAs (Decidable (OnWrites _ a h ∧ OnWrites _ a h ∧
    (∀ q ∈ enters a, _ → _) ∧ ∀ x ∈ failed a, _ → _ ∉ _))

theorem introduces_of_created (hc : D.Reach c) {payload : Bytes} {r : Except UpdateError String}
    (hs : .op t q (.storageUpdate .create u (recordKey id) payload) r :: h <:+ c.state.history) :
    Introduces id (events t h) := by
  obtain ⟨-,task,hkey,-,hst⟩ := obligation hc hs
  rw [recordKey_inj] at hkey
  cases hst with
  | create call introduced => exact hkey ▸ introduced

/-- The creation of a task is the only write of its record that replaces nothing, and nobody stores
it as a task that has been delivered. -/
theorem firstSince_of_created (hc : D.Reach c) (htidy : Everywhere (OnWrites Tidy) c.state.history)
    (hcr : CreatedBy i u id request c.state.history) :
    Everywhere (OnWrites (FirstSince [] i u (recordKey id))) c.state.history := by
  refine everywhere_of_write fun t q site u' k payload r past hs _ => ?_
  rintro - rfl rfl rfl hsite
  have hob := obligation hc hs
  cases site with
  | create => exact fresh_write hc htidy hs (introduces_of_created hc hs) _ _
  | query =>
    obtain ⟨-,task,hkey,-,hst⟩ := hob
    rw [recordKey_inj] at hkey
    cases hst with
    | query introduced => exact fresh_write hc htidy hs (hkey ▸ introduced) _ _
  | admission =>
    obtain ⟨request',d,v,later,before,sync,hid,rfl,-,hnone,hstart⟩ := check_of_admission hc hs
    obtain ⟨t₀,q₀,payload₀,r₀,hm,hcore,-⟩ := hcr
    obtain ⟨past₀,hs₀⟩ := suffix_of_mem hm
    have hcheck : .op t q (.storageContains u' (recordKey id)) false :: before <:+ c.state.history :=
      (List.suffix_append _ _).trans ((List.suffix_cons _ _).trans hs)
    exfalso
    rcases List.suffix_or_suffix_of_suffix hs₀ hcheck with hss | hss
    · rcases List.suffix_cons_iff.mp hss with he | hss
      · cases (List.cons.inj he).1
      · exact stored_of_write (hss.subset (List.mem_cons_self ..)) (hcore ▸ hnone)
    · rcases List.suffix_cons_iff.mp hss with he | hss
      · cases (List.cons.inj he).1
      · obtain ⟨c₀,x,hc₀,rfl,-,-⟩ := exec_before hc hs₀
        have hf := idsFresh hc₀ (htidy.suffix ((List.suffix_cons _ _).trans hs₀))
        have hpending := hf.pending t₀ id (introduces_of_created hc hs₀)
        refine hf.unasked id hpending t q ?_ ((taskId_of_synced sync).trans hid)
        exact hss.subset (List.mem_cons_of_mem _ hstart)
  | _ => simp at hsite

theorem first_unique (hfirst : Everywhere (OnWrites (FirstSince [] i u (recordKey id))) c.state.history)
    {t t' : ℕ} {q q' : Request} {site site' : Site} {payload payload' : Bytes}
    {r r' : Except UpdateError String}
    (hm : .op t q (.storageUpdate site u (recordKey id) payload) r ∈ c.state.history)
    (hm' : .op t' q' (.storageUpdate site' u (recordKey id) payload') r' ∈ c.state.history)
    (hq : q.core = i) (hq' : q'.core = i) (hsite : site ∈ [Site.create,.query,.admission])
    (hsite' : site' ∈ [Site.create,.query,.admission]) : site = site' ∧ q = q' := by
  have hlt {t t' : ℕ} {q q' : Request} {site site' : Site} {payload payload' : Bytes}
      {r r' : Except UpdateError String} {past : List TaskAction}
      (hs : .op t q (.storageUpdate site u (recordKey id) payload) r :: past <:+ c.state.history)
      (hm : .op t' q' (.storageUpdate site' u (recordKey id) payload') r' ∈ past)
      (hq : q.core = i) (hq' : q'.core = i) (hsite : site ∈ [Site.create,.query,.admission]) : False := by
    have hnone := everywhere_writes hfirst hs List.nil_suffix hq rfl rfl hsite
    exact stored_of_write hm (hq'.trans hq.symm ▸ hnone)
  rcases before_or_after hm hm' with he | ⟨past,hs,hin⟩ | ⟨past,hs,hin⟩
  · obtain ⟨-,hqq,ho,-⟩ := Action.op.inj he
    exact ⟨(Op.storageUpdate.inj ho).1,hqq⟩
  · exact (hlt hs hin hq hq' hsite).elim
  · exact (hlt hs hin hq' hq hsite').elim

/-- A version of the task at its initiator: the status of a verdict fits what is stored. -/
structure Follows (request task : Task) : Prop where
  participants : task.participants = request.participants
  fits : task.decisions.length = task.participants.length
  status : task.status ∈ ["approved","started","rejected","finished"]
  rejected : task.status = "rejected" → ∃ d ∈ task.decisions, d.rejects
  approved : task.status ∈ ["started","finished"] → ∀ d ∈ task.decisions, d.approves

theorem Follows.not_waiting {task : Task} (hf : Follows request task) : task.status ≠ "waiting" := by
  intro hw
  have hs := hf.status
  rw [hw] at hs
  exact absurd hs (by decide)

theorem Follows.known {task : Task} (hf : Follows request task) : task.status ∈ statuses := by
  have hs := hf.status
  simp only [List.mem_cons,List.not_mem_nil,or_false] at hs
  rcases hs with hs | hs | hs | hs <;> rw [hs] <;> decide

theorem rejects_of_keeps {old new : Task} (hk : Keeps (fun _ => True) old new)
    (hr : ∃ d ∈ old.decisions, d.rejects) : ∃ d ∈ new.decisions, d.rejects := by
  obtain ⟨d,hd,hrej⟩ := hr
  obtain ⟨j,hj⟩ := List.mem_iff_getElem?.mp hd
  have hv : d.isValid := by rw [Decision.isValid_eq,hrej,Bool.or_true]
  obtain ⟨e,he,hs⟩ := hk j d trivial hj hv
  refine ⟨e,List.mem_iff_getElem?.mpr ⟨j,he⟩,?_⟩
  rwa [Decision.rejects,hs.1,hs.2,← Decision.rejects]

theorem keeps_of_version {old new : Task} {site : Site} {past : List TaskEvent}
    (hch : Changes M q u past old site new) (hw : old.status ≠ "waiting")
    (ha : site = .merge → ∀ request ∈ q.call.synced, Agrees u request old) :
    Keeps (fun _ => True) old new := by
  refine (FinalDecisions.keeps_of_changes hch ha).2 ?_
  rintro ⟨r,hq⟩
  cases hch with
  | merge sync => rw [hq] at sync; cases sync
  | decide sync => rw [hq] at sync; cases sync
  | confirm call decision reported waiting => exact hw waiting
  | finish call => rw [hq] at call; cases call

theorem undecided_of_created {d : Decision} (hn : 2 ≤ request.participants.length)
    (hempty : request.decisions = []) (hd : d.approves) :
    ¬ TaskService.isDecided { newTask request id with
      decisions := (newTask request id).decisions.set 0 d } := by
  obtain ⟨n,hlen⟩ : ∃ n, request.participants.length = n + 2 := ⟨request.participants.length - 2,by omega⟩
  have hset : (newTask request id).decisions.set 0 d = d :: List.replicate (n + 1) default := by
    simp [newTask,TaskService.resize,hempty,hlen,List.replicate_succ]
  have hdefault : Decision.isValid default = false ∧ Decision.rejects default = false := by decide
  have hrej : d.rejects = false := Decision.not_rejects_of_approves hd
  have hno : (d :: List.replicate (n + 1) default).filter Decision.rejects = [] := by
    simp [hrej,hdefault.2]
  have hone : ((d :: List.replicate (n + 1) default).filter Decision.isValid).length ≤ 1 := by
    rw [List.filter_cons]
    split_ifs <;> simp [hdefault.1]
  have hps : (newTask request id).participants.length = n + 2 := hlen
  simp only [TaskService.isDecided,TaskService.anyoneRejected,hset,hno,hps,List.length_nil,lt_irrefl,
    decide_false,Bool.or_false,beq_iff_eq]
  omega

def FollowsAt (M : Prost) (i : ℕ) (u id : String) (request : Task) (w : Write) (_ : List TaskAction) :
    Prop :=
  w.request.core = i → w.user = u → w.key = recordKey id →
    ∃ task, w.payload = M.task.encode task ∧ Follows request task

theorem follows_of_stored (hf : Everywhere (OnWrites (FollowsAt M i u id request)) h) {task : Task}
    (hst : stored i u (recordKey id) h = some (M.task.encode task)) : Follows request task := by
  obtain ⟨t,q,site,r,past,hq,hw⟩ := write_of_stored hst
  obtain ⟨task',he,hf⟩ := everywhere_writes hf hw hq rfl rfl
  obtain rfl := M.task.encode_inj he
  exact hf

section Runs

variable (hc : D.Reach c) (ho : Everywhere (Smooth D.prost i u id) c.state.history)
  (hcr : CreatedBy i u id request c.state.history)
include hc ho hcr

omit hc hcr in
theorem tidy_of_smooth : Everywhere (OnWrites Tidy) c.state.history := ho.mono fun _ _ hh => hh.1

omit ho in
theorem not_reserved : ¬ Reserved id := by
  obtain ⟨t,q,payload,r,hm,-,-⟩ := hcr
  obtain ⟨past,hs⟩ := suffix_of_mem hm
  exact not_reserved_of_noColon (uuid_noColon hc ((List.suffix_cons _ _).trans hs)
    (introduces_of_created hc hs))

theorem version_at (hi : q.core = i) {site : Site} {payload : Bytes} {r : Except UpdateError String}
    (hs : .op t q (.storageUpdate site u (recordKey id) payload) r :: h <:+ c.state.history) :
    ∃ new, payload = D.prost.task.encode new ∧ new.taskId = id ∧
      Version D.prost q u (events t h) site new (stored i u (recordKey id) h) := by
  subst hi
  have htidy := tidy_of_smooth ho
  exact version_since hc htidy (not_reserved hc hcr) List.nil_suffix (idle_nil _)
    (firstSince_of_created hc htidy hcr) hs

omit hc hcr in
theorem agrees_of_smooth (hi : q.core = i) {site : Site} {payload : Bytes} {r : Except UpdateError String}
    (hs : .op t q (.storageUpdate site u (recordKey id) payload) r :: h <:+ c.state.history) {old : Task}
    (hold : stored i u (recordKey id) h = some (D.prost.task.encode old)) :
    site = .merge → ∀ request ∈ q.call.synced, Agrees u request old := by
  subst hi
  have hcons := everywhere_writes (ho.mono fun _ _ hh => hh.2.1) hs rfl rfl rfl
  exact FinalDecisions.agrees_of_consistent hcons hold

/-- Decisions that have been stored are kept. -/
theorem keeps_since (hh : h <:+ c.state.history)
    (hf : Everywhere (OnWrites (FollowsAt D.prost i u id request)) h) {earlier : List TaskAction}
    (hs : earlier <:+ h) {task : Task}
    (hst : stored i u (recordKey id) earlier = some (D.prost.task.encode task)) :
    ∃ new, stored i u (recordKey id) h = some (D.prost.task.encode new) ∧
      Keeps (fun _ => True) task new ∧ new.decisions.length = task.decisions.length := by
  refine stored_preserves (P := fun b => ∃ new, b = some (D.prost.task.encode new) ∧
    Keeps (fun _ => True) task new ∧ new.decisions.length = task.decisions.length) ?_ hs
    ⟨task,hst,fun j d _ hd _ => ⟨d,hd,.refl d⟩,rfl⟩
  refine everywhere_of_write fun t q site u' k payload r past hw _ => ?_
  rintro hi rfl rfl ⟨old,hold,hk,hlen⟩
  have hw' := hw.trans hh
  obtain ⟨new,rfl,-,hv⟩ := version_at hc ho hcr hi hw'
  have hfol := follows_of_stored (hf.suffix ((List.suffix_cons _ _).trans hw)) hold
  have hagree := agrees_of_smooth ho hi hw' hold
  rw [hold] at hv
  generalize hb : some (D.prost.task.encode old) = before at hv
  cases hv with
  | first => cases hb
  | next changes =>
    obtain rfl := D.prost.task.encode_inj (Option.some.inj hb)
    refine ⟨new,rfl,hk.trans (keeps_of_version changes hfol.not_waiting hagree),?_⟩
    cases changes with
    | merge sync direct agreement taken => exact taken.length.trans hlen
    | confirm call decision reported waiting => exact absurd waiting hfol.not_waiting
    | decide => exact hlen
    | finish => exact hlen

theorem created_by_first (hi : q.core = i) {site : Site} {payload : Bytes} {r : Except UpdateError String}
    (hm : .op t q (.storageUpdate site u (recordKey id) payload) r ∈ c.state.history)
    (hsite : site ∈ [Site.create,.query,.admission]) : site = .create ∧ q.call = .createTask request := by
  have hfirst := firstSince_of_created hc (tidy_of_smooth ho) hcr
  obtain ⟨t₀,q₀,payload₀,r₀,hm₀,hi₀,hcall⟩ := hcr
  obtain ⟨hs,hq⟩ := first_unique hfirst hm hm₀ hi hi₀ hsite (by decide)
  exact ⟨hs,hq ▸ hcall⟩

theorem present_of_merged (hq : Concerns i u id q) {o : Op} {r : Res o}
    (hs : .op t q o r :: h <:+ c.state.history) (hm : ¬ Unmerged (events t h)) :
    stored i u (recordKey id) h ≠ none := by
  obtain ⟨rfl,huser,hid⟩ := hq
  simp only [Unmerged,not_forall,not_not] at hm
  obtain ⟨u',k,payload,r',hm⟩ := hm
  have hmem := mem_history hc hs hm
  obtain ⟨past,hp⟩ := suffix_of_mem hmem
  have hp' := hp.trans ((List.suffix_cons _ _).trans hs)
  obtain ⟨hacts,task,rfl,-⟩ := obligation hc hp'
  obtain rfl : u = u' := Option.some.inj (huser.symm.trans hacts.1)
  obtain rfl : id = task.taskId :=
    hid.symm.trans (asked_of_write hc (kept hc (tidy_of_smooth ho)) (.inl rfl) hp')
  exact stored_of_write hmem

variable (hagree : request.requireAgreement) (hn : 2 ≤ request.participants.length)
include hagree hn

theorem follows : Everywhere (OnWrites (FollowsAt D.prost i u id request)) c.state.history := by
  refine everywhere_of_write fun t q site u' k payload r past hs ih => ?_
  rintro rfl rfl rfl
  have hpast : past <:+ c.state.history := (List.suffix_cons _ _).trans hs
  obtain ⟨new,rfl,-,hv⟩ := version_at hc ho hcr rfl hs
  refine ⟨new,rfl,?_⟩
  generalize hst : stored q.core u' (recordKey id) past = before at hv
  cases hv with
  | first hsite hstores =>
    obtain ⟨rfl,hcall⟩ := created_by_first hc ho hcr rfl (hs.subset (List.mem_cons_self ..)) hsite
    cases hstores with
    | @create request' id' bs d call introduced made room =>
      obtain rfl := TaskCall.createTask.inj (hcall.symm.trans call)
      have hstatus : (newTask request id').status = "approved" := by
        have hlt : 1 < request.participants.length := hn
        simp [newTask,hagree,hlt]
      refine ⟨rfl,?_,?_,fun hrej => ?_,fun happ => ?_⟩
      · exact List.length_set.trans (TaskService.length_resize _ _)
      · exact List.mem_of_mem_head? (congrArg some hstatus.symm)
      · exact absurd (hstatus.symm.trans hrej) (by decide)
      · exact absurd (hstatus ▸ happ) (by decide)
  | @next old changes id_eq =>
    have hfol := follows_of_stored ih hst
    have hkeeps := keeps_of_version changes hfol.not_waiting (agrees_of_smooth ho rfl hs hst)
    cases changes with
    | merge sync direct agreement taken =>
      exact ⟨hfol.participants,taken.length.trans hfol.fits,hfol.status,
        fun hrej => rejects_of_keeps hkeeps (hfol.rejected hrej),
        fun happ => FinalDecisions.approves_of_keeps hkeeps taken.length (hfol.approved happ)⟩
    | @decide request' merged r' sync direct stored' undecided verdict =>
      obtain ⟨later,earlier,rfl,rfl,-⟩ := merged_before hc (tidy_of_smooth ho)
        (not_reserved hc hcr) (firstSince_of_created hc (tidy_of_smooth ho) hcr) hs stored'
      have hmst : stored q.core u' (recordKey merged.taskId) (.op t q (.storageUpdate .merge u'
          (recordKey merged.taskId) (D.prost.task.encode merged)) r' :: earlier) =
          some (D.prost.task.encode merged) := stored_write ..
      have hsuf := List.suffix_append later (.op t q (.storageUpdate .merge u'
        (recordKey merged.taskId) (D.prost.task.encode merged)) r' :: earlier)
      have hmfol := follows_of_stored (ih.suffix hsuf) hmst
      obtain ⟨old',hold',hk,hlen⟩ := keeps_since hc ho hcr hpast ih hsuf hmst
      obtain rfl := D.prost.task.encode_inj (Option.some.inj (hst.symm.trans hold'))
      refine ⟨hfol.participants,hfol.fits,?_,fun hrej => ?_,fun happ => ?_⟩
      · dsimp only
        split_ifs <;> decide
      · have hany : TaskService.anyoneRejected merged := by
          by_contra hno
          simp [hno] at hrej
        refine rejects_of_keeps hk ?_
        obtain ⟨d,hd⟩ := List.exists_mem_of_length_pos (of_decide_eq_true hany)
        exact ⟨d,(List.mem_filter.mp hd).1,(List.mem_filter.mp hd).2⟩
      · have hno : TaskService.anyoneRejected merged = false := by
          rw [Bool.eq_false_iff]
          intro hany
          have happ : "rejected" ∈ ["started","finished"] := by simpa only [hany,if_true] using happ
          exact absurd happ (by decide)
        exact FinalDecisions.approves_of_keeps hk hlen
          (FinalDecisions.approves_of_decided hmfol.fits.le verdict hno)
    | confirm call decision reported waiting => exact absurd waiting hfol.not_waiting
    | finish call started =>
      refine ⟨hfol.participants,hfol.fits,by simp,fun hrej => by simp at hrej,fun _ => ?_⟩
      exact hfol.approved (by simp [started])

theorem task_of_stored (hh : h <:+ c.state.history) {payload : Bytes}
    (hst : stored i u (recordKey id) h = some payload) : ∃ task, payload = D.prost.task.encode task ∧
      task.taskId = id ∧ Follows request task := by
  obtain ⟨t,q,site,r,past,hi,hw⟩ := write_of_stored hst
  obtain ⟨task,rfl,hid,-⟩ := version_at hc ho hcr hi (hw.trans hh)
  exact ⟨task,rfl,hid,follows_of_stored ((follows hc ho hcr hagree hn).suffix hh) hst⟩

/-- An undecided task becomes a decided one when decisions are merged. -/
theorem merge_of_decided (hempty : request.decisions = []) (hh : h <:+ c.state.history) {task : Task}
    (hst : stored i u (recordKey id) h = some (D.prost.task.encode task))
    (hopen : task.status = "approved") (hd : TaskService.isDecided task) :
    ∃ t q r past, .op t q (.storageUpdate .merge u (recordKey id) (D.prost.task.encode task)) r ::
      past <:+ h ∧ q.core = i := by
  obtain ⟨t,q,site,r,past,hi,hw⟩ := write_of_stored hst
  have hs := hw.trans hh
  obtain ⟨new,he,-,hv⟩ := version_at hc ho hcr hi hs
  obtain rfl := D.prost.task.encode_inj he
  generalize hb : stored i u (recordKey id) past = before at hv
  cases hv with
  | first hsite hstores =>
    obtain ⟨rfl,hcall⟩ := created_by_first hc ho hcr hi (hs.subset (List.mem_cons_self ..)) hsite
    cases hstores with
    | @create request' id' bs d call introduced made room =>
      obtain rfl := TaskCall.createTask.inj (hcall.symm.trans call)
      have hf := made_flags hc hs made
      have happ : d.approves := by simp [Decision.approves,hf.1,hf.2]
      exact absurd hd (undecided_of_created hn hempty happ)
  | next changes =>
    have hfol := follows_of_stored ((follows hc ho hcr hagree hn).suffix
      ((List.suffix_cons _ _).trans hs)) hb
    cases changes with
    | merge => exact ⟨t,q,r,past,hw,hi⟩
    | decide =>
      dsimp only at hopen
      split_ifs at hopen <;> exact absurd hopen (by decide)
    | confirm call decision reported waiting => exact absurd waiting hfol.not_waiting
    | finish => simp at hopen

/-- A verdict is not taken back. -/
theorem closed_since {h : List TaskAction} (hs : h <:+ c.state.history) {task : Task}
    (hst : stored i u (recordKey id) h = some (D.prost.task.encode task))
    (hclosed : task.status ≠ "approved") : ∃ new, stored i u (recordKey id) c.state.history =
      some (D.prost.task.encode new) ∧ new.status ≠ "approved" := by
  refine stored_preserves (P := fun b => ∃ new, b = some (D.prost.task.encode new) ∧
    new.status ≠ "approved") ?_ hs ⟨task,hst,hclosed⟩
  refine everywhere_of_write fun t q site u' k payload r past hw _ => ?_
  rintro hi rfl rfl ⟨old,hold,hne⟩
  obtain ⟨new,rfl,-,hv⟩ := version_at hc ho hcr hi hw
  have hfol := follows_of_stored ((follows hc ho hcr hagree hn).suffix
    ((List.suffix_cons _ _).trans hw)) hold
  rw [hold] at hv
  generalize hb : some (D.prost.task.encode old) = before at hv
  cases hv with
  | first => cases hb
  | next changes =>
    obtain rfl := D.prost.task.encode_inj (Option.some.inj hb)
    refine ⟨new,rfl,?_⟩
    cases changes with
    | merge => exact hne
    | decide =>
      dsimp only
      split_ifs <;> decide
    | confirm call decision reported waiting => exact absurd waiting hfol.not_waiting
    | finish => simp

/-- Nothing is missed by a verdict that finds the task in its lists. -/
theorem not_missed (hq : Concerns i u id q) {p : Service Unit} (ht : c.threads t = some (q,p))
    {h' : List TaskEvent} (hsuf : h' <:+ events t c.state.history) (hm : Misses D.prost u id h') :
    False := by
  have hthread {q' : Request} {o : Op} {r : Res o} (hin : .op t q' o r ∈ c.state.history) : q' = q :=
    ((hc.history_thread t).2 q p ht).2 q' o r hin
  have hu {o : Op} {r : Res o} {h : List TaskAction} (hs : .op t q o r :: h <:+ c.state.history)
      (hm : ¬ Unmerged (events t h)) : NoColon u := by
    obtain ⟨payload,hst⟩ := Option.ne_none_iff_exists'.mp (present_of_merged hc ho hcr hq hs hm)
    obtain ⟨t',q',site,r',past,-,hw⟩ := write_of_stored hst
    exact writer_noColon hc (hw.trans ((List.suffix_cons _ _).trans hs))
  have hi : q.core = i := hq.1
  subst hi
  obtain ⟨before,he⟩ := hsuf
  cases hm with
  | @record r past merged bad =>
    obtain ⟨later,q',h,hh,-,hevents⟩ := split_at_event he.symm
    have hs : .op t q' (.storageRead u (recordKey id)) r :: h <:+ c.state.history := ⟨later,hh.symm⟩
    obtain rfl := hthread (hs.subset (List.mem_cons_self ..))
    have hmerged : ¬ Unmerged (events t h) := hevents ▸ not_unmerged_cons merged _
    have hpresent := present_of_merged hc ho hcr hq hs hmerged
    cases r with
    | error e => exact hpresent (stored_of_read_error hc (hu hs hmerged) (guarded_recordKey id) hs)
    | ok payload =>
      have hst := stored_of_read hc (hu hs hmerged) (guarded_recordKey id) hs
      obtain ⟨task,rfl,-⟩ := task_of_stored hc ho hcr hagree hn ((List.suffix_cons _ _).trans hs) hst
      have hnone := bad _ rfl
      rw [D.prost.task.decode_encode] at hnone
      cases hnone
  | @list r payload task k added past merged decoded list leaves bad =>
    obtain ⟨later,q',h,hh,-,hev⟩ := split_at_event he.symm
    obtain ⟨later₁,q₁,h₁,rfl,hadded,hev₁⟩ := split_at_event hev
    obtain ⟨later₂,q₂,h₂,rfl,hnone,hev₂⟩ := split_at_event (hev₁.trans (List.nil_append _).symm)
    dsimp only at hh
    have hs : .op t q' (.storageRead u k) r :: (later₁ ++ .op t q₁ (.storageRead u (recordKey id))
      (.ok payload) :: (later₂ ++ .op t q₂ (.lock .decide) () :: h₂)) <:+ c.state.history := ⟨later,hh.symm⟩
    have hs₁ := (List.suffix_append later₁ _).trans ((List.suffix_cons _ _).trans hs)
    have hs₂ := (List.suffix_append later₂ _).trans ((List.suffix_cons _ _).trans hs₁)
    obtain rfl := hthread (hs.subset (List.mem_cons_self ..))
    obtain rfl := hthread (hs₁.subset (List.mem_cons_self ..))
    obtain rfl := hthread (hs₂.subset (List.mem_cons_self ..))
    have hmerged : ¬ Unmerged (events t h₂) := hev₂ ▸ merged
    have huser := hu hs₂ hmerged
    obtain ⟨payload₀,hst⟩ := Option.ne_none_iff_exists'.mp (present_of_merged hc ho hcr hq hs₂ hmerged)
    have htidy := tidy_of_smooth ho
    have hexclusive := exclusive hc htidy (not_reserved hc hcr) (firstSince_of_created hc htidy hcr)
    obtain rfl := Except.ok.inj (read_of_held hc huser (guarded_recordKey id) hs₁
      (hexclusive.mono fun _ _ hh w hw => hh w hw List.nil_suffix) hst (by simp [hnone]))
    obtain ⟨task',rfl,rfl,hfol⟩ := task_of_stored hc ho hcr hagree hn ((List.suffix_cons _ _).trans hs₂) hst
    rw [D.prost.task.decode_encode] at decoded
    obtain rfl := Option.some.inj decoded
    have hkey : ∃ k' ∈ [TaskService.protocolListKey u task',TaskService.statusListKey task'],
        k = "_internal:" ++ k' := by
      rcases list with rfl | rfl <;> simp
    obtain ⟨k',hmem,rfl⟩ := hkey
    have hlisted := (everywhere_iff.mp ho _ _ hs₂).2.2.1 q₂ rfl hq task' (by
      rw [hst]
      exact D.prost.task.decode_encode task') k' hmem
    obtain ⟨payload',hst',hlists⟩ := hlisted
    have hne : recordKey task'.taskId ≠ "_internal:" ++ k' := fun hk =>
      (list.ne_recordKey fun hcol => not_reserved hc hcr ⟨_,hfol.known,hcol⟩).1 hk.symm
    have hs' : .op t q₂ (.storageRead u ("_internal:" ++ k')) r :: ((later₁ ++
        .op t q₂ (.storageRead u (recordKey task'.taskId)) (.ok (D.prost.task.encode task')) ::
        later₂) ++ .op t q₂ (.lock .decide) () :: h₂) <:+ c.state.history := by simpa using hs
    have hread := read_of_held hc huser (guarded_listOf list) hs'
      (exclusive_list hc htidy list hfol.known q₂.core) hst' fun e hin => by
        rw [events_append,events_op_self,hadded,hnone] at hin
        rcases List.mem_append.mp hin with hin | hin
        · exact leaves e hin
        · obtain rfl := List.mem_singleton.mp hin
          exact fun hh => hne hh.2
    have hmiss := bad payload' hread
    rw [hlists] at hmiss
    cases hmiss
  | @update site k e payload past site_mem =>
    obtain ⟨later,q',h,hh,-,-⟩ := split_at_event he.symm
    have hs : .op t q' (.storageUpdate site u k payload) (.error e) :: h <:+ c.state.history := ⟨later,hh.symm⟩
    obtain rfl := hthread (hs.subset (List.mem_cons_self ..))
    exact (everywhere_iff.mp ho _ _ hs).2.2.2 (q',site) rfl hq site_mem

/-- When everybody who is concerned with the task is done, no decided task is left undecided. -/
theorem not_approved (hempty : request.decisions = [])
    (hended : ∀ t q p, c.threads t = some (q,p) → Concerns i u id q → ∃ r, p = .ofExcept r) {task : Task}
    (hst : stored i u (recordKey id) c.state.history = some (D.prost.task.encode task))
    (hd : TaskService.isDecided task) : task.status ≠ "approved" := by
  intro hopen
  have htidy := tidy_of_smooth ho
  obtain ⟨t,q,r,past,hs,rfl⟩ := merge_of_decided hc ho hcr hagree hn hempty List.suffix_rfl hst hopen hd
  have hmem := hs.subset (List.mem_cons_self ..)
  obtain ⟨hacts,task',hkey,he,hstores⟩ := obligation hc hs
  have hid : q.call.taskId = id := asked_of_write hc (kept hc htidy) (.inl rfl) hs
  have hq : Concerns q.core u id q := ⟨rfl,hacts.1,hid⟩
  cases ht : c.threads t with
  | none => exact (hc.history_thread t).1 ht _ hmem rfl
  | some x =>
    obtain ⟨q',p⟩ := x
    have hsame {o : Op} {r : Res o} {q₁ : Request} (hin : .op t q₁ o r ∈ c.state.history) : q₁ = q' :=
      ((hc.history_thread t).2 q' p ht).2 q₁ o r hin
    obtain rfl := hsame hmem
    obtain ⟨r',rfl⟩ := hended t q p ht hq
    cases hstores with
    | @merge request' task₀ payload ds sync direct =>
      obtain rfl : request'.taskId = id := (taskId_of_synced sync).symm.trans hid
      have hsettles := settles_of_ended hc ht sync direct hacts.1
      rcases hsettles task _ r (mem_events.mpr ⟨q,hmem⟩) (by rw [hopen]; decide) hd with
        ⟨k,payload,r'',hdec⟩ | ⟨h',hsuf,hmiss⟩
      · obtain ⟨q₁,hdec⟩ := mem_events.mp hdec
        obtain rfl := hsame hdec
        obtain ⟨past',hs'⟩ := suffix_of_mem hdec
        obtain ⟨hacts',decided,rfl,rfl,hst'⟩ := obligation hc hs'
        have hclosed : decided.status ≠ "approved" := by
          cases hst'
          dsimp only
          split_ifs <;> decide
        have hkey' : recordKey decided.taskId = recordKey request'.taskId := congrArg recordKey
          ((asked_of_write hc (kept hc htidy) (.inr rfl) hs').symm.trans hid)
        rw [hkey'] at hs'
        obtain ⟨new,hnew,hne⟩ := closed_since hc ho hcr hagree hn hs' (stored_write ..) hclosed
        obtain rfl := D.prost.task.encode_inj (Option.some.inj (hst.symm.trans hnew))
        exact hne hopen
      · exact not_missed hc ho hcr hagree hn hq ht hsuf hmiss

end Runs

/-- A task that requires agreement of two or more participants is created, with no decisions. As
long as every verdict finds the task in the lists, nothing fails to be stored and no message that
is merged contradicts what is stored: once all who are concerned with the task are done, its
status follows the decisions that are stored. -/
theorem status_follows_decisions (D : Deployment) {c : TaskConfig} (hc : D.Reach c) {i : ℕ}
    {u id : String} (ho : Everywhere (Smooth D.prost i u id) c.state.history) {request : Task}
    (hcr : CreatedBy i u id request c.state.history) (hagree : request.requireAgreement)
    (hn : 2 ≤ request.participants.length) (hempty : request.decisions = [])
    (hended : ∀ t q p, c.threads t = some (q,p) → Concerns i u id q → ∃ r, p = .ofExcept r) :
    ∃ task ∈ recordOf D.prost c.state.shared i u id,
      ((∃ d ∈ task.decisions, d.rejects) → task.status = "rejected") ∧
      ((∀ d ∈ task.decisions, d.approves) → task.status = "started" ∨ task.status = "finished") := by
  have hpresent : stored i u (recordKey id) c.state.history ≠ none := by
    obtain ⟨t,q,payload,r,hm,rfl,-⟩ := hcr
    exact stored_of_write hm
  obtain ⟨payload,hst⟩ := Option.ne_none_iff_exists'.mp hpresent
  obtain ⟨task,rfl,-,hfol⟩ := task_of_stored hc ho hcr hagree hn List.suffix_rfl hst
  have hdecided (hd : TaskService.isDecided task) : task.status ≠ "approved" :=
    not_approved hc ho hcr hagree hn hempty hended hst hd
  have hu : NoColon u := by
    obtain ⟨t,q,payload,r,hm,-,-⟩ := hcr
    obtain ⟨past,hs⟩ := suffix_of_mem hm
    exact writer_noColon hc hs
  refine ⟨task,?_,fun hrej => ?_,fun happ => ?_⟩
  · rw [recordOf,read_eq_stored hc hu (guarded_recordKey id),hst]
    exact D.prost.task.decode_encode task
  · obtain ⟨d,hd,hrej⟩ := hrej
    have hany : TaskService.anyoneRejected task :=
      decide_eq_true (List.length_pos_of_mem (List.mem_filter.mpr ⟨hd,hrej⟩))
    have hne := hdecided (by rw [TaskService.isDecided,hany,Bool.or_true])
    have hno : task.status ∉ ["started","finished"] := fun hst => by
      have hnot := Decision.not_rejects_of_approves (hfol.approved hst d hd)
      rw [hrej] at hnot
      cases hnot
    have hs := hfol.status
    simp only [List.mem_cons,List.not_mem_nil,or_false] at hs hno
    tauto
  · have hvalid : (task.decisions.filter Decision.isValid).length = task.decisions.length := by
      refine List.length_filter_eq_length_iff.mpr fun d hd => ?_
      rw [Decision.isValid_eq,happ d hd,Bool.true_or]
    have hne := hdecided (by simp [TaskService.isDecided,hvalid,hfol.fits])
    have hno : task.status ≠ "rejected" := fun hst => by
      obtain ⟨d,hd,hrej⟩ := hfol.rejected hst
      have hnot := Decision.not_rejects_of_approves (happ d hd)
      rw [hrej] at hnot
      cases hnot
    have hs := hfol.status
    simp only [List.mem_cons,List.not_mem_nil,or_false] at hs
    tauto

def withReverseConnection : TaskCall → TaskCall
  | .interCoreSyncTask task => .interCoreSyncTaskWithReverseConnection task
  | call => call

/-- User 08 connects in the other direction and offers a task, which user 07 accepts. -/
def connected : List Move := Move.settle 7 ++
  [.start 0 (.ofGuest 7 (withReverseConnection
      (sampleOffer (sampleTask "other" [⟨hexEncode [9],"member"⟩]) [default]))),.run 0 14,
    .start 1 (.ofUser 7 (.confirmTask { taskId := "other", decision := some { isApproved := true } })),
    .run 1 21]

def sampleRequest : Task where
  participants := [⟨hexEncode [7],"initiator"⟩,⟨hexEncode [8],"member"⟩]
  requireAgreement := true
  expirationTime := 1000

/-- The reply of user 08 to the task that user 07 has created. -/
def sampleReply (approves : Bool) : TaskCall :=
  let task := newTask sampleRequest "id"
  let decision (key : UInt8) (approves : Bool) := makeDecision Primitives.ideal Prost.selfDelimiting
    (Deployment.ideal.keys 0) approves (!approves) "" task
    (Prost.selfDelimiting.userConsent.encode (sampleConsent key))
  .interCoreSyncTask { task with
    status := if approves then "started" else "rejected"
    decisions := (decision 7 true).toOption.toList ++ (decision 8 approves).toOption.toList }

/-- User 07 creates a task, and the reply is handled when the creation has done `n` operations. -/
def replied (approves : Bool) (n m : ℕ) : List Move := connected ++
  [.start 2 (.ofUser 7 (.createTask sampleRequest)),.run 2 n,
    .start 3 (.ofGuest 7 (sampleReply approves)),.run 3 m,.run 2 (18 - n)]

def creates : TaskAction → Bool
  | .op _ q (.storageUpdate .create u k _) _ =>
    decide (q.core = 0 ∧ u = "07" ∧ k = recordKey "id" ∧ q.call = .createTask sampleRequest)
  | _ => false

theorem createdBy_of_any {h : List TaskAction} (hh : h.any creates) :
    CreatedBy 0 "07" "id" sampleRequest h := by
  obtain ⟨a,hm,ha⟩ := List.any_eq_true.mp hh
  cases a with
  | op t q o r =>
    cases o with
    | storageUpdate site u k payload =>
      cases site with
      | create =>
        obtain ⟨hi,rfl,rfl,hcall⟩ := of_decide_eq_true ha
        exact ⟨t,q,payload,r,hm,hi,hcall⟩
      | _ => cases ha
    | _ => cases ha
  | _ => cases ha

/-- The reply is handled when the task is in the lists. -/
theorem status_follows_decisions_sample : ∃ c, Deployment.ideal.Reach c ∧
    ∃ task ∈ recordOf Deployment.ideal.prost c.state.shared 0 "07" "id",
      (∃ d ∈ task.decisions, d.rejects) ∧ task.status = "rejected" := by
  have hrun : (Play.moves (replied false 18 23) { sim := { ids := ["id"] } }).any fun p =>
      p.allEnded && p.history.any creates &&
        decide (Everywhere (Smooth Prost.selfDelimiting 0 "07" "id") p.history) &&
        (FinalDecisions.recordIn "id" p.history).any fun task => task.decisions.any Decision.rejects := by
    decide +kernel
  obtain ⟨c,p,hc,hf,hp⟩ := Play.run hrun
  simp only [Bool.and_eq_true,decide_eq_true_eq,← hf.history,Option.any_eq_true] at hp
  obtain ⟨⟨⟨hended,hcr⟩,ho⟩,old,hold,hrej⟩ := hp
  obtain ⟨task,hmem,hh,-⟩ := status_follows_decisions Deployment.ideal hc ho (createdBy_of_any hcr)
    rfl (by decide) rfl fun t q p ht _ => hf.ended hc hended ht
  have hrecord : recordOf Deployment.ideal.prost c.state.shared 0 "07" "id" = some old :=
    (FinalDecisions.recordOf_eq hc "id").trans hold
  obtain rfl := Option.some.inj (hrecord.symm.trans hmem)
  have hrej : ∃ d ∈ old.decisions, d.rejects := List.any_eq_true.mp hrej
  exact ⟨c,hc,old,hrecord,hrej,hh hrej⟩

/-- The reply is handled when the record is there and the task is not in the lists. -/
theorem status_left_behind : ¬ ∀ c, Deployment.ideal.Reach c →
    CreatedBy 0 "07" "id" sampleRequest c.state.history →
    Everywhere (OnWrites Tidy) c.state.history →
    Everywhere (OnWrites (ConsistentAt Prost.selfDelimiting 0 "07" "id")) c.state.history →
    (∀ a ∈ c.state.history, failed a = none) →
    (∀ t q p, c.threads t = some (q,p) → ∃ r, p = .ofExcept r) →
    ∃ task ∈ recordOf Prost.selfDelimiting c.state.shared 0 "07" "id",
      ((∃ d ∈ task.decisions, d.rejects) → task.status = "rejected") ∧
      ((∀ d ∈ task.decisions, d.approves) → task.status = "started" ∨ task.status = "finished") := by
  intro hall
  have hrun : (Play.moves (replied true 7 13) { sim := { ids := ["id"] } }).any fun p =>
      p.allEnded && p.history.any creates &&
        decide (Everywhere (OnWrites Tidy) p.history) &&
        decide (Everywhere (OnWrites (ConsistentAt Prost.selfDelimiting 0 "07" "id")) p.history) &&
        decide (∀ a ∈ p.history, failed a = none) &&
        (FinalDecisions.recordIn "id" p.history).any fun task =>
          task.status = "approved" && task.decisions.all Decision.approves := by
    decide +kernel
  obtain ⟨c,p,hc,hf,hp⟩ := Play.run hrun
  simp only [Bool.and_eq_true,decide_eq_true_eq,← hf.history,Option.any_eq_true] at hp
  obtain ⟨⟨⟨⟨⟨hended,hcr⟩,htidy⟩,hcons⟩,hok⟩,old,hold,hopen,happ⟩ := hp
  obtain ⟨task,hmem,-,hh⟩ := hall c hc (createdBy_of_any hcr) htidy hcons hok
    fun t q p ht => hf.ended hc hended ht
  rw [FinalDecisions.recordOf_eq hc,hold] at hmem
  obtain rfl := Option.some.inj hmem
  rcases hh (List.all_eq_true.mp happ) with hst | hst
  · exact absurd (hopen.symm.trans hst) (by decide)
  · exact absurd (hopen.symm.trans hst) (by decide)

end InitiatorStatus
end CoLinkServer
