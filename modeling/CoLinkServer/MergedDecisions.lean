import CoLinkServer.FinalDecisions

/-! No decision is lost. A synchronisation takes over all the decisions of a message or none, and
as every change of a record is made under the mutex and based on what is stored, the decision of
a participant is the one that has been accepted last. -/
namespace CoLinkServer

open Interleaving

namespace MergedDecisions

open TaskRecords TaskTraces
open FinalDecisions (recordOf recordIn recordOf_eq)

def Refused (h : List TaskEvent) : Prop := ∃ d v task e, ⟨.checkDecision d v task,.error e⟩ ∈ h

/-- What the message brings has been stored. -/
def Began (h : List TaskEvent) : Prop :=
  ∃ site u k payload r, site ∈ [Site.admission,.merge] ∧ ⟨.storageUpdate site u k payload,r⟩ ∈ h

/-- First everything is checked, then what has been checked is stored, then comes the rest. -/
def Ordered : List TaskEvent → Prop
  | ⟨.storageUpdate site _ _ _,_⟩ :: h => ¬ Refused h ∧ (site ∈ [Site.admission,.merge] ∨ Began h)
  | ⟨.checkDecision _ _ _,_⟩ :: h => ∀ e ∈ h, e.1.kind ≠ .storageUpdate
  | _ => True

/-- Nothing has been stored, and no check has failed. -/
def Clean (h : List TaskEvent) : Prop := (∀ e ∈ h, e.1.kind ≠ .storageUpdate) ∧ ¬ Refused h

def Silent (o : Op) : Prop := o.kind ≠ .storageUpdate ∧ o.kind ≠ .checkDecision

variable {M : Prost} {q : Request} {u : String} {h : List TaskEvent} {α : Type}

theorem ordered_of_kind {e : TaskEvent} (he : Silent e.1) : Ordered (e :: h) := by
  obtain ⟨o,r⟩ := e
  cases o with
  | storageUpdate => exact absurd rfl he.1
  | checkDecision => exact absurd rfl he.2
  | _ => trivial

theorem refused_cons {e : TaskEvent} (hk : e.1.kind ≠ .checkDecision) :
    Refused (e :: h) ↔ Refused h := by
  refine exists_congr fun d => exists_congr fun v => exists_congr fun task => exists_congr fun err => ?_
  rw [List.mem_cons]
  refine or_iff_right fun he => ?_
  rw [← he] at hk
  exact hk rfl

theorem Clean.cons {e : TaskEvent} (hc : Clean h) (he : Silent e.1) : Clean (e :: h) := by
  refine ⟨fun e' he' => ?_,fun hr => hc.2 ((refused_cons he.2).mp hr)⟩
  rcases List.mem_cons.mp he' with rfl | he'
  · exact he.1
  · exact hc.1 e' he'

theorem traced_silent {p : Service α} (hp : p.All Silent) (hc : Clean h) :
    p.Traced Ordered h (Prog.OnOk fun _ => Clean) :=
  (Prog.Traced.of_all hp (fun _ ho _ _ hc => ⟨ordered_of_kind ho,hc.cons ho⟩) hc).onOk

theorem traced_ordinary {p : Service α} (hp : p.All Op.Ordinary) (hb : Began h)
    (hr : ¬ Refused h) : p.Traced Ordered h (Prog.OnOk fun _ h' => Began h' ∧ ¬ Refused h') := by
  refine (Prog.Traced.of_all hp (J := fun h' => Began h' ∧ ¬ Refused h')
    (fun o ho r h' hj => ⟨?_,?_,?_⟩) ⟨hb,hr⟩).onOk
  · cases o with
    | storageUpdate => exact ⟨hj.2,.inr hj.1⟩
    | checkDecision => exact absurd rfl ho.1
    | _ => trivial
  · obtain ⟨site,u,k,payload,r',hs,hm⟩ := hj.1
    exact ⟨site,u,k,payload,r',hs,List.mem_cons_of_mem _ hm⟩
  · exact fun hr => hj.2 ((refused_cons ho.1).mp hr)

theorem silent_checkPrivilegeIn (metadata : Metadata) (privileges : List String) :
    (TaskService.checkPrivilegeIn metadata privileges).All Silent :=
  TaskService.all_checkPrivilegeIn fun _ => by simp [Silent,Op.kind]

theorem silent_readTask (id : String) : (TaskService.readTask M u id).All Silent :=
  TaskService.all_readTask (by simp [Silent,Op.kind])

theorem silent_forward (target : String) (task : Task) :
    (TaskService.forwardInterCoreSyncTask u target task).All Silent :=
  TaskService.all_forward (by simp [Silent,Op.kind]) (by simp [Silent,Op.kind])

theorem traced_check (hc : Clean h) (d : Decision) (v : String) (task : Task) :
    (TaskService.checkDecision d v task).Traced Ordered h (Prog.OnOk fun _ => Clean) := by
  refine fun r => ⟨hc.1,?_⟩
  cases r with
  | error e => trivial
  | ok w =>
    refine ⟨fun e he => ?_,fun hr => ?_⟩
    · rcases List.mem_cons.mp he with rfl | he
      · simp [Op.kind]
      · exact hc.1 e he
    · obtain ⟨d',v',task',err,hm⟩ := hr
      rcases List.mem_cons.mp hm with he | hm
      · cases he
      · exact hc.2 ⟨d',v',task',err,hm⟩

theorem traced_takes (request task : Task) (hc : Clean h) :
    (TaskService.takeDecisions u request task).Traced Ordered h (Prog.OnOk fun _ => Clean) := by
  refine Prog.Traced.foldlM (J := fun _ _ => Clean) (fun x is task h hc => ?_) hc
  obtain ⟨p,i⟩ := x
  dsimp only
  split_ifs
  · cases request.decisions[i]? with
    | none => trivial
    | some d =>
      show (if d ≠ default then _ else _ : Service Task).Traced _ _ _
      split_ifs
      · exact Prog.Traced.seq (traced_check hc d _ _) fun _ _ hc =>
          traced_silent (TaskService.all_setDecision _ _ _) hc
      · exact hc
  · exact hc

theorem traced_begin {site : Site} (hs : site ∈ [Site.admission,.merge]) (task : Task) (hc : Clean h) :
    (TaskService.storeTask M site u task).Traced Ordered h
      (Prog.OnOk fun _ h' => Began h' ∧ ¬ Refused h') := by
  refine fun r => ⟨⟨hc.2,.inl hs⟩,?_⟩
  cases r with
  | error e => trivial
  | ok k =>
    refine ⟨⟨site,u,_,_,_,hs,List.mem_cons_self ..⟩,fun hr => hc.2 ((refused_cons ?_).mp hr)⟩
    simp [Op.kind]

theorem traced_merge (request : Task) (hc : Clean h) :
    (TaskService.mergeDecisions M u request).Traced Ordered h
      (Prog.OnOk fun _ h' => Began h' ∧ ¬ Refused h') := by
  have hunlock : (perform (.unlock .merge)).All Op.Ordinary :=
    TaskService.all_perform (by simp [Op.Ordinary,Op.kind])
  refine Prog.Traced.bracket (B := fun _ h => Began h ∧ ¬ Refused h)
    (traced_silent (TaskService.all_perform (by simp [Silent,Op.kind])) hc)
    (fun h hc => ?_) (fun h r => ⟨trivial,trivial⟩) (fun _ h hb => traced_ordinary hunlock hb.1 hb.2)
  refine Prog.Traced.seq (traced_silent (silent_readTask request.taskId) hc) fun task h hc => ?_
  refine Prog.Traced.seq (traced_silent (TaskService.all_require _ _) hc) fun _ h hc => ?_
  refine Prog.Traced.seq (traced_silent (TaskService.all_perform (by simp [Silent,Op.kind])) hc)
    fun now h hc => ?_
  refine Prog.Traced.seq (traced_silent (TaskService.all_require _ _) hc) fun _ h hc => ?_
  refine Prog.Traced.seq (traced_takes request task hc) fun task h hc => ?_
  exact Prog.Traced.seq (traced_begin (by decide) task hc) fun _ h hb => hb

theorem traced_sync (request : Task) :
    (TaskService.interCoreSyncTask M q.metadata request).Traced Ordered [] (Prog.OnOk fun _ _ => True) := by
  have hnil : Clean [] := ⟨by simp,by simp [Refused]⟩
  refine Prog.Traced.seq (traced_silent (silent_checkPrivilegeIn _ _) hnil) fun _ h hc => ?_
  refine Prog.Traced.seq (traced_silent (TaskService.all_unwrap _) hc) fun u h hc => ?_
  cases q.metadata.forwardingTarget with
  | some value =>
    refine Prog.Traced.seq (traced_silent (TaskService.all_unwrap _) hc) fun target h hc => ?_
    exact (traced_silent (silent_forward target request) hc).ok fun _ _ _ => trivial
  | none =>
    refine Prog.Traced.seq (traced_silent (TaskService.all_perform (o := .storageContains u _)
      (by simp [Silent,Op.kind])) hc) fun present h hc => ?_
    split_ifs
    · refine Prog.Traced.seq (traced_silent (TaskService.all_unwrap _) hc) fun d h hc => ?_
      refine Prog.Traced.seq (traced_silent (TaskService.all_unwrap _) hc) fun p h hc => ?_
      refine Prog.Traced.seq (traced_check hc _ _ _) fun _ h hc => ?_
      refine Prog.Traced.seq (traced_silent (TaskService.all_require _ _) hc) fun _ h hc => ?_
      refine Prog.Traced.seq (traced_begin (by decide) _ hc) fun _ h hb => ?_
      exact (traced_ordinary (TaskService.ordinary_indexTask M _ _) hb.1 hb.2).ok fun _ _ _ => trivial
    · refine Prog.Traced.seq (traced_merge request hc) fun task h hb => ?_
      split_ifs
      · trivial
      · refine Prog.Traced.seq (traced_ordinary (TaskService.ordinary_changeStatus M _ _ _) hb.1 hb.2)
          fun task' h hb => ?_
        exact (traced_ordinary (TaskService.ordinary_broadcast M _ _) hb.1 hb.2).ok fun _ _ _ => trivial
      · trivial

theorem traced_handle (D : Deployment) (hq : q.call.synced.isSome) :
    (D.handle q).Traced Ordered [] (Prog.OnOk fun _ _ => True) := by
  unfold Deployment.handle
  cases hcall : q.call with
  | interCoreSyncTask task => exact traced_sync task
  | interCoreSyncTaskWithReverseConnection task =>
    show (unwrap q.metadata.userId >>= _).Traced _ _ _
    cases q.metadata.userId with
    | none => trivial
    | some u =>
      show (unwrap task.participants[0]? >>= _).Traced _ _ _
      cases task.participants[0]? with
      | none => trivial
      | some receiver =>
        show (TaskService.interCoreSyncTask D.prost q.metadata task >>= _).Traced _ _ _
        exact Prog.Traced.seq (traced_sync task) fun _ _ _ => fun _ => ⟨trivial,trivial⟩
  | _ => rw [hcall] at hq; cases hq

/-- Nothing is said about the other requests. -/
def Obeys (q : Request) (h : List TaskEvent) : Prop := q.call.synced.isSome → Ordered h

theorem traced_serve (D : Deployment) (q : Request) :
    (D.serve q).Traced (Obeys q) [] fun _ _ => True := by
  by_cases hq : q.call.synced.isSome
  · have hobeys : Obeys q = Ordered := funext fun h => propext ⟨fun hh => hh hq,fun hh _ => hh⟩
    rw [hobeys]
    refine Prog.Traced.bind (Prog.Traced.attempt ((traced_handle D hq).mono fun r h _ => ?_))
    exact fun _ => ⟨trivial,Prog.Traced.ofExcept trivial⟩
  · exact Prog.Traced.of_forall (fun h hh => absurd hh hq) _ _

theorem nothing_stored {D : Deployment} {c : TaskConfig} (hc : D.Reach c) {t : ℕ}
    (hq : q.call.synced.isSome) {d : Decision} {v : String} {task : Task} {e : Abort}
    (hm : .op t q (.checkDecision d v task) (.error e) ∈ c.state.history) (q' : Request) (site : Site)
    (u k : String) (payload : Bytes) (r : Except UpdateError String) :
    .op t q' (.storageUpdate site u k payload) r ∉ c.state.history := by
  intro hw
  obtain rfl : q' = q := hc.same_request hw hm
  -- whichever of the two comes first
  rcases before_or_after hw hm with he | ⟨past,hs,hin⟩ | ⟨past,hs,hin⟩
  · cases he
  · have hord := hc.traced_op (traced_serve D) hs hq
    exact hord.1 ⟨d,v,task,e,mem_events.mpr ⟨q',hin⟩⟩
  · have hord := hc.traced_op (traced_serve D) hs hq
    exact hord _ (mem_events.mpr ⟨q',hin⟩) rfl

/-- The write accepts `d` at position `j`: as part of a message, for another participant, or as the
user's own decision. -/
inductive Accepts (ps : List Participant) (w : Write) (h : List TaskAction) (j : ℕ) : Decision → Prop
  | message {request : Task} {p : Participant} {d : Decision} (site : w.site = .merge)
      (sync : w.request.call.synced = some request) (participant : ps[j]? = some p)
      (other : p.userId ≠ w.user) (carried : request.decisions[j]? = some d) (given : d ≠ default) :
      Accepts ps w h j d
  | own {request : ConfirmTaskRequest} {userDecision d : Decision} {p : Participant} {task : Task}
      {bs : Bytes} (site : w.site = .confirm) (call : w.request.call = .confirmTask request)
      (decision : request.decision = some userDecision) (participant : ps[j]? = some p)
      (self : p.userId = w.user)
      (made : ⟨.makeDecision userDecision.isApproved userDecision.isRejected userDecision.reason
        w.user task bs,.ok d⟩ ∈ events w.thread h) : Accepts ps w h j d

def At (i : ℕ) (u k : String) (w : Write) : Prop := w.request.core = i ∧ w.user = u ∧ w.key = k

/-- The decision at position `j` that has been accepted last, when `d₀` was there at first. -/
inductive Latest (i : ℕ) (u k : String) (ps : List Participant) (j : ℕ) (base : List TaskAction)
    (d₀ : Option Decision) : List TaskAction → Option Decision → Prop
  | base : Latest i u k ps j base d₀ base d₀
  | accepts {a : TaskAction} {h : List TaskAction} {w : Write} {d : Decision} (since : base <:+ h)
      (write : writeOf a = some w) (here : At i u k w) (accepts : Accepts ps w h j d) :
      Latest i u k ps j base d₀ (a :: h) (some d)
  | keeps {a : TaskAction} {h : List TaskAction} {d : Option Decision}
      (latest : Latest i u k ps j base d₀ h d)
      (none : ∀ w ∈ writeOf a, At i u k w → ∀ e, ¬ Accepts ps w h j e) :
      Latest i u k ps j base d₀ (a :: h) d

theorem eq_of_not_taken {request old : Task} {ds : List Decision} {past : List TaskEvent} {j : ℕ}
    {p : Participant} (ht : Taken u request old ds past) (hp : old.participants[j]? = some p)
    (hno : ∀ d, p.userId ≠ u → request.decisions[j]? = some d → d = default) :
    ds[j]? = old.decisions[j]? := by
  by_cases hj : j < ds.length
  · rcases ht.source j ds[j] (List.getElem?_eq_getElem hj) with hold | ⟨p',hp',hu,hr,hne,-⟩
    · rw [hold,List.getElem?_eq_getElem hj]
    · obtain rfl := Option.some.inj (hp.symm.trans hp')
      exact absurd (hno _ hu hr) hne
  · have hj' : ¬ j < old.decisions.length := ht.length ▸ hj
    rw [List.getElem?_eq_none (not_lt.mp hj),List.getElem?_eq_none (not_lt.mp hj')]

theorem not_accepts {ps : List Participant} {w : Write} {past : List TaskAction} {j : ℕ}
    (hm : w.site ≠ .merge) (hc : w.site ≠ .confirm) (d : Decision) : ¬ Accepts ps w past j d := by
  intro ha
  cases ha with
  | message site => exact hm site
  | own site => exact hc site

/-- A change of a record accepts the new decision at a position, or leaves the old one there. -/
theorem accepts_of_changes {t : ℕ} {site : Site} (k : String) (payload : Bytes)
    {past : List TaskAction} {old new : Task} (hch : Changes M q u (events t past) old site new)
    {j : ℕ} {p : Participant} (hp : old.participants[j]? = some p) :
    (∃ d, Accepts old.participants ⟨t,q,site,u,k,payload⟩ past j d ∧ new.decisions[j]? = some d) ∨
    (∀ e, ¬ Accepts old.participants ⟨t,q,site,u,k,payload⟩ past j e) ∧
      new.decisions[j]? = old.decisions[j]? := by
  cases hch with
  | @merge request ds sync direct agreement taken =>
    by_cases hno : ∀ d, p.userId ≠ u → request.decisions[j]? = some d → d = default
    · refine .inr ⟨fun e he => ?_,eq_of_not_taken taken hp hno⟩
      cases he with
      | @message request' p' _ site sync' participant other carried given =>
        obtain rfl := Option.some.inj (sync.symm.trans sync')
        obtain rfl := Option.some.inj (hp.symm.trans participant)
        exact given (hno e other carried)
      | own site => cases site
    · push Not at hno
      obtain ⟨d,hu,hr,hne⟩ := hno
      exact .inl ⟨d,.message rfl sync hp hu hr hne,taken.carried j p d hp hu hr hne⟩
  | @confirm request ud s ds call decision reported waiting entered =>
    have he := entered.2 j p hp
    by_cases hu : p.userId = u
    · rw [if_pos hu] at he
      obtain ⟨d,hd,task,bs,-,made⟩ := he
      exact .inl ⟨d,.own rfl call decision hp hu made,hd⟩
    · rw [if_neg hu] at he
      refine .inr ⟨fun e hacc => ?_,he⟩
      cases hacc with
      | message site => cases site
      | own site call' decision' participant self =>
        obtain rfl := Option.some.inj (hp.symm.trans participant)
        exact hu self
  | decide => exact .inr ⟨not_accepts (by simp) (by simp),rfl⟩
  | finish => exact .inr ⟨not_accepts (by simp) (by simp),rfl⟩

variable {D : Deployment} {c c₀ : TaskConfig} {i : ℕ} {id : String} {old : Task}

/-- The task is present and nobody is about to store it for the first time or in the middle of
changing it. -/
structure Ready (M : Prost) (c₀ : TaskConfig) (i : ℕ) (u id : String) (old : Task) : Prop where
  record : old ∈ recordOf M c₀.state.shared i u id
  status : old.status ∈ statuses
  free : (c₀.state.shared.cores i).taskStorageMutex = none
  quiet : ∀ t q p, c₀.threads t = some (q,p) → q.core = i → q.metadata.userId = some u →
    q.call.synced.map (·.taskId) = some id → ∃ r, p = .ofExcept r

/-- What holds from then on. -/
structure Since (D : Deployment) (c₀ c : TaskConfig) (i : ℕ) (u id : String) (old : Task) : Prop where
  steps : D.system.Steps c₀ c
  first : Everywhere (OnWrites (FirstSince c₀.state.history i u (recordKey id))) c.state.history
  record : ∃ new, stored i u (recordKey id) c.state.history = some (D.prost.task.encode new) ∧
    new.terms = old.terms ∧ ∀ (j : ℕ) (p : Participant), old.participants[j]? = some p →
      Latest i u (recordKey id) old.participants j c₀.state.history old.decisions[j]?
        c.state.history new.decisions[j]?

theorem not_reserved (hc : D.Reach c₀) (htidy : Everywhere (OnWrites Tidy) c₀.state.history)
    (hu : NoColon u) (hr : Ready D.prost c₀ i u id old) : ¬ Reserved id ∧
    stored i u (recordKey id) c₀.state.history = some (D.prost.task.encode old) := by
  have hrec := hr.record
  rw [recordOf,read_eq_stored hc hu (guarded_recordKey id)] at hrec
  obtain ⟨payload,hst,hd⟩ := Option.bind_eq_some_iff.mp hrec
  obtain ⟨t,q,site,r,past,-,hw⟩ := write_of_stored hst
  have hne : old.status ≠ "" := by
    intro he
    have hs := hr.status
    rw [he] at hs
    revert hs
    decide
  obtain ⟨rfl,-,-,hid⟩ := task_of_kept (everywhere_writes (kept hc htidy) hw) hd (.inl hne)
  exact ⟨hid,hst⟩

theorem present_mono {k : String} {h h' : List TaskAction} (hs : h <:+ h')
    (hp : stored i u k h ≠ none) : stored i u k h' ≠ none := by
  obtain ⟨later,rfl⟩ := hs
  induction later with
  | nil => exact hp
  | cons a later ih =>
    by_cases hsp : Spares i u k a
    · rwa [List.cons_append,stored_cons_of_spares hsp]
    · obtain ⟨t,q,site,payload,r,rfl,rfl⟩ := write_of_not_spares hsp
      rw [List.cons_append,stored_write]
      simp

/-- Once the task is present it is not admitted any more. -/
theorem not_admitted (hc₀ : D.Reach c₀) (hsteps : D.system.Steps c₀ c) (hr : Ready D.prost c₀ i u id old)
    (hpresent : stored i u (recordKey id) c₀.state.history ≠ none) {t : ℕ} {payload : Bytes}
    {r : Except UpdateError String} {c' : TaskConfig}
    (hs : D.system.Step c (.op t q (.storageUpdate .admission u (recordKey id) payload) r) c')
    (hi : q.core = i) : False := by
  subst hi
  have hc := hc₀.steps hsteps
  have hc' := hc.step hs
  have hsuf : .op t q (.storageUpdate .admission u (recordKey id) payload) r :: c.state.history <:+
      c'.state.history := by rw [hs.history]
  have hacts : ActsFor q u (events t c.state.history) := (obligation hc' hsuf).1
  obtain ⟨request,d,v,later,past,sync,rfl,hh,-,hnone,-⟩ := check_of_admission hc' hsuf
  have hcheck : .op t q (.storageContains u (recordKey request.taskId)) false :: past <:+
      c.state.history := by
    rw [hh]
    exact List.suffix_append _ _
  have hbefore : ¬ c₀.state.history <:+ past := fun hp => present_mono hp hpresent hnone
  have hmem : .op t q (.storageContains u (recordKey request.taskId)) false ∈ c₀.state.history := by
    rcases List.suffix_or_suffix_of_suffix hcheck hsteps.history with hss | hss
    · exact hss.subset (List.mem_cons_self ..)
    · rcases List.suffix_cons_iff.mp hss with he | hp
      · rw [he]
        exact List.mem_cons_self ..
      · exact absurd hp hbefore
  cases ht : c₀.threads t with
  | none => exact (hc₀.history_thread t).1 ht _ hmem rfl
  | some x =>
    obtain ⟨q₀,p₀⟩ := x
    obtain rfl : q = q₀ := ((hc₀.history_thread t).2 q₀ p₀ ht).2 _ _ _ hmem
    obtain ⟨r',rfl⟩ := hr.quiet t q p₀ ht rfl hacts.1 (by rw [sync]; rfl)
    have hended := hsteps.ended ht
    cases hs with
    | op runs does =>
      rw [runs] at hended
      cases r' <;> cases hended

theorem first_step (hc₀ : D.Reach c₀) (hr : Ready D.prost c₀ i u id old)
    (hpresent : stored i u (recordKey id) c₀.state.history ≠ none) {c' : TaskConfig} {a : TaskAction}
    (hsteps : D.system.Steps c₀ c) (hs : D.system.Step c a c')
    (htidy : Everywhere (OnWrites Tidy) c'.state.history) :
    OnWrites (FirstSince c₀.state.history i u (recordKey id)) a c.state.history := by
  have hc' := (hc₀.steps hsteps).step hs
  have hsuf : a :: c.state.history <:+ c'.state.history := by rw [hs.history]
  intro w hw
  cases a with
  | op t q o r =>
    cases o with
    | storageUpdate site u' k payload =>
      obtain rfl := Option.some.inj hw
      rintro - hi rfl rfl hsite
      have hob := obligation hc' hsuf
      cases site with
      | create =>
        obtain ⟨-,task,hkey,-,hst⟩ := hob
        rw [recordKey_inj] at hkey
        cases hst with
        | create call introduced => exact fresh_write hc' htidy hsuf (hkey ▸ introduced) _ _
      | query =>
        obtain ⟨-,task,hkey,-,hst⟩ := hob
        rw [recordKey_inj] at hkey
        cases hst with
        | query introduced => exact fresh_write hc' htidy hsuf (hkey ▸ introduced) _ _
      | admission => exact (not_admitted hc₀ hsteps hr hpresent hs hi).elim
      | _ => simp at hsite
    | _ => cases hw
  | _ => cases hw

theorem since (hc₀ : D.Reach c₀) (hu : NoColon u) (hr : Ready D.prost c₀ i u id old)
    (hsteps : D.system.Steps c₀ c) (htidy : Everywhere (OnWrites Tidy) c.state.history) :
    Since D c₀ c i u id old := by
  obtain ⟨hid,hst₀⟩ := not_reserved hc₀ (htidy.suffix hsteps.history) hu hr
  have hpresent : stored i u (recordKey id) c₀.state.history ≠ none := by simp [hst₀]
  induction hsteps with
  | refl =>
    refine ⟨.refl,everywhere_of_write fun t q site u' k payload r past hs _ hb => ?_,
      old,hst₀,rfl,fun j p _ => .base⟩
    have hlen := hs.length_le
    have hlen' := hb.length_le
    simp only [List.length_cons] at hlen
    omega
  | @tail c₁ c₂ hsteps hs ih =>
    obtain ⟨a,hs⟩ := hs
    have hc₂ := (hc₀.steps hsteps).step hs
    obtain ⟨hsteps,hfirst,mid,hst,hterms,hlatest⟩ := ih (by rw [hs.history] at htidy; exact htidy.2)
    have hfirst' : Everywhere (OnWrites (FirstSince c₀.state.history i u (recordKey id)))
        c₂.state.history := by
      rw [hs.history]
      exact ⟨first_step hc₀ hr hpresent hsteps hs htidy,hfirst⟩
    refine ⟨hsteps.tail ⟨a,hs⟩,hfirst',?_⟩
    rw [hs.history]
    by_cases hsp : Spares i u (recordKey id) a
    · refine ⟨mid,(stored_cons_of_spares hsp _).trans hst,hterms,fun j p hp =>
        .keeps (hlatest j p hp) fun w hw hat => ?_⟩
      cases a with
      | op t q o r =>
        cases o with
        | storageUpdate site u' k payload =>
          obtain rfl := Option.some.inj hw
          exact (hsp hat).elim
        | _ => cases hw
      | _ => cases hw
    · obtain ⟨t,q,site,payload,r,rfl,rfl⟩ := write_of_not_spares hsp
      have hsuf : .op t q (.storageUpdate site u (recordKey id) payload) r :: c₁.state.history <:+
          c₂.state.history := by rw [hs.history]
      obtain ⟨new,rfl,-,hv⟩ := version_since hc₂ htidy hid hsteps.history
        (idle_of_mutex hc₀ hr.free) hfirst' hsuf
      rw [hst] at hv
      generalize hb : some (D.prost.task.encode mid) = before at hv
      cases hv with
      | first => cases hb
      | next changes =>
        obtain rfl := D.prost.task.encode_inj (Option.some.inj hb)
        have hps : mid.participants = old.participants := (Task.eq_of_terms_eq hterms).2.2.1
        refine ⟨new,stored_write ..,(changes_terms changes).trans hterms,fun j p hp => ?_⟩
        rcases accepts_of_changes (recordKey id) (D.prost.task.encode new) changes
          (hps ▸ hp) with ⟨d,hacc,hd⟩ | ⟨hno,hd⟩
        · rw [hd]
          exact .accepts hsteps.history rfl ⟨rfl,rfl,rfl⟩ (hps ▸ hacc)
        · rw [hd]
          refine .keeps (hlatest j p hp) fun w hw _ => ?_
          obtain rfl := Option.some.inj hw
          exact hps ▸ hno

/-- From a moment on when a task is present, as long as no task is admitted whose id makes its
record a status list: a synchronisation one of whose checks fails stores nothing, and the decision
of every participant is always the one that has been accepted last. -/
theorem no_decision_lost (D : Deployment) {c₀ c : TaskConfig} (hc₀ : D.Reach c₀)
    (hsteps : D.system.Steps c₀ c) (htidy : Everywhere (OnWrites Tidy) c.state.history) {i : ℕ}
    {u id : String} (hu : NoColon u) {old : Task} (hr : Ready D.prost c₀ i u id old) :
    (∀ t q d v task e, .op t q (.checkDecision d v task) (.error e) ∈ c.state.history →
      q.call.synced.isSome → ∀ q' site u' k payload r,
        .op t q' (.storageUpdate site u' k payload) r ∉ c.state.history) ∧
    ∃ new ∈ recordOf D.prost c.state.shared i u id, new.terms = old.terms ∧
      ∀ (j : ℕ) (p : Participant), old.participants[j]? = some p →
        Latest i u (recordKey id) old.participants j c₀.state.history old.decisions[j]?
          c.state.history new.decisions[j]? := by
  have hc := hc₀.steps hsteps
  obtain ⟨-,-,new,hst,hterms,hlatest⟩ := since hc₀ hu hr hsteps htidy
  refine ⟨fun t q d v task e hm hq => nothing_stored hc hq hm,new,?_,hterms,hlatest⟩
  rw [recordOf,read_eq_stored hc hu (guarded_recordKey id),hst]
  exact D.prost.task.decode_encode new

/-- User 07 has been offered a task. -/
def offered (id : String) : List Move := Move.settle 7 ++
  [.start 0 (.ofGuest 7 (sampleOffer (sampleTask id []) [])),.run 0 13]

def isReady (id : String) (p : Play) : Bool := p.allEnded && decide (p.sim.mutex = none) &&
  (recordIn id p.history).any fun old => decide (old.status ∈ statuses)

theorem ready_of_play {p : Play} (hc : Deployment.ideal.Reach c) (hf : Play.Follows c p)
    (h : isReady id p) : ∃ old, Ready Prost.selfDelimiting c 0 "07" id old ∧
      recordIn id p.history = some old := by
  simp only [isReady,Bool.and_eq_true,decide_eq_true_eq,Option.any_eq_true] at h
  obtain ⟨⟨hended,hfree⟩,old,hold,hst⟩ := h
  refine ⟨old,⟨?_,hst,hf.shows.mutex.trans hfree,fun t q p ht _ _ _ => hf.ended hc hended ht⟩,hold⟩
  rw [recordOf_eq hc,hf.history]
  exact hold

/-- User 07 ignores another task. -/
def ignoreOther : List Move :=
  [.start 1 (.ofGuest 7 (sampleOffer (sampleTask "id" []) [])),.run 1 15,
    .start 2 (.ofUser 7 (.confirmTask { taskId := "id", decision := some {} })),.run 2 19]

theorem isSome_of_latest {i : ℕ} {u k : String} {ps : List Participant} {j : ℕ}
    {base h : List TaskAction} {d₀ d : Option Decision} (hl : Latest i u k ps j base d₀ h d)
    (h₀ : d₀.isSome) : d.isSome := by
  induction hl with
  | base => exact h₀
  | accepts => rfl
  | keeps _ _ ih => exact ih

/-- The pointer to the task that has been ignored last replaces the record of the first task. -/
theorem decision_overwritten : ∃ c₀ c old, Deployment.ideal.Reach c₀ ∧
    Deployment.ideal.system.Steps c₀ c ∧
    Ready Prost.selfDelimiting c₀ 0 "07" "status:ignored:latest" old ∧
    (∀ t q p, c.threads t = some (q,p) → ∃ r, p = .ofExcept r) ∧
    ¬ ∃ new ∈ recordOf Prost.selfDelimiting c.state.shared 0 "07"
        "status:ignored:latest",
      ∀ (j : ℕ) (p : Participant), old.participants[j]? = some p →
        Latest 0 "07" (recordKey "status:ignored:latest") old.participants j c₀.state.history
          old.decisions[j]? c.state.history new.decisions[j]? := by
  have hrun : (Play.moves (offered "status:ignored:latest") { sim := { ids := [] } }).any fun p =>
      (p.moves ignoreOther).any fun p' => isReady "status:ignored:latest" p && p'.allEnded &&
        (recordIn "status:ignored:latest" p.history).any (fun old =>
          decide (0 < old.participants.length ∧ 0 < old.decisions.length)) &&
        (recordIn "status:ignored:latest" p'.history).all fun new => new.decisions.isEmpty := by
    decide +kernel
  obtain ⟨c₀,p,c,p',hc₀,hsteps,hf,hf',hcheck⟩ := Play.run_both hrun
  simp only [Bool.and_eq_true,Option.any_eq_true,decide_eq_true_eq] at hcheck
  obtain ⟨⟨⟨hready,hended⟩,old',hold',hp,hd⟩,hnew⟩ := hcheck
  obtain ⟨old,hr,hold⟩ := ready_of_play hc₀ hf hready
  obtain rfl := Option.some.inj (hold.symm.trans hold')
  have hc := hc₀.steps hsteps
  refine ⟨c₀,c,old,hc₀,hsteps,hr,fun t q p ht => hf'.ended hc hended ht,?_⟩
  rintro ⟨new,hmem,hlatest⟩
  rw [recordOf_eq hc,hf'.history] at hmem
  rw [Option.mem_def.mp hmem] at hnew
  have hl := hlatest 0 old.participants[0] (List.getElem?_eq_getElem hp)
  have hsome := isSome_of_latest hl (by simp [hd])
  rw [List.isEmpty_iff.mp hnew] at hsome
  cases hsome

/-- User 07 approves the task. -/
theorem no_decision_lost_sample : ∃ c₀ c old new, Deployment.ideal.Reach c₀ ∧
    Deployment.ideal.system.Steps c₀ c ∧ Ready Prost.selfDelimiting c₀ 0 "07" "id" old ∧
    new ∈ recordOf Prost.selfDelimiting c.state.shared 0 "07" "id" ∧
    ∀ (j : ℕ) (p : Participant), old.participants[j]? = some p →
      Latest 0 "07" (recordKey "id") old.participants j c₀.state.history old.decisions[j]?
        c.state.history new.decisions[j]? := by
  have hrun : (Play.moves (offered "id") { sim := { ids := [] } }).any fun p =>
      (p.moves [.start 1 (.ofUser 7 sampleApproval),.run 1 18]).any fun p' => isReady "id" p &&
        decide (Everywhere (OnWrites Tidy) p'.history) := by
    decide +kernel
  obtain ⟨c₀,p,c,p',hc₀,hsteps,hf,hf',hcheck⟩ := Play.run_both hrun
  rw [Bool.and_eq_true,decide_eq_true_eq,← hf'.history] at hcheck
  obtain ⟨old,hr,-⟩ := ready_of_play hc₀ hf hcheck.1
  obtain ⟨new,hnew,-,hlatest⟩ := (no_decision_lost Deployment.ideal hc₀ hsteps hcheck.2 (by decide) hr).2
  exact ⟨c₀,c,old,new,hc₀,hsteps,hr,hnew,hlatest⟩

end MergedDecisions
end CoLinkServer
