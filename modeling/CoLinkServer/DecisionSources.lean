import CoLinkServer.Consent
import CoLinkServer.HonestMessages
import CoLinkServer.InitiatorStatus

/-! What goes back to whom in the life of one task. Every record of the task and every message about
it carry the terms that it has been created with, and every decision in them has been stored by the
core of the participant whose decision it is. -/
namespace CoLinkServer

open Interleaving

namespace DecisionSources

open TaskRecords TaskTraces HonestMessages
open InitiatorStatus (CreatedBy)

variable {D : Deployment} {c : TaskConfig} {home : String → ℕ} {t : ℕ} {q : Request} {M : Prost}
  {first u id : String} {request : Task} {h : List TaskAction}

/-- The user has created the task: the request names the user first and some others, asks for the
agreement of all of them and brings no decisions. -/
structure Created (home : String → ℕ) (first id : String) (request : Task) (h : List TaskAction) :
    Prop where
  created : CreatedBy (home first) first id request h
  initiator : request.participants[0]?.map (·.userId) = some first
  agreement : request.requireAgreement
  several : 2 ≤ request.participants.length
  distinct : (request.participants.map (·.userId)).Nodup
  empty : request.decisions = []

def Own (M : Prost) (id : String) (p : Participant) (d : Decision) (h : List TaskAction) : Prop :=
  ∃ (t : ℕ) (q : Request) (site : Site) (task : Task) (r : Except UpdateError String) (j : ℕ),
    .op t q (.storageUpdate site p.userId (recordKey id) (M.task.encode task)) r ∈ h ∧
    site ∈ [Site.create,.confirm] ∧ task.participants[j]? = some p ∧ task.decisions[j]? = some d

theorem Own.mono {p : Participant} {d : Decision} {h' : List TaskAction} (ho : Own M id p d h)
    (hs : h ⊆ h') : Own M id p d h' := by
  obtain ⟨t,q,site,task,r,j,hm,hrest⟩ := ho
  exact ⟨t,q,site,task,r,j,hs hm,hrest⟩

/-- There is a decision for every participant, and those that decide have been stored by the
participant. -/
structure Sourced (M : Prost) (id : String) (request : Task) (ds : List Decision)
    (h : List TaskAction) : Prop where
  length : ds.length = request.participants.length
  own : ∀ (j : ℕ) (p : Participant) (d : Decision), request.participants[j]? = some p →
    ds[j]? = some d → d.approves ∨ d.rejects → Own M id p d h

theorem Sourced.mono {ds : List Decision} {h' : List TaskAction} (hd : Sourced M id request ds h)
    (hs : h ⊆ h') : Sourced M id request ds h' :=
  ⟨hd.length,fun j p d hp hd' hv => (hd.own j p d hp hd' hv).mono hs⟩

def userIds (request : Task) : List String := request.participants.map (·.userId)

def RegularWrite (M : Prost) (id : String) (request : Task) (w : Write) (h : List TaskAction) : Prop :=
  w.key = recordKey id → w.user ∈ userIds request ∧ ∃ task, w.payload = M.task.encode task ∧
    task.terms = (newTask request id).terms ∧ Sourced M id request task.decisions h

/-- A message about the task: the task itself, or only its decisions. -/
def RegularEnvelope (M : Prost) (id : String) (request : Task) (e : Envelope) (h : List TaskAction) :
    Prop :=
  e.task.taskId = id → e.target ∈ userIds request ∧ Sourced M id request e.task.decisions h ∧
    (e.task.terms = (newTask request id).terms ∨ e.task.participants = [])

def Regular (M : Prost) (id : String) (request : Task) (a : TaskAction) (past : List TaskAction) : Prop :=
  (∀ w ∈ writeOf a, RegularWrite M id request w (a :: past)) ∧
    ∀ e ∈ envelopeOf a, RegularEnvelope M id request e past

def Refused (M : Prost) (id : String) (request : Task) (h : List TaskAction) : Prop :=
  ∃ p ∈ request.participants, ∃ d, d.rejects ∧ Own M id p d h

def Agreed (M : Prost) (id : String) (request : Task) (h : List TaskAction) : Prop :=
  ∀ p ∈ request.participants, ∃ d, d.approves ∧ Own M id p d h

theorem Refused.mono {h' : List TaskAction} (hr : Refused M id request h) (hs : h ⊆ h') :
    Refused M id request h' := by
  obtain ⟨p,hp,d,hd,ho⟩ := hr
  exact ⟨p,hp,d,hd,ho.mono hs⟩

theorem Agreed.mono {h' : List TaskAction} (ha : Agreed M id request h) (hs : h ⊆ h') :
    Agreed M id request h' := fun p hp => by
  obtain ⟨d,hd,ho⟩ := ha p hp
  exact ⟨d,hd,ho.mono hs⟩

theorem Sourced.refused {ds : List Decision} (hs : Sourced M id request ds h)
    (hd : ∃ d ∈ ds, d.rejects) : Refused M id request h := by
  obtain ⟨d,hd,hrej⟩ := hd
  obtain ⟨j,hj,rfl⟩ := List.mem_iff_getElem.mp hd
  have hj' : j < request.participants.length := hs.length ▸ hj
  exact ⟨request.participants[j],List.getElem_mem hj',ds[j],hrej,
    hs.own j _ _ (List.getElem?_eq_getElem hj') (List.getElem?_eq_getElem hj) (.inr hrej)⟩

theorem Sourced.agreed {ds : List Decision} (hs : Sourced M id request ds h)
    (hd : ∀ d ∈ ds, d.approves) : Agreed M id request h := fun p hp => by
  obtain ⟨j,hj,rfl⟩ := List.mem_iff_getElem.mp hp
  have hj' : j < ds.length := hs.length.symm ▸ hj
  exact ⟨ds[j],hd _ (List.getElem_mem hj'),
    hs.own j _ _ (List.getElem?_eq_getElem hj) (List.getElem?_eq_getElem hj')
      (.inl (hd _ (List.getElem_mem hj')))⟩

/-- The status of a record has been reached with everybody's approval, or with a rejection. -/
structure Reached (M : Prost) (id : String) (request task : Task) (h : List TaskAction) : Prop where
  started : task.status = "started" → Agreed M id request h
  rejected : task.status = "rejected" → Refused M id request h

def ReachedAt (M : Prost) (id : String) (request : Task) (a : TaskAction) (past : List TaskAction) :
    Prop :=
  ∀ w ∈ writeOf a, w.key = recordKey id →
    ∃ new, w.payload = M.task.encode new ∧ Reached M id request new (a :: past)

theorem not_waiting_of_confirmed {d : Decision} {s : String} (hr : TaskService.userStatus d = .ret s)
    (task : Task) : TaskService.confirmedStatus s task ≠ "waiting" := by
  rcases StatusOrder.confirmedStatus_eq s task with he | he
  · rw [he]
    decide
  · rw [he]
    rcases StatusOrder.userStatus_mem hr with rfl | rfl | ⟨rfl,-⟩ <;> decide

theorem rejects_of_confirmed {d : Decision} {s : String} (hr : TaskService.userStatus d = .ret s)
    {task : Task} (hs : TaskService.confirmedStatus s task = "rejected") : d.rejects := by
  rcases StatusOrder.confirmedStatus_eq s task with he | he
  · rw [he] at hs
    exact absurd hs (by decide)
  · obtain rfl : s = "rejected" := he.symm.trans hs
    unfold TaskService.userStatus at hr
    split_ifs at hr with ha hb hi
    · exact absurd (Prog.ret.inj hr) (by decide)
    · exact hb
    · exact absurd (Prog.ret.inj hr) (by decide)
    · cases hr

section Runs

variable (hc : D.Reach c)
include hc

theorem noColon_id (hcr : Created home first id request c.state.history) : NoColon id := by
  obtain ⟨t,q,payload,r,hm,-,-⟩ := hcr.created
  obtain ⟨past,hs⟩ := suffix_of_mem hm
  exact uuid_noColon hc ((List.suffix_cons _ _).trans hs) (InitiatorStatus.introduces_of_created hc hs)

theorem regular_of_read (hr : Everywhere (Regular D.prost id request) h)
    (hh : h <:+ c.state.history) (hu : NoColon u) {old : Task}
    (hm : ⟨.storageRead u (recordKey id),.ok (D.prost.task.encode old)⟩ ∈ events t h) :
    u ∈ userIds request ∧ old.terms = (newTask request id).terms ∧
      Sourced D.prost id request old.decisions h := by
  obtain ⟨q',hm⟩ := mem_events.mp hm
  obtain ⟨past,hs⟩ := suffix_of_mem hm
  have hst := stored_of_read hc hu (guarded_recordKey id) (hs.trans hh)
  obtain ⟨t',q'',site,r,past',-,hw⟩ := write_of_stored hst
  have hw' := hw.trans ((List.suffix_cons _ _).trans hs)
  obtain ⟨hmem,task,he,hterms,hsourced⟩ := (everywhere_iff.mp hr _ _ hw').1 _ rfl rfl
  obtain rfl := D.prost.task.encode_inj he
  exact ⟨hmem,hterms,hsourced.mono hw'.subset⟩

variable (ho : Everywhere (Honest home) c.state.history)
include ho

/-- What a synchronisation brings is a regular message. -/
theorem regular_of_synced (hr : Everywhere (Regular D.prost id request) h) {o : Op} {r : Res o}
    (hs : .op t q o r :: h <:+ c.state.history) {message : Task} (hq : q.call.synced = some message)
    (hid : message.taskId = id) :
    (q.metadata.forwardingTarget = none → ∃ u ∈ userIds request, q.metadata.userId = some u) ∧
      (∀ v, q.metadata.forwardingTarget = some ⟨some v⟩ → v ∈ userIds request) ∧
      Sourced D.prost id request message.decisions h ∧
      (message.terms = (newTask request id).terms ∨ message.participants = []) := by
  obtain ⟨past,hstart⟩ := started hc hs
  have hstart' := hstart.trans ((List.suffix_cons _ _).trans hs)
  obtain ⟨b,before,e,hb,hbe,-,rfl,hforward,huser⟩ := arrival hc ho hstart' hq
  have hb' := hb.trans ((List.suffix_cons _ _).trans hstart)
  obtain ⟨hmem,hsourced,hterms⟩ := (everywhere_iff.mp hr _ _ hb').2 e hbe hid
  refine ⟨fun hnone => ⟨_,hmem,huser (by simpa [hnone] using hforward.symm)⟩,fun v hv => ?_,
    hsourced.mono ((List.suffix_cons _ _).trans hb').subset,hterms⟩
  obtain ⟨t',q',o',r',u',-,hdirect,-⟩ := sends_of_envelope hc
    (hb'.trans ((List.suffix_cons _ _).trans hs)) hbe
  rw [hforward] at hv
  rcases hdirect with hd | hd
  · rw [hd] at hv
    cases hv
  · rw [hd] at hv
    obtain rfl := MetadataValue.eq_of_ofStr (Option.some.inj hv)
    exact hmem

theorem regular_admission (hr : Everywhere (Regular D.prost id request) h) {payload : Bytes}
    {r : Except UpdateError String}
    (hs : .op t q (.storageUpdate .admission u (recordKey id) payload) r :: h <:+ c.state.history) :
    RegularWrite D.prost id request ⟨t,q,.admission,u,recordKey id,payload⟩
      (.op t q (.storageUpdate .admission u (recordKey id) payload) r :: h) := by
  intro _
  obtain ⟨hu,task,hkey,rfl,hst⟩ := obligation hc hs
  rw [recordKey_inj] at hkey
  cases hst with
  | @admission message p d sync direct initiator decision approved steps =>
    obtain ⟨htarget,-,hsourced,hterms⟩ := regular_of_synced hc ho hr hs sync hkey.symm
    obtain ⟨v,hv,huser⟩ := htarget direct
    obtain rfl := Option.some.inj (hu.1.symm.trans huser)
    have hterms' := hterms.resolve_right fun hnone => by simp [hnone] at initiator
    exact ⟨hv,_,rfl,hterms',hsourced.mono (List.subset_cons_of_subset _ (List.Subset.refl _))⟩

theorem regular_change (hr : Everywhere (Regular D.prost id request) h) {site : Site} {payload : Bytes}
    {r : Except UpdateError String}
    (hs : .op t q (.storageUpdate site u (recordKey id) payload) r :: h <:+ c.state.history)
    (hsite : site ∈ [Site.merge,.decide,.confirm,.finish]) :
    RegularWrite D.prost id request ⟨t,q,site,u,recordKey id,payload⟩
      (.op t q (.storageUpdate site u (recordKey id) payload) r :: h) := by
  intro _
  have hh := (List.suffix_cons _ _).trans hs
  have hk := kept hc (tidy_of_honest hc ho)
  have hact : ActsFor q u (events t h) := (obligation hc hs).1
  obtain ⟨old,new,rfl,-,-,-,-,hread,-,hch⟩ := change_of_write hc hk hs hsite
  obtain ⟨hmem,hterms,hsourced⟩ := regular_of_read hc hr hh (writer_noColon hc hs) hread
  refine ⟨hmem,new,rfl,(changes_terms hch).trans hterms,?_⟩
  have hold := hsourced.mono (List.subset_cons_of_subset
    (.op t q (.storageUpdate site u (recordKey id) (D.prost.task.encode new)) r) (List.Subset.refl h))
  cases hch with
  | @merge message ds sync direct agreement taken =>
    have hid := (taskId_of_synced sync).symm.trans (asked_of_write hc hk (.inl rfl) hs)
    obtain ⟨-,-,hmessage,-⟩ := regular_of_synced hc ho hr hs sync hid
    refine ⟨taken.length.trans hold.length,fun j p d hp hd hv => ?_⟩
    rcases taken.source j d hd with hd' | ⟨-,-,-,hd',-⟩
    · exact hold.own j p d hp hd' hv
    · exact (hmessage.own j p d hp hd' hv).mono (List.subset_cons_of_subset _ (List.Subset.refl _))
  | decide => exact hold
  | @confirm message ud status ds call decision reported waiting entered =>
    refine ⟨entered.1.trans hold.length,fun j p d hp hd hv => ?_⟩
    have hp' : old.participants[j]? = some p := by
      rw [(Task.eq_of_terms_eq hterms).2.2.1]
      exact hp
    have hj := entered.2 j p hp'
    split_ifs at hj with hu
    · subst hu
      exact ⟨t,q,.confirm,_,r,j,List.mem_cons_self ..,by simp,hp',hd⟩
    · exact hold.own j p d hp (hj ▸ hd) hv
  | finish => exact hold

theorem regular_envelope (hr : Everywhere (Regular D.prost id request) h) {a : TaskAction} {e : Envelope}
    (hs : a :: h <:+ c.state.history) (he : envelopeOf a = some e) :
    RegularEnvelope D.prost id request e h := by
  intro hid
  obtain ⟨t,q,o,r,u,rfl,-,hu,hsends⟩ := sends_of_envelope hc hs he
  have hstored {site : Site} (task : Task) {r' : Except UpdateError String}
      (hm : ⟨.storageUpdate site u (recordKey task.taskId) (D.prost.task.encode task),r'⟩ ∈ events t h)
      (hkey : task.taskId = id) : task.terms = (newTask request id).terms ∧
        Sourced D.prost id request task.decisions h := by
    obtain ⟨q',hm⟩ := mem_events.mp hm
    obtain ⟨past,hp⟩ := suffix_of_mem hm
    obtain ⟨-,task',he,hterms,hsourced⟩ := (everywhere_iff.mp hr _ _ hp).1 _ rfl (by rw [hkey])
    obtain rfl := D.prost.task.encode_inj he
    exact ⟨hterms,hsourced.mono hp.subset⟩
  have hturn {task : Task} {target : String} (hterms : task.terms = (newTask request id).terms)
      (ht : (targets (events t h)).reverse ++ [target] <+: (task.participants.drop 1).map (·.userId)) :
      target ∈ userIds request := by
    have hm := ht.subset (List.mem_append_right _ (List.mem_cons_self ..))
    rw [(Task.eq_of_terms_eq hterms).2.2.1] at hm
    exact List.map_subset _ (List.drop_subset 1 _) hm
  generalize e.target = target, e.task = sent at hsends hid
  cases hsends with
  | create call stored turn =>
    obtain ⟨hterms,hsourced⟩ := hstored _ stored hid
    exact ⟨hturn hterms turn,hsourced,.inl hterms⟩
  | @confirm task initiator r' stored first =>
    obtain ⟨hterms,hsourced⟩ := hstored task stored hid
    rw [(Task.eq_of_terms_eq hterms).2.2.1] at first
    exact ⟨List.mem_map_of_mem (List.mem_of_getElem? first),hsourced,.inr rfl⟩
  | broadcast stored first self turn =>
    obtain ⟨hterms,hsourced⟩ := hstored _ stored hid
    exact ⟨hturn hterms turn,hsourced,.inl hterms⟩
  | forward sync forwarded =>
    obtain ⟨-,htarget,hmessage⟩ := regular_of_synced hc ho hr hs sync hid
    exact ⟨htarget _ forwarded,hmessage⟩

theorem generated_by {t : ℕ} {q : Request} {site : Site} {u : String} {payload : Bytes}
    {r : Except UpdateError String} (hsite : site ∈ [Site.create,.query])
    (hm : .op t q (.storageUpdate site u (recordKey id) payload) r ∈ c.state.history) :
    q.metadata.userId = some u ∧ ∃ q', .op t q' .newUuid id ∈ c.state.history := by
  obtain ⟨past,hs⟩ := suffix_of_mem hm
  have hu : ActsFor q u (events t past) := (obligation hc hs).1
  have hi : Introduces id (events t past) := by
    simp only [List.mem_cons,List.not_mem_nil,or_false] at hsite
    rcases writer_of_record hc (kept hc (tidy_of_honest hc ho)) hs with ⟨hno,-⟩ | ⟨-,hi⟩ | ⟨hno,-⟩
    · rcases hsite with rfl | rfl <;> simp at hno
    · exact hi
    · rcases hsite with rfl | rfl <;> simp at hno
  obtain ⟨q',hm'⟩ := mem_events.mp (introduces_mem hi)
  exact ⟨hu.1,q',hs.subset (List.mem_cons_of_mem _ hm')⟩

theorem created_by_one {t t' : ℕ} {q q' : Request} {site site' : Site} {u u' : String}
    {payload payload' : Bytes} {r r' : Except UpdateError String} (hsite : site ∈ [Site.create,.query])
    (hsite' : site' ∈ [Site.create,.query])
    (hm : .op t q (.storageUpdate site u (recordKey id) payload) r ∈ c.state.history)
    (hm' : .op t' q' (.storageUpdate site' u' (recordKey id) payload') r' ∈ c.state.history) :
    t = t' ∧ q = q' ∧ u = u' := by
  obtain ⟨hu,q₁,hnew⟩ := generated_by hc ho hsite hm
  obtain ⟨hu',q₂,hnew'⟩ := generated_by hc ho hsite' hm'
  obtain rfl : t = t' := (idsFresh hc (tidy_of_honest hc ho)).once _ _ _ _ _ hnew hnew'
  obtain rfl := hc.same_request hm hm'
  exact ⟨rfl,rfl,Option.some.inj (hu.symm.trans hu')⟩

variable (hcr : Created home first id request c.state.history)
include hcr

theorem creation_only {site : Site} {payload : Bytes} {r : Except UpdateError String}
    (hm : .op t q (.storageUpdate site u (recordKey id) payload) r ∈ c.state.history)
    (hsite : site ∈ [Site.create,.query]) : site = .create ∧ u = first ∧ q.call = .createTask request := by
  obtain ⟨t₀,q₀,payload₀,r₀,hm₀,hcore,hcall⟩ := hcr.created
  obtain ⟨rfl,rfl,rfl⟩ := created_by_one hc ho hsite (by simp) hm hm₀
  have hfirst := InitiatorStatus.firstSince_of_created hc (tidy_of_honest hc ho) hcr.created
  have hsite' : site ∈ [Site.create,.query,.admission] := by
    simp only [List.mem_cons,List.not_mem_nil,or_false] at hsite ⊢
    tauto
  exact ⟨(InitiatorStatus.first_unique hfirst hm hm₀ hcore hcore hsite' (by simp)).1,rfl,hcall⟩

/-- The creating call stores the approval that it has made for the initiator, and no other decision. -/
theorem decision_of_created {task : Task} {r : Except UpdateError String}
    (hs : .op t q (.storageUpdate .create u (recordKey id) (D.prost.task.encode task)) r :: h <:+
      c.state.history) : u = first ∧ q.call = .createTask request ∧ task.status = "approved" ∧
    task.terms = (newTask request id).terms ∧ task.decisions.length = request.participants.length ∧
    ∀ (j : ℕ) (d : Decision), task.decisions[j]? = some d → d.approves ∨ d.rejects →
      j = 0 ∧ ∃ task' bs, task'.terms = task.terms ∧
        .op t q (.makeDecision true false "" u task' bs) (.ok d) ∈ h := by
  obtain ⟨-,hu,hcall⟩ := creation_only hc ho hcr (hs.subset (List.mem_cons_self ..)) (by simp)
  obtain ⟨-,task',hkey,he,hst⟩ := obligation hc hs
  obtain rfl := D.prost.task.encode_inj he
  rw [recordKey_inj] at hkey
  cases hst with
  | @create request' id' bs d₀ call introduced made room =>
    obtain rfl : request' = request := TaskCall.createTask.inj (call.symm.trans hcall)
    obtain rfl : id = id' := hkey
    have hagree : request'.requireAgreement = true := hcr.agreement
    have hseveral : 1 < request'.participants.length := hcr.several
    refine ⟨hu,hcall,by simp [newTask,hagree,hseveral],rfl,by simp [newTask,TaskService.length_resize],
      fun j d hd hv => ?_⟩
    cases j with
    | zero =>
      have hlen : 0 < (newTask request' id).decisions.length := by
        rw [newTask,TaskService.length_resize]
        exact room
      have hd' : ((newTask request' id).decisions.set 0 d₀)[0]? = some d := hd
      rw [List.getElem?_set_self hlen] at hd'
      obtain rfl := Option.some.inj hd'
      exact ⟨rfl,newTask request' id,bs,rfl,mem_history hc hs made⟩
    | succ j =>
      have hd' : (TaskService.resize request'.decisions request'.participants.length)[j+1]? =
          some d := by
        simpa [newTask,List.getElem?_set] using hd
      rw [hcr.empty,TaskService.resize,List.take_nil,List.nil_append] at hd'
      obtain rfl := List.eq_of_mem_replicate (List.mem_of_getElem? hd')
      simp [Decision.approves,Decision.rejects] at hv

theorem regular_create {payload : Bytes} {r : Except UpdateError String}
    (hs : .op t q (.storageUpdate .create u (recordKey id) payload) r :: h <:+ c.state.history) :
    RegularWrite D.prost id request ⟨t,q,.create,u,recordKey id,payload⟩
      (.op t q (.storageUpdate .create u (recordKey id) payload) r :: h) := by
  intro _
  obtain ⟨-,task,-,rfl,-⟩ := obligation hc hs
  obtain ⟨rfl,-,-,hterms,hlen,hown⟩ := decision_of_created hc ho hcr hs
  have hparts : task.participants = request.participants := (Task.eq_of_terms_eq hterms).2.2.1
  obtain ⟨p₀,hp₀,rfl⟩ := Option.map_eq_some_iff.mp hcr.initiator
  refine ⟨List.mem_map_of_mem (List.mem_of_getElem? hp₀),task,rfl,hterms,hlen,fun j p d hp hd hv => ?_⟩
  obtain ⟨rfl,-⟩ := hown j d hd hv
  obtain rfl : p₀ = p := Option.some.inj (hp₀.symm.trans hp)
  exact ⟨t,q,.create,task,r,0,List.mem_cons_self ..,by simp,hparts ▸ hp,hd⟩

theorem regular_write (hr : Everywhere (Regular D.prost id request) h) {site : Site} {k : String}
    {payload : Bytes} {r : Except UpdateError String}
    (hs : .op t q (.storageUpdate site u k payload) r :: h <:+ c.state.history) :
    RegularWrite D.prost id request ⟨t,q,site,u,k,payload⟩
      (.op t q (.storageUpdate site u k payload) r :: h) := by
  intro hkey
  obtain rfl : k = recordKey id := hkey
  have hres := not_reserved_of_noColon (noColon_id hc hcr)
  rcases writer_of_record hc (kept hc (tidy_of_honest hc ho)) hs with ⟨hsite,-⟩ | ⟨hsite,-⟩ | ⟨-,hno⟩
  · cases site with
    | admission => exact regular_admission hc ho hr hs rfl
    | merge => exact regular_change hc ho hr hs (by simp) rfl
    | decide => exact regular_change hc ho hr hs (by simp) rfl
    | confirm => exact regular_change hc ho hr hs (by simp) rfl
    | finish => exact regular_change hc ho hr hs (by simp) rfl
    | _ => simp at hsite
  · obtain ⟨rfl,-⟩ := creation_only hc ho hcr (hs.subset (List.mem_cons_self ..)) hsite
    exact regular_create hc ho hcr hs rfl
  · exact absurd hno hres

theorem regular : Everywhere (Regular D.prost id request) c.state.history := by
  refine Everywhere.of_step fun a past hs hr => ⟨fun w hw => ?_,fun e he => ?_⟩
  · obtain ⟨t,q,site,u,k,payload,r,rfl,rfl⟩ := op_of_write hw
    exact regular_write hc ho hcr hr hs
  · exact regular_envelope hc ho hr hs he

/-- A verdict is about decisions that have been stored by those who have made them. -/
theorem reached_of_verdict {payload : Bytes} {r : Except UpdateError String}
    (hs : .op t q (.storageUpdate .decide u (recordKey id) payload) r :: h <:+ c.state.history) :
    ∃ new, payload = D.prost.task.encode new ∧ (new.status = "rejected" ∧ Refused D.prost id request h ∨
      new.status = "started" ∧ Agreed D.prost id request h) := by
  have hk := kept hc (tidy_of_honest hc ho)
  have hh := (List.suffix_cons _ _).trans hs
  obtain ⟨old,new,rfl,-,-,-,-,-,-,hch⟩ := change_of_write hc hk hs (by simp)
  cases hch with
  | @decide message merged r' sync direct stored undecided verdict =>
    obtain ⟨past,hp⟩ := suffix_of_mem (mem_history hc hs stored)
    have hid : merged.taskId = id := (asked_of_write hc hk (.inl rfl) (hp.trans hh)).symm.trans
      (asked_of_write hc hk (.inr rfl) hs)
    obtain ⟨-,task,he,hterms,hsourced⟩ :=
      (everywhere_iff.mp (regular hc ho hcr) _ _ (hp.trans hh)).1 _ rfl (by rw [hid])
    obtain rfl := D.prost.task.encode_inj he
    replace hsourced := hsourced.mono hp.subset
    refine ⟨_,rfl,?_⟩
    cases hany : TaskService.anyoneRejected merged with
    | true =>
      obtain ⟨d,hd⟩ := List.exists_mem_of_length_pos (of_decide_eq_true hany)
      exact .inl ⟨rfl,hsourced.refused ⟨d,(List.mem_filter.mp hd).1,(List.mem_filter.mp hd).2⟩⟩
    | false =>
      have hlen : merged.decisions.length ≤ merged.participants.length := by
        rw [hsourced.length,(Task.eq_of_terms_eq hterms).2.2.1]
        exact le_rfl
      exact .inr ⟨rfl,hsourced.agreed (Consent.all_approve hlen verdict hany).2⟩

theorem reached_of_confirmation {payload : Bytes} {r : Except UpdateError String}
    (hs : .op t q (.storageUpdate .confirm u (recordKey id) payload) r :: h <:+ c.state.history) :
    ∃ new, payload = D.prost.task.encode new ∧ new.status ≠ "waiting" ∧ Reached D.prost id request new
      (.op t q (.storageUpdate .confirm u (recordKey id) payload) r :: h) := by
  have hk := kept hc (tidy_of_honest hc ho)
  obtain ⟨hmem,task,he,hterms,hsourced⟩ := (everywhere_iff.mp (regular hc ho hcr) _ _ hs).1 _ rfl rfl
  obtain ⟨old,new,rfl,-,-,-,-,-,-,hch⟩ := change_of_write hc hk hs (by simp)
  obtain rfl := D.prost.task.encode_inj he
  have hparts := (Task.eq_of_terms_eq hterms).2.2.1
  cases hch with
  | @confirm message ud status ds call decision reported waiting entered =>
    refine ⟨_,rfl,?_,fun hst => hsourced.agreed ?_,fun hst => hsourced.refused ?_⟩
    · exact not_waiting_of_confirmed reported _
    · have hagree : ({ old with decisions := ds } : Task).requireAgreement := by
        have hr : old.requireAgreement = request.requireAgreement :=
          (Task.eq_of_terms_eq hterms).2.2.2.1
        exact hr.trans hcr.agreement
      have hlen : ({ old with decisions := ds } : Task).decisions.length ≤
          ({ old with decisions := ds } : Task).participants.length :=
        (hsourced.length.trans (congrArg List.length hparts.symm)).le
      exact (Consent.all_of_count hlen (Consent.approved_of_confirmed reported hagree hst)).2
    · have hrej := rejects_of_confirmed reported hst
      obtain ⟨p,hp,rfl⟩ := List.mem_map.mp hmem
      obtain ⟨j,hj⟩ := List.mem_iff_getElem?.mp hp
      have hentered := entered.2 j p (by rw [← hj]; exact congrArg (·[j]?) hparts)
      rw [if_pos rfl] at hentered
      obtain ⟨d,hd,task',bs,-,hm⟩ := hentered
      obtain ⟨ha,hr⟩ := made_flags hc hs hm
      exact ⟨d,List.mem_of_getElem? hd,by simpa [Decision.rejects,ha,hr] using hrej⟩

theorem reached_of_write {site : Site} {payload : Bytes} {r : Except UpdateError String}
    (hs : .op t q (.storageUpdate site u (recordKey id) payload) r :: h <:+ c.state.history)
    (hprev : Everywhere (ReachedAt D.prost id request) h) :
    ∃ new, payload = D.prost.task.encode new ∧ Reached D.prost id request new
      (.op t q (.storageUpdate site u (recordKey id) payload) r :: h) := by
  have hk := kept hc (tidy_of_honest hc ho)
  have hmono : h ⊆ .op t q (.storageUpdate site u (recordKey id) payload) r :: h :=
    List.subset_cons_of_subset _ (List.Subset.refl h)
  have hother {task : Task} (hst : task.status ≠ "started") (hst' : task.status ≠ "rejected") :
      Reached D.prost id request task (.op t q (.storageUpdate site u (recordKey id) payload) r :: h) :=
    ⟨fun he => absurd he hst,fun he => absurd he hst'⟩
  have hob := obligation hc hs
  rcases writer_of_record hc hk hs with ⟨hsite,-⟩ | ⟨hsite,-⟩ | ⟨-,hno⟩
  · cases site with
    | admission =>
      obtain ⟨-,task,-,rfl,hst⟩ := hob
      refine ⟨task,rfl,?_⟩
      cases hst with
      | admission => refine hother ?_ ?_ <;> simp
    | merge =>
      obtain ⟨old,new,rfl,-,-,-,-,hread,-,hch⟩ := change_of_write hc hk hs (by simp)
      obtain ⟨q',hm⟩ := mem_events.mp hread
      obtain ⟨past,hp⟩ := suffix_of_mem hm
      have hst := stored_of_read hc (writer_noColon hc hs) (guarded_recordKey id)
        (hp.trans ((List.suffix_cons _ _).trans hs))
      obtain ⟨t',q'',site',r',past',-,hw⟩ := write_of_stored hst
      have hw' := hw.trans ((List.suffix_cons _ _).trans hp)
      obtain ⟨old',he,hold⟩ := everywhere_iff.mp hprev _ _ hw' _ rfl rfl
      obtain rfl := D.prost.task.encode_inj he
      have hsub := List.Subset.trans hw'.subset hmono
      refine ⟨new,rfl,?_⟩
      cases hch with
      | merge => exact ⟨fun he => (hold.started he).mono hsub,fun he => (hold.rejected he).mono hsub⟩
    | decide =>
      obtain ⟨new,he,hnew⟩ := reached_of_verdict hc ho hcr hs
      refine ⟨new,he,?_⟩
      rcases hnew with ⟨hst,href⟩ | ⟨hst,hag⟩
      · exact ⟨fun he => absurd (hst.symm.trans he) (by decide),fun _ => href.mono hmono⟩
      · exact ⟨fun _ => hag.mono hmono,fun he => absurd (hst.symm.trans he) (by decide)⟩
    | confirm =>
      obtain ⟨new,he,-,hnew⟩ := reached_of_confirmation hc ho hcr hs
      exact ⟨new,he,hnew⟩
    | finish =>
      obtain ⟨old,new,rfl,-,-,-,-,-,-,hch⟩ := change_of_write hc hk hs (by simp)
      refine ⟨new,rfl,?_⟩
      cases hch with
      | finish => refine hother ?_ ?_ <;> simp
    | _ => simp at hsite
  · obtain ⟨rfl,-⟩ := creation_only hc ho hcr (hs.subset (List.mem_cons_self ..)) hsite
    obtain ⟨-,task,-,rfl,-⟩ := hob
    obtain ⟨-,-,hst,-⟩ := decision_of_created hc ho hcr hs
    refine ⟨task,rfl,hother ?_ ?_⟩ <;> simp [hst]
  · exact absurd hno (not_reserved_of_noColon (noColon_id hc hcr))

theorem reached : Everywhere (ReachedAt D.prost id request) c.state.history := by
  refine Everywhere.of_step fun a past hs hprev w hw hkey => ?_
  obtain ⟨t,q,site,u,k,payload,r,rfl,rfl⟩ := op_of_write hw
  obtain rfl : k = recordKey id := hkey
  exact reached_of_write hc ho hcr hs hprev

end Runs

end DecisionSources
end CoLinkServer
