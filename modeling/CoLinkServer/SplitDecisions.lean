import CoLinkServer.DecisionSources

/-! No two cores decide a task differently. A participant could only decide twice if its core admitted
the task twice, and the second message for that is sent when somebody has rejected the task already;
the first one who rejects it has decided once. -/
namespace CoLinkServer

open Interleaving

namespace SplitDecisions

open TaskRecords TaskTraces HonestMessages DecisionSources

variable {D : Deployment} {c : TaskConfig} {home : String → ℕ} {t : ℕ} {q : Request}
  {first u id : String} {request : Task} {h : List TaskAction} {a : TaskAction} {e : Envelope}

def NoPost (o : Op) : Prop := o.kind ≠ .post

theorem noPost_forwarded {M : Prost} {metadata : Metadata} {v : MetadataValue} (task : Task)
    (hv : metadata.forwardingTarget = some v) :
    (TaskService.interCoreSyncTask M metadata task).All NoPost := by
  refine (TaskService.all_checkPrivilegeIn fun _ => by simp [NoPost,Op.kind]).bind fun _ => ?_
  refine (TaskService.all_unwrap _).bind fun u => ?_
  rw [hv]
  refine (TaskService.all_unwrap _).bind fun target => ?_
  exact TaskService.all_forward (by simp [NoPost,Op.kind]) (by simp [NoPost,Op.kind])

/-- What is posted has not been forwarded. -/
theorem direct_of_post (hc : D.Reach c) {m : Outgoing} {r : Res (.post m)}
    (hm : .op t q (.post m) r ∈ c.state.history) (hsync : q.call.synced.isSome) :
    q.metadata.forwardingTarget = none := by
  have hall (q : Request) : (D.serve q).All fun o =>
      q.call.synced.isSome → q.metadata.forwardingTarget ≠ none → NoPost o := by
    by_cases hq : q.call.synced.isSome ∧ q.metadata.forwardingTarget ≠ none
    · refine Prog.All.mono (fun o ho _ _ => ho) (φ := NoPost) ?_
      obtain ⟨v,hv⟩ := Option.ne_none_iff_exists'.mp hq.2
      have hhandle : (D.handle q).All NoPost := by
        unfold Deployment.handle
        cases hcall : q.call with
        | interCoreSyncTask task => exact noPost_forwarded task hv
        | interCoreSyncTaskWithReverseConnection task =>
          refine (TaskService.all_unwrap _).bind fun u => (TaskService.all_unwrap _).bind fun p => ?_
          exact (noPost_forwarded task hv).bind fun _ => TaskService.all_perform (by simp [NoPost,Op.kind])
        | _ => simp [hcall,TaskCall.synced] at hq
      refine hhandle.attempt.bind fun r => ?_
      exact (TaskService.all_perform (by simp [NoPost,Op.kind])).bind fun _ => Prog.All.ofExcept _
    · exact Prog.All.of_forall (fun o h₁ h₂ => absurd ⟨h₁,h₂⟩ hq) _
  by_contra hne
  exact hc.all_op hall hm hsync hne rfl

theorem targets_op_self {o : Op} {r : Res o} (he : envelopeOf (.op t q o r) = some e) :
    targets (events t (.op t q o r :: h)) = e.target :: targets (events t h) := by
  rw [events_op_self]
  cases o with
  | post m =>
    obtain rfl := Option.some.inj he
    rfl
  | sendersSend u v task =>
    cases r with
    | error e => cases he
    | ok w =>
      obtain rfl := Option.some.inj he
      rfl
  | _ => cases he

theorem targets_mono {h' : List TaskAction} (hs : h <:+ h') (t : ℕ) :
    targets (events t h) <:+ targets (events t h') := by
  obtain ⟨later,he⟩ := events_mono hs t
  rw [← he]
  clear he
  induction later with
  | nil => exact List.suffix_rfl
  | cons x later ih =>
    obtain ⟨o,r⟩ := x
    cases o with
    | post m => exact ih.trans (List.suffix_cons _ _)
    | sendersSend u v task =>
      cases r with
      | ok w => exact ih.trans (List.suffix_cons _ _)
      | error e => exact ih
    | _ => exact ih

/-- A full message about the task comes from the creating call, or it is such a message handed on. -/
inductive Origin (id : String) (request : Task) (h : List TaskAction) (e : Envelope) : TaskAction → Prop
  | created {t : ℕ} {q : Request} {o : Op} {r : Res o} {u : String} {payload : Bytes}
      {r' : Except UpdateError String}
      (stored : .op t q (.storageUpdate .create u (recordKey id) payload) r' ∈ h)
      (turn : (targets (events t h)).reverse ++ [e.target] <+: (userIds request).drop 1) :
      Origin id request h e (.op t q o r)
  | forwarded {t : ℕ} {q : Request} {o : Op} {r : Res o} (direct : e.forwardingTarget = none)
      (sync : q.call.synced = some e.task) (target : q.metadata.forwardingTarget = some ⟨some e.target⟩)
      (fresh : targets (events t h) = []) : Origin id request h e (.op t q o r)

/-- The step stores the user's own decision about the task. -/
def Decides (u id : String) : TaskAction → Prop
  | .op _ _ (.storageUpdate site u' k _) _ => site ∈ [Site.create,.confirm] ∧ u' = u ∧ k = recordKey id
  | _ => False

/-- The record of the user has this content, or once had it. -/
def Had (D : Deployment) (c : TaskConfig) (i : ℕ) (u id : String) (task : Task) : Prop :=
  ∃ c', D.Reach c' ∧ D.system.Steps c' c ∧ task ∈ FinalDecisions.recordOf D.prost c'.state.shared i u id

/-- The core of the participant has stored an approval that the participant has made there. -/
def Consents (D : Deployment) (c : TaskConfig) (i : ℕ) (id : String) (p : Participant) : Prop :=
  ∃ task, Had D c i p.userId id task ∧ ∃ (j : ℕ) (d : Decision), task.participants[j]? = some p ∧
    task.decisions[j]? = some d ∧ d.approves ∧ Consent.Made i p.userId task d c.state.history

section Runs

variable (hc : D.Reach c) (ho : Everywhere (Honest home) c.state.history)
  (hcr : Created home first id request c.state.history)
include hc ho hcr

theorem origin (hno : ∀ t q u payload r,
      .op t q (.storageUpdate .decide u (recordKey id) payload) r ∉ h)
    (hs : a :: h <:+ c.state.history) (he : envelopeOf a = some e) (hid : e.task.taskId = id)
    (hfull : e.task.participants ≠ []) : Origin id request h e a := by
  have hr := regular hc ho hcr
  obtain ⟨t,q,o,r,u,rfl,hdirect,hu,hsends⟩ := sends_of_envelope hc hs he
  have hh := (List.suffix_cons _ _).trans hs
  generalize htarget : e.target = target, htask : e.task = sent at hsends
  cases hsends with
  | create call stored turn =>
    rw [htask] at hid
    obtain ⟨q',hm⟩ := mem_events.mp stored
    rw [hid] at hm
    obtain ⟨past,hp⟩ := suffix_of_mem hm
    obtain rfl := hc.same_request (hh.subset hm) (hs.subset (List.mem_cons_self ..))
    obtain ⟨-,task,heq,hterms,-⟩ := (everywhere_iff.mp hr _ _ (hp.trans hh)).1 _ rfl rfl
    obtain rfl := D.prost.task.encode_inj heq
    refine .created hm ?_
    rw [htarget,userIds,← List.map_drop]
    rwa [(Task.eq_of_terms_eq hterms).2.2.1] at turn
  | confirm stored =>
    rw [htask] at hfull
    exact absurd rfl hfull
  | broadcast stored =>
    rw [htask] at hid
    obtain ⟨q',hm⟩ := mem_events.mp stored
    rw [hid] at hm
    exact absurd hm (hno _ _ _ _ _)
  | forward sync forwarded fresh =>
    refine .forwarded ?_ (htask ▸ sync) (htarget ▸ forwarded) fresh
    cases o with
    | post m =>
      rw [direct_of_post hc (hs.subset (List.mem_cons_self ..)) (by rw [sync]; rfl)] at forwarded
      cases forwarded
    | sendersSend u v task =>
      cases r with
      | error e => cases he
      | ok w =>
        obtain rfl := Option.some.inj he
        rfl
    | _ => cases he

/-- The creating call sends to everybody once. -/
theorem created_once {t t' : ℕ} {q q' : Request} {o o' : Op} {r : Res o} {r' : Res o'} {e' : Envelope}
    {past past' : List TaskAction} {u u' : String} {payload payload' : Bytes}
    {r₁ r₁' : Except UpdateError String} (hs : .op t q o r :: past <:+ c.state.history)
    (hs' : .op t' q' o' r' :: past' <:+ c.state.history) (he : envelopeOf (.op t q o r) = some e)
    (he' : envelopeOf (.op t' q' o' r') = some e') (htarget : e.target = e'.target)
    (stored : .op t q (.storageUpdate .create u (recordKey id) payload) r₁ ∈ past)
    (stored' : .op t' q' (.storageUpdate .create u' (recordKey id) payload') r₁' ∈ past')
    (turn : (targets (events t past)).reverse ++ [e.target] <+: (userIds request).drop 1)
    (turn' : (targets (events t' past')).reverse ++ [e'.target] <+: (userIds request).drop 1) :
    (.op t q o r :: past : List TaskAction) = .op t' q' o' r' :: past' := by
  have hm := hs.subset (List.mem_cons_of_mem _ stored)
  have hm' := hs'.subset (List.mem_cons_of_mem _ stored')
  obtain ⟨rfl,rfl,-⟩ := created_by_one hc ho (by simp) (by simp) hm hm'
  have hnodup : ((userIds request).drop 1).Nodup := hcr.distinct.sublist (List.drop_sublist 1 _)
  have hno {o : Op} {r : Res o} {e e' : Envelope} {past past' : List TaskAction}
      (he : envelopeOf (.op t q o r) = some e) (hp : .op t q o r :: past <:+ past')
      (htarget : e.target = e'.target)
      (turn' : (targets (events t past')).reverse ++ [e'.target] <+: (userIds request).drop 1) : False := by
    have hmem : e'.target ∈ targets (events t past') := by
      refine (targets_mono hp t).subset ?_
      rw [targets_op_self he,htarget]
      exact List.mem_cons_self ..
    have hd := hnodup.sublist turn'.sublist
    rw [List.nodup_append] at hd
    exact hd.2.2 _ (List.mem_reverse.mpr hmem) _ (List.mem_cons_self ..) rfl
  rcases one_first hs hs' with heq | hp | hp
  · exact heq
  · exact (hno he hp htarget turn').elim
  · exact (hno he' hp htarget.symm turn).elim

/-- What is handed on has been sent by the creating call. -/
theorem source_of_forwarded
    (hno : ∀ t q u payload r, .op t q (.storageUpdate .decide u (recordKey id) payload) r ∉ h)
    (hh : h <:+ c.state.history) {o : Op} {r : Res o} {past : List TaskAction}
    (hs : .op t q o r :: past <:+ h) (hid : e.task.taskId = id) (hfull : e.task.participants ≠ [])
    (sync : q.call.synced = some e.task) (target : q.metadata.forwardingTarget = some ⟨some e.target⟩) :
    ∃ t' q' o' r' before e', (.op t' q' o' r' :: before : List TaskAction) <:+ h ∧
      envelopeOf (.op t' q' o' r') = some e' ∧ q.message = some (envelopes before).length ∧
      e'.target = e.target ∧ e'.forwardingTarget ≠ none ∧
      (∃ u payload r₁, .op t' q' (.storageUpdate .create u (recordKey id) payload) r₁ ∈ before) ∧
      (targets (events t' before)).reverse ++ [e'.target] <+: (userIds request).drop 1 := by
  obtain ⟨start,hstart⟩ := started hc (hs.trans hh)
  have hstart' := hstart.trans ((List.suffix_cons _ _).trans hs)
  obtain ⟨b,before,e',hb,hbe,hmessage,htask,hforward,-⟩ := arrival hc ho (hstart'.trans hh) sync
  have hb' := hb.trans ((List.suffix_cons _ _).trans hstart')
  have hnot : e'.forwardingTarget ≠ none := by
    intro hnone
    rw [hnone,target] at hforward
    cases hforward
  obtain ⟨-,-,-,-,-,-,hdirect,-⟩ := sends_of_envelope hc (hb'.trans hh) hbe
  have htarget : e'.target = e.target := by
    rcases hdirect with hd | hd
    · exact absurd hd hnot
    · rw [hd,target] at hforward
      exact MetadataValue.eq_of_ofStr (Option.some.inj hforward).symm
  have hno' : ∀ t q u payload r, .op t q (.storageUpdate .decide u (recordKey id) payload) r ∉ before :=
    fun t q u payload r hm => hno t q u payload r (((List.suffix_cons _ _).trans hb').subset hm)
  have horigin := origin hc ho hcr hno' (hb'.trans hh) hbe (htask ▸ hid) (htask ▸ hfull)
  cases horigin with
  | created stored turn =>
    exact ⟨_,_,_,_,before,e',hb',hbe,hmessage,htarget,hnot,⟨_,_,_,stored⟩,turn⟩
  | forwarded direct => exact absurd direct hnot

/-- At most one message to a user is to be handled as the task itself. -/
theorem direct_once {b : TaskAction} {e' : Envelope} {past past' : List TaskAction}
    (hno : ∀ t q u payload r, .op t q (.storageUpdate .decide u (recordKey id) payload) r ∉ h)
    (hh : h <:+ c.state.history) (hs : a :: past <:+ h) (hs' : b :: past' <:+ h)
    (he : envelopeOf a = some e) (he' : envelopeOf b = some e') (hid : e.task.taskId = id)
    (hid' : e'.task.taskId = id) (hfull : e.task.participants ≠ [])
    (hfull' : e'.task.participants ≠ []) (hdirect : e.forwardingTarget = none)
    (hdirect' : e'.forwardingTarget = none) (htarget : e.target = e'.target) :
    a :: past = b :: past' := by
  have hno' {past : List TaskAction} (hp : past <:+ h) : ∀ t q u payload r,
      .op t q (.storageUpdate .decide u (recordKey id) payload) r ∉ past :=
    fun t q u payload r hm => hno t q u payload r (hp.subset hm)
  have ho₁ := origin hc ho hcr (hno' ((List.suffix_cons _ _).trans hs)) (hs.trans hh) he hid hfull
  have ho₂ := origin hc ho hcr (hno' ((List.suffix_cons _ _).trans hs')) (hs'.trans hh) he' hid' hfull'
  have hmixed {t : ℕ} {q : Request} {o : Op} {r : Res o} {u : String} {payload : Bytes}
      {r₁ : Except UpdateError String} {e e' : Envelope} {past past' : List TaskAction} {t' : ℕ}
      {q' : Request} {o' : Op} {r' : Res o'} (hs : .op t q o r :: past <:+ h)
      (hs' : .op t' q' o' r' :: past' <:+ h) (he : envelopeOf (.op t q o r) = some e)
      (hdirect : e.forwardingTarget = none) (htarget : e.target = e'.target)
      (hid' : e'.task.taskId = id) (hfull' : e'.task.participants ≠ [])
      (stored : .op t q (.storageUpdate .create u (recordKey id) payload) r₁ ∈ past)
      (turn : (targets (events t past)).reverse ++ [e.target] <+: (userIds request).drop 1)
      (sync : q'.call.synced = some e'.task) (target : q'.metadata.forwardingTarget = some ⟨some e'.target⟩) :
      False := by
    obtain ⟨t₀,q₀,o₀,r₀,before,e₀,hs₀,he₀,-,ht₀,hf₀,⟨u₀,payload₀,r₁',stored₀⟩,turn₀⟩ :=
      source_of_forwarded hc ho hcr hno hh hs' hid' hfull' sync target
    have heq := created_once hc ho hcr (hs.trans hh) (hs₀.trans hh) he he₀ (htarget.trans ht₀.symm)
      stored stored₀ turn turn₀
    rw [(List.cons.inj heq).1] at he
    obtain rfl := Option.some.inj (he.symm.trans he₀)
    exact hf₀ hdirect
  cases ho₁ with
  | created stored turn =>
    cases ho₂ with
    | created stored' turn' =>
      exact created_once hc ho hcr (hs.trans hh) (hs'.trans hh) he he' htarget stored stored' turn turn'
    | forwarded direct' sync' target' =>
      exact (hmixed hs hs' he hdirect htarget hid' hfull' stored turn sync' target').elim
  | forwarded direct sync target fresh =>
    cases ho₂ with
    | created stored' turn' =>
      exact (hmixed hs' hs he' hdirect' htarget.symm hid hfull stored' turn' sync target).elim
    | forwarded direct' sync' target' fresh' =>
      obtain ⟨t₁,q₁,o₁,r₁,before₁,e₁,hs₁,he₁,hm₁,ht₁,-,⟨u₁,payload₁,x₁,stored₁⟩,turn₁⟩ :=
        source_of_forwarded hc ho hcr hno hh hs hid hfull sync target
      obtain ⟨t₂,q₂,o₂,r₂,before₂,e₂,hs₂,he₂,hm₂,ht₂,-,⟨u₂,payload₂,x₂,stored₂⟩,turn₂⟩ :=
        source_of_forwarded hc ho hcr hno hh hs' hid' hfull' sync' target'
      have heq := created_once hc ho hcr (hs₁.trans hh) (hs₂.trans hh) he₁ he₂
        (ht₁.trans (htarget.trans ht₂.symm)) stored₁ stored₂ turn₁ turn₂
      rw [(List.cons.inj heq).2] at hm₁
      obtain rfl := handled_once ho (hc.start_of_op ((hs.trans hh).subset (List.mem_cons_self ..)))
        (hc.start_of_op ((hs'.trans hh).subset (List.mem_cons_self ..))) hm₁ hm₂
      rcases one_first hs hs' with heq | hp | hp
      · exact heq
      · have hmem := (targets_mono hp _).subset (targets_op_self he ▸ List.mem_cons_self ..)
        rw [fresh'] at hmem
        cases hmem
      · have hmem := (targets_mono hp _).subset (targets_op_self he' ▸ List.mem_cons_self ..)
        rw [fresh] at hmem
        cases hmem

omit hcr in
/-- A delivery answers a direct message, which has been sent when nothing was stored yet. -/
theorem delivered {payload : Bytes} {r : Except UpdateError String}
    (hs : .op t q (.storageUpdate .admission u (recordKey id) payload) r :: h <:+ c.state.history) :
    ∃ checked b past e, checked <:+ h ∧ stored q.core u (recordKey id) checked = none ∧
      b :: past <:+ checked ∧ envelopeOf b = some e ∧ q.message = some (envelopes past).length ∧
      e.task.taskId = id ∧ e.task.participants ≠ [] ∧ e.forwardingTarget = none ∧ e.target = u := by
  obtain ⟨request',d,v,later,checked,sync,hid,rfl,-,hnone,hstart⟩ := check_of_admission hc hs
  have hh := (List.suffix_cons _ _).trans hs
  have hchecked : checked <:+ later ++ .op t q (.storageContains u (recordKey id)) false :: checked :=
    (List.suffix_cons _ _).trans (List.suffix_append _ _)
  obtain ⟨hu,task,hkey,-,hst⟩ := obligation hc hs
  obtain ⟨past₀,hstart⟩ := suffix_of_mem hstart
  obtain ⟨b,past,e,hb,hbe,hmessage,rfl,hforward,huser⟩ :=
    arrival hc ho (hstart.trans (hchecked.trans hh)) sync
  refine ⟨checked,b,past,e,hchecked,hnone,hb.trans ((List.suffix_cons _ _).trans hstart),hbe,hmessage,
    hid,?_,?_⟩
  all_goals
    cases hst with
    | @admission request'' p d' sync' direct initiator =>
      obtain rfl : request'' = e.task := Option.some.inj (sync'.symm.trans sync)
      have hdirect := Option.map_eq_none_iff.mp (hforward.symm.trans direct)
      first
      | exact fun hnil => by simp [hnil] at initiator
      | exact ⟨hdirect,Option.some.inj ((huser hdirect).symm.trans hu.1)⟩

omit hc ho hcr in
theorem first_write {i : ℕ} {k : String} (hst : stored i u k h ≠ none) :
    ∃ t q site payload r past, q.core = i ∧ stored i u k past = none ∧
      .op t q (.storageUpdate site u k payload) r :: past <:+ h := by
  induction h with
  | nil => exact absurd rfl hst
  | cons a h ih =>
    by_cases hprev : stored i u k h = none
    · by_cases hsp : Spares i u k a
      · rw [stored_cons_of_spares hsp] at hst
        exact absurd hprev hst
      · obtain ⟨t,q,site,payload,r,rfl,hq⟩ := write_of_not_spares hsp
        exact ⟨t,q,site,payload,r,h,hq,hprev,List.suffix_rfl⟩
    · obtain ⟨t,q,site,payload,r,past,hq,hnone,hs⟩ := ih hprev
      exact ⟨t,q,site,payload,r,past,hq,hnone,hs.trans (List.suffix_cons _ _)⟩

theorem admission_of_none (hu : u ≠ first) {site : Site} {payload : Bytes} {r : Except UpdateError String}
    (hs : .op t q (.storageUpdate site u (recordKey id) payload) r :: h <:+ c.state.history)
    (hnone : stored q.core u (recordKey id) h = none) : site = .admission := by
  have hk := kept hc (tidy_of_honest hc ho)
  rcases writer_of_record hc hk hs with ⟨hsite,-⟩ | ⟨hsite,-⟩ | ⟨-,hres⟩
  · by_contra hne
    refine present_of_change hc hk hs ?_ hnone
    cases site <;> simp at hsite hne ⊢
  · exact absurd (creation_only hc ho hcr (hs.subset (List.mem_cons_self ..)) hsite).2.1 hu
  · exact absurd hres (not_reserved_of_noColon (noColon_id hc hcr))

omit ho hcr in
theorem delivery_once {payload payload' : Bytes} {r r' : Except UpdateError String} {q' : Request}
    (hs : .op t q (.storageUpdate .admission u (recordKey id) payload) r :: h <:+ c.state.history) :
    .op t q' (.storageUpdate .admission u (recordKey id) payload') r' ∉ h := by
  intro hm
  obtain ⟨-,task,-,-,hst⟩ := obligation hc hs
  have hin : ⟨.storageUpdate .admission u (recordKey id) payload',r'⟩ ∈ events t h :=
    mem_events.mpr ⟨q',hm⟩
  cases hst with
  | admission sync direct initiator decision approved steps =>
    rw [steps] at hin
    simp at hin

/-- A core that has stored the task before there was a verdict stores it as a new one only once. -/
theorem admitted_once (hno : ∀ t q u payload r,
      .op t q (.storageUpdate .decide u (recordKey id) payload) r ∉ h)
    (hh : h <:+ c.state.history) {i : ℕ} (hpresent : stored i u (recordKey id) h ≠ none) :
    Everywhere (OnWrites (FirstSince [] i u (recordKey id))) c.state.history := by
  obtain ⟨t₁,q₁,site₁,payload₁,r₁,past₁,rfl,hnone₁,hs₁⟩ := first_write hpresent
  have hacts : ActsFor q₁ u (events t₁ past₁) := (obligation hc (hs₁.trans hh)).1
  by_cases hu : u = first
  · subst hu
    rw [core_eq hc ho (hs₁.trans hh) hacts.1]
    exact InitiatorStatus.firstSince_of_created hc (tidy_of_honest hc ho) hcr.created
  obtain rfl := admission_of_none hc ho hcr hu (hs₁.trans hh) hnone₁
  refine everywhere_of_write fun t q site u' k payload r past hs _ => ?_
  rintro - hq rfl rfl hsite
  show stored q.core u' (recordKey id) past = none
  replace hq : q.core = q₁.core := hq
  have had : site = .admission := by
    by_contra hne
    refine hu (creation_only hc ho hcr (hs.subset (List.mem_cons_self ..)) ?_).2.1
    cases site <;> simp at hsite hne ⊢
  subst had
  rcases one_first hs (hs₁.trans hh) with he | hp | hp
  · rw [(List.cons.inj he).2,hq]
    exact hnone₁
  · refine absurd hnone₁ (hq ▸ stored_of_write (hp.subset (List.mem_cons_self ..)))
  · exfalso
    obtain ⟨checked,b,past_b,e,hchecked,hnone,hb,hbe,hm,hid,hfull,hdirect,htarget⟩ := delivered hc ho hs
    obtain ⟨checked₁,b₁,past₁b,e₁,hchecked₁,-,hb₁,hbe₁,hm₁,hid₁,hfull₁,hdirect₁,htarget₁⟩ :=
      delivered hc ho (hs₁.trans hh)
    have hearly : checked <:+ past₁ := by
      rcases List.suffix_or_suffix_of_suffix hp hchecked with hss | hss
      · exact absurd hnone (hq ▸ stored_of_write (hss.subset (List.mem_cons_self ..)))
      · rcases List.suffix_cons_iff.mp hss with he | hss
        · exact absurd hnone (he ▸ hq ▸ stored_of_write (List.mem_cons_self ..))
        · exact hss
    have hin : past₁ <:+ h := (List.suffix_cons _ _).trans hs₁
    have hone := direct_once hc ho hcr hno hh (hb.trans (hearly.trans hin))
      (hb₁.trans (hchecked₁.trans hin)) hbe hbe₁ hid hid₁ hfull hfull₁ hdirect hdirect₁
      (htarget.trans htarget₁.symm)
    rw [(List.cons.inj hone).2] at hm
    obtain rfl := handled_once ho (hc.start_of_op (hs.subset (List.mem_cons_self ..)))
      (hc.start_of_op ((hs₁.trans hh).subset (List.mem_cons_self ..))) hm hm₁
    exact delivery_once hc hs (hp.subset (List.mem_cons_self ..))

omit hc ho hcr in
theorem write_of_decides (ha : Decides u id a) : ∃ t q site payload r,
    a = .op t q (.storageUpdate site u (recordKey id) payload) r ∧ site ∈ [Site.create,.confirm] := by
  cases a with
  | op t q o r =>
    cases o with
    | storageUpdate site u' k payload =>
      obtain ⟨hsite,rfl,rfl⟩ := ha
      exact ⟨t,q,site,payload,r,rfl,hsite⟩
    | _ => exact ha.elim
  | _ => exact ha.elim

omit hc ho hcr in
theorem decides_of_own {M : Prost} {p : Participant} {d : Decision} (hown : Own M id p d h) :
    ∃ a ∈ h, Decides p.userId id a := by
  obtain ⟨t,q,site,task,r,j,hm,hsite,-⟩ := hown
  exact ⟨_,hm,hsite,rfl,rfl⟩

theorem no_verdict (hh : h <:+ c.state.history) (hr : ¬ Refused D.prost id request h)
    (ha : ¬ Agreed D.prost id request h) (t : ℕ) (q : Request) (u : String) (payload : Bytes)
    (r : Except UpdateError String) : .op t q (.storageUpdate .decide u (recordKey id) payload) r ∉ h := by
  intro hm
  obtain ⟨past,hs⟩ := suffix_of_mem hm
  have hsub := ((List.suffix_cons _ _).trans hs).subset
  obtain ⟨new,-,⟨-,href⟩ | ⟨-,hag⟩⟩ := reached_of_verdict hc ho hcr (hs.trans hh)
  · exact hr (href.mono hsub)
  · exact ha (hag.mono hsub)

/-- A record that awaits nothing from its user never does so again. -/
theorem settled_since {i : ℕ} (hfirst : Everywhere (OnWrites (FirstSince [] i u (recordKey id)))
      c.state.history) {h' : List TaskAction} (hh : h' <:+ c.state.history) (hs : h <:+ h') {task : Task}
    (hst : stored i u (recordKey id) h = some (D.prost.task.encode task)) (hw : task.status ≠ "waiting") :
    ∃ new, stored i u (recordKey id) h' = some (D.prost.task.encode new) ∧ new.status ≠ "waiting" := by
  refine stored_preserves (P := fun b => ∃ new, b = some (D.prost.task.encode new) ∧
    new.status ≠ "waiting") ?_ hs ⟨task,hst,hw⟩
  refine everywhere_of_write fun t q site u' k payload r past hs' _ => ?_
  rintro rfl rfl rfl ⟨old,hold,hne⟩
  obtain ⟨new,rfl,-,hv⟩ := version_since hc (tidy_of_honest hc ho)
    (not_reserved_of_noColon (noColon_id hc hcr)) List.nil_suffix (idle_nil _) hfirst (hs'.trans hh)
  rw [hold] at hv
  generalize hb : some (D.prost.task.encode old) = before at hv
  cases hv with
  | first => cases hb
  | next changes =>
    obtain rfl := D.prost.task.encode_inj (Option.some.inj hb)
    refine ⟨new,rfl,?_⟩
    cases changes with
    | merge => exact hne
    | decide =>
      dsimp only
      split_ifs <;> decide
    | confirm call decision reported waiting => exact absurd waiting hne
    | finish => simp

/-- Who has decided before there was a verdict does not decide again. -/
theorem decided_once {b : TaskAction} {past past' : List TaskAction}
    (hno : ∀ t q u payload r, .op t q (.storageUpdate .decide u (recordKey id) payload) r ∉ past)
    (hs : a :: past <:+ c.state.history) (hs' : b :: past' <:+ c.state.history)
    (ha : Decides u id a) (hb : Decides u id b) : ¬ a :: past <:+ past' := by
  intro hlater
  have hk := kept hc (tidy_of_honest hc ho)
  obtain ⟨t,q,site,payload,r,rfl,hsite⟩ := write_of_decides ha
  obtain ⟨t',q',site',payload',r',rfl,hsite'⟩ := write_of_decides hb
  have hacts : ActsFor q u (events t past) := (obligation hc hs).1
  have hacts' : ActsFor q' u (events t' past') := (obligation hc hs').1
  have hcore : q'.core = q.core :=
    (core_eq hc ho hs' hacts'.1).trans (core_eq hc ho hs hacts.1).symm
  have hdecided : Everywhere (OnWrites (FirstSince [] q.core u (recordKey id))) c.state.history ∧
      ∃ task, payload = D.prost.task.encode task ∧ task.status ≠ "waiting" := by
    simp only [List.mem_cons,List.not_mem_nil,or_false] at hsite
    rcases hsite with rfl | rfl
    · obtain ⟨-,task,-,rfl,-⟩ := obligation hc hs
      obtain ⟨rfl,-,hst,-⟩ := decision_of_created hc ho hcr hs
      refine ⟨?_,task,rfl,by simp [hst]⟩
      rw [core_eq hc ho hs hacts.1]
      exact InitiatorStatus.firstSince_of_created hc (tidy_of_honest hc ho) hcr.created
    · obtain ⟨task,he,hst,-⟩ := reached_of_confirmation hc ho hcr hs
      refine ⟨admitted_once hc ho hcr hno ((List.suffix_cons _ _).trans hs) ?_,task,he,hst⟩
      exact present_of_change hc hk hs (by simp)
  obtain ⟨hfirst,task,rfl,hst⟩ := hdecided
  have hin : past' <:+ c.state.history := (List.suffix_cons _ _).trans hs'
  obtain ⟨old,hold,hne⟩ := settled_since hc ho hcr hfirst hin hlater (stored_write ..) hst
  have hfirst' := hcore ▸ hfirst
  obtain ⟨new,-,-,hv⟩ := version_since hc (tidy_of_honest hc ho)
    (not_reserved_of_noColon (noColon_id hc hcr)) List.nil_suffix (idle_nil _) hfirst' hs'
  rw [hcore,hold] at hv
  generalize hb : some (D.prost.task.encode old) = before at hv
  cases hv with
  | first => cases hb
  | next changes =>
    obtain rfl := D.prost.task.encode_inj (Option.some.inj hb)
    cases changes with
    | confirm call decision reported waiting => exact hne waiting
    | _ => simp at hsite'

/-- Who approves the task has not rejected it. -/
theorem not_refused (hag : Agreed D.prost id request c.state.history) (hh : h <:+ c.state.history) :
    ¬ Refused D.prost id request h := by
  induction h with
  | nil =>
    rintro ⟨p,-,d,-,hown⟩
    obtain ⟨t,q,site,task,r,j,hm,-⟩ := hown
    cases hm
  | cons a h ih =>
    have hin : h <:+ c.state.history := (List.suffix_cons _ _).trans hh
    rintro ⟨p,hp,d,hrej,t,q,site,task,r,j,hm,hsite,hj,hd⟩
    rcases List.mem_cons.mp hm with rfl | hm
    swap
    · exact ih hin ⟨p,hp,d,hrej,t,q,site,task,r,j,hm,hsite,hj,hd⟩
    obtain ⟨d',happ,t',q',site',task',r',j',hm',hsite',hj',hd'⟩ := hag p hp
    obtain ⟨b,past,hb,hdecides,hnone⟩ :=
      earliest (p := Decides p.userId id) ⟨_,hm',⟨hsite',rfl,rfl⟩⟩
    have hbefore : past <:+ h := by
      rcases one_first hh hb with he | hs | hs
      · exact (List.cons.inj he).2 ▸ List.suffix_rfl
      · exact absurd ⟨hsite,rfl,rfl⟩ (hnone _ (hs.subset (List.mem_cons_self ..)))
      · exact (List.suffix_cons _ _).trans hs
    have hno := no_verdict hc ho hcr (hbefore.trans hin)
      (fun href => ih hin (href.mono hbefore.subset)) fun hall => by
        obtain ⟨d'',-,hown⟩ := hall p hp
        obtain ⟨x,hx,hdec⟩ := decides_of_own hown
        exact hnone x hx hdec
    have honly {x : TaskAction} {past' : List TaskAction} (hx : x :: past' <:+ c.state.history)
        (hdec : Decides p.userId id x) : x = b := by
      rcases one_first hx hb with he | hs | hs
      · exact (List.cons.inj he).1
      · exact absurd hdec (hnone _ (hs.subset (List.mem_cons_self ..)))
      · exact absurd hs (decided_once hc ho hcr hno hb hx hdecides hdec)
    obtain ⟨past',hs'⟩ := suffix_of_mem hm'
    have he := (honly hh ⟨hsite,rfl,rfl⟩).trans (honly hs' ⟨hsite',rfl,rfl⟩).symm
    obtain ⟨-,-,ho',-⟩ := Action.op.inj he
    obtain rfl := D.prost.task.encode_inj (Op.storageUpdate.inj ho').2.2.2
    have hparts : task.participants = request.participants := by
      obtain ⟨-,task',heq,hterms,-⟩ := (everywhere_iff.mp (regular hc ho hcr) _ _ hh).1 _ rfl rfl
      obtain rfl := D.prost.task.encode_inj heq
      exact (Task.eq_of_terms_eq hterms).2.2.1
    have hnodup : task.participants.Nodup := hparts ▸ hcr.distinct.of_map _
    obtain rfl : j = j' := by
      obtain ⟨hlt,-⟩ := List.getElem?_eq_some_iff.mp hj
      exact (List.getElem?_inj hlt hnodup).mp (hj.trans hj'.symm)
    obtain rfl := Option.some.inj (hd.symm.trans hd')
    have hnot := Decision.not_rejects_of_approves happ
    rw [hrej] at hnot
    cases hnot

theorem reached_of_had {i : ℕ} {task : Task} (hu : NoColon u) (hhad : Had D c i u id task) :
    Reached D.prost id request task c.state.history := by
  obtain ⟨c',hc',hsteps,hrecord⟩ := hhad
  rw [FinalDecisions.recordOf,read_eq_stored hc' hu (guarded_recordKey id)] at hrecord
  obtain ⟨payload,hst,hd⟩ := Option.bind_eq_some_iff.mp hrecord
  obtain ⟨t,q,site,r,past,-,hw⟩ := write_of_stored hst
  have hw' := hw.trans hsteps.history
  obtain ⟨new,he,hnew⟩ := everywhere_iff.mp (reached hc ho hcr) _ _ hw' _ rfl rfl
  obtain rfl : payload = D.prost.task.encode new := he
  rw [D.prost.task.decode_encode] at hd
  obtain rfl := Option.some.inj hd
  exact ⟨fun hs => (hnew.started hs).mono hw'.subset,fun hs => (hnew.rejected hs).mono hw'.subset⟩

/-- What a user has stored as an approval has been made by the user, on the user's core. -/
theorem consents_of_own {p : Participant} {d : Decision} (hd : d.approves)
    (hown : Own D.prost id p d c.state.history) : Consents D c (home p.userId) id p := by
  obtain ⟨t,q,site,task,r,j,hm,hsite,hj,hdj⟩ := hown
  obtain ⟨past,hs⟩ := suffix_of_mem hm
  obtain ⟨c',hc',hhistory,hsteps⟩ := hc.passed hs
  have hacts : ActsFor q p.userId (events t past) := (obligation hc hs).1
  have hcore := core_eq hc ho hs hacts.1
  refine ⟨task,⟨c',hc',hsteps,?_⟩,j,d,hj,hdj,hd,?_⟩
  · rw [FinalDecisions.recordOf,read_eq_stored hc' (writer_noColon hc hs) (guarded_recordKey id),
      hhistory,← hcore,stored_write]
    exact D.prost.task.decode_encode task
  · rw [← hcore]
    have hsub := ((List.suffix_cons _ _).trans hs).subset
    simp only [List.mem_cons,List.not_mem_nil,or_false] at hsite
    rcases hsite with rfl | rfl
    · obtain ⟨hfirst,hcall,-,hterms,-,hown⟩ := decision_of_created hc ho hcr hs
      obtain ⟨rfl,task',bs,hterms',hmade⟩ := hown j d hdj (.inl hd)
      refine ⟨t,q,task',bs,rfl,hacts.1,hterms',.inl ⟨request,hcall,?_,hsub hmade⟩⟩
      rw [hj]
      rfl
    · obtain ⟨old,new,he,-,-,-,-,-,-,hch⟩ := change_of_write hc (kept hc (tidy_of_honest hc ho)) hs (by simp)
      obtain rfl := D.prost.task.encode_inj he
      cases hch with
      | @confirm message ud status ds call decision reported waiting entered =>
        have hentered := entered.2 j p hj
        rw [if_pos rfl] at hentered
        obtain ⟨d',hd',task',bs,hterms,hmade⟩ := hentered
        obtain rfl := Option.some.inj (hd'.symm.trans hdj)
        obtain ⟨ha,hr⟩ := made_flags hc hs hmade
        refine ⟨t,q,task',bs,rfl,hacts.1,hterms,.inr ⟨message,ud,call,decision,?_,
          hsub (mem_history hc hs hmade)⟩⟩
        simpa [Decision.approves,ha,hr] using hd

end Runs

/-- A user creates a task for several others that requires agreement of all of them, and all cores
run this code and handle no message twice. The record of nobody is ever set to `started` if that of
somebody, or of the same user, is ever set to `rejected`; and when one is set to `started`, every
participant has made an approval that is stored at the participant's core. -/
theorem no_split_decision (D : Deployment) {c : TaskConfig} (hc : D.Reach c) {home : String → ℕ}
    (ho : Everywhere (Honest home) c.state.history) {first id : String} {request : Task}
    (hcr : Created home first id request c.state.history) {i : ℕ} {u : String} (hu : NoColon u)
    {task : Task} (hhad : Had D c i u id task) (hst : task.status = "started") :
    (∀ i' u' task', NoColon u' → Had D c i' u' id task' → task'.status ≠ "rejected") ∧
    ∀ p ∈ request.participants, Consents D c (home p.userId) id p := by
  have hag := (reached_of_had hc ho hcr hu hhad).started hst
  refine ⟨fun i' u' task' hu' hhad' hst' => ?_,fun p hp => ?_⟩
  · exact not_refused hc ho hcr hag List.suffix_rfl ((reached_of_had hc ho hcr hu' hhad').rejected hst')
  · obtain ⟨d,hd,hown⟩ := hag p hp
    exact consents_of_own hc ho hcr hd hown

/-- User 07 creates a task for user 08 and sends it to the core that both have. -/
def offered : List Move := Move.settle 7 ++ Move.settle 8 ++
  [.client "07" "_internal:known_users:08:core_addr" [],
    .client "07" "_internal:known_users:08:guest_jwt" [],
    .start 0 (.ofUser 7 (.createTask InitiatorStatus.sampleRequest)),.run 0 13]

/-- What user 07 has sent. -/
def sampleMessage : Task :=
  let task := newTask InitiatorStatus.sampleRequest "id"
  let decision := makeDecision Primitives.ideal Prost.selfDelimiting (Deployment.ideal.keys 0) true
    false "" task (Prost.selfDelimiting.userConsent.encode (sampleConsent 7))
  { task with decisions := decision.toOption.toList ++ [default] }

/-- User 08 receives the task and approves it. -/
def accepted : List Move := offered ++
  [.start 1 { Request.ofGuest 8 (.interCoreSyncTask sampleMessage) with message := some 0 },.run 1 13,
    .start 2 (.ofUser 8 sampleApproval),.run 2 11]

theorem no_split_decision_sample : ∃ c task, Deployment.ideal.Reach c ∧
    Had Deployment.ideal c 0 "08" "id" task ∧ task.status = "started" ∧
    (∀ i u task', NoColon u → Had Deployment.ideal c i u "id" task' → task'.status ≠ "rejected") ∧
    ∀ p ∈ InitiatorStatus.sampleRequest.participants, Consents Deployment.ideal c 0 "id" p := by
  have hrun : (Play.moves accepted { sim := { ids := ["id"] } }).any fun p =>
      decide (Everywhere (Honest fun _ => 0) p.history) && p.history.any InitiatorStatus.creates &&
        ((stored 0 "08" (recordKey "id") p.history).bind Prost.selfDelimiting.task.decode).any
          fun task => task.status = "started" := by
    decide +kernel
  obtain ⟨c,p,hc,hf,hp⟩ := Play.run hrun
  simp only [Bool.and_eq_true,decide_eq_true_eq,← hf.history,Option.any_eq_true] at hp
  obtain ⟨⟨ho,hcreates⟩,task,htask,hst⟩ := hp
  have hcr : Created (fun _ => 0) "07" "id" InitiatorStatus.sampleRequest c.state.history := by
    refine ⟨InitiatorStatus.createdBy_of_any hcreates,?_,rfl,?_,?_,rfl⟩ <;> decide
  have hhad : Had Deployment.ideal c 0 "08" "id" task := by
    refine ⟨c,hc,.refl,?_⟩
    rw [FinalDecisions.recordOf,read_eq_stored hc (by decide) (guarded_recordKey "id")]
    exact htask
  exact ⟨c,task,hc,hhad,hst,no_split_decision Deployment.ideal hc ho hcr (by decide) hhad hst⟩

end SplitDecisions
end CoLinkServer
