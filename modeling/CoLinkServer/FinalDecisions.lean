import CoLinkServer.StatusOrder

/-! Whether a decision is final. A synchronisation takes over the decisions of a message before it
looks at the status, and whatever is correctly signed replaces what is stored. Decisions are final
as long as no message contradicts them. -/
namespace CoLinkServer

open Interleaving

namespace FinalDecisions

open TaskRecords TaskTraces StatusOrder

variable {D : Deployment} {c : TaskConfig} {i t : ℕ} {q : Request} {u : String}
  {h : List TaskAction}

def SameFlags (d e : Decision) : Prop := e.isApproved = d.isApproved ∧ e.isRejected = d.isRejected

instance (d e : Decision) : Decidable (SameFlags d e) := inferInstanceAs (Decidable (_ ∧ _))

theorem SameFlags.refl (d : Decision) : SameFlags d d := ⟨rfl,rfl⟩

theorem SameFlags.trans {d e f : Decision} (h : SameFlags d e) (h' : SameFlags e f) :
    SameFlags d f := ⟨h'.1.trans h.1,h'.2.trans h.2⟩

theorem SameFlags.approves {d e : Decision} (h : SameFlags d e) : e.approves = d.approves := by
  rw [Decision.approves,Decision.approves,h.1,h.2]

theorem SameFlags.isValid {d e : Decision} (h : SameFlags d e) : e.isValid = d.isValid := by
  rw [Decision.isValid,Decision.isValid,h.1,h.2]

/-- At the positions in question, what approves or rejects still does. -/
def Keeps (φ : ℕ → Prop) (old new : Task) : Prop := ∀ (j : ℕ) (d : Decision), φ j →
  old.decisions[j]? = some d → d.isValid → ∃ e, new.decisions[j]? = some e ∧ SameFlags d e

def IsOther (u : String) (task : Task) (j : ℕ) : Prop :=
  ∃ p, task.participants[j]? = some p ∧ p.userId ≠ u

def recordOf (M : Prost) (w : World) (i : ℕ) (u id : String) : Option Task :=
  (w.read i u (recordKey id)).bind M.task.decode

def Confirms : TaskAction → Prop
  | .op _ q _ _ => ∃ request, q.call = .confirmTask request
  | _ => False

/-- What a message brings for somebody who has decided does not contradict the decision. -/
def Agrees (u : String) (request old : Task) : Prop :=
  ∀ x ∈ old.participants.zip (old.decisions.zip request.decisions),
    x.1.userId ≠ u → x.2.1.isValid → x.2.2 ≠ default → SameFlags x.2.1 x.2.2

instance (u : String) (request old : Task) : Decidable (Agrees u request old) :=
  inferInstanceAs (Decidable (∀ x ∈ _, _ → _ → _ → _))

def Consistent (M : Prost) (w : Write) (h : List TaskAction) : Prop := w.site = .merge →
  ∀ request ∈ w.request.call.synced,
    ∀ old ∈ (stored w.request.core w.user w.key h).bind M.task.decode, Agrees w.user request old

/-- Tasks are admitted once and for undecided participants, and no message that is merged
contradicts what is stored. -/
def Settled (M : Prost) (w : Write) (h : List TaskAction) : Prop :=
  Tidy w h ∧ Alone w h ∧ Admits M w ∧ Consistent M w h

instance (M : Prost) (w : Write) (h : List TaskAction) : Decidable (Settled M w h) :=
  inferInstanceAs (Decidable (_ ∧ _ ∧ (_ → ∀ task ∈ M.task.decode _, _ → _) ∧
    (_ → ∀ request ∈ w.request.call.synced, ∀ old ∈ (stored _ _ _ h).bind M.task.decode, Agrees _ _ _)))

variable {M : Prost}

theorem tidy_of_settled (ho : Everywhere (OnWrites (Settled M)) h) : Everywhere (OnWrites Tidy) h :=
  ho.mono fun _ _ hh w hw => (hh w hw).1

theorem first_of_settled (hc : D.Reach c) (ho : Everywhere (OnWrites (Settled M)) c.state.history) :
    Everywhere (OnWrites First) c.state.history :=
  first_of_alone hc (tidy_of_settled ho) (ho.mono fun _ _ hh w hw => (hh w hw).2.1)

theorem flags_of_taken {request old : Task} {ds : List Decision} {past : List TaskEvent}
    (ht : Taken u request old ds past) (ha : Agrees u request old) :
    Keeps (fun _ => True) old { old with decisions := ds } := by
  intro j d _ hd hv
  have hj : j < ds.length := by
    rw [ht.length]
    exact (List.getElem?_eq_some_iff.mp hd).1
  refine ⟨ds[j],List.getElem?_eq_getElem hj,?_⟩
  rcases ht.source j ds[j] (List.getElem?_eq_getElem hj) with hold | ⟨p,hp,hu,hr,hne,-⟩
  · obtain rfl := Option.some.inj (hd.symm.trans hold)
    exact .refl _
  · refine ha (p,d,ds[j]) ?_ hu hv hne
    apply List.mem_iff_getElem?.mpr
    refine ⟨j,List.getElem?_zip_eq_some.mpr ⟨hp,?_⟩⟩
    exact List.getElem?_zip_eq_some.mpr ⟨hd,hr⟩

theorem keeps_of_changes {old new : Task} {site : Site} {past : List TaskEvent}
    (hch : Changes M q u past old site new)
    (ha : site = .merge → ∀ request ∈ q.call.synced, Agrees u request old) :
    Keeps (IsOther u old) old new ∧
      ((¬ ∃ request, q.call = .confirmTask request) → Keeps (fun _ => True) old new) := by
  have hself {s : String} (φ : ℕ → Prop) : Keeps φ old { old with status := s } :=
    fun j d _ hd _ => ⟨d,hd,.refl d⟩
  cases hch with
  | merge sync direct agreement taken =>
    have hk := flags_of_taken taken (ha rfl _ sync)
    exact ⟨fun j d _ => hk j d trivial,fun _ => hk⟩
  | decide => exact ⟨hself _,fun _ => hself _⟩
  | finish => exact ⟨hself _,fun _ => hself _⟩
  | confirm call decision reported waiting entered =>
    refine ⟨fun j d hj hd hv => ?_,fun hno => absurd ⟨_,call⟩ hno⟩
    obtain ⟨p,hp,hne⟩ := hj
    have he := entered.2 j p hp
    rw [if_neg hne] at he
    exact ⟨d,he.trans hd,.refl d⟩

theorem agrees_of_consistent {w : Write} (hcons : Consistent M w h) {old : Task}
    (hold : stored w.request.core w.user w.key h = some (M.task.encode old)) :
    w.site = .merge → ∀ request ∈ w.request.call.synced, Agrees w.user request old := by
  intro hsite request hq
  refine hcons hsite request hq old ?_
  rw [hold]
  exact M.task.decode_encode old

theorem approves_of_length {ds : List Decision} {n : ℕ} (hlen : ds.length ≤ n)
    (hn : (ds.filter Decision.approves).length = n) : ∀ d ∈ ds, d.approves := by
  have hle : (ds.filter Decision.approves).length ≤ ds.length := List.length_filter_le ..
  apply List.length_filter_eq_length_iff.mp
  omega

theorem approves_of_decided {task : Task} (hlen : task.decisions.length ≤ task.participants.length)
    (hd : TaskService.isDecided task) (hno : TaskService.anyoneRejected task = false) :
    ∀ d ∈ task.decisions, d.approves := by
  have hvalid : (task.decisions.filter Decision.isValid).length = task.participants.length := by
    simpa [TaskService.isDecided,hno] using hd
  have hle : (task.decisions.filter Decision.isValid).length ≤ task.decisions.length :=
    List.length_filter_le ..
  have hall : ∀ d ∈ task.decisions, d.isValid := by
    apply List.length_filter_eq_length_iff.mp
    omega
  intro d hmem
  have hv := hall d hmem
  rw [Decision.isValid_eq,Bool.or_eq_true] at hv
  refine hv.resolve_right fun hrej => ?_
  have hpos : 0 < (task.decisions.filter Decision.rejects).length :=
    List.length_pos_of_mem (List.mem_filter.mpr ⟨hmem,hrej⟩)
  rw [TaskService.anyoneRejected,decide_eq_false_iff_not] at hno
  exact hno hpos

theorem approves_of_keeps {old new : Task} (hk : Keeps (fun _ => True) old new)
    (hlen : new.decisions.length = old.decisions.length) (ha : ∀ d ∈ old.decisions, d.approves) :
    ∀ d ∈ new.decisions, d.approves := by
  intro e he
  obtain ⟨j,hj,rfl⟩ := List.mem_iff_getElem.mp he
  have happ : (old.decisions[j]).approves := ha _ (List.getElem_mem (hlen ▸ hj))
  have hv : (old.decisions[j]).isValid := by rw [Decision.isValid_eq,happ,Bool.true_or]
  obtain ⟨e,he,hs⟩ := hk j _ trivial (List.getElem?_eq_getElem (hlen ▸ hj)) hv
  rw [List.getElem?_eq_getElem hj] at he
  obtain rfl := Option.some.inj he
  rw [hs.approves]
  exact happ

/-- The record has no decisions without a participant, and once it is started all approve. -/
structure Whole (task : Task) : Prop where
  fits : task.decisions.length ≤ task.participants.length
  approved : task.status = "started" → ∀ d ∈ task.decisions, d.approves

def WholeWrite (M : Prost) (w : Write) (_ : List TaskAction) : Prop :=
  ∀ id, ¬ Reserved id → w.key = recordKey id → ∀ task ∈ M.task.decode w.payload,
    task.requireAgreement → Whole task

/-- The record has left the state in which it awaits the user, and everybody has approved. -/
def Approved (M : Prost) (payload : Option Bytes) : Prop := ∃ task, payload = some (M.task.encode task) ∧
  task.status ≠ "waiting" ∧ ∀ d ∈ task.decisions, d.approves

theorem approved_of_changes {old new : Task} {site : Site} {past : List TaskEvent}
    (hch : Changes M q u past old site new)
    (ha : site = .merge → ∀ request ∈ q.call.synced, Agrees u request old)
    (hwait : old.status ≠ "waiting") (happ : ∀ d ∈ old.decisions, d.approves) :
    new.status ≠ "waiting" ∧ ∀ d ∈ new.decisions, d.approves := by
  have hkeeps := (keeps_of_changes hch ha).2
  cases hch with
  | merge sync direct agreement taken =>
    have hno : ¬ ∃ request, q.call = .confirmTask request := by
      rintro ⟨request,hq⟩
      rw [hq] at sync
      cases sync
    exact ⟨hwait,approves_of_keeps (hkeeps hno) taken.length happ⟩
  | decide =>
    refine ⟨?_,happ⟩
    dsimp only
    split_ifs <;> decide
  | confirm call decision reported waiting => exact absurd waiting hwait
  | finish => exact ⟨by simp,happ⟩

section Runs

variable (hc : D.Reach c) (ho : Everywhere (OnWrites (Settled D.prost)) c.state.history)
include hc ho

theorem approved_preserved {id : String} (hid : ¬ Reserved id) (i : ℕ) (u : String) :
    Everywhere (OnWrites fun w past => w.request.core = i → w.user = u → w.key = recordKey id →
      Approved D.prost (stored i u (recordKey id) past) → Approved D.prost (some w.payload))
      c.state.history := by
  refine everywhere_of_write fun t q site u' k payload r past hs _ => ?_
  rintro rfl rfl rfl ⟨old,hold,hwait,happ⟩
  obtain ⟨new,rfl,-,hv⟩ := version_of_write hc (tidy_of_settled ho) (first_of_settled hc ho) hid hs
  have hagree := agrees_of_consistent (everywhere_writes ho hs).2.2.2 hold
  rw [hold] at hv
  generalize hb : some (D.prost.task.encode old) = before at hv
  cases hv with
  | first => cases hb
  | next changes =>
    obtain rfl := D.prost.task.encode_inj (Option.some.inj hb)
    exact ⟨new,rfl,approved_of_changes changes hagree hwait happ⟩

/-- A verdict to start a task is carried out on a record that everybody has approved. -/
theorem approved_at_verdict (hwhole : Everywhere (OnWrites (WholeWrite D.prost)) h) {id : String}
    (hid : ¬ Reserved id) {payload : Bytes} {r : Except UpdateError String}
    (hs : .op t q (.storageUpdate .decide u (recordKey id) payload) r :: h <:+ c.state.history)
    {merged : Task} {r' : Except UpdateError String}
    (hm : ⟨.storageUpdate .merge u (recordKey merged.taskId) (D.prost.task.encode merged),r'⟩ ∈
      events t h) (hd : TaskService.isDecided merged)
    (hno : TaskService.anyoneRejected merged = false) :
    Approved D.prost (stored q.core u (recordKey id) h) := by
  have htidy := tidy_of_settled ho
  have hfirst := first_of_settled hc ho
  have hh : h <:+ c.state.history := (List.suffix_cons _ _).trans hs
  obtain ⟨later,earlier,rfl,rfl,hagree⟩ := merged_before hc htidy hid
    (firstSince_of_first hfirst) hs hm
  have hs' := List.suffix_append later (.op t q (.storageUpdate .merge u (recordKey merged.taskId)
    (D.prost.task.encode merged)) r' :: earlier)
  have hw : Whole merged := everywhere_writes hwhole hs' _ hid rfl merged
    (D.prost.task.decode_encode merged) hagree
  have hwait : merged.status ≠ "waiting" := by
    intro hst
    have hopen := everywhere_writes (openVersion hc htidy hfirst
      (ho.mono fun _ _ hh w hw => (hh w hw).2.2.1)) (hs'.trans hh) _ hid rfl merged
      (D.prost.task.decode_encode merged) hagree (by simp [hst])
    rw [rejected_of_undecided hopen hd] at hno
    cases hno
  refine stored_preserves ((approved_preserved hc ho hid q.core u).suffix hh)
    (List.suffix_append later _) ?_
  exact ⟨merged,stored_write .., hwait,approves_of_decided hw.fits hd hno⟩

theorem whole : Everywhere (OnWrites (WholeWrite D.prost)) c.state.history := by
  refine everywhere_of_write fun t q site u k payload r past hs ih => ?_
  rintro id hid rfl task hd hagree
  have htidy := tidy_of_settled ho
  have hfirst := first_of_settled hc ho
  obtain ⟨new,rfl,hnew,hv⟩ := version_of_write hc htidy hfirst hid hs
  obtain rfl : new = task := Option.some.inj ((D.prost.task.decode_encode new).symm.trans hd)
  generalize hst : stored q.core u (recordKey id) past = before at hv
  cases hv with
  | first hsite hstores =>
    cases hstores with
    | @create request id' bs d call introduced made room =>
      refine ⟨?_,fun hstarted d' hd' => ?_⟩
      · show ((newTask request id').decisions.set 0 d).length ≤ _
        rw [List.length_set]
        exact (TaskService.length_resize _ _).le
      · have hone : request.participants.length = 1 := by
          have hle : request.participants.length ≤ 1 := by
            by_contra hgt
            simp only [newTask] at hstarted hagree
            simp [hagree,not_le.mp hgt] at hstarted
          omega
        obtain ⟨j,hj⟩ := List.mem_iff_getElem?.mp hd'
        have hlen : (newTask request id').decisions.length = 1 :=
          (TaskService.length_resize _ _).trans hone
        have hzero : j = 0 := by
          have hlt := (List.getElem?_eq_some_iff.mp hj).1
          rw [List.length_set] at hlt
          omega
        subst hzero
        rw [List.getElem?_set_self (by omega)] at hj
        obtain rfl := Option.some.inj hj
        have hf := made_flags hc hs made
        simp [Decision.approves,hf.1,hf.2]
    | query introduced => cases hagree
    | admission =>
      have hu := (everywhere_writes ho hs).2.2.1 rfl _ (D.prost.task.decode_encode _) hagree
      exact ⟨hu.2.1,fun hw => absurd hw (by simp)⟩
    | _ => simp at hsite
  | @next old changes id_eq =>
    have hold (hag : old.requireAgreement) : Whole old := by
      obtain ⟨t',q',site',r',past',-,hw⟩ := write_of_stored hst
      exact everywhere_writes ih hw id hid rfl old (D.prost.task.decode_encode old) hag
    have hkeeps := keeps_of_changes changes (agrees_of_consistent (everywhere_writes ho hs).2.2.2 hst)
    cases changes with
    | @merge request ds sync direct agreement taken =>
      have hw := hold agreement
      have hno : ¬ ∃ request, q.call = .confirmTask request := by
        rintro ⟨request,hq⟩
        rw [hq] at sync
        cases sync
      exact ⟨taken.length ▸ hw.fits,fun hstarted =>
        approves_of_keeps (hkeeps.2 hno) taken.length (hw.approved hstarted)⟩
    | @decide request merged r' sync direct stored undecided verdict =>
      refine ⟨(hold hagree).fits,fun hstarted => ?_⟩
      have hno : TaskService.anyoneRejected merged = false := by
        by_contra hrej
        simp [hrej] at hstarted
      obtain ⟨old',hold',-,happ⟩ := approved_at_verdict hc ho ih hid hs stored verdict hno
      obtain rfl := D.prost.task.encode_inj (Option.some.inj (hst.symm.trans hold'))
      exact happ
    | @confirm request ud s ds call decision reported waiting entered =>
      have hfits : ds.length ≤ old.participants.length := entered.1 ▸ (hold hagree).fits
      refine ⟨hfits,fun hstarted => approves_of_length hfits ?_⟩
      by_contra hne
      have hkept : TaskService.confirmedStatus s { old with decisions := ds } = s := by
        unfold TaskService.confirmedStatus
        have hagree' : old.requireAgreement := hagree
        simp [hagree',hne]
      rw [hkept] at hstarted
      rcases userStatus_mem reported with hs' | hs' | ⟨hs',-⟩
      all_goals simp [hs'] at hstarted
    | finish => exact ⟨(hold hagree).fits,fun hf => absurd hf (by simp)⟩

theorem stored_of_record (hu : NoColon u) {id : String} {task : Task}
    (hr : task ∈ recordOf D.prost c.state.shared i u id) (hagree : task.requireAgreement) :
    ¬ Reserved id ∧ stored i u (recordKey id) c.state.history = some (D.prost.task.encode task) := by
  rw [recordOf,read_eq_stored hc hu (guarded_recordKey id)] at hr
  obtain ⟨payload,hst,hd⟩ := Option.bind_eq_some_iff.mp hr
  obtain ⟨t,q,site,r,past,-,hw⟩ := write_of_stored hst
  have hkept := everywhere_writes (kept hc (tidy_of_settled ho)) hw
  obtain ⟨rfl,-,-,hid⟩ := task_of_kept hkept hd (.inr (.inl hagree))
  exact ⟨hid,hst⟩

theorem whole_of_record (hu : NoColon u) {id : String} {task : Task}
    (hr : task ∈ recordOf D.prost c.state.shared i u id) (hagree : task.requireAgreement) :
    Whole task := by
  obtain ⟨hid,hst⟩ := stored_of_record hc ho hu hr hagree
  obtain ⟨t,q,site,r,past,-,hw⟩ := write_of_stored hst
  exact everywhere_writes (whole hc ho) hw id hid rfl task (D.prost.task.decode_encode task) hagree

end Runs

/-- A step changes a record of a task as a whole, if at all. -/
theorem keeps_step (hc : D.Reach c) {a : TaskAction} {c' : TaskConfig} (hs : D.system.Step c a c')
    (ho : Everywhere (OnWrites (Settled D.prost)) c'.state.history) (hu : NoColon u) {id : String}
    {old : Task} (hold : old ∈ recordOf D.prost c.state.shared i u id) (hagree : old.requireAgreement) :
    ∃ new ∈ recordOf D.prost c'.state.shared i u id, new.terms = old.terms ∧
      Keeps (IsOther u old) old new ∧ (¬ Confirms a → Keeps (fun _ => True) old new) := by
  have hc' := hc.step hs
  have ho' : Everywhere (OnWrites (Settled D.prost)) c.state.history := by
    rw [hs.history] at ho
    exact ho.2
  obtain ⟨hid,hst⟩ := stored_of_record hc ho' hu hold hagree
  have hself (φ : ℕ → Prop) : Keeps φ old old := fun j d _ hd _ => ⟨d,hd,.refl d⟩
  rw [recordOf,read_eq_stored hc' hu (guarded_recordKey id)]
  by_cases hsp : Spares i u (recordKey id) a
  · rw [hs.history,stored_cons_of_spares hsp,hst]
    exact ⟨old,D.prost.task.decode_encode old,rfl,hself _,fun _ => hself _⟩
  · obtain ⟨t,q,site,payload,r,rfl,rfl⟩ := write_of_not_spares hsp
    have hsuf : .op t q (.storageUpdate site u (recordKey id) payload) r :: c.state.history <:+
        c'.state.history := by rw [hs.history]
    obtain ⟨new,rfl,-,hv⟩ := version_of_write hc' (tidy_of_settled ho) (first_of_settled hc' ho)
      hid hsuf
    have hcons := agrees_of_consistent (everywhere_writes ho hsuf).2.2.2 hst
    rw [hst] at hv
    generalize hb : some (D.prost.task.encode old) = before at hv
    cases hv with
    | first => cases hb
    | next changes =>
      obtain rfl := D.prost.task.encode_inj (Option.some.inj hb)
      have hk := keeps_of_changes changes hcons
      rw [hs.history,stored_write]
      exact ⟨new,D.prost.task.decode_encode new,changes_terms changes,hk⟩

theorem Keeps.trans {φ : ℕ → Prop} {old mid new : Task} (h : Keeps φ old mid) (h' : Keeps φ mid new) :
    Keeps φ old new := by
  intro j d hj hd hv
  obtain ⟨e,he,hs⟩ := h j d hj hd hv
  obtain ⟨f,hf,hs'⟩ := h' j e hj he (hs.isValid.trans hv)
  exact ⟨f,hf,hs.trans hs'⟩

theorem Keeps.trans_other {old mid new : Task} (hterms : mid.terms = old.terms)
    (h : Keeps (IsOther u old) old mid) (h' : Keeps (IsOther u mid) mid new) :
    Keeps (IsOther u old) old new := by
  have hp : mid.participants = old.participants := (Task.eq_of_terms_eq hterms).2.2.1
  have hother : IsOther u mid = IsOther u old := by
    funext j
    rw [IsOther,IsOther,hp]
  rw [hother] at h'
  exact h.trans h'

theorem keeps_run (hc : D.Reach c) {c' : TaskConfig}
    (hsteps : Relation.ReflTransGen (fun c c' => ∃ a, D.system.Step c a c') c c')
    (ho : Everywhere (OnWrites (Settled D.prost)) c'.state.history) (hu : NoColon u) {id : String}
    {old : Task} (hold : old ∈ recordOf D.prost c.state.shared i u id) (hagree : old.requireAgreement) :
    D.Reach c' ∧ ∃ new ∈ recordOf D.prost c'.state.shared i u id, new.terms = old.terms ∧
      Keeps (IsOther u old) old new := by
  induction hsteps with
  | refl => exact ⟨hc,old,hold,rfl,fun j d _ hd _ => ⟨d,hd,.refl d⟩⟩
  | @tail c₁ c₂ _ hs ih =>
    obtain ⟨a,hs⟩ := hs
    have hprev : Everywhere (OnWrites (Settled D.prost)) c₁.state.history := by
      rw [hs.history] at ho
      exact ho.2
    obtain ⟨hc₁,mid,hmid,hterms,hk⟩ := ih hprev
    have hagree' : mid.requireAgreement := by rwa [(Task.eq_of_terms_eq hterms).2.2.2.1]
    obtain ⟨new,hnew,hterms',hk',-⟩ := keeps_step hc₁ hs ho hu hmid hagree'
    exact ⟨hc₁.step hs,new,hnew,hterms'.trans hterms,hk.trans_other hterms hk'⟩

/-- In every settled run no message replaces an approval or a rejection by anything else, those of
the other participants stay whatever happens, and a started task has been approved by all. -/
theorem decisions_final (D : Deployment) (hu : NoColon u) (i : ℕ) (id : String) :
    (∀ (c : TaskConfig) (a : TaskAction) (c' : TaskConfig), D.Reach c → D.system.Step c a c' →
      Everywhere (OnWrites (Settled D.prost)) c'.state.history → ¬ Confirms a →
      ∀ old ∈ recordOf D.prost c.state.shared i u id, old.requireAgreement →
      ∃ new ∈ recordOf D.prost c'.state.shared i u id, Keeps (fun _ => True) old new) ∧
    (∀ c c' : TaskConfig, D.Reach c →
      Relation.ReflTransGen (fun c c' => ∃ a, D.system.Step c a c') c c' →
      Everywhere (OnWrites (Settled D.prost)) c'.state.history →
      ∀ old ∈ recordOf D.prost c.state.shared i u id, old.requireAgreement →
      ∃ new ∈ recordOf D.prost c'.state.shared i u id, Keeps (IsOther u old) old new) ∧
    ∀ c : TaskConfig, D.Reach c → Everywhere (OnWrites (Settled D.prost)) c.state.history →
      ∀ task ∈ recordOf D.prost c.state.shared i u id, task.requireAgreement →
      task.status = "started" → ∀ d ∈ task.decisions, d.approves := by
  refine ⟨fun c a c' hc hs ho hno old hold hagree => ?_,fun c c' hc hsteps ho old hold hagree => ?_,
    fun c hc ho task hr hagree => (whole_of_record hc ho hu hr hagree).approved⟩
  · obtain ⟨new,hnew,-,-,hk⟩ := keeps_step hc hs ho hu hold hagree
    exact ⟨new,hnew,hk hno⟩
  · obtain ⟨-,new,hnew,-,hk⟩ := keeps_run hc hsteps ho hu hold hagree
    exact ⟨new,hnew,hk⟩

/-- User 08 decides about the task, and its core sends the decision. -/
def sampleReply (isApproved isRejected : Bool) : TaskCall :=
  let decision := makeDecision Primitives.ideal Prost.selfDelimiting (Deployment.ideal.keys 0)
    isApproved isRejected "again" (sampleTask "id" [])
    (Prost.selfDelimiting.userConsent.encode (sampleConsent 8))
  .interCoreSyncTask { taskId := "id", decisions := decision.toOption.toList ++ [default] }

/-- User 07 approves a task of user 08, up to the moment when 08 has decided once more. -/
def decideAgain (isApproved isRejected : Bool) : List Move := Move.settle 7 ++
  [.start 0 (.ofGuest 7 (sampleOffer (sampleTask "id" []) [])),.run 0 13,
    .start 1 (.ofUser 7 sampleApproval),.run 1 18,
    .start 2 (.ofGuest 7 (sampleReply isApproved isRejected)),.run 2 7]

def recordIn (id : String) (h : List TaskAction) : Option Task :=
  (stored 0 "07" (recordKey id) h).bind Prost.selfDelimiting.task.decode

theorem recordOf_eq (hc : Deployment.ideal.Reach c) (id : String) :
    recordOf Prost.selfDelimiting c.state.shared 0 "07" id = recordIn id c.state.history := by
  rw [recordOf,read_eq_stored hc (by decide) (guarded_recordKey id),recordIn]

/-- A started record, with what the decisions in it say. -/
def startedWith (approvals : List Bool) (task : Task) : Prop := task.requireAgreement ∧
  task.status = "started" ∧ task.decisions.map Decision.approves = approvals

instance (approvals : List Bool) (task : Task) : Decidable (startedWith approvals task) :=
  inferInstanceAs (Decidable (_ ∧ _ ∧ _))

/-- The last step of a play finds a started record that all have approved, and leaves this one. -/
def staysStarted (approvals : List Bool) (a : TaskAction) (past : List TaskAction) : Bool :=
  (recordIn "id" past).any (fun old => decide (startedWith [true,true] old)) &&
    (recordIn "id" (a :: past)).any fun new => decide (startedWith approvals new)

def syncs : TaskAction → Bool
  | .op _ q _ _ => q.call.synced.isSome
  | _ => false

theorem not_confirms_of_syncs {a : TaskAction} (ha : syncs a) : ¬ Confirms a := by
  cases a with
  | op t q o r =>
    rintro ⟨request,hq⟩
    simp [syncs,hq,TaskCall.synced] at ha
  | _ => exact id

theorem decideAgain_run {isApproved isRejected : Bool} {approvals : List Bool}
    {check : TaskAction → List TaskAction → Bool}
    (hrun : (Play.moves (decideAgain isApproved isRejected) {}).any (Play.newest fun a past =>
      staysStarted approvals a past && syncs a && check a past)) : ∃ c a c' old new, Deployment.ideal.Reach c ∧
      Deployment.ideal.system.Step c a c' ∧ ¬ Confirms a ∧ check a c.state.history ∧
      old ∈ recordOf Prost.selfDelimiting c.state.shared 0 "07" "id" ∧
      new ∈ recordOf Prost.selfDelimiting c'.state.shared 0 "07" "id" ∧
      startedWith [true,true] old ∧ startedWith approvals new := by
  obtain ⟨c,a,c',hc,hs,hcheck⟩ := Play.run_step hrun
  simp only [staysStarted,Bool.and_eq_true,Option.any_eq_true,decide_eq_true_eq] at hcheck
  obtain ⟨⟨⟨⟨old,hold,hso⟩,⟨new,hnew,hsn⟩⟩,ha⟩,hch⟩ := hcheck
  refine ⟨c,a,c',old,new,hc,hs,not_confirms_of_syncs ha,hch,?_,?_,hso,hsn⟩
  · rw [recordOf_eq hc "id"]
    exact hold
  · rw [recordOf_eq (hc.step hs) "id",hs.history]
    exact hnew

/-- User 08 approves once more. -/
theorem decisions_final_sample : ∃ c a c' old new, Deployment.ideal.Reach c ∧
    Deployment.ideal.system.Step c a c' ∧
    old ∈ recordOf Prost.selfDelimiting c.state.shared 0 "07" "id" ∧
    new ∈ recordOf Prost.selfDelimiting c'.state.shared 0 "07" "id" ∧
    Keeps (fun _ => True) old new ∧ Keeps (IsOther "07" old) old new ∧
    new.status = "started" ∧ ∀ d ∈ new.decisions, d.approves := by
  obtain ⟨c,a,c',old,new,hc,hs,hno,hcheck,hold,hnew,hso,hsn⟩ := @decideAgain_run true false [true,true]
    (fun a past => decide (Everywhere (OnWrites (Settled Prost.selfDelimiting)) (a :: past)))
    (by decide +kernel)
  have ho : Everywhere (OnWrites (Settled Prost.selfDelimiting)) c'.state.history := by
    rw [hs.history]
    exact of_decide_eq_true hcheck
  have hall := decisions_final Deployment.ideal (u := "07") (by decide) 0 "id"
  obtain ⟨new',hnew',hk⟩ := hall.1 c a c' hc hs ho hno old hold hso.1
  obtain ⟨new'',hnew'',hk'⟩ := hall.2.1 c c' hc (.single ⟨a,hs⟩) ho old hold hso.1
  obtain rfl := Option.some.inj (hnew'.symm.trans hnew)
  obtain rfl := Option.some.inj (hnew''.symm.trans hnew')
  exact ⟨c,a,c',old,_,hc,hs,hold,hnew,hk,hk',hsn.2.1,
    hall.2.2 c' (hc.step hs) ho _ hnew hsn.1 hsn.2.1⟩

/-- User 08 rejects a task that has been started with its approval. -/
theorem decision_replaced : ∃ c a c' old new, Deployment.ideal.Reach c ∧
    Deployment.ideal.system.Step c a c' ∧ ¬ Confirms a ∧
    old ∈ recordOf Prost.selfDelimiting c.state.shared 0 "07" "id" ∧
    new ∈ recordOf Prost.selfDelimiting c'.state.shared 0 "07" "id" ∧ old.requireAgreement ∧
    ¬ Keeps (fun _ => True) old new ∧
    new.status = "started" ∧ ¬ ∀ d ∈ new.decisions, d.approves := by
  obtain ⟨c,a,c',old,new,hc,hs,hno,-,hold,hnew,hso,hsn⟩ := @decideAgain_run false true [false,true]
    (fun _ _ => true) (by decide +kernel)
  have hnot : ¬ ∀ d ∈ new.decisions, d.approves := by
    intro hall
    have hm : false ∈ new.decisions.map Decision.approves := by rw [hsn.2.2]; decide
    obtain ⟨d,hd,hf⟩ := List.mem_map.mp hm
    rw [hall d hd] at hf
    cases hf
  refine ⟨c,a,c',old,new,hc,hs,hno,hold,hnew,hso.1,fun hk => hnot ?_,hsn.2.1,hnot⟩
  refine approves_of_keeps hk ?_ fun d hd => ?_
  · have hn := congrArg List.length hsn.2.2
    have ho := congrArg List.length hso.2.2
    simp only [List.length_map] at hn ho
    rw [hn,ho]
    rfl
  · have hm : d.approves ∈ old.decisions.map Decision.approves := List.mem_map_of_mem hd
    rw [hso.2.2] at hm
    simpa using hm

end FinalDecisions
end CoLinkServer
