import CoLinkServer.TaskVersions

/-! Runs in which all cores run this code: every user has one core, what comes from another core has
been sent by one, and no message is handled twice. What a message is then goes back to the steps
that have sent it. -/
namespace CoLinkServer

open Interleaving

namespace HonestMessages

open TaskRecords TaskTraces

variable {D : Deployment} {c : TaskConfig} {home : String → ℕ} {t : ℕ} {q : Request}
  {h : List TaskAction} {a : TaskAction} {e : Envelope}

def envelopeOf : TaskAction → Option Envelope
  | .op _ _ (.post m) _ => some ⟨m.target,m.forwardingTarget,m.reverse,m.task⟩
  | .op _ _ (.sendersSend _ v task) (.ok _) => some ⟨v,none,false,task⟩
  | _ => none

def envelopes (h : List TaskAction) : List Envelope := (h.filterMap envelopeOf).reverse

theorem envelopes_cons (a : TaskAction) (h : List TaskAction) :
    envelopes (a :: h) = envelopes h ++ (envelopeOf a).toList := by
  cases he : envelopeOf a <;> simp [envelopes,he]

theorem sent_eq (hc : D.Reach c) : c.state.shared.sent = envelopes c.state.history := by
  induction hc with
  | init hx => exact hx.2.1
  | step _ s ih =>
    rw [s.history,envelopes_cons,← ih]
    cases s with
    | start fresh begins =>
      obtain ⟨-,-,rfl⟩ := begins
      simp [envelopeOf]
    | env moves => cases moves <;> simp [envelopeOf]
    | op runs does => cases does <;> simp [envelopeOf]

theorem sending_of_number {n : ℕ} (he : (envelopes h)[n]? = some e) :
    ∃ a past, a :: past <:+ h ∧ envelopeOf a = some e ∧ (envelopes past).length = n := by
  induction h with
  | nil => cases he
  | cons a h ih =>
    by_cases hn : n < (envelopes h).length
    · rw [envelopes_cons,List.getElem?_append_left hn] at he
      obtain ⟨b,past,hs,hb⟩ := ih he
      exact ⟨b,past,hs.trans (List.suffix_cons _ _),hb⟩
    · rw [envelopes_cons,List.getElem?_append_right (Nat.le_of_not_lt hn)] at he
      cases ha : envelopeOf a with
      | none => simp [ha] at he
      | some e' =>
        rw [ha] at he
        obtain ⟨hz,rfl⟩ : n - (envelopes h).length = 0 ∧ e' = e := by
          simpa [List.getElem?_singleton] using he
        exact ⟨a,h,List.suffix_rfl,ha,by omega⟩

def requestOf : TaskAction → Option Request
  | .start _ q => some q
  | _ => none

/-- The users of a core send it their requests, and what comes from another core is a message that
nobody has handled. -/
def Honest (home : String → ℕ) (a : TaskAction) (past : List TaskAction) : Prop :=
  ∀ q ∈ requestOf a, (∀ u ∈ q.metadata.userId, q.core = home u) ∧
    (q.call.synced.isSome → q.message.isSome) ∧
    ∀ n ∈ q.message, ∀ b ∈ past, ∀ q' ∈ requestOf b, q'.message ≠ some n

instance (home : String → ℕ) (a : TaskAction) (past : List TaskAction) :
    Decidable (Honest home a past) :=
  inferInstanceAs (Decidable (∀ q ∈ requestOf a, (∀ u ∈ _, _) ∧ (_ → _) ∧
    ∀ n ∈ _, ∀ b ∈ past, ∀ q' ∈ requestOf b, _))

theorem started (hc : D.Reach c) {o : Op} {r : Res o} (hs : .op t q o r :: h <:+ c.state.history) :
    ∃ past, .start t q :: past <:+ h := by
  have hm : .start t q ∈ h := by
    obtain ⟨c₀,x,hc₀,rfl,⟨k,runs⟩,-⟩ := exec_before hc hs
    exact ((hc₀.history_thread t).2 q _ runs).1
  exact suffix_of_mem hm

theorem core_eq (hc : D.Reach c) (ho : Everywhere (Honest home) c.state.history) {o : Op} {r : Res o}
    (hs : .op t q o r :: h <:+ c.state.history) {u : String} (hu : q.metadata.userId = some u) :
    q.core = home u := by
  obtain ⟨past,hstart⟩ := started hc hs
  exact (everywhere_iff.mp ho _ _ (hstart.trans ((List.suffix_cons _ _).trans hs)) q rfl).1 u hu

theorem arrival (hc : D.Reach c) (ho : Everywhere (Honest home) c.state.history)
    (hs : .start t q :: h <:+ c.state.history) {request : Task} (hq : q.call.synced = some request) :
    ∃ b past e, b :: past <:+ h ∧ envelopeOf b = some e ∧
      q.message = some (envelopes past).length ∧ e.task = request ∧
      q.metadata.forwardingTarget = e.forwardingTarget.map .ofStr ∧
      (e.forwardingTarget = none → q.metadata.userId = some e.target) := by
  obtain ⟨-,hmessage,-⟩ := everywhere_iff.mp ho _ _ hs q rfl
  obtain ⟨n,hn⟩ := Option.isSome_iff_exists.mp (hmessage (by rw [hq]; rfl))
  obtain ⟨c₀,c₁,hc₀,rfl,hstep,-⟩ := hc.before hs
  cases hstep with
  | start fresh begins =>
    obtain ⟨e,he,hcall,hforward,huser⟩ := begins.2.1 n hn
    rw [sent_eq hc₀] at he
    obtain ⟨b,past,hb,hbe,hlen⟩ := sending_of_number he
    refine ⟨b,past,e,hb,hbe,hlen ▸ hn,?_,hforward,huser⟩
    rw [hcall] at hq
    cases hr : e.reverse <;> simpa [hr,TaskCall.synced] using hq

theorem handled_once (ho : Everywhere (Honest home) h) {t' : ℕ} {q' : Request} {n : ℕ}
    (hm : .start t q ∈ h) (hm' : .start t' q' ∈ h) (hn : q.message = some n)
    (hn' : q'.message = some n) : t = t' := by
  have hno {t t' : ℕ} {q q' : Request} {past : List TaskAction} (hs : .start t q :: past <:+ h)
      (hm : .start t' q' ∈ past) (hn : q.message = some n) (hn' : q'.message = some n) : False :=
    (everywhere_iff.mp ho _ _ hs q rfl).2.2 n hn _ hm q' rfl hn'
  rcases before_or_after hm hm' with he | ⟨past,hs,hin⟩ | ⟨past,hs,hin⟩
  · exact (Action.start.inj he).1
  · exact (hno hs hin hn hn').elim
  · exact (hno hs hin hn' hn).elim

theorem sends_of_envelope (hc : D.Reach c) (hs : a :: h <:+ c.state.history)
    (ha : envelopeOf a = some e) : ∃ t q o r u, a = .op t q o r ∧
      (e.forwardingTarget = none ∨ e.forwardingTarget = some e.target) ∧ ActsFor q u (events t h) ∧
      Sends D.prost q u (events t h) e.target e.task := by
  cases a with
  | op t q o r =>
    have hob := obligation hc hs
    cases o with
    | post m =>
      obtain rfl := Option.some.inj ha
      obtain ⟨hforward,u,hu,hsends⟩ := hob
      exact ⟨t,q,_,r,u,rfl,hforward,hu,hsends⟩
    | sendersSend u v task =>
      cases r with
      | error e => cases ha
      | ok w =>
        obtain rfl := Option.some.inj ha
        exact ⟨t,q,_,_,u,rfl,.inl rfl,hob.1,hob.2⟩
    | _ => cases ha
  | _ => cases ha

/-- The record of a task is only written under an id that has been generated. -/
def Generated (w : Write) (_ : List TaskAction) : Prop := w.site ∉ [Site.list,.latest] →
  ∀ id, w.key = recordKey id → NoColon id

/-- The id of a message is one that has been generated. -/
def Names (a : TaskAction) (_ : List TaskAction) : Prop := ∀ e ∈ envelopeOf a, NoColon e.task.taskId

theorem noColon_of_change (hc : D.Reach c) (htidy : Everywhere (OnWrites Tidy) c.state.history)
    (hg : Everywhere (OnWrites Generated) h) {site : Site} {u id : String} {payload : Bytes}
    {r : Except UpdateError String}
    (hs : .op t q (.storageUpdate site u (recordKey id) payload) r :: h <:+ c.state.history)
    (hsite : site ∈ [Site.merge,.decide,.confirm,.finish]) : NoColon id := by
  have hk := kept hc htidy
  obtain ⟨old,new,-,-,-,hres,-,hread,-⟩ := change_of_write hc hk hs hsite
  obtain ⟨q',hm⟩ := mem_events.mp hread
  obtain ⟨past,hp⟩ := suffix_of_mem hm
  have hh : h <:+ c.state.history := (List.suffix_cons _ _).trans hs
  have hst := stored_of_read hc (writer_noColon hc hs) (guarded_recordKey id) (hp.trans hh)
  obtain ⟨t',q'',site',r',past',-,hw⟩ := write_of_stored hst
  have hw' := hw.trans ((List.suffix_cons _ _).trans hp)
  refine everywhere_writes hg hw' (fun hlist => hres ?_) id rfl
  rcases writer_of_record hc hk (hw'.trans hh) with ⟨hno,-⟩ | ⟨hno,-⟩ | ⟨-,hr⟩
  · simp only [List.mem_cons,List.not_mem_nil,or_false,not_or] at hno hlist
    tauto
  · simp only [List.mem_cons,List.not_mem_nil,or_false] at hno hlist
    rcases hlist with rfl | rfl <;> simp at hno
  · exact hr

theorem noColon_of_synced (hc : D.Reach c) (ho : Everywhere (Honest home) c.state.history)
    (hn : Everywhere Names h) {o : Op} {r : Res o} (hs : .op t q o r :: h <:+ c.state.history)
    {request : Task} (hq : q.call.synced = some request) : NoColon request.taskId := by
  obtain ⟨past,hstart⟩ := started hc hs
  obtain ⟨b,before,e,hb,hbe,-,rfl,-⟩ := arrival hc ho (hstart.trans ((List.suffix_cons _ _).trans hs)) hq
  exact everywhere_iff.mp hn _ _ (hb.trans ((List.suffix_cons _ _).trans hstart)) e hbe

theorem names_of_sends (hc : D.Reach c) (ho : Everywhere (Honest home) c.state.history)
    (hg : Everywhere (OnWrites Generated) h) (hn : Everywhere Names h)
    (hs : a :: h <:+ c.state.history) : Names a h := by
  intro e he
  obtain ⟨t,q,o,r,u,rfl,-,-,hsends⟩ := sends_of_envelope hc hs he
  have hstored {site : Site} (task : Task) {r' : Except UpdateError String}
      (hm : ⟨.storageUpdate site u (recordKey task.taskId) (D.prost.task.encode task),r'⟩ ∈ events t h)
      (hsite : site ∉ [Site.list,.latest]) : NoColon task.taskId := by
    obtain ⟨q',hm⟩ := mem_events.mp hm
    obtain ⟨past,hp⟩ := suffix_of_mem hm
    exact everywhere_writes hg hp hsite _ rfl
  generalize e.target = target, e.task = sent at hsends
  cases hsends with
  | create call stored => exact hstored _ stored (by decide)
  | @confirm task _ _ stored => exact hstored task stored (by decide)
  | broadcast stored => exact hstored _ stored (by decide)
  | forward sync => exact noColon_of_synced hc ho hn hs sync

theorem op_of_write {w : Write} (hw : writeOf a = some w) : ∃ t q site u k payload r,
    a = .op t q (.storageUpdate site u k payload) r ∧ w = ⟨t,q,site,u,k,payload⟩ := by
  cases a with
  | op t q o r =>
    cases o with
    | storageUpdate site u k payload => exact ⟨t,q,site,u,k,payload,r,rfl,(Option.some.inj hw).symm⟩
    | _ => cases hw
  | _ => cases hw

theorem tidy_of_write (hc : D.Reach c) (ho : Everywhere (Honest home) c.state.history)
    (hn : Everywhere Names h) {site : Site} {u k : String} {payload : Bytes}
    {r : Except UpdateError String}
    (hs : .op t q (.storageUpdate site u k payload) r :: h <:+ c.state.history) :
    Tidy ⟨t,q,site,u,k,payload⟩ h := by
  rintro rfl hm
  obtain ⟨-,task,rfl,-,hst⟩ := obligation hc hs
  rw [recordKey_mem_reservedKeys] at hm
  cases hst with
  | admission sync => exact not_reserved_of_noColon (noColon_of_synced hc ho hn hs sync) hm

theorem generated_of_write (hc : D.Reach c) (ho : Everywhere (Honest home) c.state.history)
    (htidy : Everywhere (OnWrites Tidy) c.state.history) (hg : Everywhere (OnWrites Generated) h)
    (hn : Everywhere Names h) {site : Site} {u k : String} {payload : Bytes}
    {r : Except UpdateError String}
    (hs : .op t q (.storageUpdate site u k payload) r :: h <:+ c.state.history) :
    Generated ⟨t,q,site,u,k,payload⟩ h := by
  intro hsite id hkey
  obtain rfl : k = recordKey id := hkey
  have hh := (List.suffix_cons _ _).trans hs
  have hob := obligation hc hs
  cases site with
  | list => simp at hsite
  | latest => simp at hsite
  | create =>
    obtain ⟨-,task,hkey,-,hst⟩ := hob
    cases hst with
    | create call introduced => exact recordKey_inj.mp hkey ▸ uuid_noColon hc hh introduced
  | query =>
    obtain ⟨-,task,hkey,-,hst⟩ := hob
    cases hst with
    | query introduced => exact recordKey_inj.mp hkey ▸ uuid_noColon hc hh introduced
  | admission =>
    obtain ⟨-,task,hkey,-,hst⟩ := hob
    cases hst with
    | @admission request _ _ sync =>
      have hid : NoColon request.taskId := noColon_of_synced hc ho hn hs sync
      exact recordKey_inj.mp hkey ▸ hid
  | _ => exact noColon_of_change hc htidy hg hs (by simp)

theorem generated (hc : D.Reach c) (ho : Everywhere (Honest home) c.state.history) :
    Everywhere (fun a past => OnWrites Tidy a past ∧ OnWrites Generated a past ∧ Names a past)
      c.state.history := by
  refine Everywhere.of_step fun a past hs ih => ?_
  have htidy := ih.mono fun _ _ hh => hh.1
  have hg := ih.mono fun _ _ hh => hh.2.1
  have hn := ih.mono fun _ _ hh => hh.2.2
  obtain ⟨c₀,c₁,hc₀,rfl,hstep,hh⟩ := hc.before hs
  have hc₁ := hc₀.step hstep
  have ho₁ : Everywhere (Honest home) c₁.state.history := hh ▸ ho.suffix hs
  have hs₁ : a :: c₀.state.history <:+ c₁.state.history := hh ▸ List.suffix_rfl
  have hta : OnWrites Tidy a c₀.state.history := fun w hw => by
    obtain ⟨t,q,site,u,k,payload,r,rfl,rfl⟩ := op_of_write hw
    exact tidy_of_write hc₁ ho₁ hn hs₁
  refine ⟨hta,fun w hw => ?_,names_of_sends hc₁ ho₁ hg hn hs₁⟩
  obtain ⟨t,q,site,u,k,payload,r,rfl,rfl⟩ := op_of_write hw
  exact generated_of_write hc₁ ho₁ (hh ▸ ⟨hta,htidy⟩) hg hn hs₁

theorem tidy_of_honest (hc : D.Reach c) (ho : Everywhere (Honest home) c.state.history) :
    Everywhere (OnWrites Tidy) c.state.history := (generated hc ho).mono fun _ _ hh => hh.1

end HonestMessages
end CoLinkServer
