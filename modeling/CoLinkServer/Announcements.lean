import CoLinkServer.AnnouncementTraces
import CoLinkServer.MergedDecisions
import CoLinkServer.TaskKeys

/-! How often a status is announced. Every notice belongs to a write that gave the task the status,
and where verdicts find the task pending each such write raises the status, so that none is entered
twice. The broadcasts about a task all belong to the one verdict. -/
namespace CoLinkServer

open Interleaving

namespace Announcements

open TaskRecords TaskTraces TaskKeys
open StatusOrder (statusIn Pending confirmedStatus_eq userStatus_mem)
open FinalDecisions (recordOf)

variable {D : Deployment} {c : TaskConfig} {i t : ℕ} {q : Request} {u : String}
  {h : List TaskAction} {M : Prost}

def rank : Option String → ℕ
  | none => 0
  | some s => if s = "waiting" then 1 else if s ∈ ["approved","ignored"] then 2
    else if s ∈ ["started","rejected"] then 3 else 4

/-- No task is admitted whose id is that of a status list, no delivery overtakes another one
between its check and its write, and verdicts find the task pending. -/
def Single (M : Prost) (w : Write) (h : List TaskAction) : Prop :=
  Tidy w h ∧ Alone w h ∧ Pending M w h

instance (M : Prost) (w : Write) (h : List TaskAction) : Decidable (Single M w h) :=
  inferInstanceAs (Decidable (_ ∧ _ ∧ (_ → _ ∈ _)))

theorem tidy_of_single (ho : Everywhere (OnWrites (Single M)) h) : Everywhere (OnWrites Tidy) h :=
  ho.mono fun _ _ hh w hw => (hh w hw).1

theorem first_of_single (hc : D.Reach c) (ho : Everywhere (OnWrites (Single M)) c.state.history) :
    Everywhere (OnWrites First) c.state.history :=
  first_of_alone hc (tidy_of_single ho) (ho.mono fun _ _ hh w hw => (hh w hw).2.1)

/-- A merge leaves the status of a record alone, and every other write raises it. -/
def Raises (M : Prost) (w : Write) (h : List TaskAction) : Prop :=
  ∀ id, ¬ Reserved id → w.key = recordKey id →
    (w.site = .merge ∧
      statusIn M (some w.payload) = statusIn M (stored w.request.core w.user w.key h)) ∨
    rank (statusIn M (stored w.request.core w.user w.key h)) < rank (statusIn M (some w.payload))

theorem raises (hc : D.Reach c) (ho : Everywhere (OnWrites (Single D.prost)) c.state.history) :
    Everywhere (OnWrites (Raises D.prost)) c.state.history := by
  refine everywhere_of_write fun t q site u k payload r h hs _ => ?_
  rintro id hid rfl
  obtain ⟨new,rfl,-,hv⟩ := version_of_write hc (tidy_of_single ho) (first_of_single hc ho) hid hs
  have hpending := (everywhere_writes ho hs).2.2
  dsimp only [Pending] at hpending ⊢
  generalize stored q.core u (recordKey id) h = before at hv hpending
  rw [StatusOrder.statusIn_encode]
  cases hv with
  | first hsite hstores =>
    rw [StatusOrder.statusIn_none]
    right
    cases hstores with
    | create =>
      unfold newTask
      dsimp only
      split_ifs <;> decide
    | query => simp [rank,TaskService.registryTask]
    | admission => simp [rank]
    | _ => simp at hsite
  | @next old changes id_eq =>
    rw [StatusOrder.statusIn_encode] at hpending ⊢
    cases changes with
    | merge => exact .inl ⟨rfl,rfl⟩
    | @decide request merged r' sync direct stored undecided verdict =>
      right
      have hp := hpending rfl
      simp only [List.mem_cons,List.not_mem_nil,or_false,Option.some.injEq] at hp
      have hnew : rank (some (if TaskService.anyoneRejected merged then "rejected" else "started")) = 3 := by
        split_ifs <;> decide
      rw [hnew]
      rcases hp with hp | hp | hp <;> rw [hp] <;> decide
    | @confirm request ud s ds call decision reported waiting entered =>
      right
      have hold : rank (some old.status) = 1 := by rw [waiting]; decide
      rw [hold]
      dsimp only
      rcases confirmedStatus_eq s { old with decisions := ds } with he | he
      · rw [he]
        decide
      · rw [he]
        rcases userStatus_mem reported with rfl | rfl | ⟨rfl,-⟩ <;> decide
    | finish call started =>
      right
      rw [started]
      dsimp only
      decide

section Runs

variable (hc : D.Reach c) (ho : Everywhere (OnWrites (Single D.prost)) c.state.history)
include hc ho

theorem rank_mono {id : String} (hid : ¬ Reserved id) (hh : h <:+ c.state.history)
    {earlier : List TaskAction} (hs : earlier <:+ h) :
    rank (statusIn D.prost (stored i u (recordKey id) earlier)) ≤
      rank (statusIn D.prost (stored i u (recordKey id) h)) := by
  refine stored_preserves (P := fun b => rank (statusIn D.prost (stored i u (recordKey id) earlier)) ≤
    rank (statusIn D.prost b)) ?_ hs le_rfl
  refine ((raises hc ho).suffix hh).mono fun a h' hw w hmem => ?_
  rintro rfl rfl hk hle
  rw [← hk] at hle ⊢
  rcases hw w hmem id hid hk with ⟨-,he⟩ | hlt
  · rw [he]
    exact hle
  · exact hle.trans hlt.le

theorem rank_lt {id : String} (hid : ¬ Reserved id) {site : Site} {payload : Bytes}
    {r : Except UpdateError String} (hsite : site ≠ .merge)
    (hs : .op t q (.storageUpdate site u (recordKey id) payload) r :: h <:+ c.state.history)
    {t' : ℕ} {q' : Request} {site' : Site} {payload' : Bytes} {r' : Except UpdateError String}
    (hm : .op t' q' (.storageUpdate site' u (recordKey id) payload') r' ∈ h) (hq : q'.core = q.core) :
    rank (statusIn D.prost (some payload')) < rank (statusIn D.prost (some payload)) := by
  obtain ⟨later,earlier,rfl⟩ := List.append_of_mem hm
  have hle := rank_mono (i := q.core) (u := u) hc ho hid ((List.suffix_cons _ _).trans hs)
    (List.suffix_append later _)
  rw [← hq,stored_write,hq] at hle
  rcases everywhere_writes (raises hc ho) hs id hid rfl with ⟨he,-⟩ | hlt
  · exact absurd he hsite
  · exact hle.trans_lt hlt

/-- What a notice is earned with. -/
theorem earned_by {a : TaskAction} {past : List TaskAction} (hs : a :: past <:+ c.state.history)
    {on : Request → Bool} {n : Notice} (ha : Action.meets on ((account D.prost).earns n) a) :
    ∃ t q site task r, a = .op t q (.storageUpdate site n.user (recordKey n.taskId)
      (D.prost.task.encode task)) r ∧ on q ∧ site ≠ .merge ∧ ¬ Reserved n.taskId ∧
      task.status ∈ statuses ∧ ∃ l ∈ listsAt n.user task task.status, n.key = pointer (listKey l) := by
  cases a with
  | start t q => cases ha
  | env => cases ha
  | op t q o r =>
    obtain ⟨hon,hearned⟩ := Bool.and_eq_true_iff.mp ha
    have hmem : n ∈ earned D.prost ⟨o,r⟩ := of_decide_eq_true hearned
    cases o with
    | storageUpdate site u k payload =>
      replace hmem : n ∈ (if site ∈ entering then ((D.prost.task.decode payload).map (notices u)).getD []
        else []) := hmem
      split_ifs at hmem with hsite
      · cases hd : D.prost.task.decode payload with
        | none => simp [hd] at hmem
        | some task =>
          have hkept := everywhere_writes (kept hc (tidy_of_single ho)) hs
          have hrecord : ∃ task, k = recordKey task.taskId ∧ payload = D.prost.task.encode task ∧
              task.status ∈ statuses ∧ ¬ Reserved task.taskId := by
            cases site <;> first | exact hkept | simp [entering] at hsite
          obtain ⟨task',rfl,rfl,hst,hres⟩ := hrecord
          obtain rfl : task' = task := Option.some.inj ((D.prost.task.decode_encode task').symm.trans hd)
          have hn : n = ⟨u,pointer (TaskService.protocolListKey u task'),task'.taskId⟩ ∨
              n = ⟨u,pointer (TaskService.statusListKey task'),task'.taskId⟩ := by
            simpa [hd,notices] using hmem
          have hmerge : site ≠ .merge := by
            rintro rfl
            simp [entering] at hsite
          have hlist {key : String} (hin : key ∈ [TaskService.protocolListKey u task',
              TaskService.statusListKey task']) :
              ∃ l ∈ listsAt u task' task'.status, pointer key = pointer (listKey l) := by
            rw [← listsAt_keys u task'] at hin
            obtain ⟨l,hl,rfl⟩ := List.mem_map.mp hin
            exact ⟨l,hl,rfl⟩
          rcases hn with rfl | rfl
          · exact ⟨t,q,site,task',r,rfl,hon,hmerge,hres,hst,hlist (by simp)⟩
          · exact ⟨t,q,site,task',r,rfl,hon,hmerge,hres,hst,hlist (by simp)⟩
      · cases hmem
    | _ => cases hmem

/-- Each notice is earned at most once. -/
theorem earned_once (i : ℕ) (n : Notice) : c.state.history.countP
    (Action.meets (fun q => decide (q.core = i)) ((account D.prost).earns n)) ≤ 1 := by
  have hsuf (h : List TaskAction) (hh : h <:+ c.state.history) : h.countP
      (Action.meets (fun q => decide (q.core = i)) ((account D.prost).earns n)) ≤ 1 := by
    induction h with
    | nil => exact Nat.zero_le 1
    | cons a h ih =>
      by_cases ha : Action.meets (fun q => decide (q.core = i)) ((account D.prost).earns n) a
      · have hnone : h.countP
            (Action.meets (fun q => decide (q.core = i)) ((account D.prost).earns n)) = 0 := by
          rw [List.countP_eq_zero]
          intro b hb hearns
          obtain ⟨t,q,site,task,r,rfl,hq,hsite,hres,hst,l,hl,hkey⟩ := earned_by hc ho hh ha
          obtain ⟨past,hpast⟩ := suffix_of_mem hb
          have hb' := hpast.trans ((List.suffix_cons _ _).trans hh)
          obtain ⟨t',q',site',task',r',rfl,hq',-,-,hst',l',hl',hkey'⟩ := earned_by hc ho hb' hearns
          have hcore : q'.core = q.core := (of_decide_eq_true hq').trans (of_decide_eq_true hq).symm
          have hlt := rank_lt hc ho hres hsite hh hb hcore
          have heq := statusOf_eq (known_of_listsAt hst hl) (known_of_listsAt hst' hl')
            (pointer_inj (hkey.symm.trans hkey'))
          rw [statusOf_listsAt hl,statusOf_listsAt hl'] at heq
          rw [StatusOrder.statusIn_encode,StatusOrder.statusIn_encode,heq] at hlt
          exact lt_irrefl _ hlt
        rw [List.countP_cons_of_pos ha,hnone]
      · rw [List.countP_cons_of_neg ha]
        exact ih ((List.suffix_cons _ _).trans hh)
  exact hsuf _ List.suffix_rfl

/-- The action names the task under the `latest` key of a list. -/
def announces (M : Prost) (i : ℕ) (u id : String) (l : TaskList) : TaskAction → Bool
  | .op _ q (.storageUpdate _ u' k payload) _ =>
    decide (q.core = i ∧ u' = u ∧ k = "_internal:" ++ key (.latest l)) &&
      (M.task.decode payload).any fun task => decide (task.taskId = id)
  | _ => false

/-- Only a notice names a task there. -/
theorem spends_of_announces {l : TaskList} (hl : Known l) {id : String} {a : TaskAction}
    (hm : a ∈ c.state.history) (ha : announces D.prost i u id l a) :
    Action.meets (fun q => decide (q.core = i))
      ((account D.prost).spends ⟨u,pointer (listKey l),id⟩) a := by
  obtain ⟨past,hs⟩ := suffix_of_mem hm
  cases a with
  | start t q => cases ha
  | env => cases ha
  | op t q o r =>
    cases o with
    | storageUpdate site u' k payload =>
      obtain ⟨hplace,hid⟩ := Bool.and_eq_true_iff.mp ha
      obtain ⟨hi,rfl,rfl⟩ := of_decide_eq_true hplace
      obtain ⟨task,hd,hid⟩ := (Option.any_eq_true _ _).mp hid
      have hkept := everywhere_writes (kept hc (tidy_of_single ho)) hs
      have hsite : site = .latest := by
        have hrecord (hr : ∃ task, "_internal:" ++ key (.latest l) = recordKey task.taskId ∧
            payload = D.prost.task.encode task ∧ task.status ∈ statuses ∧ ¬ Reserved task.taskId) :
            site = .latest := by
          obtain ⟨task,hkey,-,-,hres⟩ := hr
          exact absurd (internal_inj.mp hkey).symm (record_ne_list hres hl).2
        cases site with
        | latest => rfl
        | list =>
          obtain ⟨task,list,hlist,hst,-⟩ := hkept
          obtain ⟨l',hl',hkey⟩ := list_of_listOf hlist
          exact absurd (internal_inj.mp hkey).symm (listKey_ne_latest (known_of_listsAt hst hl'))
        | _ => exact hrecord hkept
      subst hsite
      refine Bool.and_eq_true_iff.mpr ⟨decide_eq_true hi,decide_eq_true ?_⟩
      show (D.prost.task.decode payload).map _ = _
      rw [hd,← of_decide_eq_true hid]
      rfl
    | _ => cases ha

theorem announced_once (i : ℕ) (u id : String) {l : TaskList} (hl : Known l) :
    c.state.history.countP (announces D.prost i u id l) ≤ 1 :=
  (List.countP_mono_left fun _ hm ha => spends_of_announces hc ho hl hm ha).trans
    ((spent_le_earned hc _ _).trans (earned_once hc ho i _))

end Runs

/-- A task that leaves a core. -/
structure Sending where
  thread : ℕ
  request : Request
  target : String
  task : Task

def sendingOf : TaskAction → Option Sending
  | .op t q (.post m) _ => some ⟨t,q,m.target,m.task⟩
  | .op t q (.sendersSend _ v task) (.ok _) => some ⟨t,q,v,task⟩
  | _ => none

def Broadcasts (i : ℕ) (u id : String) (s : Sending) : Prop :=
  s.request.core = i ∧ s.request.metadata.userId = some u ∧ s.task.taskId = id ∧
    s.request.call.synced.isSome ∧ s.request.metadata.forwardingTarget = none

instance (i : ℕ) (u id : String) (s : Sending) : Decidable (Broadcasts i u id s) :=
  inferInstanceAs (Decidable (_ ∧ _ ∧ _ ∧ _ ∧ _))

def broadcastTo (i : ℕ) (u id : String) (a : TaskAction) : Option String :=
  (sendingOf a).bind fun s => if Broadcasts i u id s then some s.target else none

/-- The users to whom the verdict about a task has been broadcast, newest first. -/
def broadcasts (i : ℕ) (u id : String) (h : List TaskAction) : List String :=
  h.filterMap (broadcastTo i u id)

def addressees (task : Task) : List String := (task.participants.drop 1).map (·.userId)

theorem targets_cons (t : ℕ) (a : TaskAction) (h : List TaskAction) : targets (events t (a :: h)) =
    ((sendingOf a).bind fun s => if s.thread = t then some s.target else none).toList ++
      targets (events t h) := by
  cases a with
  | start t' q => rfl
  | env => rfl
  | op t' q o r =>
    by_cases ht : t' = t
    · subst ht
      rw [events_op_self]
      cases o with
      | post m => simp [sendingOf,targets]
      | sendersSend u v task => cases r <;> simp [sendingOf,targets]
      | _ => rfl
    · rw [events_op_of_ne ht]
      cases o with
      | post m => simp [sendingOf,ht]
      | sendersSend u v task => cases r <;> simp [sendingOf,ht]
      | _ => rfl

theorem op_of_sending {a : TaskAction} {s : Sending} (ha : sendingOf a = some s) :
    ∃ o r, a = .op s.thread s.request o r := by
  cases a with
  | start t q => cases ha
  | env => cases ha
  | op t q o r =>
    cases o with
    | post m =>
      obtain rfl := Option.some.inj ha
      exact ⟨_,_,rfl⟩
    | sendersSend u v task =>
      cases r with
      | error e => cases ha
      | ok w =>
        obtain rfl := Option.some.inj ha
        exact ⟨_,_,rfl⟩
    | _ => cases ha

section Verdicts

variable (hc : D.Reach c) (ho : Everywhere (OnWrites (Single D.prost)) c.state.history)
include hc

/-- Whatever a synchronisation sends on, it has stored with a verdict before. -/
theorem decided_of_sending {a : TaskAction} (hs : a :: h <:+ c.state.history) {s : Sending}
    (ha : sendingOf a = some s) (hsync : s.request.call.synced.isSome)
    (hdirect : s.request.metadata.forwardingTarget = none) : ∃ u r,
      s.request.metadata.userId = some u ∧ .op s.thread s.request (.storageUpdate .decide u
        (recordKey s.task.taskId) (D.prost.task.encode s.task)) r ∈ h ∧
      (targets (events s.thread h)).reverse ++ [s.target] <+: addressees s.task := by
  have hsend {t : ℕ} {q : Request} {o : Op} {r : Res o} {u target : String} {task : Task}
      (hs : .op t q o r :: h <:+ c.state.history) (hu : ActsFor q u (events t h))
      (hsends : Sends D.prost q u (events t h) target task) (hsync : q.call.synced.isSome)
      (hdirect : q.metadata.forwardingTarget = none) : ∃ u r, q.metadata.userId = some u ∧
        .op t q (.storageUpdate .decide u (recordKey task.taskId) (D.prost.task.encode task)) r ∈ h ∧
        (targets (events t h)).reverse ++ [target] <+: addressees task := by
    cases hsends with
    | create call => rw [call] at hsync; cases hsync
    | confirm stored =>
      have hm := mem_history hc hs stored
      obtain ⟨past,hpast⟩ := suffix_of_mem hm
      have hob := obligation hc (hpast.trans ((List.suffix_cons _ _).trans hs))
      obtain ⟨-,task,-,-,hst⟩ := hob
      cases hst with
      | confirm call => rw [call] at hsync; cases hsync
    | broadcast stored first self turn => exact ⟨u,_,hu.1,mem_history hc hs stored,turn⟩
    | forward sync forwarded => rw [hdirect] at forwarded; cases forwarded
  cases a with
  | start t q => cases ha
  | env => cases ha
  | op t q o r =>
    have hob := obligation hc hs
    cases o with
    | post m =>
      obtain rfl := Option.some.inj ha
      obtain ⟨-,u,hu,hsends⟩ := hob
      exact hsend hs hu hsends hsync hdirect
    | sendersSend u v task =>
      cases r with
      | error e => cases ha
      | ok w =>
        obtain rfl := Option.some.inj ha
        exact hsend hs hob.1 hob.2 hsync hdirect
    | _ => cases ha

include ho

theorem rank_of_verdict {id : String} (hid : ¬ Reserved id) {payload : Bytes}
    {r : Except UpdateError String}
    (hs : .op t q (.storageUpdate .decide u (recordKey id) payload) r :: h <:+ c.state.history) :
    rank (statusIn D.prost (some payload)) = 3 := by
  obtain ⟨new,rfl,-,hv⟩ := version_of_write hc (tidy_of_single ho) (first_of_single hc ho) hid hs
  generalize stored q.core u (recordKey id) h = before at hv
  rw [StatusOrder.statusIn_encode]
  cases hv with
  | first hsite => simp at hsite
  | next changes =>
    cases changes with
    | decide =>
      dsimp only
      split_ifs <;> decide

theorem decided_by_one {id : String} (hid : ¬ Reserved id) {t t' : ℕ} {q q' : Request}
    {payload payload' : Bytes} {r r' : Except UpdateError String}
    (hm : .op t q (.storageUpdate .decide u (recordKey id) payload) r ∈ c.state.history)
    (hm' : .op t' q' (.storageUpdate .decide u (recordKey id) payload') r' ∈ c.state.history)
    (hq : q.core = q'.core) : t = t' := by
  have hdecide : Site.decide ≠ .merge := by decide
  obtain ⟨past,hs⟩ := suffix_of_mem hm
  obtain ⟨past',hs'⟩ := suffix_of_mem hm'
  have hrank := rank_of_verdict hc ho hid hs
  have hrank' := rank_of_verdict hc ho hid hs'
  rcases before_or_after hm hm' with he | ⟨_,hs,hin⟩ | ⟨_,hs,hin⟩
  · exact (Action.op.inj he).1
  · have hlt := rank_lt hc ho hid hdecide hs hin hq.symm
    omega
  · have hlt := rank_lt hc ho hid hdecide hs hin hq
    omega

theorem asked_of_verdict {id : String} {payload : Bytes} {r : Except UpdateError String}
    (hs : .op t q (.storageUpdate .decide u (recordKey id) payload) r :: h <:+ c.state.history) :
    q.call.taskId = id ∧ ¬ Reserved id ∧ q.metadata.userId = some u ∧ q.call.synced.isSome ∧
      q.metadata.forwardingTarget = none := by
  have hk := kept hc (tidy_of_single ho)
  obtain ⟨hu,task,-,-,hst⟩ := obligation hc hs
  obtain ⟨task',hkey,-,-,hres⟩ := everywhere_writes hk hs
  have hasked : q.call.taskId = id := asked_of_write hc hk (.inr rfl) hs
  cases hst with
  | decide sync direct => exact ⟨hasked,recordKey_inj.mp hkey ▸ hres,hu.1,by rw [sync]; rfl,direct⟩

/-- What is broadcast about a task is what the thread with the verdict sends. -/
theorem broadcasts_eq {id : String} {payload : Bytes} {r : Except UpdateError String}
    (hm : .op t q (.storageUpdate .decide u (recordKey id) payload) r ∈ c.state.history)
    {h : List TaskAction} (hh : h <:+ c.state.history) :
    broadcasts q.core u id h = targets (events t h) := by
  obtain ⟨past,hw⟩ := suffix_of_mem hm
  obtain ⟨hasked,hid,huser,hsync,hdirect⟩ := asked_of_verdict hc ho hw
  induction h with
  | nil => rfl
  | cons a h ih =>
    have hstep : broadcastTo q.core u id a =
        (sendingOf a).bind fun s => if s.thread = t then some s.target else none := by
      cases hs : sendingOf a with
      | none => rw [broadcastTo,hs]; rfl
      | some s =>
        have hiff : Broadcasts q.core u id s ↔ s.thread = t := by
          constructor
          · rintro ⟨hcore,hu,rfl,hsy,hdi⟩
            obtain ⟨u',r',hu',hd,-⟩ := decided_of_sending hc hh hs hsy hdi
            obtain rfl := Option.some.inj (hu.symm.trans hu')
            have hd' := ((List.suffix_cons a h).trans hh).subset hd
            exact decided_by_one hc ho hid hd' hm hcore
          · intro ht
            obtain ⟨o,r',rfl⟩ := op_of_sending hs
            have hreq : s.request = q :=
              hc.same_request (ht ▸ hh.subset (List.mem_cons_self ..)) hm
            obtain ⟨u',r'',hu',hd,-⟩ := decided_of_sending hc hh hs (hreq ▸ hsync) (hreq ▸ hdirect)
            obtain ⟨past',hs'⟩ := suffix_of_mem (((List.suffix_cons _ h).trans hh).subset hd)
            have hask := (asked_of_verdict hc ho hs').1
            rw [hreq] at hask hu'
            exact ⟨by rw [hreq],by rw [hreq,huser],hask.symm.trans hasked,hreq ▸ hsync,hreq ▸ hdirect⟩
        rw [broadcastTo,hs]
        simp only [Option.bind_some,hiff]
    have hih := ih ((List.suffix_cons a h).trans hh)
    rw [broadcasts] at hih ⊢
    rw [targets_cons,← hstep,← hih,List.filterMap_cons]
    cases broadcastTo q.core u id a <;> rfl

theorem terms_of_write {id : String} (hid : ¬ Reserved id) {site : Site} {task : Task}
    {r : Except UpdateError String}
    (hm : .op t q (.storageUpdate site u (recordKey id) (D.prost.task.encode task)) r ∈
      c.state.history) : ∃ new, stored q.core u (recordKey id) c.state.history =
        some (D.prost.task.encode new) ∧ new.terms = task.terms := by
  obtain ⟨past,hs⟩ := suffix_of_mem hm
  refine stored_preserves (P := fun b => ∃ new, b = some (D.prost.task.encode new) ∧
    new.terms = task.terms) ?_ hs ⟨task,stored_write ..,rfl⟩
  refine everywhere_of_write fun t' q' site' u' k' payload' r' past' hs' _ => ?_
  rintro hcore rfl rfl ⟨old,hold,hterms⟩
  obtain ⟨new,rfl,-,hv⟩ := version_of_write hc (tidy_of_single ho) (first_of_single hc ho) hid hs'
  rw [hcore,hold] at hv
  generalize hb : some (D.prost.task.encode old) = before at hv
  cases hv with
  | first => cases hb
  | next changes =>
    obtain rfl := D.prost.task.encode_inj (Option.some.inj hb)
    exact ⟨new,rfl,(changes_terms changes).trans hterms⟩

/-- The broadcasts have gone to the first of the other participants, in their order. -/
theorem broadcasts_in_turn (i : ℕ) (u id : String) : (broadcasts i u id c.state.history).reverse <+:
    ((recordOf D.prost c.state.shared i u id).map addressees).getD [] := by
  have hsuf (h : List TaskAction) (hh : h <:+ c.state.history) : (broadcasts i u id h).reverse <+:
      ((recordOf D.prost c.state.shared i u id).map addressees).getD [] := by
    induction h with
    | nil => exact List.nil_prefix
    | cons a h ih =>
      have hrest := (List.suffix_cons a h).trans hh
      cases ha : broadcastTo i u id a with
      | none =>
        rw [broadcasts,List.filterMap_cons_none ha]
        exact ih hrest
      | some v =>
        obtain ⟨s,hs,hv⟩ := Option.bind_eq_some_iff.mp ha
        split_ifs at hv with hb
        obtain rfl := Option.some.inj hv
        obtain ⟨rfl,hu,rfl,hsync,hdirect⟩ := hb
        obtain ⟨u',r,hu',hd,hturn⟩ := decided_of_sending hc hh hs hsync hdirect
        obtain rfl := Option.some.inj (hu.symm.trans hu')
        have hm := hrest.subset hd
        obtain ⟨past,hwrite⟩ := suffix_of_mem hm
        obtain ⟨-,hid,-⟩ := asked_of_verdict hc ho hwrite
        obtain ⟨new,hst,hterms⟩ := terms_of_write hc ho hid hm
        have hnew : recordOf D.prost c.state.shared s.request.core u s.task.taskId = some new := by
          rw [recordOf,read_eq_stored hc (writer_noColon hc hwrite) (guarded_recordKey _),hst]
          exact D.prost.task.decode_encode new
        rw [← broadcasts_eq hc ho hm hrest] at hturn
        rw [broadcasts,List.filterMap_cons_some ha,List.reverse_cons,hnew]
        show _ <+: (new.participants.drop 1).map (·.userId)
        rw [(Task.eq_of_terms_eq hterms).2.2.1]
        exact hturn
  exact hsuf _ List.suffix_rfl

end Verdicts

/-- As long as no task is admitted whose id is that of a status list, no delivery overtakes another
one and verdicts find the task pending: every list's `latest` key gets at most one version that
names the task, and the verdict is broadcast to the other participants in their order, to each at
most once. -/
theorem status_announced_once (D : Deployment) {c : TaskConfig} (hc : D.Reach c)
    (ho : Everywhere (OnWrites (Single D.prost)) c.state.history) (i : ℕ) (u id : String) :
    (∀ l, Known l → c.state.history.countP (announces D.prost i u id l) ≤ 1) ∧
    (broadcasts i u id c.state.history).reverse <+:
      ((recordOf D.prost c.state.shared i u id).map addressees).getD [] :=
  ⟨fun _ hl => announced_once hc ho i u id hl,broadcasts_in_turn hc ho i u id⟩

/-- User 07 has been offered a task that user 08 then rejects. -/
def rejectedByOther (t : ℕ) : List Move :=
  [.start t (.ofGuest 7 (FinalDecisions.sampleReply false true)),.run t 8]

def announcedRejected (h : List TaskAction) : ℕ :=
  h.countP (announces Prost.selfDelimiting 0 "07" "id" (.status "rejected"))

theorem status_announced_once_sample : ∃ c, Deployment.ideal.Reach c ∧
    announcedRejected c.state.history = 1 := by
  have hrun : (Play.moves (MergedDecisions.offered "id" ++ rejectedByOther 1 ++ [.run 1 15]) {}).any
      fun p => p.allEnded && decide (0 < announcedRejected p.history) &&
        decide (Everywhere (OnWrites (Single Prost.selfDelimiting)) p.history) := by
    decide +kernel
  obtain ⟨c,p,hc,hf,hp⟩ := Play.run hrun
  simp only [Bool.and_eq_true,decide_eq_true_eq,← hf.history] at hp
  have hl : Known (.status "rejected") := ⟨by decide,nofun⟩
  have hle := (status_announced_once Deployment.ideal hc hp.2 0 "07" "id").1 _ hl
  exact ⟨c,hc,le_antisymm hle hp.1.2⟩

/-- Two messages with the rejection are merged before either of them changes the status. -/
theorem announced_twice : ¬ ∀ c, Deployment.ideal.Reach c →
    (∀ t q p, c.threads t = some (q,p) → ∃ r, p = .ofExcept r) →
    announcedRejected c.state.history ≤ 1 := by
  intro hall
  have hrun : (Play.moves (MergedDecisions.offered "id" ++ rejectedByOther 1 ++ rejectedByOther 2 ++
        [.run 1 15,.run 2 17]) {}).any
      fun p => p.allEnded && decide (announcedRejected p.history = 2) := by
    decide +kernel
  obtain ⟨c,p,hc,hf,hp⟩ := Play.run hrun
  rw [Bool.and_eq_true,decide_eq_true_eq,← hf.history] at hp
  have hle := hall c hc fun t q p' ht => hf.ended hc hp.1 ht
  omega

end Announcements
end CoLinkServer
