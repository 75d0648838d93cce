import CoLinkServer.ConcreteRuns
import CoLinkServer.TaskOperations
import CoLinkServer.ThreadTraces

/-! Who may install a reverse connection. The handler that installs one hands the request to
`inter_core_sync_task` first, and whether a decision of the peer has been checked by then
depends on the branch taken there. -/
namespace CoLinkServer

open Interleaving

namespace ReverseConnections

/-- The first event, in the order of time, from which `f` can read something. -/
def firstOf {β : Type} (f : TaskEvent → Option β) (h : List TaskEvent) : Option β :=
  h.reverse.findSome? f

theorem firstOf_append {β : Type} (f : TaskEvent → Option β) (added h : List TaskEvent) :
    firstOf f (added ++ h) = (firstOf f h).or (firstOf f added) := by
  simp [firstOf,List.findSome?_append]

theorem firstOf_cons {β : Type} (f : TaskEvent → Option β) (e : TaskEvent) (h : List TaskEvent) :
    firstOf f (e :: h) = (firstOf f h).or (f e) := by
  cases he : f e <;> simp [firstOf,List.findSome?_append,he]

theorem firstOf_of_forall {β : Type} {f : TaskEvent → Option β} {h : List TaskEvent}
    (hn : ∀ e ∈ h, f e = none) : firstOf f h = none := by
  simpa [firstOf,List.findSome?_eq_none_iff] using hn

/-- The outcome of an existence check. -/
def presence (keyName : String) : TaskEvent → Option Bool
  | ⟨.storageContains _ k,b⟩ => if k = keyName then some b else none
  | _ => none

/-- The task that a read has found. -/
def taskRead (M : Prost) (keyName : String) : TaskEvent → Option Task
  | ⟨.storageRead _ k,.ok payload⟩ => if k = keyName then M.task.decode payload else none
  | _ => none

/-- Some decision of the request has passed the check for `v`. -/
def Authenticated (request : Task) (v : String) (h : List TaskEvent) : Prop :=
  ∃ d ∈ request.decisions, ∃ task, ⟨.checkDecision d v task,.ok ()⟩ ∈ h

/-- The stored task lists `v`, and not as the user itself, at a position for which the
request brings a decision. -/
def Lists (request task : Task) (u v : String) : Prop :=
  ∃ (i : ℕ) (p : Participant) (d : Decision), task.participants[i]? = some p ∧ p.userId = v ∧ v ≠ u ∧
    request.decisions[i]? = some d ∧ d ≠ default

/-- The condition: not forwarded, and the task was unknown, or known and listing `v` as above. -/
def Vouched (M : Prost) (metadata : Metadata) (request : Task) (u v : String)
    (h : List TaskEvent) : Prop :=
  metadata.forwardingTarget = none ∧
    (firstOf (presence (recordKey request.taskId)) h = some false ∨
      ∃ task, firstOf (taskRead M (recordKey request.taskId)) h = some task ∧
        Lists request task u v)

theorem firstOf_append_some {β : Type} {f : TaskEvent → Option β} {h : List TaskEvent} {b : β}
    (hb : firstOf f h = some b) (added : List TaskEvent) : firstOf f (added ++ h) = some b := by
  rw [firstOf_append,hb,Option.some_or]

theorem authenticated_append {request : Task} {v : String} {added h : List TaskEvent}
    (ha : ∀ e ∈ added, e.1.Ordinary) :
    Authenticated request v (added ++ h) ↔ Authenticated request v h := by
  refine exists_congr fun d => and_congr_right fun _ => exists_congr fun task => ?_
  rw [List.mem_append,or_iff_right]
  intro hm
  exact (ha _ hm).1 rfl

/-- What has been found out so far is not affected by ordinary events. -/
def Settled (M : Prost) (metadata : Metadata) (request : Task) (u v : String)
    (h : List TaskEvent) : Prop :=
  ∀ added : List TaskEvent, (∀ e ∈ added, e.1.Ordinary) →
    (Authenticated request v (added ++ h) ↔ Vouched M metadata request u v (added ++ h))

theorem Settled.append {M : Prost} {metadata : Metadata} {request : Task} {u v : String}
    {added h : List TaskEvent} (hs : Settled M metadata request u v h)
    (ha : ∀ e ∈ added, e.1.Ordinary) : Settled M metadata request u v (added ++ h) := by
  intro more hm
  rw [← List.append_assoc]
  refine hs _ fun e he => ?_
  rcases List.mem_append.mp he with he | he
  · exact hm e he
  · exact ha e he

theorem Settled.cons {M : Prost} {metadata : Metadata} {request : Task} {u v : String}
    {e : TaskEvent} {h : List TaskEvent} (hs : Settled M metadata request u v h)
    (he : e.1.Ordinary) : Settled M metadata request u v (e :: h) := by
  have hh : ∀ e' ∈ [e], e'.1.Ordinary := by simpa using he
  exact hs.append hh

section Handler

variable {M : Prost} {I : List TaskEvent → Prop} {request : Task} {u v : String}

/-- The decisions taken over from the request are exactly those that were checked. -/
theorem traced_takeDecisions (hI : ∀ e h, e.1.kind ≠ .sendersInsert → I (e :: h)) (task : Task)
    {h : List TaskEvent} (hn : ¬ Authenticated request v h) :
    (TaskService.takeDecisions u request task).Traced I h (Prog.OnOk fun _ h' =>
      (Authenticated request v h' ↔ Lists request task u v) ∧
        ∃ added, h' = added ++ h ∧ ∀ e ∈ added, e.1.kind = .checkDecision) := by
  -- `At n`: a decision for `v` is checked when position `n` is reached
  let At (n : ℕ) : Prop := ∃ (p : Participant) (d : Decision), task.participants[n]? = some p ∧
    p.userId = v ∧ v ≠ u ∧ request.decisions[n]? = some d ∧ d ≠ default
  refine (Prog.Traced.foldlM_zipIdx
    (J := fun n _ h' => (Authenticated request v h' ↔ ∃ i < n, At i) ∧
      ∃ added, h' = added ++ h ∧ ∀ e ∈ added, e.1.kind = .checkDecision)
    (fun n p a h' hp hj => ?round) ⟨by simp [hn],[],rfl,by simp⟩).mono fun r h' hr => ?done
  case done =>
    cases r with
    | error e => trivial
    | ok t =>
      obtain ⟨hs,hadd⟩ := hr
      refine ⟨hs.trans ⟨fun ⟨i,_,hi⟩ => ⟨i,hi⟩,fun ⟨i,hi⟩ => ⟨i,?_,hi⟩⟩,hadd⟩
      obtain ⟨p,d,hp,-⟩ := hi
      exact (List.getElem?_eq_some_iff.mp hp).1
  case round =>
    obtain ⟨hs,added,rfl,hadd⟩ := hj
    have hnext : (∃ i < n + 1, At i) ↔ (∃ i < n, At i) ∨ At n := by
      constructor
      · rintro ⟨i,hi,ha⟩
        by_cases hin : i = n
        · exact .inr (hin ▸ ha)
        · exact .inl ⟨i,by omega,ha⟩
      · rintro (⟨i,hi,ha⟩ | ha)
        · exact ⟨i,by omega,ha⟩
        · exact ⟨n,by omega,ha⟩
    have hskip (hno : ¬ At n) : Authenticated request v (added ++ h) ↔ ∃ i < n + 1, At i := by
      rw [hs,hnext,or_iff_left hno]
    by_cases hu : p.userId = u
    · have hno : ¬ At n := by
        rintro ⟨p',d,hp',hv,hne,-⟩
        rw [hp] at hp'
        obtain rfl := Option.some.inj hp'
        exact hne (hv.symm.trans hu)
      simp only [hu,ne_eq,not_true_eq_false,if_false]
      exact ⟨hskip hno,added,rfl,hadd⟩
    · simp only [ne_eq,hu,not_false_eq_true,if_true]
      cases hd : request.decisions[n]? with
      | none => trivial
      | some d =>
        show (if d ≠ default then do
            TaskService.checkDecision d p.userId a
            TaskService.setDecision a n d
          else Prog.ret a).Traced I _ _
        by_cases hdef : d = default
        · have hno : ¬ At n := by
            rintro ⟨p',d',-,-,-,hd',hne⟩
            rw [hd] at hd'
            exact hne ((Option.some.inj hd').symm.trans hdef)
          rw [if_neg (by simp [hdef])]
          exact ⟨hskip hno,added,rfl,hadd⟩
        · rw [if_pos hdef]
          refine fun r => ⟨hI _ _ (by simp [Op.kind]),?_⟩
          cases r with
          | error e => trivial
          | ok w =>
            show (TaskService.setDecision a n d).Traced I _ _
            unfold TaskService.setDecision
            split
            · refine ⟨?_,⟨.checkDecision d p.userId a,.ok ()⟩ :: added,rfl,?_⟩
              · rw [hnext,← hs]
                constructor
                · rintro ⟨d',hd',t,hm⟩
                  rcases List.mem_cons.mp hm with he | hm
                  · obtain ⟨rfl,rfl⟩ : d' = d ∧ v = p.userId := by
                      have hh := congrArg Sigma.fst he
                      simp only [Op.checkDecision.injEq] at hh
                      exact ⟨hh.1,hh.2.1⟩
                    exact .inr ⟨p,d',hp,rfl,hu,hd,hdef⟩
                  · exact .inl ⟨d',hd',t,hm⟩
                · rintro (⟨d',hd',t,hm⟩ | ⟨p',d',hp',hv,-⟩)
                  · exact ⟨d',hd',t,List.mem_cons_of_mem _ hm⟩
                  · rw [hp] at hp'
                    obtain rfl := Option.some.inj hp'
                    exact ⟨d,List.mem_of_getElem? hd,a,by rw [← hv]; exact List.mem_cons_self ..⟩
              · intro e he
                rcases List.mem_cons.mp he with rfl | he
                · rfl
                · exact hadd e he
            · trivial

theorem settled_of_first {metadata : Metadata} {h : List TaskEvent}
    (hf : metadata.forwardingTarget = none) {b : Bool}
    (hb : firstOf (presence (recordKey request.taskId)) h = some b)
    (ha : b = false ∧ Authenticated request v h ∨
      b = true ∧ ∃ task, firstOf (taskRead M (recordKey request.taskId)) h = some task ∧
        (Authenticated request v h ↔ Lists request task u v)) :
    Settled M metadata request u v h := by
  intro added hadd
  rw [authenticated_append hadd,Vouched,firstOf_append_some hb]
  rcases ha with ⟨rfl,ha⟩ | ⟨rfl,task,ht,ha⟩
  · simp [hf,ha]
  · simp [hf,firstOf_append_some ht,ha]

theorem settled_forwarded {metadata : Metadata} {value : MetadataValue}
    (hf : metadata.forwardingTarget = some value) {h : List TaskEvent}
    (hn : ¬ Authenticated request v h) : Settled M metadata request u v h := by
  intro added hadd
  rw [authenticated_append hadd]
  simp [hn,Vouched,hf]

theorem traced_admitTask (hI : ∀ e h, e.1.kind ≠ .sendersInsert → I (e :: h))
    {metadata : Metadata} {receiver : Participant} {h : List TaskEvent}
    (hf : metadata.forwardingTarget = none) (hr : request.participants[0]? = some receiver)
    (hv : receiver.userId = v)
    (hb : firstOf (presence (recordKey request.taskId)) h = some false) :
    (TaskService.admitTask M u request).Traced I h
      (Prog.OnOk fun _ => Settled M metadata request u v) := by
  unfold TaskService.admitTask
  cases hd : request.decisions[0]? with
  | none => trivial
  | some d =>
    rw [hr]
    refine fun r => ⟨hI _ _ (by simp [Op.kind]),?_⟩
    cases r with
    | error e => trivial
    | ok w =>
      have hs : Settled M metadata request u v
          (⟨.checkDecision d receiver.userId request,.ok ()⟩ :: h) := by
        refine settled_of_first hf (b := false) (by rw [firstOf_cons,hb]; rfl) (.inl ⟨rfl,?_⟩)
        exact ⟨d,List.mem_of_getElem? hd,request,by rw [← hv]; exact List.mem_cons_self ..⟩
      have hall : (do
          require d.isApproved (.internal "Initiator's decision is not approved.")
          TaskService.storeTask M .admission u { request with status := "waiting" }
          TaskService.indexTask M u { request with status := "waiting" }).All Op.Ordinary :=
        (TaskService.all_require _ _).bind fun _ =>
          (TaskService.ordinary_storeTask M _ _ _).bind fun _ =>
          TaskService.ordinary_indexTask M _ _
      refine (Prog.Traced.adds hall fun e _ _ he => hI e _ he.2).mono fun r h' hh => ?_
      obtain ⟨added,rfl,hadd⟩ := hh
      cases r with
      | error e => trivial
      | ok w => exact hs.append hadd

/-- The merge, from the moment the stored task has been read. -/
theorem traced_merge (hI : ∀ e h, e.1.kind ≠ .sendersInsert → I (e :: h))
    {metadata : Metadata} {h : List TaskEvent} (hf : metadata.forwardingTarget = none)
    (hn : ¬ Authenticated request v h)
    (hb : firstOf (presence (recordKey request.taskId)) h = some true) {task : Task}
    (hr : firstOf (taskRead M (recordKey request.taskId)) h = some task) :
    (do
      require task.requireAgreement (.invalidArgument
        ("Task " ++ task.taskId ++ " do not need the agreement."))
      let now ← perform .utcNow
      require (decide (now ≤ task.expirationTime)) (.internal
        ("Task " ++ task.taskId ++ " has expired."))
      let task ← TaskService.takeDecisions u request task
      TaskService.storeTask M .merge u task
      Prog.ret task : Service Task).Traced I h
      (Prog.OnOk fun _ => Settled M metadata request u v) := by
  -- what the ordinary operations before the loop leave in place
  let Before (h : List TaskEvent) : Prop := ¬ Authenticated request v h ∧
    firstOf (presence (recordKey request.taskId)) h = some true ∧
    firstOf (taskRead M (recordKey request.taskId)) h = some task
  have hcheck {α : Type} {p : Service α} (hp : p.All Op.Ordinary) {h : List TaskEvent}
      (hh : Before h) : p.Traced I h (Prog.OnOk fun _ => Before) := by
    refine (Prog.Traced.adds hp fun e _ _ he => hI e _ he.2).mono fun r h' hr' => ?_
    obtain ⟨added,rfl,hadd⟩ := hr'
    have hnew : Before (added ++ h) := ⟨by rw [authenticated_append hadd]; exact hh.1,
      firstOf_append_some hh.2.1 added,firstOf_append_some hh.2.2 added⟩
    cases r with
    | ok a => exact hnew
    | error e => trivial
  refine Prog.Traced.seq (hcheck (TaskService.all_require _ _) ⟨hn,hb,hr⟩) fun _ h hh => ?_
  refine Prog.Traced.seq (hcheck (TaskService.all_perform (by simp [Op.Ordinary,Op.kind])) hh)
    fun now h hh => ?_
  refine Prog.Traced.seq (hcheck (TaskService.all_require _ _) hh) fun _ h hh => ?_
  refine Prog.Traced.seq (traced_takeDecisions hI task hh.1) fun task' h' hh' => ?_
  obtain ⟨hauth,added,rfl,-⟩ := hh'
  have hs : Settled M metadata request u v (added ++ h) :=
    settled_of_first hf (firstOf_append_some hh.2.1 added)
      (.inr ⟨rfl,task,firstOf_append_some hh.2.2 added,hauth⟩)
  have hall : (TaskService.storeTask M .merge u task' >>= fun _ => Prog.ret task').All
      Op.Ordinary := (TaskService.ordinary_storeTask M _ _ _).bind fun _ => trivial
  refine (Prog.Traced.adds hall fun e _ _ he => hI e _ he.2).mono fun r h' hr' => ?_
  obtain ⟨added',rfl,hadd⟩ := hr'
  cases r with
  | ok t => exact hs.append hadd
  | error e => trivial

theorem traced_mergeDecisions (hI : ∀ e h, e.1.kind ≠ .sendersInsert → I (e :: h))
    {metadata : Metadata} {h : List TaskEvent} (hf : metadata.forwardingTarget = none)
    (hn : ¬ Authenticated request v h)
    (hb : firstOf (presence (recordKey request.taskId)) h = some true)
    (hr : firstOf (taskRead M (recordKey request.taskId)) h = none) :
    (TaskService.mergeDecisions M u request).Traced I h
      (Prog.OnOk fun _ => Settled M metadata request u v) := by
  refine Prog.Traced.bracket (A := fun h' => h' = ⟨.lock .merge,()⟩ :: h)
    (B := fun _ => Settled M metadata request u v) ?lock (fun h' hA => ?body) (fun h' => ?_)
    (fun a h' hB => ?unlock)
  case lock => exact fun w => ⟨hI _ _ (by simp [Op.kind]),rfl⟩
  case unlock =>
    exact fun w => ⟨hI _ _ (by simp [Op.kind]),hB.cons (by simp [Op.Ordinary,Op.kind])⟩
  case body =>
    subst hA
    refine fun r => ⟨hI _ _ (by simp [Op.kind]),?_⟩
    cases r with
    | error e => trivial
    | ok payload =>
      show (unwrap (M.task.decode payload) >>= _).Traced I _ _
      cases hp : M.task.decode payload with
      | none => trivial
      | some task =>
        have hord : ∀ e ∈ ([⟨.storageRead u (recordKey request.taskId),.ok payload⟩,
            ⟨.lock .merge,()⟩] : List TaskEvent), e.1.Ordinary := by
          simp [Op.Ordinary,Op.kind]
        refine traced_merge hI hf (fun ha => hn ((authenticated_append hord).mp ha))
          (firstOf_append_some hb [_,_]) ?_
        have hlock : taskRead M (recordKey request.taskId) ⟨.lock .merge,()⟩ = none := rfl
        have hread : taskRead M (recordKey request.taskId)
            ⟨.storageRead u (recordKey request.taskId),.ok payload⟩ = some task := by
          simp [taskRead,hp]
        rw [firstOf_append,hr]
        simp [firstOf,hlock,hread]
  · exact fun w => ⟨hI _ _ (by simp [Op.kind]),trivial⟩

theorem traced_interCoreSyncTask (hI : ∀ e h, e.1.kind ≠ .sendersInsert → I (e :: h))
    {metadata : Metadata} {receiver : Participant} (hu : metadata.userId = some u)
    (hr : request.participants[0]? = some receiver) (hv : receiver.userId = v) :
    (TaskService.interCoreSyncTask M metadata request).Traced I []
      (Prog.OnOk fun _ => Settled M metadata request u v) := by
  have hord {α : Type} {p : Service α} (hp : p.All Op.Ordinary) {h : List TaskEvent}
      (hs : Settled M metadata request u v h) :
      p.Traced I h (Prog.OnOk fun _ => Settled M metadata request u v) := by
    refine (Prog.Traced.adds hp fun e _ _ he => hI e _ he.2).mono fun r h' hr' => ?_
    obtain ⟨added,rfl,hadd⟩ := hr'
    cases r with
    | ok a => exact hs.append hadd
    | error e => trivial
  have hpriv : (TaskService.checkPrivilegeIn metadata ["user","guest"]).Traced I []
      (Prog.OnOk fun _ h => ∀ e ∈ h, e.1.kind = .importedUsersContains) := by
    refine (Prog.Traced.adds (TaskService.all_checkPrivilegeIn
      (φ := fun o => o.kind = .importedUsersContains) fun _ => rfl)
      fun e _ _ he => hI e _ (by rw [he]; decide)).mono fun r h' hr' => ?_
    obtain ⟨added,rfl,hadd⟩ := hr'
    cases r with
    | ok a =>
      show ∀ e ∈ added ++ [],e.1.kind = .importedUsersContains
      simpa using hadd
    | error e => trivial
  refine Prog.Traced.seq hpriv fun _ h hh => ?_
  have hn : ¬ Authenticated request v h := by
    rintro ⟨d,-,task,hm⟩
    exact absurd (hh _ hm) (by simp [Op.kind])
  have hnone {β : Type} {f : TaskEvent → Option β}
      (hf : ∀ e, e.1.kind = .importedUsersContains → f e = none) : firstOf f h = none :=
    firstOf_of_forall fun e he => hf e (hh e he)
  have hpres : firstOf (presence (recordKey request.taskId)) h = none := by
    refine hnone fun e he => ?_
    obtain ⟨o,r⟩ := e
    cases o <;> simp [Op.kind] at he
    rfl
  have hread : firstOf (taskRead M (recordKey request.taskId)) h = none := by
    refine hnone fun e he => ?_
    obtain ⟨o,r⟩ := e
    cases o <;> simp [Op.kind] at he
    rfl
  rw [hu]
  cases hf : metadata.forwardingTarget with
  | some value =>
    exact hord ((TaskService.all_unwrap _).bind fun target =>
      TaskService.all_forward (.of_kind rfl) (.of_kind rfl)) (settled_forwarded hf hn)
  | none =>
    refine fun present => ⟨hI _ _ (by simp [Op.kind]),?_⟩
    have hpres' : firstOf (presence (recordKey request.taskId))
        (⟨.storageContains u (recordKey request.taskId),present⟩ :: h) = some present := by
      rw [firstOf_cons,hpres]
      simp [presence]
    have hread' : firstOf (taskRead M (recordKey request.taskId))
        (⟨.storageContains u (recordKey request.taskId),present⟩ :: h) = none := by
      rw [firstOf_cons,hread]
      rfl
    have hn' : ¬ Authenticated request v
        (⟨.storageContains u (recordKey request.taskId),present⟩ :: h) := by
      have hh : ∀ e ∈ ([⟨.storageContains u (recordKey request.taskId),present⟩] :
          List TaskEvent), e.1.Ordinary := by simp [Op.Ordinary,Op.kind]
      exact fun ha => hn ((authenticated_append hh).mp ha)
    cases present with
    | false => exact traced_admitTask hI hf hr hv hpres'
    | true =>
      show (TaskService.mergeDecisions M u request >>= _).Traced I _ _
      refine Prog.Traced.seq (traced_mergeDecisions hI hf hn' hpres' hread') fun task h hs => ?_
      have hrest : (if task.status = "started" ∨ task.status = "rejected" then Prog.ret ()
          else if TaskService.isDecided task then do
            let task ← TaskService.changeStatus M u request (TaskService.anyoneRejected task)
            TaskService.broadcast M u task
          else Prog.ret () : Service Unit).All Op.Ordinary := by
        split_ifs
        · trivial
        · exact (TaskService.ordinary_changeStatus M _ _ _).bind fun _ =>
            TaskService.ordinary_broadcast M _ _
        · trivial
      exact hord hrest hs

end Handler

/-- An installation under `(u,v)`, and what it rests on. -/
def Installation (M : Prost) (q : Request) (u v : String) (h : List TaskEvent) : Prop :=
  ∃ request receiver, q.call = .interCoreSyncTaskWithReverseConnection request ∧
    q.metadata.userId = some u ∧ request.participants[0]? = some receiver ∧
    receiver.userId = v ∧
    (Authenticated request v h ↔ Vouched M q.metadata request u v h)

def Grounded (M : Prost) (q : Request) : List TaskEvent → Prop
  | ⟨.sendersInsert u v,_⟩ :: h => Installation M q u v h
  | _ => True

theorem grounded_of_noInsert (M : Prost) (q : Request) (e : TaskEvent) (h : List TaskEvent)
    (he : e.1.NoInsert) : Grounded M q (e :: h) := by
  obtain ⟨o,r⟩ := e
  cases o <;> trivial

theorem traced_serve (D : Deployment) (q : Request) :
    (D.serve q).Traced (Grounded D.prost q) [] fun _ _ => True := by
  have hI := grounded_of_noInsert D.prost q
  have hreply (r : Except Abort Unit) (h : List TaskEvent) :
      (perform (.reply r) >>= fun _ => Prog.ofExcept r : Service Unit).Traced
        (Grounded D.prost q) h fun _ _ => True :=
    fun _ => ⟨hI _ _ (by simp [Op.NoInsert,Op.kind]),Prog.Traced.ofExcept trivial⟩
  have hrest {p : Service Unit} (hp : p.All Op.NoInsert) :
      (p.attempt >>= fun r => perform (.reply r) >>= fun _ => Prog.ofExcept r).Traced
        (Grounded D.prost q) [] fun _ _ => True := by
    refine Prog.Traced.bind (Prog.Traced.attempt
      ((Prog.Traced.adds hp fun e _ _ he => hI e _ he).mono fun r h _ => ?_))
    exact hreply r h
  unfold Deployment.serve Deployment.handle
  cases hq : q.call with
  | createTask task =>
    exact hrest ((TaskService.noInsert_createTask D.prost _ _ _).bind fun _ => trivial)
  | confirmTask request => exact hrest (TaskService.noInsert_confirmTask D.prost _ _)
  | finishTask task => exact hrest (TaskService.noInsert_finishTask D.prost _ _)
  | interCoreSyncTask task => exact hrest (TaskService.noInsert_interCoreSyncTask D.prost _ _)
  | interCoreSyncTaskWithReverseConnection request =>
    refine Prog.Traced.bind (Prog.Traced.attempt (Prog.Traced.mono
      (Q := Prog.OnOk fun _ _ => True) ?_ fun r h _ => hreply r h))
    show (do
      let userId ← unwrap q.metadata.userId
      let receiver ← unwrap request.participants[0]?
      TaskService.interCoreSyncTask D.prost q.metadata request
      perform (.sendersInsert userId receiver.userId) : Service Unit).Traced _ _ _
    cases hu : q.metadata.userId with
    | none => trivial
    | some u =>
      cases hr : request.participants[0]? with
      | none => trivial
      | some receiver =>
        show (TaskService.interCoreSyncTask D.prost q.metadata request >>= fun _ =>
          perform (.sendersInsert u receiver.userId)).Traced _ _ _
        refine Prog.Traced.seq (traced_interCoreSyncTask (v := receiver.userId) hI hu hr rfl)
          fun _ h hs => fun w => ⟨?_,trivial⟩
        exact ⟨request,receiver,hq,hu,hr,rfl,hs [] (by simp)⟩

theorem exec_senders {D : Deployment} {t : ℕ} {q : Request} {o : Op} {w w' : World} {r : Res o}
    (h : D.Exec t q w o r w') (i : ℕ) :
    (w'.cores i).reverseSenders = (w.cores i).reverseSenders ∨ ∃ u v, o = .sendersInsert u v ∧
      q.core = i ∧ (w'.cores i).reverseSenders = insert (u,v) (w.cores i).reverseSenders := by
  cases h with
  | sendersInsert u v =>
    by_cases hi : i = q.core
    · subst hi
      exact .inr ⟨u,v,rfl,rfl,by simp⟩
    · exact .inl (by simp [hi])
  | _ =>
    left
    first
    | rfl
    | (simp only [World.setCore_cores,World.stored_cores]
       split_ifs with hi
       · rw [hi]
       · rfl)

theorem env_senders {D : Deployment} {w w' : World} (h : D.Env w w') (i : ℕ) :
    (w'.cores i).reverseSenders = (w.cores i).reverseSenders := by
  cases h with
  | _ =>
    simp only [World.setCore_cores]
    split_ifs with hi
    · rw [hi]
    · rfl

/-- Whoever has a sender has got it from an installation. -/
theorem sender_installed {D : Deployment} {c : Config Op Res Abort Request Unit World}
    (hc : D.Reach c) (i : ℕ) (u v : String)
    (hs : (u,v) ∈ (c.state.shared.cores i).reverseSenders) :
    ∃ t q, q.core = i ∧ .op t q (.sendersInsert u v) () ∈ c.state.history := by
  have hmem {c : Config Op Res Abort Request Unit World}
      {a : Action Op Res Request} {x : World}
      (h : ∃ t q, q.core = i ∧ .op t q (.sendersInsert u v) () ∈ c.state.history) :
      ∃ t q, q.core = i ∧ .op t q (.sendersInsert u v) () ∈ (c.state.push x a).history := by
    obtain ⟨t,q,hq,hm⟩ := h
    exact ⟨t,q,hq,List.mem_cons_of_mem _ hm⟩
  induction hc with
  | init hi =>
    rw [(hi.1 i).2.2.2.1] at hs
    simp at hs
  | step _ s ih =>
    cases s with
    | start fresh begins =>
      obtain ⟨-,-,rfl⟩ := begins
      exact hmem (ih hs)
    | @op t q o k r x runs does =>
      rcases exec_senders does i with he | ⟨u',v',rfl,hq,he⟩
      · have hs' : (u,v) ∈ (x.cores i).reverseSenders := hs
        rw [he] at hs'
        exact hmem (ih hs')
      · have hs' : (u,v) ∈ (x.cores i).reverseSenders := hs
        rw [he,Finset.mem_insert] at hs'
        rcases hs' with heq | hs'
        · obtain ⟨rfl,rfl⟩ := Prod.mk.inj heq
          exact ⟨t,q,hq,List.mem_cons_self ..⟩
        · exact hmem (ih hs')
    | @env x moves =>
      have hs' : (u,v) ∈ (x.cores i).reverseSenders := hs
      rw [env_senders moves i] at hs'
      exact hmem (ih hs')

/-- In every run, whatever the requests, a sender has been installed by a request, and that
request has brought a checked decision of the peer exactly if it was not forwarded and the task
was unknown or lists the peer at a position for which the request brought a decision. -/
theorem installation_authenticated_iff (D : Deployment)
    {c : Config Op Res Abort Request Unit World} (hc : D.Reach c) :
    (∀ i u v, (u,v) ∈ (c.state.shared.cores i).reverseSenders →
      ∃ t q, q.core = i ∧ .op t q (.sendersInsert u v) () ∈ c.state.history) ∧
    ∀ t q u v h, .op t q (.sendersInsert u v) () :: h <:+ c.state.history →
      ∃ request receiver, q.call = .interCoreSyncTaskWithReverseConnection request ∧
        q.metadata.userId = some u ∧ request.participants[0]? = some receiver ∧
        receiver.userId = v ∧
        (Authenticated request v (events t h) ↔
          Vouched D.prost q.metadata request u v (events t h)) :=
  ⟨sender_installed hc,fun _ _ _ _ _ hs => hc.traced_op (traced_serve D) hs⟩

/-- A user creates a task alone. A guest who knows its id sends a request with that id which
lists somebody else and brings no decision at all. -/
def unvouched : List Move := Move.settle 7 ++
  [.start 0 (.ofUser 7 (.createTask
      { participants := [⟨hexEncode [7],"initiator"⟩]
        requireAgreement := true
        expirationTime := 1000 })),
    .run 0 14,
    .start 1 (.ofGuest 7 (.interCoreSyncTaskWithReverseConnection
      { taskId := "id", participants := [⟨hexEncode [8],"receiver"⟩] })),
    .run 1 9]

def bringsNoDecision : Action Op Res Request → Bool
  | .op _ q _ _ => match q.call with
    | .interCoreSyncTaskWithReverseConnection request => decide (request.decisions = [])
    | _ => true
  | _ => true

theorem unvouched_run : ∃ c p, Deployment.ideal.Reach c ∧ Play.Follows c p ∧
    ("07","08") ∈ p.sim.senders ∧ p.history.all bringsNoDecision := by
  have hrun : (Play.moves unvouched { sim := { ids := ["id"] } }).any fun p =>
      decide (("07","08") ∈ p.sim.senders) && p.history.all bringsNoDecision := by
    decide +kernel
  obtain ⟨c,p,hc,hf,hp⟩ := Play.run hrun
  rw [Bool.and_eq_true,decide_eq_true_eq] at hp
  exact ⟨c,p,hc,hf,hp⟩

theorem installation_authenticated_iff_sample : ∃ c, Deployment.ideal.Reach c ∧
    ∃ t q, q.core = 0 ∧ .op t q (.sendersInsert "07" "08") () ∈ c.state.history := by
  obtain ⟨c,p,hc,hf,hs,-⟩ := unvouched_run
  exact ⟨c,hc,(installation_authenticated_iff _ hc).1 0 _ _ ((hf.shows.senders _).mpr hs)⟩

/-- A sender need not have been installed by a request with a checked decision. -/
theorem sender_without_decision : ¬ ∀ c, Deployment.ideal.Reach c →
    ∀ u v, (u,v) ∈ (c.state.shared.cores 0).reverseSenders → ∃ t q request,
      q.call = .interCoreSyncTaskWithReverseConnection request ∧
      .op t q (.sendersInsert u v) () ∈ c.state.history ∧
      Authenticated request v (events t c.state.history) := by
  intro hall
  obtain ⟨c,p,hc,hf,hs,hnone⟩ := unvouched_run
  obtain ⟨t,q,request,hq,hm,d,hd,-⟩ := hall c hc _ _ ((hf.shows.senders _).mpr hs)
  rw [hf.history] at hm
  have hno := List.all_eq_true.mp hnone _ hm
  simp only [bringsNoDecision,hq,decide_eq_true_eq] at hno
  rw [hno] at hd
  cases hd

end ReverseConnections
end CoLinkServer
