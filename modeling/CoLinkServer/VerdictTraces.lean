import CoLinkServer.HandlerTraces

/-! How a synchronisation ends that finds the task decided. It enters the second critical section,
and there it stores the verdict unless the record or one of the two lists is not what it expects. -/
namespace CoLinkServer

open Interleaving

namespace Verdicts

open TaskTraces

def lists (M : Prost) (id : String) (payload : Bytes) : Bool :=
  (M.taskIdList.decode payload).any fun list => list.taskIdsWithKeyPaths.any (·.taskId = id)

def Unmerged (h : List TaskEvent) : Prop :=
  ∀ u k payload r, ⟨.storageUpdate .merge u k payload,r⟩ ∉ h

/-- The newest event is one that ends the call before the verdict is stored. -/
inductive Misses (M : Prost) (u id : String) : List TaskEvent → Prop
  | record {r : Except String Bytes} {past : List TaskEvent}
      (merged : ¬ Unmerged past) (bad : ∀ payload, r = .ok payload → M.task.decode payload = none) :
      Misses M u id (⟨.storageRead u (recordKey id),r⟩ :: ⟨.lock .decide,()⟩ :: past)
  | list {r : Except String Bytes} {payload : Bytes} {task : Task} {k : String}
      {added past : List TaskEvent} (merged : ¬ Unmerged past)
      (decoded : M.task.decode payload = some task)
      (list : ListOf u task k) (leaves : ∀ e ∈ added, Leaves u k e.1)
      (bad : ∀ payload', r = .ok payload' → lists M task.taskId payload' = false) :
      Misses M u id (⟨.storageRead u k,r⟩ :: (added ++
        ⟨.storageRead u (recordKey id),.ok payload⟩ :: ⟨.lock .decide,()⟩ :: past))
  | update {site : Site} {k : String} {e : UpdateError} {payload : Bytes} {past : List TaskEvent}
      (site_mem : site ∈ [Site.merge,.list]) :
      Misses M u id (⟨.storageUpdate site u k payload,.error e⟩ :: past)

/-- The verdict has been stored, or there was a reason not to. -/
def Done (M : Prost) (u id : String) (h : List TaskEvent) : Prop :=
  (∃ k payload r, ⟨.storageUpdate .decide u k payload,r⟩ ∈ h) ∨ ∃ h', h' <:+ h ∧ Misses M u id h'

/-- Whoever has merged decisions and found the task decided is done. -/
def Settles (M : Prost) (u id : String) (h : List TaskEvent) : Prop :=
  ∀ (merged : Task) (k : String) (r : Except UpdateError String),
    ⟨.storageUpdate .merge u k (M.task.encode merged),r⟩ ∈ h →
    merged.status ≠ "started" ∧ merged.status ≠ "rejected" → TaskService.isDecided merged →
    Done M u id h

def Only (M : Prost) (task : Task) (h : List TaskEvent) : Prop :=
  ∀ u k payload r, ⟨.storageUpdate .merge u k payload,r⟩ ∈ h → payload = M.task.encode task

abbrev Free : List TaskEvent → Prop := fun _ => True

variable {M : Prost} {u id : String} {h : List TaskEvent} {α : Type}

theorem Done.cons (hd : Done M u id h) (e : TaskEvent) : Done M u id (e :: h) := by
  refine hd.imp (fun hh => ?_) (fun hh => ?_)
  · obtain ⟨k,payload,r,hm⟩ := hh
    exact ⟨k,payload,r,List.mem_cons_of_mem e hm⟩
  · obtain ⟨h',hs,hm⟩ := hh
    exact ⟨h',hs.trans (List.suffix_cons e h),hm⟩

theorem Misses.done (hm : Misses M u id h) : Done M u id h := .inr ⟨h,List.suffix_rfl,hm⟩

theorem Done.settles (hd : Done M u id h) : Settles M u id h := fun _ _ _ _ _ _ => hd

theorem Unmerged.settles (hn : Unmerged h) : Settles M u id h := fun _ k _ hm _ _ => absurd hm (hn u k _ _)

def NoMerge : Op → Prop
  | .storageUpdate .merge _ _ _ => False
  | _ => True

theorem ne_merge {e : TaskEvent} (he : NoMerge e.1) {u k : String} {payload : Bytes}
    {r : Except UpdateError String} : (⟨.storageUpdate .merge u k payload,r⟩ : TaskEvent) ≠ e := by
  rintro rfl
  exact he

theorem Settles.cons (hs : Settles M u id h) {e : TaskEvent} (he : NoMerge e.1) :
    Settles M u id (e :: h) := by
  intro merged k r hm hst hd
  rcases List.mem_cons.mp hm with heq | hm
  · exact absurd heq (ne_merge he)
  · exact (hs merged k r hm hst hd).cons e

theorem Only.cons {task : Task} (ho : Only M task h) {e : TaskEvent} (he : NoMerge e.1) :
    Only M task (e :: h) := by
  intro u k payload r hm
  rcases List.mem_cons.mp hm with heq | hm
  · exact absurd heq (ne_merge he)
  · exact ho u k payload r hm

theorem Unmerged.cons (hn : Unmerged h) {e : TaskEvent} (he : NoMerge e.1) : Unmerged (e :: h) := by
  intro u k payload r hm
  rcases List.mem_cons.mp hm with heq | hm
  · exact absurd heq (ne_merge he)
  · exact hn u k payload r hm

theorem not_unmerged_cons (hm : ¬ Unmerged h) (e : TaskEvent) : ¬ Unmerged (e :: h) :=
  fun hn => hm fun u k payload r hh => hn u k payload r (List.mem_cons_of_mem e hh)

theorem traced_noMerge {p : Service α} (hp : p.All NoMerge) (hn : Unmerged h) :
    p.Traced Free h fun _ => Unmerged :=
  Prog.Traced.of_all hp (fun _ ho _ _ hn => ⟨trivial,hn.cons ho⟩) hn

theorem traced_before {p : Service α} (hp : p.All NoMerge) (hn : Unmerged h) :
    p.Traced Free h (Prog.Ends (fun _ => Unmerged) (Settles M u id)) :=
  (traced_noMerge hp hn).mono fun r _ hn => by
    cases r with
    | ok a => exact hn
    | error e => exact hn.settles

theorem traced_done (p : Service α) (hd : Done M u id h) : p.Traced Free h fun _ => Done M u id :=
  Prog.Traced.of_stable (fun e _ hd => ⟨trivial,hd.cons e⟩) p hd

theorem traced_locked {s : Section} {body : Service α} {P : α → List TaskEvent → Prop}
    {E : List TaskEvent → Prop} (hb : body.Traced Free (⟨.lock s,()⟩ :: h) (Prog.Ends P E))
    (hP : ∀ a h, P a h → P a (⟨.unlock s,()⟩ :: h)) (hE : ∀ h, E h → E (⟨.unlock s,()⟩ :: h)) :
    (TaskService.locked s body).Traced Free h (Prog.Ends P E) :=
  Prog.Traced.bracketEnds (A := fun h' => h' = ⟨.lock s,()⟩ :: h) (fun _ => ⟨trivial,rfl⟩)
    (fun _ hA => hA ▸ hb) (fun a h' hP' => fun _ => ⟨trivial,hP a h' hP'⟩)
    (fun h' hE' => fun _ => ⟨trivial,hE h' hE'⟩)

theorem lists_false {id : String} {payload : Bytes} {list : CoLinkInternalTaskIdList}
    (hd : M.taskIdList.decode payload = some list)
    (hf : list.taskIdsWithKeyPaths.findIdx? (fun e => e.taskId = id) = none) : lists M id payload = false := by
  rw [lists,hd]
  simpa using List.findIdx?_eq_none_iff.mp hf

/-- Taking the task out of a list: either it was there, or the call is over. -/
theorem traced_removeFromList {task : Task} {payload : Bytes} {k : String} {past : List TaskEvent}
    (added : List TaskEvent) (hm : ¬ Unmerged past) (hd : M.task.decode payload = some task)
    (hk : ListOf u task ("_internal:" ++ k)) (hl : ∀ e ∈ added, Leaves u ("_internal:" ++ k) e.1)
    (hh : h = added ++ ⟨.storageRead u (recordKey id),.ok payload⟩ :: ⟨.lock .decide,()⟩ :: past) :
    (TaskService.removeTaskFromListInStorage M u task k).Traced Free h (Prog.Ends
      (fun _ h' => ∃ r p r', h' = ⟨.storageUpdate .list u ("_internal:" ++ k) p,r'⟩ ::
        ⟨.storageRead u ("_internal:" ++ k),r⟩ :: h) (Done M u id)) := by
  subst hh
  refine fun r => ⟨trivial,?_⟩
  cases r with
  | error e => exact (Misses.list hm hd hk hl (by simp)).done
  | ok payload' =>
    show (unwrap (M.taskIdList.decode payload') >>= _).Traced _ _ _
    cases hdl : M.taskIdList.decode payload' with
    | none =>
      refine (Misses.list hm hd hk hl fun p hp => ?_).done
      obtain rfl := Except.ok.inj hp
      rw [lists,hdl]
      rfl
    | some list =>
      show ((.ret list : Service _) >>= _).Traced _ _ _
      rw [Prog.ret_bind]
      cases hf : list.taskIdsWithKeyPaths.findIdx? fun e => e.taskId = task.taskId with
      | none =>
        refine (Misses.list hm hd hk hl fun p hp => ?_).done
        obtain rfl := Except.ok.inj hp
        exact lists_false hdl hf
      | some index =>
        refine fun r' => ⟨trivial,?_⟩
        cases r' with
        | error e => exact (Misses.update (by simp)).done
        | ok k' => exact ⟨_,_,_,rfl⟩

theorem traced_changeStatus (request : Task) (rejected : Bool) (hm : ¬ Unmerged h) :
    (TaskService.changeStatus M u request rejected).Traced Free h
      (Prog.Ends (fun _ => Done M u request.taskId) (Done M u request.taskId)) := by
  refine traced_locked ?_ (fun _ _ hd => hd.cons _) (fun _ hd => hd.cons _)
  refine fun r => ⟨trivial,?_⟩
  cases r with
  | error e => exact (Misses.record hm (by simp)).done
  | ok payload =>
    show (unwrap (M.task.decode payload) >>= _).Traced _ _ _
    cases hd : M.task.decode payload with
    | none =>
      refine (Misses.record hm fun p hp => ?_).done
      obtain rfl := Except.ok.inj hp
      exact hd
    | some task =>
      have hkeys : "_internal:" ++ TaskService.protocolListKey u task ≠
          "_internal:" ++ TaskService.statusListKey task := by
        intro he
        have hl := congrArg String.toList he
        simp [TaskService.protocolListKey,TaskService.statusListKey] at hl
      show (TaskService.removeTaskOldStatus M u task >>= _).Traced _ _ _
      refine Prog.Traced.seqEnds (P := fun _ _ => True) ?_ fun _ h' _ => ?_
      · refine Prog.Traced.seqEnds (traced_removeFromList [] hm hd (.inl rfl) (by simp) rfl)
          fun _ h' hr => ?_
        obtain ⟨r,p,r',rfl⟩ := hr
        have hother : ¬ (u = u ∧ "_internal:" ++ TaskService.protocolListKey u task =
            "_internal:" ++ TaskService.statusListKey task) := fun he => hkeys he.2
        refine (traced_removeFromList [⟨.storageUpdate .list u _ p,r'⟩,⟨.storageRead u _,r⟩] hm hd
          (.inr rfl) (fun e he => ?_) rfl).mono fun r h hr => ?_
        · simp only [List.mem_cons,List.not_mem_nil,or_false] at he
          rcases he with rfl | rfl <;> exact hother
        · cases r with
          | ok a => trivial
          | error e => exact hr
      · refine fun r' => ⟨trivial,?_⟩
        have hdone : Done M u request.taskId (⟨.storageUpdate .decide u _ _,r'⟩ :: h') :=
          .inl ⟨_,_,r',List.mem_cons_self ..⟩
        exact (traced_done _ hdone).mono fun r _ hd => by cases r <;> exact hd

theorem noMerge_admitTask (request : Task) : (TaskService.admitTask M u request).All NoMerge := by
  refine (TaskService.all_unwrap _).bind fun d => (TaskService.all_unwrap _).bind fun p => ?_
  refine (TaskService.all_checkDecision trivial).bind fun _ => (TaskService.all_require _ _).bind fun _ => ?_
  refine (TaskService.all_storeTask trivial).bind fun _ => TaskService.all_locked trivial trivial ?_
  refine TaskService.all_addTaskNewStatus (fun _ => trivial) (fun _ => trivial) fun site _ _ _ => ?_
  cases site <;> trivial

theorem traced_merge (request : Task) (hn : Unmerged h) :
    (TaskService.mergeDecisions M u request).Traced Free h
      (Prog.Ends (fun task h' => Only M task h' ∧ ¬ Unmerged h') (Settles M u request.taskId)) := by
  refine traced_locked ?_ (fun _ _ ho => ⟨ho.1.cons trivial,not_unmerged_cons ho.2 _⟩)
    (fun _ hs => hs.cons trivial)
  refine Prog.Traced.seqEnds (traced_before (TaskService.all_readTask trivial) (hn.cons trivial))
    fun task h hn => ?_
  refine Prog.Traced.seqEnds (traced_before (TaskService.all_require _ _) hn) fun _ h hn => ?_
  refine Prog.Traced.seqEnds (traced_before (TaskService.all_perform (o := .utcNow) trivial) hn)
    fun now h hn => ?_
  refine Prog.Traced.seqEnds (traced_before (TaskService.all_require _ _) hn) fun _ h hn => ?_
  refine Prog.Traced.seqEnds (traced_before (TaskService.all_takeDecisions fun _ _ _ => trivial) hn)
    fun task h hn => ?_
  refine fun r => ⟨trivial,?_⟩
  cases r with
  | error e => exact (Misses.update (by simp)).done.settles
  | ok k =>
    refine ⟨fun u' k' payload r hm => ?_,fun hn => hn _ _ _ _ (List.mem_cons_self ..)⟩
    rcases List.mem_cons.mp hm with he | hm
    · obtain ⟨ho,-⟩ := Sigma.mk.inj he
      exact (Op.storageUpdate.inj ho).2.2.2
    · exact absurd hm (hn u' k' payload r)

theorem traced_sync {q : Request} {request : Task} (hf : q.metadata.forwardingTarget = none)
    (hu : q.metadata.userId = some u) :
    (TaskService.interCoreSyncTask M q.metadata request).Traced Free []
      (Prog.Ends (fun _ => Settles M u request.taskId) (Settles M u request.taskId)) := by
  have hnil : Unmerged [] := fun _ _ _ _ => List.not_mem_nil
  have hcheck : (TaskService.checkPrivilegeIn q.metadata ["user","guest"]).All NoMerge :=
    TaskService.all_checkPrivilegeIn fun _ => trivial
  refine Prog.Traced.seqEnds (traced_before hcheck hnil) fun _ h hn => ?_
  rw [hu,hf]
  show ((perform (.storageContains u (recordKey request.taskId))) >>= _).Traced _ _ _
  refine Prog.Traced.seqEnds (traced_before (TaskService.all_perform trivial) hn) fun present h hn => ?_
  split_ifs
  · exact (traced_noMerge (noMerge_admitTask request) hn).mono fun r _ hn => by
      cases r <;> exact hn.settles
  · refine Prog.Traced.seqEnds (traced_merge request hn) fun task h hh => ?_
    obtain ⟨ho,hm⟩ := hh
    have hsettles (hno : ¬ ((task.status ≠ "started" ∧ task.status ≠ "rejected") ∧
        TaskService.isDecided task)) : Settles M u request.taskId h := by
      intro merged k r hm hst hd
      obtain rfl := M.task.encode_inj (ho u k _ r hm)
      exact absurd ⟨hst,hd⟩ hno
    split_ifs with hst hd
    · exact hsettles fun hh => not_or.mpr hh.1 hst
    · refine Prog.Traced.seqEnds (P := fun _ => Done M u request.taskId) (E := Settles M u request.taskId)
        ((traced_changeStatus request _ hm).mono fun r _ hd => ?_) fun task' h' hd => ?_
      · cases r with
        | ok a => exact hd
        | error e => exact hd.settles
      · exact (traced_done _ hd).mono fun r _ hd => by cases r <;> exact hd.settles
    · exact hsettles fun hh => hd hh.2

def Ended (M : Prost) (q : Request) (_ : Except Abort Unit) (h : List TaskEvent) : Prop :=
  ∀ request u, q.call.synced = some request → q.metadata.forwardingTarget = none →
    q.metadata.userId = some u → Settles M u request.taskId h

theorem traced_handle (D : Deployment) {q : Request} {request : Task}
    (hq : q.call.synced = some request) (hf : q.metadata.forwardingTarget = none)
    (hu : q.metadata.userId = some u) :
    (D.handle q).Traced Free [] fun _ => Settles D.prost u request.taskId := by
  unfold Deployment.handle
  cases hcall : q.call with
  | interCoreSyncTask task =>
    rw [hcall] at hq
    obtain rfl := Option.some.inj hq
    exact (traced_sync hf hu).mono fun r _ hs => by cases r <;> exact hs
  | interCoreSyncTaskWithReverseConnection task =>
    rw [hcall] at hq
    obtain rfl := Option.some.inj hq
    show (unwrap q.metadata.userId >>= _).Traced _ _ _
    rw [hu]
    show (unwrap task.participants[0]? >>= _).Traced _ _ _
    have hnil : Unmerged [] := fun _ _ _ _ => List.not_mem_nil
    cases task.participants[0]? with
    | none => exact hnil.settles
    | some receiver =>
      show (TaskService.interCoreSyncTask D.prost q.metadata task >>= _).Traced _ _ _
      refine Prog.Traced.bind ((traced_sync hf hu).mono fun r _ hs => ?_)
      cases r with
      | ok a => exact fun _ => ⟨trivial,hs.cons trivial⟩
      | error e => exact hs
  | _ => rw [hcall] at hq; cases hq

theorem traced_serve (D : Deployment) (q : Request) :
    (D.serve q).Traced Free [] (Ended D.prost q) := by
  by_cases hq : q.call.synced.isSome ∧ q.metadata.forwardingTarget = none ∧ q.metadata.userId.isSome
  · obtain ⟨hsync,hf,huser⟩ := hq
    obtain ⟨request,hq⟩ := Option.isSome_iff_exists.mp hsync
    obtain ⟨u,hu⟩ := Option.isSome_iff_exists.mp huser
    refine Prog.Traced.bind (Prog.Traced.attempt ((traced_handle D hq hf hu).mono fun r h hs => ?_))
    refine fun w => ⟨trivial,Prog.Traced.ofExcept fun request' u' hq' _ hu' => ?_⟩
    obtain rfl := Option.some.inj (hq.symm.trans hq')
    obtain rfl := Option.some.inj (hu.symm.trans hu')
    exact hs.cons trivial
  · refine (Prog.Traced.of_forall (fun _ => trivial) _ _).mono fun r h _ request u hs hf hu => ?_
    exact absurd ⟨by rw [hs]; rfl,hf,by rw [hu]; rfl⟩ hq

theorem settles_of_ended {D : Deployment} {c : Config Op Res Abort Request Unit World}
    (hc : D.Reach c) {t : ℕ} {q : Request} {r : Except Abort Unit}
    (ht : c.threads t = some (q,.ofExcept r)) {request : Task} (hq : q.call.synced = some request)
    (hf : q.metadata.forwardingTarget = none) (hu : q.metadata.userId = some u) :
    Settles D.prost u request.taskId (events t c.state.history) :=
  hc.traced_end (traced_serve D) ht request u hq hf hu

end Verdicts
end CoLinkServer
