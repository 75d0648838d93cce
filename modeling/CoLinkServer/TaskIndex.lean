import CoLinkServer.EntryTraces
import CoLinkServer.Placements
import Mathlib.Algebra.Order.Group.Defs
import Mathlib.Algebra.Order.Group.Int

/-! The lists as an index of the records. As long as no operation fails, every task that has been indexed
stands in the two lists of its stored version, once in each, whenever nobody is in a critical section;
no other list of the user names it. -/
namespace CoLinkServer

open Interleaving

namespace TaskIndex

open TaskKeys TaskLists TaskRecords TaskTraces Admissions Placements EntryTraces

variable {D : Deployment} {c : TaskConfig} {M : Prost} {i t : ℕ} {q : Request} {u k v id : String}
  {f : Family} {h past : List TaskAction}

/-- Values are stored, decisions are made, and the consent of the users can be read. -/
def Unfailing : TaskAction → Prop
  | .op _ _ (.storageUpdate _ _ _ _) r => r.isOk
  | .op _ _ (.makeDecision _ _ _ _ _ _) r => r.isOk
  | .op _ _ (.storageRead _ k) r => k = consentKey → r.isOk
  | _ => True

instance (a : TaskAction) : Decidable (Unfailing a) := by
  cases a with
  | op t q o r => cases o <;> (unfold Unfailing; infer_instance)
  | _ => exact isTrue trivial

/-- A task that is admitted brings a decision for each participant. -/
def Roomy (M : Prost) (w : Write) (_ : List TaskAction) : Prop :=
  w.site = .admission → ∀ task ∈ M.task.decode w.payload, Ample task

instance (task : Task) : Decidable (Ample task) := inferInstanceAs (Decidable (_ ≤ _))

instance (M : Prost) (w : Write) (h : List TaskAction) : Decidable (Roomy M w h) :=
  inferInstanceAs (Decidable (_ → ∀ task ∈ _, _))

/-- No task takes the key of a list or is introduced to a user twice, and nothing fails. -/
structure Orderly (M : Prost) (h : List TaskAction) : Prop where
  tidy : Everywhere (OnWrites Tidy) h
  first : Everywhere (OnWrites First) h
  roomy : Everywhere (OnWrites (Roomy M)) h
  unfailing : ∀ a ∈ h, Unfailing a

instance (M : Prost) (h : List TaskAction) : Decidable (Orderly M h) :=
  decidable_of_iff (Everywhere (OnWrites Tidy) h ∧ Everywhere (OnWrites First) h ∧
    Everywhere (OnWrites (Roomy M)) h ∧ ∀ a ∈ h, Unfailing a)
    ⟨fun ho => ⟨ho.1,ho.2.1,ho.2.2.1,ho.2.2.2⟩,fun ho => ⟨ho.tidy,ho.first,ho.roomy,ho.unfailing⟩⟩

/-- In every stored version of a task there is a decision for each participant. -/
theorem ample_stored (hc : D.Reach c) (ho : Orderly D.prost c.state.history) (hid : ¬ Reserved id)
    (hh : h <:+ c.state.history) {task : Task}
    (hst : stored i u (recordKey id) h = some (D.prost.task.encode task)) : Ample task := by
  induction h generalizing task with
  | nil => cases hst
  | cons a h ih =>
    have hpast : h <:+ c.state.history := (List.suffix_cons _ _).trans hh
    by_cases ha : Spares i u (recordKey id) a
    · rw [stored_cons_of_spares ha] at hst
      exact ih hpast hst
    · obtain ⟨t,q,site,payload,r,rfl,rfl⟩ := write_of_not_spares ha
      obtain ⟨new,rfl,-,hv⟩ := version_of_write hc ho.tidy ho.first hid hh
      rw [stored_write] at hst
      obtain rfl := D.prost.task.encode_inj (Option.some.inj hst)
      generalize hold : stored q.core u (recordKey id) h = old at hv
      cases hv with
      | first site_mem stores =>
        cases stores with
        | create call introduced made room =>
          show _ ≤ _
          simp [newTask,TaskService.length_resize]
        | query introduced => exact le_rfl
        | admission sync direct initiator decision approved steps =>
          exact everywhere_writes ho.roomy hh rfl _ (D.prost.task.decode_encode _)
        | merge | decide | confirm | finish => simp at site_mem
      | @next old changes id_eq =>
        have hample := ih hpast hold
        cases changes with
        | merge sync direct agreement taken => exact hample.trans taken.length.ge
        | decide => exact hample
        | confirm call decision reported waiting entered => exact hample.trans entered.1.ge
        | finish => exact hample

theorem stored_mono (hp : past <:+ h) (hst : stored i u k past ≠ none) : stored i u k h ≠ none := by
  obtain ⟨payload,hst⟩ := Option.ne_none_iff_exists'.mp hst
  obtain ⟨t,q,site,r,before,rfl,hs⟩ := write_of_stored hst
  exact stored_of_write (hp.subset (hs.subset (List.mem_cons_self ..)))

theorem mem_of_knows {es : List TaskEvent} {w : Bytes} (hk : knows u k es = some w) :
    ⟨.storageRead u k,.ok w⟩ ∈ es ∨ ∃ site r, ⟨.storageUpdate site u k w,r⟩ ∈ es := by
  induction es with
  | nil => cases hk
  | cons e es ih =>
    obtain ⟨o,r⟩ := e
    have hold (hk : knows u k es = some w) : ⟨.storageRead u k,.ok w⟩ ∈ (⟨o,r⟩ : TaskEvent) :: es ∨
        ∃ site r', ⟨.storageUpdate site u k w,r'⟩ ∈ (⟨o,r⟩ : TaskEvent) :: es :=
      (ih hk).imp (List.mem_cons_of_mem _) fun hw => by
        obtain ⟨site,r',hm⟩ := hw
        exact ⟨site,r',List.mem_cons_of_mem _ hm⟩
    rcases knows_cons hk with ⟨-,hk⟩ | ⟨rfl,hr⟩ | ⟨e,-,-,hk⟩ | ⟨site,rfl⟩
    · exact hold hk
    · obtain rfl := eq_of_heq hr
      exact .inl (List.mem_cons_self ..)
    · exact hold hk
    · exact .inr ⟨site,r,List.mem_cons_self ..⟩

theorem stored_of_knows_some (hc : D.Reach c) (hu : NoColon u) (hk : Guarded k) {o : Op} {r : Res o}
    (hs : .op t q o r :: h <:+ c.state.history) {w : Bytes} (hw : knows u k (events t h) = some w) :
    stored q.core u k h ≠ none := by
  have hh : h <:+ c.state.history := (List.suffix_cons _ _).trans hs
  rcases mem_of_knows hw with hm | ⟨site,r',hm⟩
  · obtain ⟨past,hp⟩ := suffix_of_mem (mem_history hc hs hm)
    refine stored_mono ((List.suffix_cons _ _).trans hp) ?_
    rw [stored_of_read hc hu hk (hp.trans hh)]
    exact Option.some_ne_none _
  · exact stored_of_write (mem_history hc hs hm)

theorem shelf_of_listOf {task : Task} (hl : ListOf u task k) (hst : task.status ∈ statuses) (id : String) :
    ∃ f, Shelf ⟨u,f,id⟩ k := by
  obtain ⟨l,hm,rfl⟩ := list_of_listOf hl
  obtain ⟨f,hf⟩ := start_listKey l
  exact ⟨f,l,known_of_listsAt hst hm,rfl,decide_eq_true ⟨rfl,hf⟩⟩

theorem list_of_stored (hc : D.Reach c) (htidy : Everywhere (OnWrites Tidy) c.state.history) {x : Entry}
    (hx : Shelf x k) (hh : h <:+ c.state.history) {payload : Bytes}
    (hst : stored i x.user k h = some payload) : ∃ list, payload = D.prost.taskIdList.encode list := by
  obtain ⟨t,q,site,r,past,rfl,hs⟩ := write_of_stored hst
  obtain rfl := site_of_shelf hc htidy hx (hs.trans hh)
  obtain ⟨task,list,-,-,he⟩ := everywhere_writes (kept hc htidy) (hs.trans hh)
  exact ⟨list,he⟩

theorem guarded_shelf {x : Entry} (hx : Shelf x k) : Guarded k := by
  obtain ⟨l,-,rfl,-⟩ := hx
  exact guarded_listKey l

theorem noColon_of_writes (hc : D.Reach c) {o : Op} {r : Res o} (hs : .op t q o r :: h <:+ c.state.history)
    (hw : Writes u (events t h)) : NoColon u := by
  obtain ⟨site,k,payload,r',hm⟩ := hw
  obtain ⟨past,hp⟩ := suffix_of_mem (mem_history hc hs hm)
  exact writer_noColon hc (hp.trans ((List.suffix_cons _ _).trans hs))

theorem exists_shelves (i : ℕ) (x : Entry) (h : List TaskAction) : ∃ S : Finset String,
    (∀ k ∈ S, Shelf x k) ∧ ∀ k, Shelf x k → stored i x.user k h ≠ none → k ∈ S := by
  induction h with
  | nil => exact ⟨∅,by simp,fun k _ hst => absurd rfl hst⟩
  | cons a h ih =>
    obtain ⟨S,hS,hall⟩ := ih
    by_cases ha : ∃ k, Shelf x k ∧ ¬ Spares i x.user k a
    · obtain ⟨k,hk,ha⟩ := ha
      refine ⟨insert k S,fun k' hk' => ?_,fun k' hk' hst => ?_⟩
      · rcases Finset.mem_insert.mp hk' with rfl | hk'
        · exact hk
        · exact hS k' hk'
      · by_cases hkk : k' = k
        · exact hkk ▸ Finset.mem_insert_self ..
        · obtain ⟨t,q,site,payload,r,rfl,-⟩ := write_of_not_spares ha
          rw [stored_write_of_ne fun he => hkk he.2.symm] at hst
          exact Finset.mem_insert_of_mem (hall k' hk' hst)
    · refine ⟨S,hS,fun k hk hst => hall k hk ?_⟩
      have hsp : Spares i x.user k a := Classical.by_contradiction fun hsp => ha ⟨k,hk,hsp⟩
      rwa [stored_cons_of_spares hsp] at hst

theorem exists_listed {S : Finset String} (hpos : 0 < ∑ k ∈ S, stock M id (stored i v k h)) :
    ∃ k ∈ S, 0 < stock M id (stored i v k h) :=
  Finset.exists_lt_of_sum_lt (by rwa [Finset.sum_const_zero])

/-- A list that the holder of the mutex has just found missing is still missing. -/
theorem absent_of_contains (hc : D.Reach c) (htidy : Everywhere (OnWrites Tidy) c.state.history)
    (hu : NoColon u) (hk : Shelf ⟨u,f,id⟩ k) {o : Op} {r : Res o}
    (hs : .op t q o r :: h <:+ c.state.history) (hheld : held (events t h))
    (hhead : (events t h).head? = some ⟨.storageContains u k,false⟩) : stored q.core u k h = none := by
  obtain ⟨rest,he⟩ := List.head?_eq_some_iff.mp hhead
  have hsplit : events t h = [] ++ ⟨.storageContains u k,false⟩ :: rest := he
  obtain ⟨later,q',past,rfl,hlater,rfl⟩ := split_at_event hsplit
  have hh := (List.suffix_cons _ _).trans hs
  obtain rfl : q' = q := hc.same_request
    (hs.subset (List.mem_cons_of_mem _ (List.mem_append_right _ (List.mem_cons_self ..))))
    (hs.subset (List.mem_cons_self ..))
  have hpast : stored q'.core u k past = none := by
    have hc' := stored_of_contains hc hu (guarded_shelf hk) ((List.suffix_append _ _).trans hh)
    simpa using hc'
  rw [he] at hheld
  clear hs hhead he hsplit
  induction later with
  | nil => exact hpast
  | cons a mid ih =>
    have hmid := (List.suffix_cons _ _).trans hh
    have hevents : events t mid = [] := List.suffix_nil.mp (hlater ▸ events_mono (List.suffix_cons a mid) t)
    have hnone := ih hevents hmid
    by_cases hsp : Spares q'.core u k a
    · exact (stored_cons_of_spares hsp _).trans hnone
    · exfalso
      obtain ⟨t',q₁,site,payload,r',rfl,hq⟩ := write_of_not_spares hsp
      obtain rfl := site_of_shelf hc htidy hk hh
      have hheld' := (obligation hc hh).2.1
      obtain ⟨c₀,x,hc₀,hh₀,⟨kont,runs⟩,-⟩ := exec_before hc hh
      have hop : .op t q' (.storageContains u k) false ∈ c₀.state.history := by
        rw [hh₀]
        exact List.mem_append_right _ (List.mem_cons_self ..)
      cases ht : c₀.threads t with
      | none => exact (hc₀.history_thread t).1 ht _ hop rfl
      | some y =>
        have hreq := ((hc₀.history_thread t).2 y.1 y.2 ht).2 q' _ _ hop
        have hheld₀ : held (events t c₀.state.history) := by
          rw [hh₀]
          simpa only [List.append_eq,events_append,hevents,List.nil_append,events_op_self] using hheld
        obtain rfl := holder_eq hc₀ ht runs (hreq ▸ hq.symm) hheld₀ (hh₀ ▸ hheld')
        rw [events_op_self] at hlater
        cases hlater

theorem stock_of_knows (hc : D.Reach c) (htidy : Everywhere (OnWrites Tidy) c.state.history)
    (hk : Shelf ⟨u,f,id⟩ k) {payload : Bytes} {r : Except UpdateError String}
    (hs : .op t q (.storageUpdate .list u k payload) r :: h <:+ c.state.history) :
    stock D.prost id (knows u k (events t h)) = stock D.prost id (stored q.core u k h) := by
  have hu := writer_noColon hc hs
  obtain ⟨-,hheld,-⟩ := obligation hc hs
  obtain ⟨task,list,hl,hst,-⟩ := everywhere_writes (kept hc htidy) hs
  have hknown {w : Bytes} (hw : knows u k (events t h) = some w) : stored q.core u k h = some w :=
    stored_of_known hc hu (guarded_shelf hk) hs List.nil_suffix (idle_nil _)
      (((exclusive_list hc htidy hl hst q.core).suffix ((List.suffix_cons _ _).trans hs)).mono
        fun _ _ hh w hw _ => hh w hw) hheld hw
  cases hw : knows u k (events t h) with
  | some w => rw [hknown hw]
  | none =>
    have hseen := (hc.traced_op (accounted_serve D u id) hs).2
    have hhead := hseen.resolve_left fun hne => hne hw
    rw [absent_of_contains hc htidy hu hk hs hheld hhead]

theorem change_of_listless {o : Op} (ho : Listless o) (r : Res o) (es : List TaskEvent) :
    change M v id f ⟨o,r⟩ es = 0 := by
  cases o with
  | storageUpdate site u k payload =>
    cases site with
    | list => exact ho.elim
    | _ => rfl
  | _ => rfl

theorem sum_stock_write {S : Finset String} (hk : k ∈ S) {site : Site} {payload : Bytes}
    {r : Except UpdateError String} :
    ∑ k' ∈ S, stock M id (stored q.core u k' (.op t q (.storageUpdate site u k payload) r :: h)) =
      ∑ k' ∈ S, stock M id (stored q.core u k' h) +
        (copies M id payload - stock M id (stored q.core u k h)) := by
  have hdiff : ∑ k' ∈ S, (stock M id (stored q.core u k'
      (.op t q (.storageUpdate site u k payload) r :: h)) - stock M id (stored q.core u k' h)) =
      copies M id payload - stock M id (stored q.core u k h) := by
    rw [Finset.sum_eq_single_of_mem _ hk fun k' _ hne => ?_,stored_write]
    · rfl
    · rw [stored_write_of_ne fun he => hne he.2.symm,sub_self]
  rw [Finset.sum_sub_distrib] at hdiff
  omega

/-- What an operation does to the lists is what its thread makes of it. -/
theorem sum_stock_op (hc : D.Reach c) (htidy : Everywhere (OnWrites Tidy) c.state.history)
    {S : Finset String} (hS : ∀ k ∈ S, Shelf ⟨v,f,id⟩ k) {o : Op} {r : Res o}
    (hh : .op t q o r :: h <:+ c.state.history)
    (hall : ∀ k, Shelf ⟨v,f,id⟩ k → stored q.core v k (.op t q o r :: h) ≠ none → k ∈ S) :
    ∑ k ∈ S, stock D.prost id (stored q.core v k (.op t q o r :: h)) =
      ∑ k ∈ S, stock D.prost id (stored q.core v k h) + change D.prost v id f ⟨o,r⟩ (events t h) := by
  have hsame (hst : ∀ k ∈ S, stored q.core v k (.op t q o r :: h) = stored q.core v k h)
      (hzero : change D.prost v id f ⟨o,r⟩ (events t h) = 0) :
      ∑ k ∈ S, stock D.prost id (stored q.core v k (.op t q o r :: h)) =
        ∑ k ∈ S, stock D.prost id (stored q.core v k h) + change D.prost v id f ⟨o,r⟩ (events t h) := by
    rw [hzero,add_zero]
    exact Finset.sum_congr rfl fun k hk => by rw [hst k hk]
  cases o with
  | storageUpdate site u k payload =>
    by_cases hsite : site = .list
    · subst hsite
      by_cases hx : (Entry.mk v f id).concerns u k
      · obtain rfl : u = v := (of_decide_eq_true hx).1
        obtain ⟨task,list,hl,hst,-⟩ := everywhere_writes (kept hc htidy) hh
        obtain ⟨l,hmem,rfl⟩ := list_of_listOf hl
        have hk : Shelf ⟨u,f,id⟩ ("_internal:" ++ listKey l) := ⟨l,known_of_listsAt hst hmem,rfl,hx⟩
        have hin := hall _ hk (by rw [stored_write]; exact Option.some_ne_none _)
        rw [sum_stock_write hin,← stock_of_knows hc htidy hk hh]
        exact congrArg _ (if_pos hx).symm
      · refine hsame (fun k' hk' => stored_write_of_ne fun he => hx ?_) (if_neg hx)
        obtain ⟨l,-,-,hconcerns⟩ := hS k' hk'
        exact he.2 ▸ he.1 ▸ hconcerns
    · refine hsame (fun k' hk' => stored_write_of_ne fun he => hsite ?_) ?_
      · exact site_of_shelf hc htidy (he.2 ▸ hS k' hk') (he.1 ▸ hh)
      · exact change_of_listless (by cases site <;> first | exact absurd rfl hsite | trivial) r _
  | _ => exact hsame (fun _ _ => rfl) rfl

/-- The lists together name the task as often as the threads have entered it and not taken it out. -/
theorem sum_stock_eq (hc : D.Reach c) (htidy : Everywhere (OnWrites Tidy) c.state.history) (i : ℕ)
    {S : Finset String} (hS : ∀ k ∈ S, Shelf ⟨v,f,id⟩ k) (hh : h <:+ c.state.history)
    (hall : ∀ k, Shelf ⟨v,f,id⟩ k → stored i v k h ≠ none → k ∈ S) :
    ∑ k ∈ S, stock D.prost id (stored i v k h) =
      spentOn (change D.prost v id f) (fun q : Request => decide (q.core = i)) h := by
  induction h with
  | nil => simp [stored,stock,spentOn]
  | cons a h ih =>
    replace ih := ih ((List.suffix_cons _ _).trans hh)
      fun k hk hst => hall k hk (stored_mono (List.suffix_cons _ _) hst)
    cases a with
    | start t q => exact ih
    | env => exact ih
    | op t q o r =>
      by_cases hi : q.core = i
      · subst hi
        rw [sum_stock_op hc htidy hS hh hall,ih]
        simp [spentOn]
      · have hspent : spentOn (change D.prost v id f) (fun q : Request => decide (q.core = i))
            (.op t q o r :: h) =
            spentOn (change D.prost v id f) (fun q : Request => decide (q.core = i)) h := by
          simp [spentOn,hi]
        rw [hspent,← ih]
        refine Finset.sum_congr rfl fun k _ => congrArg _ (stored_cons_of_spares ?_ h)
        cases o <;> first | trivial | exact fun hsp => hi hsp.1

theorem even_of_free (hc : D.Reach c) (v id : String) {es : List TaskEvent}
    (hs : es <:+ events t c.state.history) (hfree : held es = false) : Even D.prost v id es := by
  cases es with
  | nil => exact fun _ => ⟨rfl,rfl⟩
  | cons e es =>
    have htraced := (hc.traced (accounted_serve D v id)) t
    cases ht : c.threads t with
    | none =>
      rw [htraced.1 ht] at hs
      exact absurd (List.suffix_nil.mp hs) (List.cons_ne_nil _ _)
    | some y => exact ((htraced.2 y.1 y.2 ht).2 e es hs).1 hfree

theorem free_of_holder (hc : D.Reach c) {t' : ℕ} {q' : Request} {o : Op} {r : Res o} {p : Service Unit}
    (ht : c.threads t = some (q,p)) (hheld : held (events t c.state.history))
    (hop : .op t' q' o r ∈ c.state.history) (hq : q'.core = q.core) (hne : t' ≠ t) :
    held (events t' c.state.history) = false := by
  rw [Bool.eq_false_iff]
  intro hheld'
  cases ht' : c.threads t' with
  | none => exact (hc.history_thread t').1 ht' _ hop rfl
  | some y =>
    have hreq := ((hc.history_thread t').2 y.1 y.2 ht').2 q' _ _ hop
    exact hne (holder_eq hc ht' ht (hreq ▸ hq) hheld' hheld)

theorem version_of_removes (hc : D.Reach c) (ho : Orderly D.prost c.state.history) {o : Op} {r : Res o}
    (hu : NoColon u) (hs : .op t q o r :: h <:+ c.state.history) (hheld : held (events t h))
    (hrem : Removes D.prost id q u k (events t h)) : ∃ task : Task, task.taskId = id ∧ ¬ Reserved id ∧
      k = "_internal:" ++ TaskService.statusListKey task ∧
      stored q.core u (recordKey id) h = some (D.prost.task.encode task) := by
  obtain ⟨task,id',payload,rfl,rfl,hread,hknows,hd,hi⟩ := hrem
  have hh : h <:+ c.state.history := (List.suffix_cons _ _).trans hs
  have hkept := (kept hc ho.tidy).suffix hh
  have hstatus : task.status ∈ statuses := by
    rcases hi with hi | ⟨request,payload',merged,r',hsync,hread',hd',hm⟩
    · exact hi
    · obtain ⟨site,hk⟩ := kept_of_read hc hh hkept hu hread'
      exact (task_of_kept hk hd' (.inr (.inr (merged_not_reserved hc hh hkept hs hsync hm)))).2.2.1
  obtain ⟨site,hk⟩ := kept_of_read hc hh hkept hu hread
  obtain ⟨rfl,rfl,-,hid⟩ := task_of_kept hk hd (.inl fun he => by
    rw [he] at hstatus
    exact absurd hstatus (by decide))
  refine ⟨task,rfl,hid,rfl,
    stored_of_known hc hu (guarded_recordKey _) hs List.nil_suffix (idle_nil _) ?_ hheld hknows⟩
  exact (exclusive hc ho.tidy hid (firstSince_of_first ho.first)).suffix hh

/-- If the holder of the mutex has taken the task out of its protocol list only, then the lists of that
family together name it less often, since all the other threads have entered it in both. -/
theorem spentOn_lt (hc : D.Reach c) {p : Service Unit} (ht : c.threads t = some (q,p))
    (hheld : held (events t c.state.history)) {o : Op} {r : Res o} (hop : .op t q o r ∈ c.state.history)
    (hsteady : ∀ t', Steady D.prost v id (events t' c.state.history))
    (hlt : made D.prost v id .protocol (events t c.state.history) <
      made D.prost v id .status (events t c.state.history)) :
    spentOn (change D.prost v id .protocol) (fun q' : Request => decide (q'.core = q.core))
        c.state.history <
      spentOn (change D.prost v id .status) (fun q' : Request => decide (q'.core = q.core))
        c.state.history := by
  obtain ⟨T,hsum,hcore,hmem⟩ := hc.exists_sums fun q' : Request => decide (q'.core = q.core)
  rw [hsum,hsum]
  refine Finset.sum_lt_sum (fun t' ht' => ?_) ⟨t,hmem t q o r hop (decide_eq_true rfl),hlt⟩
  by_cases hne : t' = t
  · exact hne ▸ hlt.le
  · cases hev : events t' c.state.history with
    | nil => exact le_rfl
    | cons e es =>
      obtain ⟨q',hop'⟩ := mem_events.mp (hev ▸ List.mem_cons_self .. : e ∈ events t' c.state.history)
      have hfree := free_of_holder hc ht hheld hop' (of_decide_eq_true (hcore t' ht' q' _ _ hop')) hne
      obtain ⟨hp,hst⟩ := even_of_free hc v id List.suffix_rfl hfree (hsteady t')
      rw [← hev]
      exact (hp.trans hst.symm).le

/-- A task that has been taken out of the list of its protocol is still in that of its status. -/
theorem listed_of_removes (hc : D.Reach c) (ho : Orderly D.prost c.state.history) (hv : NoColon v)
    {r : Except String Bytes} (hs : .op t q (.storageRead v k) r :: h <:+ c.state.history)
    (hsteady : ∀ t', Steady D.prost v id (events t' h)) (hx : (Entry.mk v .status id).concerns v k)
    (hlt : made D.prost v id .protocol (events t h) < made D.prost v id .status (events t h)) :
    ∃ payload, r = .ok payload ∧ 1 ≤ copies D.prost id payload := by
  have hrem : Removes D.prost id q v k (events t h) :=
    (hc.traced_op (accounted_serve D v id) hs).2 (hsteady t) hx hlt
  have hh : h <:+ c.state.history := (List.suffix_cons _ _).trans hs
  have hheld : held (events t h) := by
    by_contra hfree
    obtain ⟨hp,hst⟩ := even_of_free hc v id (events_mono hh t) (Bool.eq_false_iff.mpr hfree) (hsteady t)
    omega
  obtain ⟨task,-,hid,hk,hstored⟩ := version_of_removes hc ho hv hs hheld hrem
  obtain ⟨_,_,_,-,-,hread,-⟩ := hrem
  have hop := mem_history hc hs hread
  obtain ⟨c₀,x,hc₀,rfl,⟨kont,runs⟩,-⟩ := exec_before hc hs
  have hsum := spentOn_lt hc₀ runs hheld hop hsteady hlt
  obtain ⟨S,hS,hall⟩ := exists_shelves q.core ⟨v,.protocol,id⟩ c₀.state.history
  obtain ⟨S',hS',hall'⟩ := exists_shelves q.core ⟨v,.status,id⟩ c₀.state.history
  have hprotocol := sum_stock_eq hc ho.tidy q.core hS hh hall
  have hstatus := sum_stock_eq hc ho.tidy q.core hS' hh hall'
  have hnonneg : 0 ≤ ∑ k ∈ S, stock D.prost id (stored q.core v k c₀.state.history) :=
    Finset.sum_nonneg fun k _ => stock_nonneg ..
  obtain ⟨k',hk',hone⟩ := exists_listed
    (by omega : 0 < ∑ k ∈ S', stock D.prost id (stored q.core v k c₀.state.history))
  obtain ⟨task',-,hstored',rfl⟩ := (housed hc ho.tidy ho.first hid hh).listed .status k' (hS' k' hk') hone
  obtain rfl := D.prost.task.encode_inj (Option.some.inj (hstored.symm.trans hstored'))
  obtain rfl : k = "_internal:" ++ listIn v task .status := hk
  cases r with
  | error e =>
    rw [stored_of_read_error hc hv (guarded_shelf (hS' _ hk')) hs] at hone
    exact absurd hone (lt_irrefl 0)
  | ok payload =>
    rw [stored_of_read hc hv (guarded_shelf (hS' _ hk')) hs] at hone
    exact ⟨payload,rfl,Int.ofNat_lt.mp hone⟩

theorem exists_ok {ε α : Type} {r : Except ε α} (hr : r.isOk) : ∃ a, r = .ok a := by
  cases r with
  | ok a => exact ⟨a,rfl⟩
  | error e => cases hr

/-- What has not gone wrong before does not go wrong now. -/
theorem smooth (hc : D.Reach c) (ho : Orderly D.prost c.state.history) (hv : NoColon v)
    {o : Op} {r : Res o} (hs : .op t q o r :: h <:+ c.state.history)
    (hsteady : ∀ t', Steady D.prost v id (events t' h)) : Smooth D.prost v id ⟨o,r⟩ (events t h) := by
  have hok := ho.unfailing _ (hs.subset (List.mem_cons_self ..))
  have hh : h <:+ c.state.history := (List.suffix_cons _ _).trans hs
  cases o with
  | storageUpdate site u k payload =>
    refine ⟨exists_ok hok,fun id' payload task hm hd hwait => ?_⟩
    have hu := writer_noColon hc hs
    obtain ⟨site',hk⟩ := kept_of_read hc hh ((kept hc ho.tidy).suffix hh) hu hm
    obtain ⟨rfl,rfl,-,hid'⟩ := task_of_kept hk hd (.inl (by rw [hwait]; decide))
    obtain ⟨past,hp⟩ := suffix_of_mem (mem_history hc hs hm)
    exact ample_stored hc ho hid' (((List.suffix_cons _ _).trans hp).trans hh)
      (stored_of_read hc hu (guarded_recordKey _) (hp.trans hh))
  | makeDecision => exact exists_ok hok
  | storageRead u k =>
    refine ⟨fun hk => exists_ok (hok hk),fun task hl hst hw hm => ?_,fun hx hlt => ?_⟩
    · have hu := noColon_of_writes hc hs hw
      obtain ⟨f,hk⟩ := shelf_of_listOf hl hst id
      obtain ⟨past,hp⟩ := suffix_of_mem (mem_history hc hs hm)
      have hpast : stored q.core u k past ≠ none := fun hnone => by
        have hsome := stored_of_contains hc hu (guarded_shelf hk) (hp.trans hh)
        rw [hnone] at hsome
        cases hsome
      have hnow := stored_mono ((List.suffix_cons _ _).trans hp) hpast
      cases r with
      | error e => exact absurd (stored_of_read_error hc hu (guarded_shelf hk) hs) hnow
      | ok payload =>
        obtain ⟨list,rfl⟩ := list_of_stored hc ho.tidy hk hh (stored_of_read hc hu (guarded_shelf hk) hs)
        exact ⟨list,rfl⟩
    · obtain rfl : u = v := (of_decide_eq_true hx).1
      exact listed_of_removes hc ho hv hs hsteady hx hlt
  | storageContains u k =>
    intro task hl hst hw hpresent
    have hu := noColon_of_writes hc hs hw
    obtain ⟨f,hk⟩ := shelf_of_listOf hl hst id
    have hsome := stored_of_contains hc hu (guarded_shelf hk) hs
    cases hknows : knows u k (events t h) with
    | none => rfl
    | some w =>
      have hnow := stored_of_knows_some hc hu (guarded_shelf hk) hs hknows
      rw [hpresent] at hsome
      cases hst' : stored q.core u k h with
      | none => exact absurd hst' hnow
      | some payload =>
        rw [hst'] at hsome
        cases hsome
  | _ => trivial

theorem steady (hc : D.Reach c) (ho : Orderly D.prost c.state.history) (hv : NoColon v)
    (hh : h <:+ c.state.history) (t : ℕ) : Steady D.prost v id (events t h) := by
  induction h generalizing t with
  | nil => trivial
  | cons a h ih =>
    have hsteady := ih ((List.suffix_cons _ _).trans hh)
    cases a with
    | start t' q => exact hsteady t
    | env => exact hsteady t
    | op t' q o r =>
      by_cases ht : t' = t
      · subst ht
        rw [events_op_self]
        exact ⟨smooth hc ho hv hh hsteady,hsteady t'⟩
      · rw [events_op_of_ne ht]
        exact hsteady t

/-- The task stands once in each of the two lists of its stored version, and in no other list. -/
def Indexed (M : Prost) (w : World) (i : ℕ) (u id : String) : Prop := ∃ task : Task,
  task.taskId = id ∧ w.read i u (recordKey id) = some (M.task.encode task) ∧
  ∀ l, Known l → stock M id (w.read i u ("_internal:" ++ listKey l)) =
    if listKey l ∈ (listsAt u task task.status).map listKey then 1 else 0

/-- The action ends the critical section in which the task is entered as a new one. -/
def closesIndex (i : ℕ) (u id : String) : TaskAction → Bool
  | .op _ q (.unlock (.index u' id')) _ => decide (q.core = i ∧ u' = u ∧ id' = id)
  | _ => false

def HasIndexed (i : ℕ) (u id : String) (h : List TaskAction) : Prop := ∃ a ∈ h, closesIndex i u id a

instance (i : ℕ) (u id : String) (h : List TaskAction) : Decidable (HasIndexed i u id h) :=
  inferInstanceAs (Decidable (∃ a ∈ h, closesIndex i u id a))

theorem HasIndexed.thread (hi : HasIndexed i u id h) :
    ∃ t q, q.core = i ∧ .op t q (.unlock (.index u id)) () ∈ h := by
  obtain ⟨a,hm,ha⟩ := hi
  cases a with
  | op t q o r =>
    cases o with
    | unlock s =>
      cases s with
      | index u' id' =>
        obtain ⟨rfl,rfl,rfl⟩ := of_decide_eq_true ha
        exact ⟨t,q,rfl,hm⟩
      | _ => cases ha
    | _ => cases ha
  | _ => cases ha

/-- All the lists of a family together name the task at least once. -/
theorem one_le_spentOn (hc : D.Reach c) (ho : Orderly D.prost c.state.history) (hv : NoColon v)
    (hfree : (c.state.shared.cores i).taskStorageMutex = none) (hq : q.core = i)
    (hm : .op t q (.unlock (.index v id)) () ∈ c.state.history) (f : Family) :
    1 ≤ spentOn (change D.prost v id f) (fun q : Request => decide (q.core = i)) c.state.history := by
  obtain ⟨T,hsum,hcore,hmem⟩ := hc.exists_sums fun q : Request => decide (q.core = i)
  have heven {t : ℕ} (ht : t ∈ T) :
      made D.prost v id f (events t c.state.history) = indexed v id (events t c.state.history) := by
    cases hev : events t c.state.history with
    | nil => rfl
    | cons e es =>
      obtain ⟨q',hop⟩ := mem_events.mp (hev ▸ List.mem_cons_self .. : e ∈ events t c.state.history)
      have hidle := idle_of_mutex hc hfree t q' _ _ hop (of_decide_eq_true (hcore t ht q' _ _ hop))
      obtain ⟨hp,hst⟩ := even_of_free hc v id List.suffix_rfl hidle
        (steady hc ho hv List.suffix_rfl t)
      rw [← hev]
      cases f with
      | protocol => exact hp
      | status => exact hst
  rw [hsum,Finset.sum_congr rfl fun t ht => heven ht]
  have hone : 1 ≤ indexed v id (events t c.state.history) := by
    have hcount : 0 < (events t c.state.history).countP (indexes v id) :=
      List.countP_pos_iff.mpr ⟨_,mem_events.mpr ⟨q,hm⟩,decide_eq_true ⟨rfl,rfl⟩⟩
    exact Int.ofNat_le.mpr hcount
  exact hone.trans (Finset.single_le_sum (f := fun t => indexed v id (events t c.state.history))
    (fun t _ => Int.natCast_nonneg _) (hmem t q _ _ hm (decide_eq_true hq)))

/-- One list of the family names the task, and that is the one of the stored version. -/
theorem placed_once (hc : D.Reach c) (ho : Orderly D.prost c.state.history) (hv : NoColon v)
    (hfree : (c.state.shared.cores i).taskStorageMutex = none) (hq : q.core = i)
    (hm : .op t q (.unlock (.index v id)) () ∈ c.state.history) (f : Family) : ∃ task : Task,
    task.taskId = id ∧ stored i v (recordKey id) c.state.history = some (D.prost.task.encode task) ∧
    ∀ k, Shelf ⟨v,f,id⟩ k → stock D.prost id (stored i v k c.state.history) =
      if k = "_internal:" ++ listIn v task f then 1 else 0 := by
  obtain ⟨S,hS,hall⟩ := exists_shelves i ⟨v,f,id⟩ c.state.history
  have hsum := sum_stock_eq hc ho.tidy i hS List.suffix_rfl hall
  have hone := one_le_spentOn hc ho hv hfree hq hm f
  obtain ⟨k,hk,hpos⟩ := exists_listed
    (by omega : 0 < ∑ k ∈ S, stock D.prost id (stored i v k c.state.history))
  have hid : ¬ Reserved id := fun hid => by
    have hzero := stock_of_reserved (i := i) hc ho.tidy hid (hS k hk)
    omega
  have hlisted := (housed hc ho.tidy ho.first hid List.suffix_rfl (i := i) (u := v)).listed f
  obtain ⟨task,rfl,hstored,rfl⟩ := hlisted k (hS k hk) hpos
  refine ⟨task,rfl,hstored,fun k' hk' => ?_⟩
  have hatMost (k : String) (hk : Shelf ⟨v,f,task.taskId⟩ k) :
      stock D.prost task.taskId (stored i v k c.state.history) ≤ 1 := by
    have hle : stock D.prost task.taskId (stored i v k c.state.history) ≤
        c.state.history.countP (introduces i ⟨v,f,task.taskId⟩) := by
      have hsum := sum_stock_le_introduced hc ho.tidy i ⟨v,f,task.taskId⟩ (S := {k}) fun k' hk' =>
        Finset.mem_singleton.mp hk' ▸ hk
      rwa [Finset.sum_singleton] at hsum
    exact hle.trans (Int.ofNat_le.mpr (introduced_once ho.first))
  have hnonneg := stock_nonneg D.prost task.taskId (stored i v k' c.state.history)
  split_ifs with he
  · subst he
    have hle := hatMost _ hk'
    omega
  · by_contra hne
    obtain ⟨task',-,hstored',hkey⟩ := hlisted k' hk' (by omega)
    obtain rfl := D.prost.task.encode_inj (Option.some.inj (hstored.symm.trans hstored'))
    exact he hkey

theorem mem_lists_iff {task : Task} {l : TaskList} (hk : Shelf ⟨u,f,id⟩ ("_internal:" ++ listKey l)) :
    listKey l ∈ (listsAt u task task.status).map listKey ↔ listKey l = listIn u task f := by
  rw [listsAt_keys]
  constructor
  · intro hm
    obtain ⟨g,hg⟩ : ∃ g, listKey l = listIn u task g := by
      rcases List.mem_pair.mp hm with hl | hl
      · exact ⟨.protocol,hl⟩
      · exact ⟨.status,hl⟩
    rw [hg] at hk
    rw [hg,family_of_shelf hk]
  · intro hl
    rw [hl]
    cases f with
    | protocol => exact List.mem_cons_self ..
    | status => exact List.mem_cons_of_mem _ (List.mem_cons_self ..)

/-- However the handlers interleave, as long as nothing fails each task that has been indexed is, when
nobody is in a critical section, once in each of the two lists of its stored version and in no other. -/
theorem indexed_exactly (D : Deployment) : ∀ c : TaskConfig, D.Reach c → Orderly D.prost c.state.history →
    ∀ (i : ℕ) (u id : String), NoColon u →
    (c.state.shared.cores i).taskStorageMutex = none → HasIndexed i u id c.state.history →
    Indexed D.prost c.state.shared i u id := by
  intro c hc ho i u id hu hfree hentered
  obtain ⟨t,q,hq,hm⟩ := hentered.thread
  obtain ⟨task,rfl,hst,hprotocol⟩ := placed_once hc ho hu hfree hq hm .protocol
  obtain ⟨task',-,hst',hstatus⟩ := placed_once hc ho hu hfree hq hm .status
  obtain rfl := D.prost.task.encode_inj (Option.some.inj (hst.symm.trans hst'))
  refine ⟨task,rfl,by rw [read_eq_stored hc hu (guarded_recordKey _),hst],fun l hl => ?_⟩
  rw [read_eq_stored hc hu (guarded_listKey l)]
  obtain ⟨f,hf⟩ := start_listKey l
  have hk : Shelf ⟨u,f,task.taskId⟩ ("_internal:" ++ listKey l) := ⟨l,hl,rfl,decide_eq_true ⟨rfl,hf⟩⟩
  have hone : stock D.prost task.taskId (stored i u ("_internal:" ++ listKey l) c.state.history) =
      if "_internal:" ++ listKey l = "_internal:" ++ listIn u task f then 1 else 0 := by
    cases f with
    | protocol => exact hprotocol _ hk
    | status => exact hstatus _ hk
  simp only [hone,internal_inj,mem_lists_iff hk]

/-- User 08 sends the task, user 07 approves, and the critical sections are over. -/
def approveAndFinish : List Move := Move.settle 7 ++
  [.start 0 (.ofGuest 7 (sampleOffer (sampleTask "id" []) [])),.run 0 13,
    .start 1 (.ofUser 7 sampleApproval),.run 1 18]

theorem indexed_exactly_sample : ∃ c payload, Deployment.ideal.Reach c ∧
    c.state.shared.read 0 "07" ("_internal:" ++ listKey (.started "" "member")) = some payload ∧
    copies Prost.selfDelimiting "id" payload = 1 ∧
    Indexed Prost.selfDelimiting c.state.shared 0 "07" "id" := by
  have hrun : (Play.moves approveAndFinish {}).any fun p =>
      decide (Orderly Prost.selfDelimiting p.history) && decide (p.sim.mutex = none) &&
      decide (HasIndexed 0 "07" "id" p.history) &&
      decide ((stored 0 "07" ("_internal:" ++ listKey (.started "" "member")) p.history).map
        (copies Prost.selfDelimiting "id") = some 1) := by
    decide +kernel
  obtain ⟨c,p,hc,hf,hp⟩ := Play.run hrun
  simp only [Bool.and_eq_true,decide_eq_true_eq,← hf.history] at hp
  obtain ⟨payload,hst,hone⟩ := Option.map_eq_some_iff.mp hp.2
  refine ⟨c,payload,hc,?_,hone,indexed_exactly Deployment.ideal c hc hp.1.1.1 0 "07" "id" (by decide)
    (hf.shows.mutex.trans hp.1.1.2) hp.1.2⟩
  rw [read_eq_stored hc (by decide) (guarded_listKey _),hst]

end TaskIndex
end CoLinkServer
