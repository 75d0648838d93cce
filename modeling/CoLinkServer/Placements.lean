import CoLinkServer.Admissions
import CoLinkServer.PlacementTraces

/-! Where a task stands. Whatever list of a user names a task, it is one of the two to which the
stored version of the task belongs, at every moment and wherever a handler has failed: a version with
another status is only stored when no list of the user names the task any more. -/
namespace CoLinkServer

open Interleaving

namespace Placements

open TaskKeys TaskLists TaskRecords TaskTraces Admissions

variable {D : Deployment} {c : TaskConfig} {M : Prost} {i t : ℕ} {q : Request} {u k id : String}
  {x : Entry} {f : Family} {h past : List TaskAction}

theorem price_of_stores {e : TaskEvent} (hs : stores x e) (h : List TaskEvent) : price M x e h = -1 := by
  obtain ⟨o,r⟩ := e
  cases o with
  | storageUpdate site u k payload =>
    have hh : site ∈ introducing ∧ u = x.user ∧ k = recordKey x.taskId := of_decide_eq_true hs
    cases site <;> first
      | exact absurd hh.1 (by decide)
      | exact if_pos hh
  | _ => cases hs

/-- A new task that the thread has not yet entered has cost it the entry. -/
theorem spent_of_pending {h : List TaskEvent} (hpaid : ∀ h', h' <:+ h → spent (price M x) h' ≤ 0)
    (hp : pending M x h) : spent (price M x) h ≤ -1 := by
  induction h with
  | nil => cases hp
  | cons e h ih =>
    have hrest := fun hp' => ih (fun h' hs => hpaid h' (hs.trans (List.suffix_cons _ _))) hp'
    have hzero := hpaid h (List.suffix_cons _ _)
    have hother (he : Listless e.1) (hp : stores x e ∨ pending M x h) :
        spent (price M x) (e :: h) ≤ -1 := by
      rw [spent]
      rcases hp with hs | hp
      · rw [price_of_stores hs]
        omega
      · have hle : price M x e h ≤ 0 := price_listless he e.2 h
        have hprev := hrest hp
        omega
    obtain ⟨o,r⟩ := e
    cases o with
    | storageUpdate site u k payload =>
      cases site with
      | list =>
        obtain ⟨hp,hless⟩ := Bool.and_eq_true_iff.mp hp
        have hprev := hrest hp
        have hprice : price M x ⟨.storageUpdate .list u k payload,r⟩ h ≤ 0 := by
          simp only [price]
          split_ifs with hx
          · rw [hx] at hless
            have hle := of_decide_eq_true hless
            omega
          · exact le_rfl
        rw [spent]
        omega
      | _ =>
        simp only [pending,Bool.or_eq_true,Bool.and_eq_true] at hp
        exact hother trivial (hp.imp_right And.left)
    | _ =>
      simp only [pending,Bool.or_eq_true,Bool.and_eq_true] at hp
      exact hother trivial (hp.imp_right And.left)

/-- The stores of the task by one thread are among those of all. -/
theorem countP_stores_le (hq : ∀ o r, ∀ q', .op t q' o r ∈ h → q'.core = i) :
    (events t h).countP (stores x) ≤ h.countP (introduces i x) := by
  induction h with
  | nil => exact le_rfl
  | cons a h ih =>
    have hrest := ih fun o r q' hm => hq o r q' (List.mem_cons_of_mem _ hm)
    have hmore : h.countP (introduces i x) ≤ (a :: h).countP (introduces i x) :=
      (List.sublist_cons_self _ _).countP_le
    cases a with
    | start t' q' => exact hrest.trans hmore
    | env => exact hrest.trans hmore
    | op t' q' o r =>
      by_cases ht : t' = t
      · subst ht
        have hcore := hq o r q' (List.mem_cons_self ..)
        rw [events_op_self,List.countP_cons,List.countP_cons]
        refine Nat.add_le_add hrest ?_
        cases hs : stores x ⟨o,r⟩ with
        | false => exact Nat.zero_le _
        | true =>
          have hin : introduces i x (.op t' q' o r) := by
            cases o with
            | storageUpdate site u k payload =>
              obtain ⟨hsite,hu,hk⟩ := of_decide_eq_true hs
              exact decide_eq_true ⟨hcore,hsite,hu,hk⟩
            | _ => cases hs
          rw [hin]
      · rw [events_op_of_ne ht]
        exact hrest.trans hmore

theorem stock_le (hc : D.Reach c) (htidy : Everywhere (OnWrites Tidy) c.state.history)
    (hfirst : Everywhere (OnWrites First) c.state.history) (hk : Shelf x k) {A : Finset ℕ}
    (hA : ∀ t ∈ A, (∃ q o r, q.core = i ∧ .op t q o r ∈ c.state.history) ∧
      spent (price D.prost x) (events t c.state.history) ≤ -1) :
    stock D.prost x.taskId (stored i x.user k c.state.history) ≤ 1 - A.card := by
  have hstock := sum_stock_le hc htidy i x List.suffix_rfl {k} fun k' hk' =>
    Finset.mem_singleton.mp hk' ▸ hk
  have honce := introduced_once (i := i) (x := x) hfirst
  have hspent := hc.spentOn_le (fun q => @costs_serve x D q) (fun q => decide (q.core = i))
    (A := A) fun t ht => by
      obtain ⟨q,o,r,hq,hm⟩ := (hA t ht).1
      exact ⟨q,o,r,decide_eq_true hq,hm⟩
  have hsum : ∑ t ∈ A, spent (price D.prost x) (events t c.state.history) ≤ ∑ _t ∈ A, (-1) :=
    Finset.sum_le_sum fun t ht => (hA t ht).2
  rw [Finset.sum_singleton] at hstock
  rw [Finset.sum_const,Int.nsmul_eq_mul] at hsum
  simp only [paid] at hstock
  omega

/-- Every list that names the task is one of those of its stored version, and whoever has stored the
task as a new one will find a version that belongs in the same lists. -/
structure Housed (M : Prost) (i : ℕ) (u id : String) (h : List TaskAction) : Prop where
  listed : ∀ f k, Shelf ⟨u,f,id⟩ k → 1 ≤ stock M id (stored i u k h) → ∃ task : Task,
    task.taskId = id ∧ stored i u (recordKey id) h = some (M.task.encode task) ∧
    k = "_internal:" ++ listIn u task f
  awaited : ∀ t q site r (new : Task),
    .op t q (.storageUpdate site u (recordKey id) (M.task.encode new)) r ∈ h → q.core = i →
    site ∈ introducing → ∀ f, pending M ⟨u,f,id⟩ (events t h) → ∃ task : Task,
      task.taskId = id ∧ stored i u (recordKey id) h = some (M.task.encode task) ∧
      ∀ f', listIn u task f' = listIn u new f'

theorem exists_shelf (x : Entry) : ∃ k, Shelf x k := by
  obtain ⟨u,f,id⟩ := x
  cases f with
  | protocol => exact ⟨_,.protocol "" "waiting",⟨show "waiting" ∈ statuses by decide,fun _ => by simp⟩,rfl,
      decide_eq_true ⟨rfl,by simp [Family.start,listKey,subject,statusOf]⟩⟩
  | status => exact ⟨_,.status "waiting",⟨show "waiting" ∈ statuses by decide,fun _ => by simp⟩,rfl,
      decide_eq_true ⟨rfl,by simp [Family.start,listKey,subject,statusOf]⟩⟩

theorem recordKey_ne_of_shelf (hid : ¬ Reserved id) (hk : Shelf x k) : recordKey id ≠ k := by
  obtain ⟨l,hl,rfl,-⟩ := hk
  exact fun he => (record_ne_list hid hl).1 (internal_inj.mp he)

theorem family_of_shelf {task : Task} {f' : Family}
    (hk : Shelf ⟨u,f,id⟩ ("_internal:" ++ listIn u task f')) : f = f' := by
  obtain ⟨-,-,-,hx⟩ := hk
  rw [concerns_listIn] at hx
  exact (of_decide_eq_true hx).2

/-- An action by which no new task is stored, and the record keeps its lists. -/
theorem Housed.awaited_cons (hc : D.Reach c) (hh : Housed M i u id h) {a : TaskAction}
    (hs : a :: h <:+ c.state.history) (hnew : ∀ f, introduces i ⟨u,f,id⟩ a = false)
    (hrec : ∀ task : Task, task.taskId = id → stored i u (recordKey id) h = some (M.task.encode task) →
      ∃ task' : Task, task'.taskId = id ∧
        stored i u (recordKey id) (a :: h) = some (M.task.encode task') ∧
        ∀ f, listIn u task' f = listIn u task f) :
    ∀ t q site r (new : Task),
      .op t q (.storageUpdate site u (recordKey id) (M.task.encode new)) r ∈ a :: h → q.core = i →
      site ∈ introducing → ∀ f, pending M ⟨u,f,id⟩ (events t (a :: h)) → ∃ task : Task,
        task.taskId = id ∧ stored i u (recordKey id) (a :: h) = some (M.task.encode task) ∧
        ∀ f', listIn u task f' = listIn u new f' := by
  intro t q site r new hm hq hsite f hp
  rcases List.mem_cons.mp hm with rfl | hold
  · have hno : ¬ (q.core = i ∧ site ∈ introducing ∧ u = u ∧ recordKey id = recordKey id) :=
      of_decide_eq_false (hnew f)
    exact absurd ⟨hq,hsite,rfl,rfl⟩ hno
  · have hprev : pending M ⟨u,f,id⟩ (events t h) := by
      cases a with
      | op t' q' o r' =>
        by_cases ht : t' = t
        · subst ht
          have hsame := hc.same_request (hs.subset (List.mem_cons_self ..))
            (hs.subset (List.mem_cons_of_mem _ hold))
          rw [events_op_self] at hp
          refine pending_of_cons ?_ hp
          have hno := hnew f
          cases o with
          | storageUpdate site' u' k' payload' =>
            have hno : ¬ (q'.core = i ∧ site' ∈ introducing ∧ u' = u ∧ k' = recordKey id) :=
              of_decide_eq_false hno
            exact decide_eq_false fun hh => hno ⟨hsame ▸ hq,hh⟩
          | _ => rfl
        · rwa [events_op_of_ne ht] at hp
      | start t' q' => exact hp
      | env => exact hp
    obtain ⟨task,hid,hst,hlists⟩ := hh.awaited t q site r new hold hq hsite f hprev
    obtain ⟨task',hid',hst',hlists'⟩ := hrec task hid hst
    exact ⟨task',hid',hst',fun f' => (hlists' f').trans (hlists f')⟩

theorem Housed.cons (hc : D.Reach c) (hh : Housed M i u id h) {a : TaskAction}
    (hs : a :: h <:+ c.state.history) (hnew : ∀ f, introduces i ⟨u,f,id⟩ a = false)
    (hlist : ∀ f k, Shelf ⟨u,f,id⟩ k → stored i u k (a :: h) = stored i u k h)
    (hrec : ∀ task : Task, task.taskId = id → stored i u (recordKey id) h = some (M.task.encode task) →
      ∃ task' : Task, task'.taskId = id ∧
        stored i u (recordKey id) (a :: h) = some (M.task.encode task') ∧
        ∀ f, listIn u task' f = listIn u task f) : Housed M i u id (a :: h) where
  listed f k hk hone := by
    rw [hlist f k hk] at hone
    obtain ⟨task,hid,hst,hkey⟩ := hh.listed f k hk hone
    obtain ⟨task',hid',hst',hlists⟩ := hrec task hid hst
    exact ⟨task',hid',hst',by rw [hlists f,hkey]⟩
  awaited := hh.awaited_cons hc hs hnew hrec

/-- A thread enters the task only in a list to which the stored version belongs. -/
theorem housed_list (hc : D.Reach c) (htidy : Everywhere (OnWrites Tidy) c.state.history)
    (hfirst : Everywhere (OnWrites First) c.state.history) (hid : ¬ Reserved id)
    {payload : Bytes} {r : Except UpdateError String}
    (hs : .op t q (.storageUpdate .list u k payload) r :: h <:+ c.state.history)
    (hk : Shelf ⟨u,f,id⟩ k) (hh : Housed D.prost q.core u id h) :
    Housed D.prost q.core u id (.op t q (.storageUpdate .list u k payload) r :: h) := by
  have hrecord : stored q.core u (recordKey id) (.op t q (.storageUpdate .list u k payload) r :: h) =
      stored q.core u (recordKey id) h :=
    stored_write_of_ne fun he => recordKey_ne_of_shelf hid hk he.2.symm
  refine ⟨fun f' k' hk' hone => ?_,hh.awaited_cons hc hs (fun f' => decide_eq_false (by simp [introducing]))
    fun task hid' hst => ⟨task,hid',hrecord.trans hst,fun _ => rfl⟩⟩
  rw [hrecord]
  by_cases hkk : k = k'
  · subst hkk
    rw [stored_write] at hone
    have hcopies : 1 ≤ copies D.prost id payload := Int.ofNat_le.mp hone
    have hplaced : ∀ id, _ ∨ _ := hc.traced_op (placed_serve D) hs
    rcases hplaced id with hle | ⟨task,f₀,rfl,rfl,hsourced⟩
    · refine hh.listed f' k hk' ?_
      have hknown := stock_known_le hc htidy id hs
      have hle' : (copies D.prost id payload : ℤ) ≤ stock D.prost id (knows u k (events t h)) :=
        Int.ofNat_le.mpr hle
      omega
    · obtain rfl := family_of_shelf hk'
      cases hsourced with
      | changed status known =>
        refine ⟨task,rfl,stored_of_known hc (writer_noColon hc hs) (guarded_recordKey _) hs
          List.nil_suffix (idle_nil _) ?_ (obligation hc hs).2.1 (known hid),rfl⟩
        exact (exclusive hc htidy hid (firstSince_of_first hfirst)).suffix
          ((List.suffix_cons _ _).trans hs)
      | @stored site r' site_mem mem pends =>
        have hm := mem_history hc hs mem
        have hp : pending D.prost ⟨u,f',task.taskId⟩ (events t h) := by
          refine pends.resolve_right fun htwo => ?_
          have hle := countP_stores_le (i := q.core) (x := ⟨u,f',task.taskId⟩) (t := t) (h := h)
            fun o r q' hm' => by
              rw [hc.same_request (hs.subset (List.mem_cons_of_mem _ hm'))
                (hs.subset (List.mem_cons_self ..))]
          have honce := introduced_once (i := q.core) (x := ⟨u,f',task.taskId⟩)
            (hfirst.suffix ((List.suffix_cons _ _).trans hs))
          omega
        obtain ⟨task',hid',hst,hlists⟩ := hh.awaited t q site r' task hm rfl site_mem f' hp
        exact ⟨task',hid',hst,by rw [hlists f']⟩
  · rw [stored_write_of_ne fun he => hkk he.2] at hone
    exact hh.listed f' k' hk' hone

theorem housed_first {site : Site} {new : Task} {r : Except UpdateError String} (hid : ¬ Reserved id)
    (hnew : new.taskId = id) (hnone : stored q.core u (recordKey id) h = none)
    (hh : Housed M q.core u id h) : Housed M q.core u id
      (.op t q (.storageUpdate site u (recordKey id) (M.task.encode new)) r :: h) where
  listed f k hk hone := by
    rw [stored_write_of_ne fun he => recordKey_ne_of_shelf hid hk he.2] at hone
    obtain ⟨task,-,hst,-⟩ := hh.listed f k hk hone
    rw [hnone] at hst
    cases hst
  awaited t' q' site' r' new' hm hq' hsite' f hp := by
    rcases List.mem_cons.mp hm with he | hm
    · obtain ⟨-,-,ho,-⟩ := Action.op.inj he
      obtain ⟨-,-,-,hpayload⟩ := Op.storageUpdate.inj ho
      obtain rfl := M.task.encode_inj hpayload
      exact ⟨new',hnew,stored_write ..,fun _ => rfl⟩
    · exact absurd (hq' ▸ hnone) (stored_of_write hm)

theorem acted_of_spent (hc : D.Reach c) {o : Op} {r : Res o} (hs : .op t q o r :: h <:+ c.state.history)
    (hsp : spent (price M x) (events t h) ≤ -1) : ∃ o r, .op t q o r ∈ h := by
  cases he : events t h with
  | nil =>
    rw [he] at hsp
    have hzero : (0 : ℤ) ≤ -1 := hsp
    omega
  | cons e past =>
    exact ⟨e.1,e.2,mem_history hc hs (he ▸ List.mem_cons_self ..)⟩

theorem actor_changing (hc : D.Reach c) {site : Site} (hsite : site ∈ changing) {payload : Bytes}
    {r : Except UpdateError String}
    (hs : .op t q (.storageUpdate site u (recordKey id) payload) r :: h <:+ c.state.history)
    (f : Family) : (∃ q' o r, q'.core = q.core ∧ .op t q' o r ∈ h) ∧
      spent (price D.prost ⟨u,f,id⟩) (events t h) ≤ -1 := by
  have hplaced : Placed D.prost (⟨.storageUpdate site u (recordKey id) payload,r⟩ :: events t h) :=
    hc.traced_op (placed_serve D) hs
  have hch : changes ⟨u,f,id⟩ ⟨.storageUpdate site u (recordKey id) payload,r⟩ :=
    decide_eq_true ⟨hsite,rfl,rfl⟩
  have hspent : spent (price D.prost ⟨u,f,id⟩) (events t h) ≤ -1 := by
    cases site <;> first
      | exact absurd hsite (by decide)
      | exact hplaced _ hch
  obtain ⟨o,r,hm⟩ := acted_of_spent hc hs hspent
  exact ⟨⟨q,o,r,rfl,hm⟩,hspent⟩

theorem stock_of_changing (hc : D.Reach c) (htidy : Everywhere (OnWrites Tidy) c.state.history)
    (hfirst : Everywhere (OnWrites First) c.state.history) {site : Site} (hsite : site ∈ changing)
    {payload : Bytes} {r : Except UpdateError String}
    (hs : .op t q (.storageUpdate site u (recordKey id) payload) r :: h <:+ c.state.history)
    (hk : Shelf ⟨u,f,id⟩ k) : stock D.prost id (stored q.core u k h) ≤ 0 := by
  have hpast : h <:+ c.state.history := (List.suffix_cons _ _).trans hs
  have hactor := actor_changing hc hsite hs f
  obtain ⟨c₀,x,hc₀,rfl,-,-⟩ := exec_before hc hs
  have hle := stock_le hc₀ (htidy.suffix hpast) (hfirst.suffix hpast) hk (A := {t}) fun t' ht' =>
    Finset.mem_singleton.mp ht' ▸ hactor
  simpa using hle

/-- When a version with another status is stored, nobody else is about to enter the task. -/
theorem housed_changing (hc : D.Reach c) (htidy : Everywhere (OnWrites Tidy) c.state.history)
    (hfirst : Everywhere (OnWrites First) c.state.history) (hid : ¬ Reserved id) {site : Site}
    (hsite : site ∈ changing) {payload : Bytes} {r : Except UpdateError String}
    (hs : .op t q (.storageUpdate site u (recordKey id) payload) r :: h <:+ c.state.history) :
    Housed D.prost q.core u id (.op t q (.storageUpdate site u (recordKey id) payload) r :: h) := by
  have hpast : h <:+ c.state.history := (List.suffix_cons _ _).trans hs
  have hactor := actor_changing hc hsite hs
  have hnone {f : Family} {k : String} (hk : Shelf ⟨u,f,id⟩ k) :
      stock D.prost id (stored q.core u k h) ≤ 0 := stock_of_changing hc htidy hfirst hsite hs hk
  obtain ⟨c₀,x,hc₀,rfl,-,-⟩ := exec_before hc hs
  refine ⟨fun f k hk hone => ?_,fun t' q' site' r' new hm hq' hsite' f hp => ?_⟩
  · rw [stored_write_of_ne fun he => recordKey_ne_of_shelf hid hk he.2] at hone
    have hle := hnone hk
    omega
  · exfalso
    rcases List.mem_cons.mp hm with he | hm
    · obtain ⟨-,-,ho,-⟩ := Action.op.inj he
      obtain ⟨rfl,-⟩ := Op.storageUpdate.inj ho
      revert hsite hsite'
      cases site' <;> decide
    · by_cases ht : t = t'
      · subst ht
        rw [events_op_self] at hp
        have hst : stores ⟨u,f,id⟩ ⟨.storageUpdate site u (recordKey id) payload,r⟩ = false :=
          decide_eq_false fun hh => by
            have hsite' := hh.1
            revert hsite hsite'
            cases site <;> decide
        have hch : changes ⟨u,f,id⟩ ⟨.storageUpdate site u (recordKey id) payload,r⟩ = true :=
          decide_eq_true ⟨hsite,rfl,rfl⟩
        cases site <;> first
          | exact absurd hsite (by decide)
          | simp [pending,hst,hch] at hp
      · rw [events_op_of_ne ht] at hp
        have hother : spent (price D.prost ⟨u,f,id⟩) (events t' c₀.state.history) ≤ -1 :=
          spent_of_pending (fun h' hs' => hc₀.spent_nonpos (fun q => costs_serve D q) hs') hp
        obtain ⟨k,hk⟩ := exists_shelf ⟨u,f,id⟩
        have hle : stock D.prost id (stored q.core u k c₀.state.history) ≤ 1 - ({t,t'} : Finset ℕ).card :=
          stock_le hc₀ (htidy.suffix hpast) (hfirst.suffix hpast) hk fun t'' ht'' => by
            rcases Finset.mem_insert.mp ht'' with rfl | ht''
            · exact hactor f
            · obtain rfl := Finset.mem_singleton.mp ht''
              exact ⟨⟨q',_,_,hq',hm⟩,hother⟩
        have hnonneg := stock_nonneg D.prost id (stored q.core u k c₀.state.history)
        rw [Finset.card_pair ht] at hle
        omega

theorem housed (hc : D.Reach c) (htidy : Everywhere (OnWrites Tidy) c.state.history)
    (hfirst : Everywhere (OnWrites First) c.state.history) (hid : ¬ Reserved id)
    (hh : h <:+ c.state.history) : Housed D.prost i u id h := by
  induction h with
  | nil =>
    exact ⟨fun f k _ hone => absurd hone (by simp [stored,stock]),fun t q site r new hm => by cases hm⟩
  | cons a h ih =>
    replace ih := ih ((List.suffix_cons _ _).trans hh)
    by_cases hsp : ∀ k, (k = recordKey id ∨ ∃ f, Shelf ⟨u,f,id⟩ k) → Spares i u k a
    case pos =>
      refine ih.cons hc hh (fun f => ?_) (fun f k hk => stored_cons_of_spares (hsp k (.inr ⟨f,hk⟩)) h)
        fun task hid' hst => ⟨task,hid',?_,fun _ => rfl⟩
      · rw [Bool.eq_false_iff]
        intro hin
        cases a with
        | op t q o r =>
          cases o with
          | storageUpdate site u' k' payload =>
            have hw : q.core = i ∧ site ∈ introducing ∧ u' = u ∧ k' = recordKey id := of_decide_eq_true hin
            obtain ⟨hq,-,rfl,rfl⟩ := hw
            exact hsp _ (.inl rfl) ⟨hq,rfl,rfl⟩
          | _ => cases hin
        | _ => cases hin
      · rw [stored_cons_of_spares (hsp _ (.inl rfl)),hst]
    case neg =>
      push Not at hsp
      obtain ⟨k,hk,hsp⟩ := hsp
      obtain ⟨t,q,site,payload,r,rfl,rfl⟩ := write_of_not_spares hsp
      rcases hk with rfl | ⟨f,hk⟩
      · obtain ⟨new,rfl,hnew,hv⟩ := version_of_write hc htidy hfirst hid hh
        generalize hold : stored q.core u (recordKey id) h = old at hv
        cases hv with
        | first site_mem => exact housed_first hid hnew hold ih
        | @next old changes id_eq =>
          by_cases hmerge : site = .merge
          · subst hmerge
            refine ih.cons hc hh (fun f => decide_eq_false (by simp [introducing]))
              (fun f k hk => stored_write_of_ne fun he => recordKey_ne_of_shelf hid hk he.2)
              fun task hid' hst => ⟨new,hnew,stored_write ..,fun f => ?_⟩
            rw [hold] at hst
            obtain rfl := D.prost.task.encode_inj (Option.some.inj hst)
            cases changes
            cases f <;> rfl
          · refine housed_changing hc htidy hfirst hid ?_ hh
            cases changes <;> first
              | exact absurd rfl hmerge
              | decide
      · obtain rfl := site_of_shelf hc htidy hk hh
        exact housed_list hc htidy hfirst hid hh hk ih

/-- No list names a task whose record would be a status list. -/
theorem stock_of_reserved (hc : D.Reach c) (htidy : Everywhere (OnWrites Tidy) c.state.history)
    (hid : Reserved id) (hk : Shelf ⟨u,f,id⟩ k) :
    stock D.prost id (stored i u k c.state.history) ≤ 0 := by
  have hstock := sum_stock_le_introduced hc htidy i ⟨u,f,id⟩ (S := {k}) fun k' hk' =>
    Finset.mem_singleton.mp hk' ▸ hk
  have hzero : c.state.history.countP (introduces i ⟨u,f,id⟩) = 0 :=
    List.countP_eq_zero.mpr fun a ha hin => by
      cases a with
      | op t q o r =>
        cases o with
        | storageUpdate site u' k' payload =>
          obtain ⟨past,hs⟩ := suffix_of_mem ha
          have hw : q.core = i ∧ site ∈ introducing ∧ u' = u ∧ k' = recordKey id := of_decide_eq_true hin
          obtain ⟨rfl,hsite,rfl,rfl⟩ := hw
          have hkept := everywhere_writes (kept hc htidy) hs
          cases site <;> first
            | exact absurd hsite (by decide)
            | (obtain ⟨task,hkey,-,-,hres⟩ := hkept
               exact hres (recordKey_inj.mp hkey ▸ hid))
        | _ => cases hin
      | _ => cases hin
  rw [Finset.sum_singleton,hzero] at hstock
  exact hstock

/-- Every list of the user that names the task is one of the two for the stored version of it. -/
def InPlace (M : Prost) (w : World) (i : ℕ) (u id : String) : Prop :=
  ∀ l, Known l → ∀ payload ∈ w.read i u ("_internal:" ++ listKey l), 1 ≤ copies M id payload →
    ∃ task : Task, task.taskId = id ∧ w.read i u (recordKey id) = some (M.task.encode task) ∧
      listKey l ∈ (listsAt u task task.status).map listKey

/-- No list of the user names the task. -/
def Unlisted (M : Prost) (w : World) (i : ℕ) (u id : String) : Prop :=
  ∀ l, Known l → ∀ payload ∈ w.read i u ("_internal:" ++ listKey l), copies M id payload = 0

/-- The step stores a version of the user's task with another status. -/
def ChangesStatus (M : Prost) (w : World) (i : ℕ) (u id : String) : TaskAction → Prop
  | .op _ q (.storageUpdate _ u' k payload) _ => q.core = i ∧ u' = u ∧ k = recordKey id ∧
      ∃ old new, (w.read i u k).bind M.task.decode = some old ∧ M.task.decode payload = some new ∧
        old.status ≠ new.status
  | _ => False

theorem shelf_listKey {l : TaskList} (hl : Known l) (u id : String) :
    ∃ f, Shelf ⟨u,f,id⟩ ("_internal:" ++ listKey l) :=
  let ⟨f,hf⟩ := start_listKey l
  ⟨f,l,hl,rfl,decide_eq_true ⟨rfl,hf⟩⟩

theorem inPlace (hc : D.Reach c) (htidy : Everywhere (OnWrites Tidy) c.state.history)
    (hfirst : Everywhere (OnWrites First) c.state.history) (hu : NoColon u) :
    InPlace D.prost c.state.shared i u id := by
  intro l hl payload hread hone
  rw [Option.mem_def,read_eq_stored hc hu (guarded_listKey l)] at hread
  obtain ⟨f,hk⟩ := shelf_listKey hl u id
  have hstock : 1 ≤ stock D.prost id (stored i u ("_internal:" ++ listKey l) c.state.history) := by
    rw [hread]
    exact Int.ofNat_le.mpr hone
  by_cases hid : Reserved id
  · have hzero := stock_of_reserved (i := i) hc htidy hid hk
    omega
  · obtain ⟨task,rfl,hst,hkey⟩ := (housed hc htidy hfirst hid List.suffix_rfl).listed f _ hk hstock
    refine ⟨task,rfl,by rw [read_eq_stored hc hu (guarded_recordKey _),hst],?_⟩
    rw [listsAt_keys,internal_inj.mp hkey]
    cases f with
    | protocol => exact List.mem_cons_self ..
    | status => exact List.mem_cons_of_mem _ (List.mem_cons_self ..)

/-- Only the writes between leaving the old lists and entering the new ones change the status. -/
theorem changing_of_restated (hc : D.Reach c) (htidy : Everywhere (OnWrites Tidy) c.state.history)
    (hfirst : Everywhere (OnWrites First) c.state.history) (hid : ¬Reserved id) {site : Site}
    {payload : Bytes} {r : Except UpdateError String}
    (hs : .op t q (.storageUpdate site u (recordKey id) payload) r :: h <:+ c.state.history)
    {old new : Task} (hold : (stored q.core u (recordKey id) h).bind D.prost.task.decode = some old)
    (hnew : D.prost.task.decode payload = some new) (hne : old.status ≠ new.status) :
    site ∈ changing := by
  obtain ⟨task,rfl,-,hv⟩ := version_of_write hc htidy hfirst hid hs
  obtain rfl := Option.some.inj ((D.prost.task.decode_encode task).symm.trans hnew)
  generalize stored q.core u (recordKey id) h = value at hold hv
  cases hv with
  | first => cases hold
  | @next before changes =>
    obtain rfl : before = old := by simpa [D.prost.task.decode_encode] using hold
    cases changes <;> first
      | exact absurd rfl hne
      | decide

theorem unlisted_of_changesStatus {c₀ : TaskConfig} (hc₀ : D.Reach c₀) {a : TaskAction}
    (hstep : D.system.Step c₀ a c) (htidy : Everywhere (OnWrites Tidy) c.state.history)
    (hfirst : Everywhere (OnWrites First) c.state.history) (hu : NoColon u)
    (hch : ChangesStatus D.prost c₀.state.shared i u id a) :
    Unlisted D.prost c₀.state.shared i u id := by
  have hc := hc₀.step hstep
  have hs : a :: c₀.state.history <:+ c.state.history := hstep.history ▸ List.suffix_rfl
  have hpast := (List.suffix_cons _ _).trans hs
  cases a with
  | op t q o r =>
    cases o with
    | storageUpdate site u' k payload =>
      obtain ⟨rfl,rfl,rfl,old,new,hold,hnew,hne⟩ := hch
      intro l hl payload' hread
      rw [Option.mem_def,read_eq_stored hc₀ hu (guarded_listKey l)] at hread
      obtain ⟨f,hk⟩ := shelf_listKey hl u' id
      suffices hstock : stock D.prost id
          (stored q.core u' ("_internal:" ++ listKey l) c₀.state.history) ≤ 0 by
        rw [hread] at hstock
        exact Nat.le_zero.mp (Int.ofNat_le.mp hstock)
      by_cases hid : Reserved id
      · exact stock_of_reserved hc₀ (htidy.suffix hpast) hid hk
      · rw [read_eq_stored hc₀ hu (guarded_recordKey id)] at hold
        exact stock_of_changing hc htidy hfirst
          (changing_of_restated hc htidy hfirst hid hs hold hnew hne) hs hk
    | _ => exact hch.elim
  | _ => exact hch.elim

/-- However the handlers interleave and wherever they fail, a list names a task only if it is one of
the two lists to which the status, the protocol and the role in the stored version point, and another
status has only been stored when no list named the task. -/
theorem listed_in_place (D : Deployment) : ∀ c : TaskConfig, D.Reach c →
    Everywhere (OnWrites Tidy) c.state.history → Everywhere (OnWrites First) c.state.history →
    ∀ (i : ℕ) (u id : String), NoColon u → InPlace D.prost c.state.shared i u id ∧
      ∀ c₀ a, D.Reach c₀ → D.system.Step c₀ a c → ChangesStatus D.prost c₀.state.shared i u id a →
        Unlisted D.prost c₀.state.shared i u id :=
  fun _ hc htidy hfirst _ _ _ hu => ⟨inPlace hc htidy hfirst hu,fun _ _ hc₀ hstep =>
    unlisted_of_changesStatus hc₀ hstep htidy hfirst hu⟩

/-- User 07 approves, and its handler has performed some operations. -/
def approving (n : ℕ) : List Move := Move.settle 7 ++
  [.start 0 (.ofGuest 7 (sampleOffer (sampleTask "id" []) [])),.run 0 13,
    .start 1 (.ofUser 7 sampleApproval),.run 1 n]

/-- The step gives the task another status, as far as the run tells what is stored. -/
def restates : TaskAction → List TaskAction → Bool
  | .op _ q (.storageUpdate _ u k payload) _,past => decide (q.core = 0 ∧ u = "07" ∧ k = recordKey "id") &&
      ((stored 0 "07" k past).bind Prost.selfDelimiting.task.decode).any fun old =>
        (Prost.selfDelimiting.task.decode payload).any fun new => decide (old.status ≠ new.status)
  | _,_ => false

theorem changesStatus_of_restates (hc : Deployment.ideal.Reach c) {a : TaskAction}
    (h : restates a c.state.history) :
    ChangesStatus Prost.selfDelimiting c.state.shared 0 "07" "id" a := by
  cases a with
  | op t q o r =>
    cases o with
    | storageUpdate site u k payload =>
      simp only [restates,Bool.and_eq_true,decide_eq_true_eq,Option.any_eq_true] at h
      obtain ⟨⟨hcore,rfl,rfl⟩,old,hold,new,hnew,hne⟩ := h
      refine ⟨hcore,rfl,rfl,old,new,?_,hnew,hne⟩
      rwa [read_eq_stored hc (by decide) (guarded_recordKey _)]
    | _ => cases h
  | _ => cases h

/-- A list names the task while its handler is at work, and none did when the status was stored. -/
theorem listed_in_place_sample : (∃ c payload, Deployment.ideal.Reach c ∧
      c.state.shared.read 0 "07" ("_internal:" ++ listKey (.started "" "member")) = some payload ∧
      copies Prost.selfDelimiting "id" payload = 1 ∧
      InPlace Prost.selfDelimiting c.state.shared 0 "07" "id") ∧
    ∃ c a c', Deployment.ideal.Reach c ∧ Deployment.ideal.system.Step c a c' ∧
      ChangesStatus Prost.selfDelimiting c.state.shared 0 "07" "id" a ∧
      Unlisted Prost.selfDelimiting c.state.shared 0 "07" "id" := by
  constructor
  · have hrun : (Play.moves (approving 14) {}).any fun p =>
        decide (Everywhere (OnWrites Tidy) p.history) && decide (Everywhere (OnWrites First) p.history) &&
        decide ((stored 0 "07" ("_internal:" ++ listKey (.started "" "member")) p.history).map
          (copies Prost.selfDelimiting "id") = some 1) := by
      decide +kernel
    obtain ⟨c,p,hc,hf,hp⟩ := Play.run hrun
    simp only [Bool.and_eq_true,decide_eq_true_eq,← hf.history] at hp
    obtain ⟨payload,hst,hone⟩ := Option.map_eq_some_iff.mp hp.2
    refine ⟨c,payload,hc,?_,hone,
      (listed_in_place Deployment.ideal c hc hp.1.1 hp.1.2 0 "07" "id" (by decide)).1⟩
    rw [read_eq_stored hc (by decide) (guarded_listKey _),hst]
  · have hrun : (Play.moves (approving 11) {}).any (Play.newest fun a past => restates a past &&
        decide (Everywhere (OnWrites Tidy) (a :: past)) &&
        decide (Everywhere (OnWrites First) (a :: past))) := by
      decide +kernel
    obtain ⟨c,a,c',hc,hs,hcheck⟩ := Play.run_step hrun
    simp only [Bool.and_eq_true,decide_eq_true_eq,← hs.history] at hcheck
    obtain ⟨⟨hrestates,htidy⟩,hfirst⟩ := hcheck
    have hch := changesStatus_of_restates hc hrestates
    exact ⟨c,a,c',hc,hs,hch,(listed_in_place Deployment.ideal c' (hc.step hs) htidy hfirst 0 "07" "id"
      (by decide)).2 c a hc hs hch⟩

end Placements
end CoLinkServer
