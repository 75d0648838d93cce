import CoLinkServer.TaskKeys
import CoLinkServer.TaskLists

/-! New tasks. A delivery that nobody overtakes stores the record of a task only when there is none,
and since nobody else introduces the task, it stands at most once in the lists of the user. -/
namespace CoLinkServer

open Interleaving

namespace Admissions

open TaskKeys TaskLists TaskRecords TaskTraces

variable {D : Deployment} {c : TaskConfig} {i t : ℕ} {q : Request} {u k : String}
  {h past : List TaskAction}

/-- One of the lists in which the entry may stand. -/
def Shelf (x : Entry) (k : String) : Prop :=
  ∃ l, Known l ∧ k = "_internal:" ++ listKey l ∧ x.concerns x.user k

/-- How often the task is named by what is stored. -/
def stock (M : Prost) (taskId : String) (value : Option Bytes) : ℤ :=
  (value.map (copies M taskId)).getD 0

/-- The action stores the task of the entry for the first time. -/
def introduces (i : ℕ) (x : Entry) : TaskAction → Bool
  | .op _ q (.storageUpdate site u k _) _ => decide (q.core = i ∧ site ∈ introducing ∧ u = x.user ∧
      k = recordKey x.taskId)
  | _ => false

theorem stock_nonneg (M : Prost) (taskId : String) (value : Option Bytes) :
    0 ≤ stock M taskId value := Int.natCast_nonneg _

theorem site_of_shelf (hc : D.Reach c) (htidy : Everywhere (OnWrites Tidy) c.state.history)
    {x : Entry} (hk : Shelf x k) {site : Site} {payload : Bytes} {r : Except UpdateError String}
    (hs : .op t q (.storageUpdate site u k payload) r :: h <:+ c.state.history) : site = .list := by
  obtain ⟨l,hl,rfl,-⟩ := hk
  have hkept := everywhere_writes (kept hc htidy) hs
  have hrecord (hr : ∃ task, "_internal:" ++ listKey l = recordKey task.taskId ∧
      payload = D.prost.task.encode task ∧ task.status ∈ statuses ∧ ¬ Reserved task.taskId) :
      site = .list := by
    obtain ⟨task,hkey,-,-,hres⟩ := hr
    exact absurd (internal_inj.mp hkey).symm (record_ne_list hres hl).1
  cases site with
  | list => rfl
  | latest =>
    obtain ⟨task,listKey',hlist,hst,hkey,-⟩ := hkept
    obtain ⟨l',hl',rfl⟩ := list_of_listOf hlist
    rw [String.append_assoc] at hkey
    exact absurd (internal_inj.mp hkey) (listKey_ne_latest hl)
  | _ => exact hrecord hkept

theorem stock_known_le (hc : D.Reach c) (htidy : Everywhere (OnWrites Tidy) c.state.history)
    (taskId : String) {payload : Bytes} {r : Except UpdateError String}
    (hs : .op t q (.storageUpdate .list u k payload) r :: h <:+ c.state.history) :
    stock D.prost taskId (knows u k (events t h)) ≤ stock D.prost taskId (stored q.core u k h) := by
  have hu := writer_noColon hc hs
  obtain ⟨-,hheld,-⟩ := obligation hc hs
  obtain ⟨task,list,hl,hst,-⟩ := everywhere_writes (kept hc htidy) hs
  cases hv : knows u k (events t h) with
  | none => exact stock_nonneg _ _ _
  | some v =>
    have hex := (exclusive_list hc htidy hl hst q.core).suffix ((List.suffix_cons _ _).trans hs)
    rw [stored_of_known hc hu (guarded_listOf hl) hs List.nil_suffix (idle_nil _)
      (hex.mono fun _ _ hh w hw _ => hh w hw) hheld hv]

theorem stock_of_list (hc : D.Reach c) (htidy : Everywhere (OnWrites Tidy) c.state.history)
    {x : Entry} {payload : Bytes} {r : Except UpdateError String} (hx : x.concerns u k)
    (hs : .op t q (.storageUpdate .list u k payload) r :: h <:+ c.state.history) :
    (copies D.prost x.taskId payload : ℤ) ≤ stock D.prost x.taskId (stored q.core u k h) +
      price D.prost x ⟨.storageUpdate .list u k payload,r⟩ (events t h) := by
  have hprice : price D.prost x ⟨.storageUpdate .list u k payload,r⟩ (events t h) =
      copies D.prost x.taskId payload - stock D.prost x.taskId (knows u k (events t h)) := by
    simp [price,hx,stock]
  have hknown := stock_known_le hc htidy x.taskId hs
  omega

theorem sum_le_of_one {κ : Type} [DecidableEq κ] {f g : κ → ℤ} {k : κ} (hne : ∀ k', k' ≠ k → g k' = f k')
    (hk : 0 ≤ g k) (S : Finset κ) : ∑ k' ∈ S, g k' ≤ ∑ k' ∈ insert k S, f k' + (g k - f k) := by
  have hmore : ∑ k' ∈ S, g k' ≤ ∑ k' ∈ insert k S, g k' := by
    refine Finset.sum_le_sum_of_subset_of_nonneg (Finset.subset_insert k S) fun k' hin hout => ?_
    obtain rfl := (Finset.mem_insert.mp hin).resolve_right hout
    exact hk
  have hdiff : ∑ k' ∈ insert k S, (g k' - f k') = g k - f k :=
    Finset.sum_eq_single k (fun k' _ hk' => by rw [hne k' hk',sub_self])
      fun hn => absurd (Finset.mem_insert_self k S) hn
  rw [Finset.sum_sub_distrib] at hdiff
  omega

/-- The new records and what the threads of a core have paid for besides. -/
def paid (M : Prost) (i : ℕ) (x : Entry) (h : List TaskAction) : ℤ :=
  spentOn (price M x) (fun q : Request => decide (q.core = i)) h + h.countP (introduces i x)

theorem paid_op (M : Prost) (x : Entry) (t : ℕ) (q : Request) (o : Op) (r : Res o)
    (h : List TaskAction) : paid M q.core x (.op t q o r :: h) = paid M q.core x h +
      (price M x ⟨o,r⟩ (events t h) + (introduces q.core x (.op t q o r)).toNat) := by
  simp only [paid,spentOn,List.countP_cons,decide_true,if_true]
  cases introduces q.core x (.op t q o r) <;> simp <;> omega

theorem paid_of_record {M : Prost} {x : Entry} {site : Site} {payload : Bytes} {r : Except UpdateError String}
    (hs : site ≠ .list) : paid M q.core x (.op t q (.storageUpdate site u k payload) r :: h) =
      paid M q.core x h := by
  rw [paid_op]
  have hprice : price M x ⟨.storageUpdate site u k payload,r⟩ (events t h) =
      if site ∈ introducing ∧ u = x.user ∧ k = recordKey x.taskId then -1 else 0 := by
    cases site <;> first | exact absurd rfl hs | rfl
  rw [hprice]
  by_cases hin : site ∈ introducing ∧ u = x.user ∧ k = recordKey x.taskId <;> simp [introduces,hin]

theorem stored_write_of_ne {u' k' : String} {site : Site} {payload : Bytes} {r : Except UpdateError String}
    (hne : ¬ (u = u' ∧ k = k')) :
    stored i u' k' (.op t q (.storageUpdate site u k payload) r :: h) = stored i u' k' h :=
  if_neg fun hh => hne hh.2

/-- There are no more entries than have been paid for. -/
theorem sum_stock_le (hc : D.Reach c) (htidy : Everywhere (OnWrites Tidy) c.state.history) (i : ℕ)
    (x : Entry) (hh : h <:+ c.state.history) : ∀ S : Finset String, (∀ k ∈ S, Shelf x k) →
    ∑ k ∈ S, stock D.prost x.taskId (stored i x.user k h) ≤ paid D.prost i x h := by
  induction h with
  | nil => exact fun S _ => by simp [stock,stored,paid,spentOn]
  | cons a h ih =>
    intro S hS
    replace ih := ih ((List.suffix_cons _ _).trans hh)
    have hsame (hst : ∀ k ∈ S, stored i x.user k (a :: h) = stored i x.user k h)
        (hpaid : paid D.prost i x (a :: h) = paid D.prost i x h) :
        ∑ k ∈ S, stock D.prost x.taskId (stored i x.user k (a :: h)) ≤ paid D.prost i x (a :: h) := by
      rw [hpaid,Finset.sum_congr rfl fun k hk => by rw [hst k hk]]
      exact ih S hS
    cases a with
    | start t q => exact hsame (fun _ _ => rfl) (by simp [paid,spentOn,introduces])
    | env => exact hsame (fun _ _ => rfl) (by simp [paid,spentOn,introduces])
    | op t q o r =>
      by_cases hi : q.core = i
      case neg =>
        refine hsame (fun k _ => stored_cons_of_spares ?_ h) ?_
        · cases o <;> first | trivial | exact fun hsp => hi hsp.1
        · cases o <;> simp [paid,spentOn,introduces,hi]
      subst hi
      cases o with
      | storageUpdate site u k payload =>
        have hspares (hn : ¬ (u = x.user ∧ k ∈ S)) : ∀ k' ∈ S, stored q.core x.user k'
            (.op t q (.storageUpdate site u k payload) r :: h) = stored q.core x.user k' h :=
          fun k' hk' => stored_write_of_ne fun he => hn ⟨he.1,he.2 ▸ hk'⟩
        by_cases hsite : site = .list
        · subst hsite
          by_cases hx : x.concerns u k
          · obtain rfl : u = x.user := (of_decide_eq_true hx).1
            obtain ⟨task,list,hl,hst,-⟩ := everywhere_writes (kept hc htidy) hh
            obtain ⟨l,hmem,rfl⟩ := list_of_listOf hl
            have hshelf : ∀ k' ∈ insert ("_internal:" ++ listKey l) S, Shelf x k' := fun k' hk' => by
              rcases Finset.mem_insert.mp hk' with rfl | hk'
              · exact ⟨l,known_of_listsAt hst hmem,rfl,hx⟩
              · exact hS k' hk'
            have hwrite := stock_of_list hc htidy hx hh
            have hsum := sum_le_of_one (k := "_internal:" ++ listKey l)
              (f := fun k' => stock D.prost x.taskId (stored q.core x.user k' h))
              (g := fun k' => stock D.prost x.taskId (stored q.core x.user k'
                (.op t q (.storageUpdate .list x.user ("_internal:" ++ listKey l) payload) r :: h)))
              (fun k' hne => congrArg _ (stored_write_of_ne fun he => hne he.2.symm))
              (stock_nonneg _ _ _) S
            have hprev := ih _ hshelf
            rw [paid_op]
            rw [stored_write] at hsum
            have hstock : stock D.prost x.taskId (some payload) = copies D.prost x.taskId payload := rfl
            omega
          · refine hsame (hspares fun hin => ?_) ?_
            · obtain ⟨l,-,-,hconcerns⟩ := hS k hin.2
              exact hx (hin.1 ▸ hconcerns)
            · rw [paid_op]
              simp [price,hx,introduces,introducing]
        · refine hsame (hspares fun hin => hsite ?_) (paid_of_record hsite)
          exact site_of_shelf hc htidy (hS k hin.2) (hin.1 ▸ hh)
      | _ =>
        refine hsame (fun _ _ => rfl) ?_
        rw [paid_op]
        simp [price,introduces]

/-- No task is admitted whose id is that of a status list, and no delivery overtakes another one
between its check and its write. -/
def Solitary (w : Write) (h : List TaskAction) : Prop := Tidy w h ∧ Alone w h

instance (w : Write) (h : List TaskAction) : Decidable (Solitary w h) :=
  inferInstanceAs (Decidable (_ ∧ _))

theorem tidy_of_solitary (ho : Everywhere (OnWrites Solitary) h) : Everywhere (OnWrites Tidy) h :=
  ho.mono fun _ _ hh w hw => (hh w hw).1

theorem alone_of_solitary (ho : Everywhere (OnWrites Solitary) h) : Everywhere (OnWrites Alone) h :=
  ho.mono fun _ _ hh w hw => (hh w hw).2

theorem introduced_once {x : Entry} (hfirst : Everywhere (OnWrites First) h) :
    h.countP (introduces i x) ≤ 1 := by
  induction h with
  | nil => exact Nat.zero_le _
  | cons a h ih =>
    by_cases ha : introduces i x a
    · cases a with
      | op t q o r =>
        cases o with
        | storageUpdate site u k payload =>
          obtain ⟨rfl,hsite,rfl,rfl⟩ := of_decide_eq_true ha
          have hnone := hfirst.1 _ rfl hsite
          have hzero : h.countP (introduces q.core x) = 0 := List.countP_eq_zero.mpr fun b hb hin => by
            cases b with
            | op t' q' o' r' =>
              cases o' with
              | storageUpdate site' u' k' payload' =>
                obtain ⟨hcore,-,rfl,rfl⟩ := of_decide_eq_true hin
                exact stored_of_write hb (hcore ▸ hnone)
              | _ => cases hin
            | _ => cases hin
          rw [List.countP_cons_of_pos ha,hzero]
        | _ => cases ha
      | _ => cases ha
    · rw [List.countP_cons_of_neg ha]
      exact ih hfirst.2

/-- What a delivery stores as it has come is a waiting task of which the user has no record yet. -/
def AdmitsNew (M : Prost) (w : World) : TaskAction → Prop
  | .op _ q (.storageUpdate .admission u k payload) _ => w.read q.core u k = none ∧
      ∃ task : Task, task.status = "waiting" ∧ k = recordKey task.taskId ∧ payload = M.task.encode task
  | _ => True

/-- The task is at most once in each list of the user. -/
def ListedOnce (M : Prost) (w : World) (i : ℕ) (u id : String) : Prop :=
  ∀ l, Known l → ∀ payload ∈ w.read i u ("_internal:" ++ listKey l), copies M id payload ≤ 1

theorem admits_new (hc : D.Reach c) {a : TaskAction} {c' : TaskConfig} (hs : D.system.Step c a c')
    (ho : Everywhere (OnWrites Solitary) c'.state.history) : AdmitsNew D.prost c.state.shared a := by
  cases a with
  | op t q o r =>
    cases o with
    | storageUpdate site u k payload =>
      cases site with
      | admission =>
        have hc' := hc.step hs
        have hwrite : .op t q (.storageUpdate .admission u k payload) r :: c.state.history <:+
            c'.state.history := by rw [hs.history]
        obtain ⟨-,task,rfl,rfl,hst⟩ := obligation hc' hwrite
        refine ⟨?_,task,?_,rfl,rfl⟩
        · rw [read_eq_stored hc (writer_noColon hc' hwrite) (guarded_recordKey _)]
          exact admission_absent hc' (tidy_of_solitary ho) (alone_of_solitary ho) hwrite
        · cases hst with
          | admission sync direct initiator decision approved steps => rfl
      | _ => trivial
    | _ => trivial
  | _ => trivial

theorem start_listKey (l : TaskList) :
    ∃ f : Family, f.start.toList <+: ("_internal:" ++ listKey l).toList := by
  cases l with
  | status s => exact ⟨.status,s.toList,by simp [Family.start,listKey,subject,statusOf]⟩
  | protocol name s =>
    exact ⟨.protocol,(name ++ ":" ++ s).toList,by simp [Family.start,listKey,subject,statusOf]⟩
  | started name role =>
    exact ⟨.protocol,(name ++ ":" ++ role ++ ":started").toList,by
      simp [Family.start,listKey,subject,statusOf]⟩

theorem sum_stock_le_introduced (hc : D.Reach c) (htidy : Everywhere (OnWrites Tidy) c.state.history)
    (i : ℕ) (x : Entry) {S : Finset String} (hS : ∀ k ∈ S, Shelf x k) :
    ∑ k ∈ S, stock D.prost x.taskId (stored i x.user k c.state.history) ≤
      c.state.history.countP (introduces i x) := by
  have hstock := sum_stock_le hc htidy i x List.suffix_rfl S hS
  have hspent := hc.spentOn_nonpos (fun q => @costs_serve x D q) fun q => decide (q.core = i)
  simp only [paid] at hstock
  omega

theorem listed_once (hc : D.Reach c) (ho : Everywhere (OnWrites Solitary) c.state.history)
    (hu : NoColon u) (i : ℕ) (id : String) : ListedOnce D.prost c.state.shared i u id := by
  intro l hl payload hread
  have htidy := tidy_of_solitary ho
  rw [Option.mem_def,read_eq_stored hc hu (guarded_listKey l)] at hread
  obtain ⟨f,hf⟩ := start_listKey l
  have hshelf : Shelf ⟨u,f,id⟩ ("_internal:" ++ listKey l) := ⟨l,hl,rfl,decide_eq_true ⟨rfl,hf⟩⟩
  have hstock := @sum_stock_le_introduced D c hc htidy i ⟨u,f,id⟩ {"_internal:" ++ listKey l}
    fun k hk => Finset.mem_singleton.mp hk ▸ hshelf
  have honce := @introduced_once i c.state.history ⟨u,f,id⟩
    (first_of_alone hc htidy (alone_of_solitary ho))
  rw [Finset.sum_singleton,hread] at hstock
  have hle : (copies D.prost id payload : ℤ) ≤ c.state.history.countP (introduces i ⟨u,f,id⟩) := hstock
  omega

/-- In every run in which no delivery of a task overtakes another one, a delivery stores the task
only where there is none, and no list ever names the task twice. -/
theorem new_task_once (D : Deployment) :
    (∀ (c : TaskConfig) (a : TaskAction) (c' : TaskConfig), D.Reach c → D.system.Step c a c' →
      Everywhere (OnWrites Solitary) c'.state.history → AdmitsNew D.prost c.state.shared a) ∧
    ∀ c : TaskConfig, D.Reach c → Everywhere (OnWrites Solitary) c.state.history →
      ∀ (i : ℕ) (u id : String), NoColon u → ListedOnce D.prost c.state.shared i u id :=
  ⟨fun _ _ _ hc hs ho => admits_new hc hs ho,fun _ hc ho i _ id hu => listed_once hc ho hu i id⟩

/-- User 08 sends the task, and once it has been admitted sends it again. -/
def deliverTwice : List Move := Move.settle 7 ++
  [.start 0 (.ofGuest 7 (sampleOffer (sampleTask "id" []) [])),.run 0 13,
    .start 1 (.ofGuest 7 (sampleOffer (sampleTask "id" []) [])),.run 1 9]

def admits : TaskAction → Bool
  | .op _ _ (.storageUpdate .admission _ _ _) _ => true
  | _ => false

theorem new_task_once_sample : (∃ c a c', Deployment.ideal.Reach c ∧
      Deployment.ideal.system.Step c a c' ∧ admits a ∧
      AdmitsNew Prost.selfDelimiting c.state.shared a) ∧
    ∃ c payload, Deployment.ideal.Reach c ∧
      c.state.shared.read 0 "07" ("_internal:" ++ listKey (.status "waiting")) = some payload ∧
      copies Prost.selfDelimiting "id" payload = 1 ∧
      ListedOnce Prost.selfDelimiting c.state.shared 0 "07" "id" := by
  constructor
  · have hrun : (Play.moves (Move.settle 7 ++
          [.start 0 (.ofGuest 7 (sampleOffer (sampleTask "id" []) [])),.run 0 4]) {}).any
        (Play.newest fun a past => admits a && decide (Everywhere (OnWrites Solitary) (a :: past))) := by
      decide +kernel
    obtain ⟨c,a,c',hc,hs,hcheck⟩ := Play.run_step hrun
    simp only [Bool.and_eq_true,decide_eq_true_eq] at hcheck
    exact ⟨c,a,c',hc,hs,hcheck.1,
      (new_task_once Deployment.ideal).1 c a c' hc hs (hs.history ▸ hcheck.2)⟩
  · have hrun : (Play.moves deliverTwice {}).any fun p =>
        decide (Everywhere (OnWrites Solitary) p.history) &&
        decide ((stored 0 "07" ("_internal:" ++ listKey (.status "waiting")) p.history).map
          (copies Prost.selfDelimiting "id") = some 1) := by
      decide +kernel
    obtain ⟨c,p,hc,hf,hp⟩ := Play.run hrun
    simp only [Bool.and_eq_true,decide_eq_true_eq,← hf.history] at hp
    obtain ⟨payload,hst,hone⟩ := Option.map_eq_some_iff.mp hp.2
    refine ⟨c,payload,hc,?_,hone,(new_task_once Deployment.ideal).2 c hc hp.1 0 "07" "id" (by decide)⟩
    rw [read_eq_stored hc (by decide) (guarded_listKey _),hst]

/-- However the handlers interleave, all the lists of a family together name a task at most as
often as its record has been stored as a new one: no change of the status adds an entry. -/
theorem entries_bounded (D : Deployment) : ∀ c : TaskConfig, D.Reach c →
    Everywhere (OnWrites Tidy) c.state.history → ∀ (i : ℕ) (x : Entry) (S : Finset String),
    NoColon x.user → (∀ k ∈ S, Shelf x k) →
    ∑ k ∈ S, stock D.prost x.taskId (c.state.shared.read i x.user k) ≤
      c.state.history.countP (introduces i x) := by
  intro c hc htidy i x S hu hS
  have hread (k : String) (hk : k ∈ S) :
      c.state.shared.read i x.user k = stored i x.user k c.state.history := by
    obtain ⟨l,-,rfl,-⟩ := hS k hk
    exact read_eq_stored hc hu (guarded_listKey l) i
  rw [Finset.sum_congr rfl fun k hk => by rw [hread k hk]]
  exact sum_stock_le_introduced hc htidy i x hS

/-- Two deliveries find nothing, store the task one after the other and enter it twice. -/
def deliverAtOnce : List Move := Move.settle 7 ++
  [.start 0 (.ofGuest 7 (sampleOffer (sampleTask "id" []) [])),.run 0 3,
    .start 1 (.ofGuest 7 (sampleOffer (sampleTask "id" []) [])),.run 1 13,.run 0 10]

theorem entries_bounded_sample : ∃ c, Deployment.ideal.Reach c ∧
    stock Prost.selfDelimiting "id"
      (c.state.shared.read 0 "07" ("_internal:" ++ listKey (.status "waiting"))) = 2 ∧
    2 ≤ c.state.history.countP (introduces 0 ⟨"07",.status,"id"⟩) := by
  have hrun : (Play.moves deliverAtOnce {}).any fun p =>
      decide (Everywhere (OnWrites Tidy) p.history) &&
      decide ((stored 0 "07" ("_internal:" ++ listKey (.status "waiting")) p.history).map
        (copies Prost.selfDelimiting "id") = some 2) := by
    decide +kernel
  obtain ⟨c,p,hc,hf,hp⟩ := Play.run hrun
  simp only [Bool.and_eq_true,decide_eq_true_eq,← hf.history] at hp
  obtain ⟨payload,hst,htwo⟩ := Option.map_eq_some_iff.mp hp.2
  have hread : stock Prost.selfDelimiting "id"
      (c.state.shared.read 0 "07" ("_internal:" ++ listKey (.status "waiting"))) = 2 := by
    rw [read_eq_stored hc (by decide) (guarded_listKey _),hst]
    exact congrArg Nat.cast htwo
  have hshelf : Shelf ⟨"07",.status,"id"⟩ ("_internal:" ++ listKey (.status "waiting")) :=
    ⟨.status "waiting",⟨by decide,nofun⟩,rfl,by decide⟩
  have hsum := entries_bounded Deployment.ideal c hc hp.1 0 ⟨"07",.status,"id"⟩
    {"_internal:" ++ listKey (.status "waiting")} (by decide)
    fun k hk => Finset.mem_singleton.mp hk ▸ hshelf
  refine ⟨c,hc,hread,?_⟩
  have hle : stock Prost.selfDelimiting "id"
      (c.state.shared.read 0 "07" ("_internal:" ++ listKey (.status "waiting"))) ≤
      c.state.history.countP (introduces 0 ⟨"07",.status,"id"⟩) := by
    rw [Finset.sum_singleton] at hsum
    exact hsum
  omega

end Admissions
end CoLinkServer
