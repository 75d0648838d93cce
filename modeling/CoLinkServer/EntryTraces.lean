import CoLinkServer.PlacementTraces

/-! How often a handler has entered a task in the lists of a user, and taken it out. Between its
critical sections it has entered the task in each family of lists exactly as often as it has indexed
it as a new one, unless something has failed after the task had been taken out. -/
namespace CoLinkServer

open Interleaving

namespace EntryTraces

open TaskTraces TaskRecords TaskLists Placements

variable (M : Prost) (v id : String)

/-- What an event does to the entries of the task, as far as the thread can know. -/
def change (f : Family) : Price Op Res
  | ⟨.storageUpdate .list u k payload,_⟩,h => if (Entry.mk v f id).concerns u k then
      copies M id payload - ((knows u k h).map (copies M id)).getD 0
    else 0
  | _,_ => 0

/-- How many entries the thread has made, less those that it has taken out. -/
abbrev made (f : Family) (h : List TaskEvent) : ℤ := spent (change M v id f) h

/-- The thread has entered the task in its lists as a new one. -/
def indexes : TaskEvent → Bool
  | ⟨.unlock (.index u id'),_⟩ => decide (u = v ∧ id' = id)
  | _ => false

abbrev indexed (h : List TaskEvent) : ℤ := h.countP (indexes v id)

def consentKey : String := "_internal:" ++ "user_consent"

/-- A decision for each participant. -/
def Ample (task : Task) : Prop := task.participants.length ≤ task.decisions.length

def Writes (u : String) (h : List TaskEvent) : Prop :=
  ∃ site k payload r, ⟨.storageUpdate site u k payload,r⟩ ∈ h

/-- What an event is like when nothing goes wrong. Values are stored and decisions made, the consent can
be read, and in a waiting task there is room for the decision. A list that is there can be read, and one
that the thread knows is still there; a task that was in the one list is in the other. -/
def Smooth : TaskEvent → List TaskEvent → Prop
  | ⟨.storageUpdate _ u _ _,r⟩,h => (∃ keyPath, r = .ok keyPath) ∧
      ∀ id' payload task, ⟨.storageRead u (recordKey id'),.ok payload⟩ ∈ h →
        M.task.decode payload = some task → task.status = "waiting" → Ample task
  | ⟨.makeDecision _ _ _ _ _ _,r⟩,_ => ∃ decision, r = .ok decision
  | ⟨.storageRead u k,r⟩,h => (k = consentKey → ∃ payload, r = .ok payload) ∧
      (∀ task, ListOf u task k → task.status ∈ statuses → Writes u h → ⟨.storageContains u k,true⟩ ∈ h →
        ∃ list, r = .ok (M.taskIdList.encode list)) ∧
      ((Entry.mk v .status id).concerns u k → made M v id .protocol h < made M v id .status h →
        ∃ payload, r = .ok payload ∧ 1 ≤ copies M id payload)
  | ⟨.storageContains u k,present⟩,h => ∀ task, ListOf u task k → task.status ∈ statuses → Writes u h →
      present = false → knows u k h = none
  | _,_ => True

def Steady : List TaskEvent → Prop
  | [] => True
  | e :: h => Smooth M v id e h ∧ Steady h

/-- So many new entries are due, and so many have been made in each of the families. -/
def Balance (n a b : ℤ) (h : List TaskEvent) : Prop :=
  Steady M v id h → indexed v id h = n ∧ made M v id .protocol h = a ∧ made M v id .status h = b

def Even (h : List TaskEvent) : Prop := Steady M v id h →
  made M v id .protocol h = indexed v id h ∧ made M v id .status h = indexed v id h

/-- The thread is about to take the task out of the status list of the version that it has read. -/
def Removes (q : Request) (u k : String) (h : List TaskEvent) : Prop := ∃ task id' payload,
  task.taskId = id ∧ k = "_internal:" ++ TaskService.statusListKey task ∧
  ⟨.storageRead u (recordKey id'),.ok payload⟩ ∈ h ∧ knows u (recordKey id') h = some payload ∧
  M.task.decode payload = some task ∧ Indexes M q u task h

def Accounted (q : Request) : List TaskEvent → Prop
  | [] => True
  | e :: h => (held (e :: h) = false → Even M v id (e :: h)) ∧ match e with
    | ⟨.storageUpdate .list u k _,_⟩ =>
      knows u k h ≠ none ∨ h.head? = some ⟨.storageContains u k,false⟩
    | ⟨.storageRead u k,_⟩ => Steady M v id h → (Entry.mk v .status id).concerns u k →
      made M v id .protocol h < made M v id .status h → Removes M id q u k h
    | _ => True

variable {M v id} {q : Request} {u : String} {h h' : List TaskEvent} {n a b : ℤ} {α β : Type} {task : Task}

theorem Balance.even (hb : Balance M v id n n n h) : Even M v id h := fun hs => by
  obtain ⟨hn,hp,hst⟩ := hb hs
  exact ⟨hp.trans hn.symm,hst.trans hn.symm⟩

theorem Even.balance (he : Even M v id h) : Balance M v id (indexed v id h) (indexed v id h)
    (indexed v id h) h := fun hs => ⟨rfl,he hs⟩

/-- Neither writes a list nor ends the section in which a new task is indexed. -/
def Neutral : Op → Prop
  | .storageUpdate site _ _ _ => site ≠ .list
  | .unlock (.index _ _) => False
  | _ => True

/-- Such an operation within a critical section. -/
def Inner : Op → Prop
  | .storageUpdate site _ _ _ => site ≠ .list
  | .lock _ => False
  | .unlock _ => False
  | _ => True

theorem Inner.neutral {o : Op} (ho : Inner o) : Neutral o := by
  cases o <;> first | exact ho | exact ho.elim

theorem Inner.held {e : TaskEvent} (he : Inner e.1) : held (e :: h) = held h := by
  obtain ⟨o,r⟩ := e
  cases o <;> first | rfl | exact he.elim

theorem neutral_update {site : Site} (hs : site ≠ .list) {u k : String} {payload : Bytes} :
    Neutral (.storageUpdate site u k payload) := hs

theorem neutral_of_kind {o : Op} (ho : o.kind ≠ .storageUpdate) (ho' : o.kind ≠ .unlock) : Neutral o := by
  cases o <;> first | exact absurd rfl ho | exact absurd rfl ho' | trivial

theorem Neutral.change {e : TaskEvent} (he : Neutral e.1) (f : Family) (h : List TaskEvent) :
    change M v id f e h = 0 := by
  obtain ⟨o,r⟩ := e
  cases o with
  | storageUpdate site u k payload =>
    cases site with
    | list => exact absurd rfl he
    | _ => rfl
  | _ => rfl

theorem Neutral.made {e : TaskEvent} (he : Neutral e.1) (f : Family) (h : List TaskEvent) :
    made M v id f (e :: h) = made M v id f h := by
  simp only [EntryTraces.made,spent,he.change,add_zero]

theorem Neutral.indexed {e : TaskEvent} (he : Neutral e.1) (h : List TaskEvent) :
    indexed v id (e :: h) = indexed v id h := by
  have hno : indexes v id e = false := by
    obtain ⟨o,r⟩ := e
    cases o with
    | unlock s => cases s <;> first | rfl | exact he.elim
    | _ => rfl
  simp [EntryTraces.indexed,hno]

theorem Neutral.balance {e : TaskEvent} (he : Neutral e.1) (hb : Balance M v id n a b h) :
    Balance M v id n a b (e :: h) := fun hs => by
  rw [he.indexed,he.made,he.made]
  exact hb hs.2

theorem Neutral.even {e : TaskEvent} (he : Neutral e.1) (hev : Even M v id h) : Even M v id (e :: h) :=
  (he.balance hev.balance).even

theorem Neutral.accounted {e : TaskEvent} (he : Neutral e.1) (hab : Balance M v id n a b h)
    (hle : b ≤ a) (hev : held (e :: h) = false → Even M v id (e :: h)) : Accounted M v id q (e :: h) := by
  refine ⟨hev,?_⟩
  obtain ⟨o,r⟩ := e
  cases o with
  | storageUpdate site u k payload =>
    cases site with
    | list => exact absurd rfl he
    | _ => trivial
  | storageRead u k =>
    intro hs _ hlt
    obtain ⟨-,hp,hst⟩ := hab hs
    omega
  | _ => trivial

/-- What a program does between the critical sections. -/
def Keeps (M : Prost) (v id : String) (q : Request) {α : Type} (p : Service α) : Prop :=
  ∀ h, Even M v id h → p.Traced (Accounted M v id q) h fun _ => Even M v id

theorem keeps_of_all {p : Service α} (hp : p.All Neutral) : Keeps M v id q p := fun _ =>
  Prog.Traced.of_all hp fun o ho r _ hev =>
    ⟨Neutral.accounted (e := ⟨o,r⟩) ho hev.balance le_rfl fun _ => Neutral.even (e := ⟨o,r⟩) ho hev,
      Neutral.even (e := ⟨o,r⟩) ho hev⟩

theorem Keeps.bind {p : Service α} {g : α → Service β} (hp : Keeps M v id q p)
    (hg : ∀ a, Keeps M v id q (g a)) : Keeps M v id q (p >>= g) := fun h hev =>
  Prog.Traced.bind ((hp h hev).mono fun r h' hev' => by
    cases r with
    | ok a => exact hg a h' hev'
    | error e => exact hev')

theorem Keeps.attempt {p : Service α} (hp : Keeps M v id q p) : Keeps M v id q p.attempt := fun h hev =>
  Prog.Traced.attempt (hp h hev)

theorem keeps_ofExcept (r : Except Abort α) : Keeps M v id q (Prog.ofExcept r : Service α) := fun _ hev =>
  Prog.Traced.ofExcept hev

theorem closed_keeps : Prog.Closed fun _ (p : Service _) => Keeps M v id q p where
  ret _ _ hev := hev
  fail _ _ hev := hev
  bind := Keeps.bind
  bracket ha hr hb := ha.bind fun _ => hb.attempt.bind fun r => hr.bind fun _ => keeps_ofExcept r

theorem not_free (hheld : held h) : held h ≠ false := by
  rw [hheld]
  decide

theorem step_of_inner {e : TaskEvent} (he : Inner e.1) (hle : b ≤ a) (hheld : held h)
    (hb : Balance M v id n a b h) :
    Accounted M v id q (e :: h) ∧ held (e :: h) ∧ Balance M v id n a b (e :: h) := by
  have hheld' : held (e :: h) := he.held.trans hheld
  exact ⟨he.neutral.accounted hb hle fun hno => absurd hno (not_free hheld'),hheld',he.neutral.balance hb⟩

theorem not_steady_of_update {site : Site} {k : String} {e : UpdateError} {payload : Bytes} :
    ¬ Steady M v id (⟨.storageUpdate site u k payload,.error e⟩ :: h) := fun hs => by
  obtain ⟨⟨keyPath,hk⟩,-⟩ := hs.1
  cases hk

/-- The entries of the task in question among those of this one. -/
def part (v id u : String) (task : Task) : ℤ := if u = v ∧ task.taskId = id then 1 else 0

theorem change_list (f g : Family) {payload : Bytes} {r : Except UpdateError String} :
    change M v id f ⟨.storageUpdate .list u ("_internal:" ++ listIn u task g) payload,r⟩ h =
      if u = v ∧ f = g then (copies M id payload : ℤ) -
        ((knows u ("_internal:" ++ listIn u task g) h).map (copies M id)).getD 0 else 0 := by
  simp only [change,concerns_listIn,decide_eq_true_eq]

theorem change_remove {g : Family} {payload : Bytes} {list : CoLinkInternalTaskIdList} {index : ℕ}
    (hd : M.taskIdList.decode payload = some list)
    (hi : list.taskIdsWithKeyPaths.findIdx? (·.taskId = task.taskId) = some index) (f : Family)
    (r : Except UpdateError String) :
    change M v id f ⟨.storageUpdate .list u ("_internal:" ++ listIn u task g)
      (M.taskIdList.encode ⟨list.taskIdsWithKeyPaths.eraseIdx index⟩),r⟩
      (⟨.storageRead u ("_internal:" ++ listIn u task g),.ok payload⟩ :: h) =
      if f = g then -part v id u task else 0 := by
  obtain ⟨hlt,hfound,-⟩ := List.findIdx?_eq_some_iff_getElem.mp hi
  have hbefore : copies M id payload = list.taskIdsWithKeyPaths.countP (·.taskId = id) := by
    simp [copies,hd]
  have hcount := countP_eraseIdx_add (p := fun e => decide (e.taskId = id)) hlt
  rw [of_decide_eq_true hfound] at hcount
  rw [change_list,knows_read,Option.map_some,Option.getD_some,hbefore,copies_encode,part]
  by_cases hf : f = g <;> by_cases hu : u = v <;> by_cases hid : task.taskId = id <;>
    simp [hf,hu,hid] at hcount ⊢ <;> omega

theorem change_append {g : Family} {list : List CoLinkInternalTaskIdWithKeyPath} {keyPath : String}
    (hlist : list.countP (·.taskId = id) =
      ((knows u ("_internal:" ++ listIn u task g) h).map (copies M id)).getD 0) (f : Family)
    (r : Except UpdateError String) :
    change M v id f ⟨.storageUpdate .list u ("_internal:" ++ listIn u task g)
      (M.taskIdList.encode ⟨list ++ [⟨keyPath,task.taskId⟩]⟩),r⟩ h =
      if f = g then part v id u task else 0 := by
  rw [change_list,← hlist,copies_encode,part,List.countP_append,List.countP_singleton]
  by_cases hf : f = g <;> by_cases hu : u = v <;> by_cases hid : task.taskId = id <;>
    simp [hf,hu,hid]

theorem held_lists {o : Op} {r : Res o} (ho : OnLists M u task o) (hh : held h) : held (⟨o,r⟩ :: h) := by
  have ha : ∀ e ∈ [(⟨o,r⟩ : TaskEvent)], OnLists M u task e.1 := fun e he => by
    obtain rfl := List.mem_singleton.mp he
    exact ho
  exact (OnLists.held ha).trans hh

/-- The task leaves one of its lists, or is not found there. -/
theorem traced_removeTaskFromList {g : Family} (hheld : held h)
    (hread : Steady M v id h → (Entry.mk v .status id).concerns u ("_internal:" ++ listIn u task g) →
      made M v id .protocol h < made M v id .status h →
      Removes M id q u ("_internal:" ++ listIn u task g) h) :
    (TaskService.removeTaskFromListInStorage M u task (listIn u task g)).Traced (Accounted M v id q) h
      (Prog.Ends (fun _ h' => held h' ∧ indexed v id h' = indexed v id h ∧
          (∀ f, made M v id f h' = made M v id f h - if f = g then part v id u task else 0) ∧
          ∃ payload r r', h' = ⟨.storageUpdate .list u ("_internal:" ++ listIn u task g) payload,r⟩ ::
            ⟨.storageRead u ("_internal:" ++ listIn u task g),r'⟩ :: h)
        (fun h' => held h' ∧ (¬ Steady M v id h' ∨
          ∃ r, h' = ⟨.storageRead u ("_internal:" ++ listIn u task g),r⟩ :: h ∧
            ∀ payload, r = .ok payload → copies M task.taskId payload = 0))) := by
  have hk := listOf_listIn u task g
  intro r
  have hheld₁ : held (⟨.storageRead u ("_internal:" ++ listIn u task g),r⟩ :: h) :=
    held_lists (M := M) ⟨rfl,hk⟩ hheld
  refine ⟨⟨fun hno => absurd hno (not_free hheld₁),hread⟩,?_⟩
  cases r with
  | error e => exact ⟨hheld₁,.inr ⟨.error e,rfl,fun payload hp => by cases hp⟩⟩
  | ok payload =>
    show (unwrap (M.taskIdList.decode payload) >>= _).Traced _ _ _
    cases hd : M.taskIdList.decode payload with
    | none =>
      refine ⟨hheld₁,.inr ⟨_,rfl,fun payload' hp => ?_⟩⟩
      obtain rfl := Except.ok.inj hp
      simp [copies,hd]
    | some list =>
      show ((.ret list : Service _) >>= _).Traced _ _ _
      rw [Prog.ret_bind]
      cases hi : list.taskIdsWithKeyPaths.findIdx? fun e => e.taskId = task.taskId with
      | none =>
        refine ⟨hheld₁,.inr ⟨_,rfl,fun payload' hp => ?_⟩⟩
        obtain rfl := Except.ok.inj hp
        simp only [copies,hd,Option.map_some,Option.getD_some]
        exact List.countP_eq_zero.mpr fun e he => by simpa using List.findIdx?_eq_none_iff.mp hi e he
      | some index =>
        intro r
        have hheld₂ : held (⟨.storageUpdate .list u ("_internal:" ++ listIn u task g)
            (M.taskIdList.encode ⟨list.taskIdsWithKeyPaths.eraseIdx index⟩),r⟩ ::
            ⟨.storageRead u ("_internal:" ++ listIn u task g),.ok payload⟩ :: h) :=
          held_lists ⟨rfl,hk,_,rfl⟩ hheld₁
        refine ⟨⟨fun hno => absurd hno (not_free hheld₂),.inl ?_⟩,?_⟩
        · rw [knows_read]
          exact Option.some_ne_none _
        · cases r with
          | error e => exact ⟨hheld₂,.inl not_steady_of_update⟩
          | ok keyPath =>
            refine ⟨hheld₂,rfl,fun f => ?_,_,_,_,rfl⟩
            have hchange : change M v id f ⟨.storageUpdate .list u ("_internal:" ++ listIn u task g)
                (M.taskIdList.encode ⟨list.taskIdsWithKeyPaths.eraseIdx index⟩),.ok keyPath⟩
                (⟨.storageRead u ("_internal:" ++ listIn u task g),.ok payload⟩ :: h) =
                if f = g then -part v id u task else 0 := change_remove hd hi f _
            have hsum : made M v id f (⟨.storageUpdate .list u ("_internal:" ++ listIn u task g)
                (M.taskIdList.encode ⟨list.taskIdsWithKeyPaths.eraseIdx index⟩),.ok keyPath⟩ ::
                ⟨.storageRead u ("_internal:" ++ listIn u task g),.ok payload⟩ :: h) =
                made M v id f h + 0 + if f = g then -part v id u task else 0 := by
              rw [← hchange]
              rfl
            rw [hsum]
            split_ifs <;> omega

/-- The task leaves both its lists. If it is found in the one and not in the other, then something has
gone wrong. -/
theorem traced_removeTaskOldStatus {id' : String} {payload : Bytes} (hheld : held h)
    (hb : Balance M v id n n n h) (hread : ⟨.storageRead u (recordKey id'),.ok payload⟩ ∈ h)
    (hknows : knows u (recordKey id') h = some payload) (hd : M.task.decode payload = some task)
    (hi : Indexes M q u task h) :
    (TaskService.removeTaskOldStatus M u task).Traced (Accounted M v id q) h
      (Prog.Ends (fun _ h' => held h' ∧
          Balance M v id n (n - part v id u task) (n - part v id u task) h' ∧
          ∃ k payload r past, h' = ⟨.storageUpdate .list u k payload,r⟩ :: past ∧ h <:+ past)
        (fun h' => held h' ∧ Even M v id h')) := by
  have hstatus {k : String} (hx : (Entry.mk v .status id).concerns u k) : u = v := (of_decide_eq_true hx).1
  refine Prog.Traced.seqEnds (P := fun _ h₁ => held h₁ ∧
      Balance M v id n (n - part v id u task) n h₁ ∧ ∃ payload r r',
        h₁ = ⟨.storageUpdate .list u ("_internal:" ++ listIn u task .protocol) payload,r⟩ ::
          ⟨.storageRead u ("_internal:" ++ listIn u task .protocol),r'⟩ :: h)
    ((traced_removeTaskFromList (g := .protocol) hheld fun _ hx => ?_).mono fun r h₁ hr => ?_)
    fun _ h₁ hh => ?_
  · rw [concerns_listIn] at hx
    exact absurd (of_decide_eq_true hx).2 nofun
  · cases r with
    | error e =>
      refine ⟨hr.1,?_⟩
      rcases hr.2 with hs | ⟨r,rfl,-⟩
      · exact fun hs' => absurd hs' hs
      · exact (Neutral.balance (e := ⟨.storageRead u _,r⟩) trivial hb).even
    | ok w =>
      obtain ⟨hheld₁,hindexed,hmade,hadded⟩ := hr
      refine ⟨hheld₁,fun hs => ?_,hadded⟩
      obtain ⟨payload',r,r',rfl⟩ := hadded
      obtain ⟨hn,hp,hst⟩ := hb hs.2.2
      have hp' := hmade .protocol
      have hst' := hmade .status
      simp only [if_true,reduceCtorEq,if_false,sub_zero] at hp' hst'
      exact ⟨hindexed.trans hn,by rw [hp',hp],by rw [hst',hst]⟩
  · obtain ⟨hheld₁,hb₁,payload',r,r',rfl⟩ := hh
    refine (traced_removeTaskFromList (g := .status) hheld₁ fun hs hx hlt => ?_).mono fun w h₂ hr => ?_
    · obtain ⟨-,hp,hst⟩ := hb₁ hs
      have hpart : part v id u task ≠ 0 := by omega
      have hid : task.taskId = id := by
        by_contra hne
        exact hpart (if_neg fun hh => hne hh.2)
      refine ⟨task,id',payload,hid,rfl,?_,?_,hd,hi.mono ((List.suffix_cons _ _).trans (List.suffix_cons _ _))⟩
      · exact List.mem_cons_of_mem _ (List.mem_cons_of_mem _ hread)
      · rw [← hknows]
        have hne : recordKey id' ≠ "_internal:" ++ listIn u task .protocol := by
          simp only [listIn,TaskService.protocolListKey,String.append_assoc]
          exact recordKey_ne_protocolList id' _
        show knows u (recordKey id') ([_,_] ++ h) = _
        exact knows_append (fun e he => by
          simp only [List.mem_cons,List.not_mem_nil,or_false] at he
          rcases he with rfl | rfl
          · exact fun hh => hne hh.2.symm
          · exact fun hh => hne hh.2.symm) h
    · cases w with
      | ok w =>
        obtain ⟨hheld₂,hindexed,hmade,payload₂,r₂,r₂',rfl⟩ := hr
        refine ⟨hheld₂,fun hs => ?_,_,_,_,_,rfl,List.suffix_append [_,_,_] h⟩
        obtain ⟨hn,hp,hst⟩ := hb₁ hs.2.2
        have hp' := hmade .protocol
        have hst' := hmade .status
        simp only [if_true,reduceCtorEq,if_false,sub_zero] at hp' hst'
        exact ⟨hindexed.trans hn,by rw [hp',hp],by rw [hst',hst]⟩
      | error e =>
        refine ⟨hr.1,fun hs => ?_⟩
        rcases hr.2 with hno | ⟨w,rfl,hnone⟩
        · exact absurd hs hno
        · obtain ⟨hn,hp,hst⟩ := hb₁ hs.2
          by_cases hpart : u = v ∧ task.taskId = id
          · obtain ⟨rfl,rfl⟩ := hpart
            rw [part,if_pos ⟨rfl,rfl⟩] at hp
            obtain ⟨payload₂,rfl,hone⟩ := hs.1.2.2 (by
              rw [concerns_listIn]
              exact decide_eq_true ⟨rfl,rfl⟩) (by omega)
            have hzero := hnone payload₂ rfl
            omega
          · rw [part,if_neg hpart] at hp
            have hneutral : Neutral (⟨.storageRead u ("_internal:" ++ listIn u task .status),w⟩ :
              TaskEvent).1 := trivial
            rw [hneutral.made,hneutral.made,hneutral.indexed]
            omega

/-- The task is added to the list as it is known. -/
theorem traced_append {g : Family} {list : List CoLinkInternalTaskIdWithKeyPath} {keyPath : String}
    (hheld : held h) (hb : Balance M v id n a b h)
    (hseen : knows u ("_internal:" ++ listIn u task g) h ≠ none ∨
      h.head? = some ⟨.storageContains u ("_internal:" ++ listIn u task g),false⟩)
    (hlist : Steady M v id h → list.countP (·.taskId = id) =
      ((knows u ("_internal:" ++ listIn u task g) h).map (copies M id)).getD 0) :
    (TaskService.storeTaskIdList M u (listIn u task g) ⟨list ++ [⟨keyPath,task.taskId⟩]⟩).Traced
      (Accounted M v id q) h (Prog.Ends (fun _ h' => held h' ∧ Balance M v id n
          (a + if Family.protocol = g then part v id u task else 0)
          (b + if Family.status = g then part v id u task else 0) h')
        (fun h' => held h' ∧ ¬ Steady M v id h')) := by
  intro r
  have hheld' : held (⟨.storageUpdate .list u ("_internal:" ++ listIn u task g)
      (M.taskIdList.encode ⟨list ++ [⟨keyPath,task.taskId⟩]⟩),r⟩ :: h) :=
    held_lists (M := M) ⟨rfl,listOf_listIn u task g,_,rfl⟩ hheld
  refine ⟨⟨fun hno => absurd hno (not_free hheld'),hseen⟩,?_⟩
  cases r with
  | error e => exact ⟨hheld',not_steady_of_update⟩
  | ok keyPath' =>
    refine ⟨hheld',fun hs => ?_⟩
    obtain ⟨hn,hp,hst⟩ := hb hs.2
    have hmade (f : Family) : made M v id f (⟨.storageUpdate .list u ("_internal:" ++ listIn u task g)
        (M.taskIdList.encode ⟨list ++ [⟨keyPath,task.taskId⟩]⟩),.ok keyPath'⟩ :: h) =
        made M v id f h + if f = g then part v id u task else 0 := by
      rw [← change_append (hlist hs.2) f (.ok keyPath')]
      rfl
    exact ⟨hn,by rw [hmade,hp],by rw [hmade,hst]⟩

/-- The task is entered in one of its lists, unless something goes wrong. -/
theorem traced_addTaskToList {g : Family} (hstatus : task.status ∈ statuses) (hle : b ≤ a)
    (hheld : held h) (hb : Balance M v id n a b h) :
    (TaskService.addTaskToListInStorage M u task (listIn u task g)).Traced (Accounted M v id q) h
      (Prog.Ends (fun _ h' => held h' ∧ Balance M v id n
          (a + if Family.protocol = g then part v id u task else 0)
          (b + if Family.status = g then part v id u task else 0) h')
        (fun h' => held h' ∧ ¬ Steady M v id h')) := by
  have hk := listOf_listIn u task g
  intro r
  have hlatest : Inner (.storageUpdate .latest u ("_internal:" ++ (listIn u task g ++ ":latest"))
      (M.task.encode { taskId := task.taskId })) := fun hno => by cases hno
  obtain ⟨hacc,hheld₁,hb₁⟩ := step_of_inner (e := ⟨_,r⟩) hlatest hle hheld hb
  refine ⟨hacc,?_⟩
  cases r with
  | error e => exact ⟨hheld₁,not_steady_of_update⟩
  | ok keyPath =>
    intro present
    obtain ⟨hacc,hheld₂,hb₂⟩ := step_of_inner (q := q) (e := ⟨.storageContains u
      ("_internal:" ++ listIn u task g),present⟩) trivial hle hheld₁ hb₁
    refine ⟨hacc,?_⟩
    cases present with
    | false =>
      refine traced_append hheld₂ hb₂ (.inr rfl) fun hs => ?_
      have hnone : knows u ("_internal:" ++ listIn u task g) (⟨.storageContains u ("_internal:" ++
          listIn u task g),false⟩ :: ⟨.storageUpdate .latest u ("_internal:" ++ (listIn u task g ++
          ":latest")) (M.task.encode { taskId := task.taskId }),.ok keyPath⟩ :: h) = none :=
        hs.1 task hk hstatus ⟨_,_,_,_,List.mem_cons_self ..⟩ rfl
      rw [hnone]
      rfl
    | true =>
      intro r
      obtain ⟨hacc,hheld₃,hb₃⟩ := step_of_inner (q := q) (e := ⟨.storageRead u
        ("_internal:" ++ listIn u task g),r⟩) trivial hle hheld₂ hb₂
      refine ⟨hacc,?_⟩
      have hread (hs : Steady M v id (⟨.storageRead u ("_internal:" ++ listIn u task g),r⟩ ::
          ⟨.storageContains u ("_internal:" ++ listIn u task g),true⟩ ::
          ⟨.storageUpdate .latest u ("_internal:" ++ (listIn u task g ++ ":latest"))
            (M.task.encode { taskId := task.taskId }),.ok keyPath⟩ :: h)) :
          ∃ list, r = .ok (M.taskIdList.encode list) :=
        hs.1.2.1 task hk hstatus ⟨_,_,_,_,List.mem_cons_of_mem _ (List.mem_cons_self ..)⟩
          (List.mem_cons_self ..)
      cases r with
      | error e => exact ⟨hheld₃,fun hs => by obtain ⟨list,hl⟩ := hread hs; cases hl⟩
      | ok payload =>
        show ((unwrap (M.taskIdList.decode payload) : Service CoLinkInternalTaskIdList) >>= fun list =>
          TaskService.storeTaskIdList M u (listIn u task g)
            ⟨list.taskIdsWithKeyPaths ++ [⟨keyPath,task.taskId⟩]⟩).Traced _ _ _
        cases hd : M.taskIdList.decode payload with
        | none =>
          refine ⟨hheld₃,fun hs => ?_⟩
          obtain ⟨list,hl⟩ := hread hs
          rw [Except.ok.inj hl,M.taskIdList.decode_encode] at hd
          cases hd
        | some list =>
          refine traced_append hheld₃ hb₃ (.inl ?_) fun _ => ?_
          · rw [knows_read]
            exact Option.some_ne_none _
          · rw [knows_read]
            simp [copies,hd]

theorem traced_addTaskNewStatus (hstatus : task.status ∈ statuses) (hheld : held h)
    (hb : Balance M v id n a a h) :
    (TaskService.addTaskNewStatus M u task).Traced (Accounted M v id q) h
      (Prog.Ends (fun _ h' => held h' ∧ Balance M v id n (a + part v id u task) (a + part v id u task) h')
        (fun h' => held h' ∧ ¬ Steady M v id h')) := by
  have hpart : 0 ≤ part v id u task := by
    unfold part
    split_ifs <;> decide
  refine Prog.Traced.seqEnds (traced_addTaskToList (g := .protocol) hstatus le_rfl hheld hb)
    fun _ h₁ hh => ?_
  simp only [if_true,reduceCtorEq,if_false,add_zero] at hh
  refine (traced_addTaskToList (g := .status) hstatus (by omega) hh.1 hh.2).mono fun r h₂ hr => ?_
  cases r with
  | error e => exact hr
  | ok w => simpa only [Prog.Ends,if_true,reduceCtorEq,if_false,add_zero] using hr

theorem traced_storeTask {site : Site} (hs : site ≠ .list) (task : Task) (hheld : held h)
    (hb : Balance M v id n a a h) :
    (TaskService.storeTask M site u task).Traced (Accounted M v id q) h
      (Prog.Ends (fun _ h' => held h' ∧ Balance M v id n a a h')
        (fun h' => held h' ∧ ¬ Steady M v id h')) := by
  have hinner : Inner (.storageUpdate site u (recordKey task.taskId) (M.task.encode task)) := by
    cases site <;> first | exact absurd rfl hs | exact hs
  intro r
  obtain ⟨hacc,hheld',hb'⟩ := step_of_inner (e := ⟨_,r⟩) hinner le_rfl hheld hb
  refine ⟨hacc,?_⟩
  cases r with
  | error e => exact ⟨hheld',not_steady_of_update⟩
  | ok k => exact ⟨hheld',hb'⟩

theorem traced_enter (site : Site) (task' : Task) (hs : site ≠ .list) (hid : task'.taskId = task.taskId)
    (hstatus : task'.status ∈ statuses) (hheld : held h)
    (hb : Balance M v id n (n - part v id u task) (n - part v id u task) h) :
    (TaskService.storeTask M site u task' >>= fun _ => TaskService.addTaskNewStatus M u task').Traced
      (Accounted M v id q) h (Prog.Ends (fun _ h' => held h' ∧ Even M v id h')
        (fun h' => held h' ∧ Even M v id h')) := by
  have hpart : part v id u task' = part v id u task := by simp only [part,hid]
  refine ((traced_storeTask hs task' hheld hb).seqEnds fun _ h₁ hh =>
    traced_addTaskNewStatus hstatus hh.1 hh.2).mono fun r h' hr => ?_
  cases r with
  | ok w =>
    obtain ⟨hheld',hb'⟩ := hr
    rw [hpart,sub_add_cancel] at hb'
    exact ⟨hheld',hb'.even⟩
  | error e => exact ⟨hr.1,fun hs => absurd hs hr.2⟩

theorem Steady.suffix (hs : Steady M v id h') (hh : h <:+ h') : Steady M v id h := by
  induction h' with
  | nil => rwa [List.suffix_nil.mp hh]
  | cons e h' ih =>
    rcases List.suffix_cons_iff.mp hh with rfl | hh
    · exact hs
    · exact ih hs.2 hh

/-- The decision is made, and there is room for it, unless something goes wrong. -/
theorem traced_enterDecision (d : Decision) (task : Task) (hheld : held h) (hb : Balance M v id n a a h)
    (hample : Steady M v id h → Ample task) :
    (TaskService.enterDecision d u task).Traced (Accounted M v id q) h
      (Prog.Ends (fun task' h' => task'.taskId = task.taskId ∧ held h' ∧ Balance M v id n a a h')
        (fun h' => held h' ∧ ¬ Steady M v id h')) := by
  refine (Prog.Traced.foldlMEnds (J := fun task' h' => task'.taskId = task.taskId ∧
    task'.decisions.length = task.decisions.length ∧ held h' ∧ Balance M v id n a a h' ∧ h <:+ h')
    (E := fun h' => held h' ∧ ¬ Steady M v id h') (fun x hx task' h' hj => ?_)
    ⟨rfl,rfl,hheld,hb,List.suffix_rfl⟩).mono fun r h' hr => ?_
  · obtain ⟨p,i⟩ := x
    obtain ⟨hid,hlen,hheld',hb',hh⟩ := hj
    dsimp only
    split_ifs with hp
    · intro r
      obtain ⟨hacc,hheld₁,hb₁⟩ := step_of_inner (q := q) (e := ⟨.storageRead u consentKey,r⟩) trivial le_rfl
        hheld' hb'
      refine ⟨hacc,?_⟩
      cases r with
      | error e =>
        refine ⟨hheld₁,fun hs => ?_⟩
        obtain ⟨payload,hp⟩ := hs.1.1 rfl
        cases hp
      | ok payload =>
        intro r
        obtain ⟨hacc,hheld₂,hb₂⟩ := step_of_inner (q := q) (e := ⟨.makeDecision d.isApproved d.isRejected
          d.reason u task' payload,r⟩) trivial le_rfl hheld₁ hb₁
        refine ⟨hacc,?_⟩
        cases r with
        | error e =>
          refine ⟨hheld₂,fun hs => ?_⟩
          obtain ⟨d,hd⟩ := hs.1
          cases hd
        | ok decision =>
          have hmore : h <:+ ⟨.makeDecision d.isApproved d.isRejected d.reason u task' payload,
              .ok decision⟩ :: ⟨.storageRead u consentKey,.ok payload⟩ :: h' :=
            hh.trans ((List.suffix_cons _ _).trans (List.suffix_cons _ _))
          show (TaskService.setDecision task' i decision).Traced _ _ _
          unfold TaskService.setDecision
          split_ifs with hi
          · exact ⟨hid,by simp [hlen],hheld₂,hb₂,hmore⟩
          · refine ⟨hheld₂,fun hs => hi ?_⟩
            have hlt := List.snd_lt_of_mem_zipIdx hx
            have hroom : task.participants.length ≤ task.decisions.length := hample (hs.suffix hmore)
            omega
    · exact ⟨hid,hlen,hheld',hb',hh⟩
  · cases r with
    | ok task' => exact ⟨hr.1,hr.2.2.1,hr.2.2.2.1⟩
    | error e => exact hr

theorem lock_accounted (s : Section) (hb : Balance M v id n a b h) (hle : b ≤ a) :
    Accounted M v id q (⟨.lock s,()⟩ :: h) :=
  Neutral.accounted (e := ⟨.lock s,()⟩) trivial hb hle fun hno => by cases hno

theorem traced_locked {s : Section} {body : Service α} (hs : Neutral (.unlock s)) (hev : Even M v id h)
    (hb : Even M v id (⟨.lock s,()⟩ :: h) →
      body.Traced (Accounted M v id q) (⟨.lock s,()⟩ :: h) fun _ => Even M v id) :
    (TaskService.locked s body).Traced (Accounted M v id q) h fun _ => Even M v id := by
  refine Prog.Traced.bind fun w => ⟨lock_accounted s hev.balance le_rfl,?_⟩
  have hev₁ : Even M v id (⟨.lock s,w⟩ :: h) := Neutral.even (e := ⟨.lock s,w⟩) trivial hev
  refine Prog.Traced.bind (Prog.Traced.attempt ((hb hev₁).mono fun r h' hev' => ?_))
  have hev₂ : Even M v id (⟨.unlock s,()⟩ :: h') := Neutral.even (e := ⟨.unlock s,()⟩) hs hev'
  exact Prog.Traced.bind fun _ =>
    ⟨Neutral.accounted (e := ⟨.unlock s,()⟩) hs hev'.balance le_rfl fun _ => hev₂,
      Prog.Traced.ofExcept hev₂⟩

theorem keeps_locked {s : Section} {body : Service α} (hs : Neutral (.unlock s))
    (hb : ∀ h, held h → Even M v id h → body.Traced (Accounted M v id q) h fun _ => Even M v id) :
    Keeps M v id q (TaskService.locked s body) := fun _ hev => traced_locked hs hev (hb _ rfl)

/-- A new task is entered in its lists. -/
theorem keeps_indexTask (hstatus : task.status ∈ statuses) :
    Keeps M v id q (TaskService.indexTask M u task) := by
  intro h hev
  refine Prog.Traced.bind fun w => ⟨lock_accounted _ hev.balance le_rfl,?_⟩
  have hlock : Neutral (⟨.lock (.index u task.taskId),w⟩ : TaskEvent).1 := trivial
  refine Prog.Traced.bind (Prog.Traced.attempt ((traced_addTaskNewStatus hstatus rfl
    (hlock.balance hev.balance)).mono fun r h' hr => ?_))
  have hev' : Even M v id (⟨.unlock (.index u task.taskId),()⟩ :: h') := fun hs => by
    cases r with
    | error e => exact absurd hs.2 hr.2
    | ok w =>
      obtain ⟨hn,hp,hst⟩ := hr.2 hs.2
      have hmade (f : Family) : made M v id f (⟨.unlock (.index u task.taskId),()⟩ :: h') =
          made M v id f h' := add_zero _
      have hindexed : indexed v id (⟨.unlock (.index u task.taskId),()⟩ :: h') =
          indexed v id h' + part v id u task := by
        simp only [indexed,List.countP_cons,indexes,part,decide_eq_true_eq]
        split_ifs <;> simp
      rw [hmade,hmade,hindexed,hn,hp,hst]
      exact ⟨rfl,rfl⟩
  exact Prog.Traced.bind fun _ => ⟨⟨fun _ => hev',trivial⟩,Prog.Traced.ofExcept hev'⟩

theorem traced_readRecord {id' : String} {g : Task → Service α} (hheld : held h) (hev : Even M v id h)
    (hg : ∀ payload task, M.task.decode payload = some task →
      held (⟨.storageRead u (recordKey id'),.ok payload⟩ :: h) →
      Even M v id (⟨.storageRead u (recordKey id'),.ok payload⟩ :: h) →
      (g task).Traced (Accounted M v id q) (⟨.storageRead u (recordKey id'),.ok payload⟩ :: h)
        fun _ => Even M v id) :
    (TaskService.readTask M u id' >>= g).Traced (Accounted M v id q) h fun _ => Even M v id := by
  intro r
  have hneutral : Neutral (⟨.storageRead u (recordKey id'),r⟩ : TaskEvent).1 := trivial
  have hev₁ := hneutral.even hev
  have hheld₁ : held (⟨.storageRead u (recordKey id'),r⟩ :: h) := hheld
  refine ⟨hneutral.accounted hev.balance le_rfl fun _ => hev₁,?_⟩
  cases r with
  | error e => exact hev₁
  | ok payload =>
    show ((unwrap (M.task.decode payload) : Service Task) >>= g).Traced _ _ _
    cases hd : M.task.decode payload with
    | none => exact hev₁
    | some task => exact hg payload task hd hheld₁ hev₁

theorem traced_require {c : Bool} {e : Abort} {g : Unit → Service α} (hev : Even M v id h)
    (hg : c = true → (g ()).Traced (Accounted M v id q) h fun _ => Even M v id) :
    (require c e >>= g).Traced (Accounted M v id q) h fun _ => Even M v id := by
  cases c with
  | false => exact hev
  | true => exact hg rfl

theorem traced_moving {id' : String} {payload : Bytes} {g : Unit → Service α} (hheld : held h)
    (hev : Even M v id h) (hread : ⟨.storageRead u (recordKey id'),.ok payload⟩ ∈ h)
    (hknows : knows u (recordKey id') h = some payload) (hd : M.task.decode payload = some task)
    (hi : Indexes M q u task h)
    (hg : ∀ n h', held h' → Balance M v id n (n - part v id u task) (n - part v id u task) h' →
      (∃ k payload r past, h' = ⟨.storageUpdate .list u k payload,r⟩ :: past ∧ h <:+ past) →
      (g ()).Traced (Accounted M v id q) h' fun _ => Even M v id) :
    (TaskService.removeTaskOldStatus M u task >>= g).Traced (Accounted M v id q) h fun _ => Even M v id :=
  Prog.Traced.bind ((traced_removeTaskOldStatus hheld hev.balance hread hknows hd hi).mono
    fun r h' hr => by
      cases r with
      | ok w => exact hg _ h' hr.1 hr.2.1 hr.2.2
      | error e => exact hr.2)

theorem traced_entering (site : Site) (task' : Task) (hs : site ≠ .list) (hid : task'.taskId = task.taskId)
    (hstatus : task'.status ∈ statuses) (hheld : held h)
    (hb : Balance M v id n (n - part v id u task) (n - part v id u task) h) (g : Unit → α) :
    (TaskService.storeTask M site u task' >>= fun _ => TaskService.addTaskNewStatus M u task' >>= fun w =>
      .ret (g w) : Service α).Traced (Accounted M v id q) h fun _ => Even M v id := by
  rw [← Prog.bind_assoc]
  refine Prog.Traced.bind ((traced_enter site task' hs hid hstatus hheld hb).mono fun r h' hr => ?_)
  cases r with
  | ok w => exact hr.2
  | error e => exact hr.2

theorem neutral_checkPrivilegeIn (metadata : Metadata) (privileges : List String) :
    (TaskService.checkPrivilegeIn metadata privileges).All Neutral :=
  TaskService.all_checkPrivilegeIn fun _ => trivial

theorem neutral_generateDecision (a r : Bool) (reason : String) (task : Task) :
    (TaskService.generateDecision a r reason u task).All Neutral :=
  TaskService.all_generateDecision trivial fun _ => trivial

theorem keeps_perform {o : Op} (ho : Neutral o) : Keeps M v id q (perform o) :=
  keeps_of_all (TaskService.all_perform ho)

theorem keeps_unwrap (a : Option α) : Keeps M v id q (unwrap a) := keeps_of_all (TaskService.all_unwrap a)

theorem keeps_introduce {site : Site} (hs : site ∈ introducing) (hstatus : task.status ∈ statuses) :
    Keeps M v id q (TaskService.storeTask M site u task >>= fun _ => TaskService.indexTask M u task) :=
  (keeps_of_all (TaskService.all_storeTask (neutral_update (by
    revert hs
    cases site <;> decide)))).bind fun _ => keeps_indexTask hstatus

theorem keeps_queryFromRegistries (target : String) :
    Keeps M v id q (TaskService.queryFromRegistries M u target) := by
  refine (keeps_perform (o := .newUuid) trivial).bind fun taskId => ?_
  refine (keeps_perform (o := .utcNow) trivial).bind fun now => ?_
  refine (keeps_of_all (neutral_generateDecision _ _ _ _)).bind fun d => ?_
  exact keeps_introduce (by decide) (show "started" ∈ statuses by decide)

theorem contacts_keeps : TaskService.Contacts M u fun _ p => Keeps M v id q p where
  toClosed := closed_keeps
  ask o ho := by
    refine keeps_perform (neutral_of_kind ?_ ?_) <;> intro hk <;> rw [hk] at ho <;>
      exact absurd ho (by decide)
  query := keeps_queryFromRegistries
  contact o ho := by
    refine keeps_perform (neutral_of_kind ?_ ?_) <;> intro hk <;> rw [hk] at ho <;>
      exact absurd ho (by decide)

theorem keeps_createTask (reverse : Bool) (metadata : Metadata) (request : Task) :
    Keeps M v id q (TaskService.createTask M reverse metadata request) := by
  refine (keeps_of_all (neutral_checkPrivilegeIn _ _)).bind fun _ => ?_
  refine (keeps_unwrap _).bind fun u => ?_
  refine (keeps_perform (o := .newUuid) trivial).bind fun taskId => ?_
  refine (keeps_of_all (neutral_generateDecision _ _ _ _)).bind fun d => ?_
  have hstatus : (newTask request taskId).status ∈ statuses := newTask_status request taskId
  have hrest (task : Task) (hst : task.status ∈ statuses) : Keeps M v id q
      (TaskService.storeTask M .create u task >>= fun _ => (task.participants.drop 1).foldlM (fun _ p =>
        if reverse then TaskService.sendInterCoreSyncTaskWithReverseConnection M u p.userId task
        else TaskService.sendInterCoreSyncTask M u p.userId task) () >>= fun _ =>
        TaskService.indexTask M u task >>= fun _ => .ret ({ taskId := taskId } : Task)) := by
    have hsend (a : Unit) (p : Participant) : Keeps M v id q (if reverse then
        TaskService.sendInterCoreSyncTaskWithReverseConnection M u p.userId task
        else TaskService.sendInterCoreSyncTask M u p.userId task) := by
      split
      · exact contacts_keeps.sendWithReverseConnection p.userId task
      · exact contacts_keeps.sendInterCoreSyncTask p.userId task
    refine (keeps_of_all (TaskService.all_storeTask (neutral_update (by decide)))).bind fun _ => ?_
    refine (closed_keeps.foldlM hsend _ ()).bind fun _ => ?_
    exact (keeps_indexTask hst).bind fun _ => keeps_of_all trivial
  show Keeps M v id q (TaskService.setDecision (newTask request taskId) 0 d >>= _)
  unfold TaskService.setDecision
  split
  · exact hrest _ hstatus
  · exact closed_keeps.fail _

theorem keeps_confirmSection (d : Decision) {status id' : String}
    (hs : TaskService.userStatus d = .ret status) : Keeps M v id q (TaskService.locked .confirm do
      let task ← TaskService.readTask M u id'
      require (task.status == "waiting")
        (.internal ("Task " ++ task.taskId ++ " has already confirmed."))
      let now ← perform .utcNow
      require (decide (now ≤ task.expirationTime))
        (.internal ("Task " ++ task.taskId ++ " has expired."))
      TaskService.removeTaskOldStatus M u task
      let task ← TaskService.enterDecision d u task
      let task := { task with status := TaskService.confirmedStatus status task }
      TaskService.storeTask M .confirm u task
      TaskService.addTaskNewStatus M u task
      .ret task : Service Task) := by
  refine keeps_locked trivial fun h hheld hev =>
    traced_readRecord hheld hev fun payload task hd hheld₁ hev₁ => ?_
  refine traced_require hev₁ fun hwait => ?_
  have hwaiting : task.status = "waiting" := eq_of_beq hwait
  refine Prog.Traced.bind fun (now : ℤ) => ⟨Neutral.accounted (e := ⟨.utcNow,now⟩) trivial hev₁.balance le_rfl
    fun _ => Neutral.even (e := ⟨.utcNow,now⟩) trivial hev₁,?_⟩
  have hev₂ : Even M v id (⟨.utcNow,now⟩ :: ⟨.storageRead u (recordKey id'),.ok payload⟩ :: h) :=
    Neutral.even (e := ⟨.utcNow,now⟩) trivial hev₁
  refine traced_require hev₂ fun _ => traced_moving hheld₁ hev₂ (by simp) (if_pos ⟨rfl,rfl⟩) hd
    (.inl (by rw [hwaiting]; decide)) fun n h' hheld' hb hh => ?_
  have hample (hs : Steady M v id h') : Ample task := by
    obtain ⟨k,payload',r,past,rfl,hmore⟩ := hh
    exact hs.1.2 id' payload task (hmore.subset (by simp)) hd hwaiting
  refine Prog.Traced.bind ((traced_enterDecision d task hheld' hb hample).mono fun r h₂ hr => ?_)
  cases r with
  | error e => exact fun hs => absurd hs hr.2
  | ok task' =>
    obtain ⟨hid,hheld₂,hb₂⟩ := hr
    exact traced_entering .confirm { task' with status := TaskService.confirmedStatus status task' }
      (by decide) hid (confirmedStatus_mem hs task') hheld₂ hb₂ fun _ => _

theorem keeps_confirmTask (metadata : Metadata) (request : ConfirmTaskRequest) :
    Keeps M v id q (TaskService.confirmTask M metadata request) := by
  refine (keeps_of_all (neutral_checkPrivilegeIn _ _)).bind fun _ => ?_
  refine (keeps_unwrap _).bind fun u => ?_
  cases request.decision with
  | none => exact closed_keeps.fail _
  | some d =>
    show Keeps M v id q (TaskService.userStatus d >>= _)
    cases hs : TaskService.userStatus d with
    | fail e => exact closed_keeps.fail _
    | call o k =>
      unfold TaskService.userStatus at hs
      split_ifs at hs
      exact absurd hs (by simp [abort])
    | ret status =>
      rw [Prog.ret_bind]
      refine (keeps_confirmSection d hs).bind fun task => ?_
      split
      · exact (keeps_unwrap _).bind fun p => contacts_keeps.sendInterCoreSyncTask _ _
      · exact closed_keeps.ret ()

theorem keeps_finishTask (metadata : Metadata) (request : Task) :
    Keeps M v id q (TaskService.finishTask M metadata request) := by
  refine (keeps_of_all (neutral_checkPrivilegeIn _ _)).bind fun _ => ?_
  refine (keeps_unwrap _).bind fun u => keeps_locked trivial fun h hheld hev =>
    traced_readRecord hheld hev fun payload task hd hheld₁ hev₁ => ?_
  refine traced_require hev₁ fun hstarted => ?_
  have hst : task.status = "started" := eq_of_beq hstarted
  refine traced_moving hheld₁ hev₁ (by simp) (if_pos ⟨rfl,rfl⟩) hd (.inl (by rw [hst]; decide))
    fun n h' hheld' hb hh => ?_
  have hfin : "finished" ∈ statuses := by decide
  exact (traced_enter .finish { task with status := "finished" } (by decide) rfl hfin hheld' hb).mono
    fun r h₂ hr => by cases r <;> exact hr.2

theorem merged_mergeDecisions (request : Task) (h : List TaskEvent) :
    (TaskService.mergeDecisions M u request).Traced (fun _ => True) h (Prog.OnOk fun task h' => ∃ r,
      ⟨.storageUpdate .merge u (recordKey task.taskId) (M.task.encode task),r⟩ ∈ h') := by
  have hany {β : Type} (p : Service β) (h : List TaskEvent) :
      p.Traced (fun _ => True) h (Prog.OnOk fun _ _ => True) :=
    (Prog.Traced.of_forall (fun _ => trivial) p h).onOk
  refine Prog.Traced.bracket (A := fun _ => True) (B := fun task h' => ∃ r,
    ⟨.storageUpdate .merge u (recordKey task.taskId) (M.task.encode task),r⟩ ∈ h') (hany _ h)
    (fun h₁ _ => ?_) (fun h' w => ⟨trivial,trivial⟩) fun task h' hB w => ⟨trivial,?_⟩
  · refine (hany _ _).seq fun task h₂ _ => (hany _ _).seq fun _ h₃ _ => (hany _ _).seq fun now h₄ _ =>
      (hany _ _).seq fun _ h₅ _ => (hany _ _).seq fun task h₆ _ r => ⟨trivial,?_⟩
    cases r with
    | error e => trivial
    | ok keyPath => exact ⟨.ok keyPath,List.mem_cons_self ..⟩
  · obtain ⟨r,hm⟩ := hB
    exact ⟨r,List.mem_cons_of_mem _ hm⟩

theorem keeps_mergeDecisions (request : Task) : Keeps M v id q (TaskService.mergeDecisions M u request) := by
  refine keeps_of_all (TaskService.all_locked trivial trivial ?_)
  refine Prog.All.bind (TaskService.all_readTask trivial) fun task => ?_
  refine (TaskService.all_require _ _).bind fun _ => (TaskService.all_perform trivial).bind fun now => ?_
  refine (TaskService.all_require _ _).bind fun _ => ?_
  refine (TaskService.all_takeDecisions fun _ _ _ => trivial).bind fun task =>
    Prog.All.bind ?_ fun _ => trivial
  exact TaskService.all_storeTask (neutral_update (by decide))

theorem traced_changeStatus {request merged : Task} {r : Except UpdateError String} (rejected : Bool)
    (hq : q.call.synced = some request) (hev : Even M v id h)
    (hm : ⟨.storageUpdate .merge u (recordKey merged.taskId) (M.task.encode merged),r⟩ ∈ h) :
    (TaskService.changeStatus M u request rejected).Traced (Accounted M v id q) h fun _ => Even M v id := by
  refine traced_locked trivial hev fun hev => traced_readRecord rfl hev fun payload task hd hheld₁ hev₁ => ?_
  have hi : Indexes M q u task (⟨.storageRead u (recordKey request.taskId),.ok payload⟩ ::
      ⟨.lock .decide,()⟩ :: h) := .inr ⟨request,payload,merged,r,hq,by simp,hd,by simp [hm]⟩
  refine traced_moving hheld₁ hev₁ (by simp) (if_pos ⟨rfl,rfl⟩) hd hi fun n h' hheld' hb _ => ?_
  have hstatus : (if rejected then "rejected" else "started") ∈ statuses := by
    split_ifs <;> decide
  exact traced_entering .decide { task with status := if rejected then "rejected" else "started" }
    (by decide) rfl hstatus hheld' hb fun _ => _

theorem keeps_interCoreSyncTask {request : Task} (metadata : Metadata) (hq : q.call.synced = some request) :
    Keeps M v id q (TaskService.interCoreSyncTask M metadata request) := by
  refine (keeps_of_all (neutral_checkPrivilegeIn _ _)).bind fun _ => ?_
  refine (keeps_unwrap _).bind fun u => ?_
  cases metadata.forwardingTarget with
  | some value =>
    exact (keeps_unwrap _).bind fun target => keeps_of_all (TaskService.all_forward trivial trivial)
  | none =>
    refine (keeps_perform (o := .storageContains u _) trivial).bind fun present => ?_
    split
    · refine (keeps_unwrap _).bind fun d => (keeps_unwrap _).bind fun p => ?_
      refine (keeps_of_all (TaskService.all_checkDecision trivial)).bind fun _ => ?_
      refine (keeps_of_all (TaskService.all_require _ _)).bind fun _ => ?_
      exact keeps_introduce (by decide) (show "waiting" ∈ statuses by decide)
    · intro h hev
      refine Prog.Traced.bind (((keeps_mergeDecisions request h hev).and
        (merged_mergeDecisions (M := M) (u := u) request h)).mono fun r h₁ hr => ?_)
      obtain ⟨hev₁,hr⟩ := hr
      cases r with
      | error e => exact hev₁
      | ok task =>
        obtain ⟨r,hm⟩ := hr
        dsimp only
        split_ifs
        · exact hev₁
        · refine Prog.Traced.bind ((traced_changeStatus _ hq hev₁ hm).mono fun r h₂ hev₂ => ?_)
          cases r with
          | ok task => exact contacts_keeps.broadcast task h₂ hev₂
          | error e => exact hev₂
        · exact hev₁

theorem accounted_serve (D : Deployment) (v id : String) (q : Request) :
    (D.serve q).Traced (Accounted D.prost v id q) [] fun _ _ => True := by
  have hhandle : Keeps D.prost v id q (D.handle q) := by
    unfold Deployment.handle
    cases hq : q.call with
    | createTask task => exact (keeps_createTask _ _ _).bind fun _ => closed_keeps.ret ()
    | confirmTask request => exact keeps_confirmTask _ _
    | finishTask task => exact keeps_finishTask _ _
    | interCoreSyncTask task => exact keeps_interCoreSyncTask _ (by rw [hq]; rfl)
    | interCoreSyncTaskWithReverseConnection task =>
      refine (keeps_unwrap _).bind fun u => (keeps_unwrap _).bind fun receiver => ?_
      exact (keeps_interCoreSyncTask _ (by rw [hq]; rfl)).bind
        fun _ => keeps_perform (o := .sendersInsert u receiver.userId) trivial
  refine ((hhandle.attempt.bind fun r => (keeps_perform (o := .reply r) trivial).bind fun _ =>
    keeps_ofExcept r) [] fun _ => ⟨rfl,rfl⟩).mono fun _ _ _ => trivial

end EntryTraces
end CoLinkServer
