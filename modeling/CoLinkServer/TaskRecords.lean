import CoLinkServer.HandlerTraces

/-! What is stored, read off the record of a run. A value that is read has been written
before, and what the holder of a mutex has read or written is what is stored as long as
everybody else writes only under the mutex, or only where nothing is stored yet. -/
namespace CoLinkServer

open Interleaving

abbrev TaskAction : Type := Action Op Res Request

abbrev TaskConfig : Type := Config Op Res Abort Request Unit World

namespace TaskRecords

open TaskTraces

/-- The last value that has been written under a key name of a user on core `i`. -/
def stored (i : ℕ) (u k : String) : List TaskAction → Option Bytes
  | [] => none
  | .op _ q (.storageUpdate _ u' k' payload) _ :: h =>
    if q.core = i ∧ u' = u ∧ k' = k then some payload else stored i u k h
  | _ :: h => stored i u k h

variable {D : Deployment} {c : TaskConfig} {i t : ℕ} {q : Request} {u k : String}
  {h : List TaskAction}

/-- A write, with the thread and the request behind it. -/
structure Write where
  thread : ℕ
  request : Request
  site : Site
  user : String
  key : String
  payload : Bytes

def writeOf : TaskAction → Option Write
  | .op t q (.storageUpdate site u k payload) _ => some ⟨t,q,site,u,k,payload⟩
  | _ => none

/-- A condition on the writes of a run and on what has happened before them. -/
def OnWrites (φ : Write → List TaskAction → Prop) (a : TaskAction) (h : List TaskAction) : Prop :=
  ∀ w ∈ writeOf a, φ w h

instance (φ : Write → List TaskAction → Prop) [∀ w h, Decidable (φ w h)] (a : TaskAction)
    (h : List TaskAction) : Decidable (OnWrites φ a h) :=
  inferInstanceAs (Decidable (∀ w ∈ writeOf a, φ w h))

theorem everywhere_writes {φ : Write → List TaskAction → Prop} (he : Everywhere (OnWrites φ) h)
    {site : Site} {payload : Bytes} {r : Except UpdateError String} {past : List TaskAction}
    (hs : .op t q (.storageUpdate site u k payload) r :: past <:+ h) :
    φ ⟨t,q,site,u,k,payload⟩ past := everywhere_iff.mp he _ _ hs _ rfl

theorem everywhere_of_write {φ : Write → List TaskAction → Prop}
    (step : ∀ t q site u k payload r past, .op t q (.storageUpdate site u k payload) r :: past <:+ h →
      Everywhere (OnWrites φ) past → φ ⟨t,q,site,u,k,payload⟩ past) : Everywhere (OnWrites φ) h := by
  refine Everywhere.of_step fun a past hs hpast w hw => ?_
  cases a with
  | op t q o r =>
    cases o with
    | storageUpdate site u k payload =>
      obtain rfl := Option.some.inj hw
      exact step t q site u k payload r past hs hpast
    | _ => cases hw
  | _ => cases hw

def Spares (i : ℕ) (u k : String) : TaskAction → Prop
  | .op _ q (.storageUpdate _ u' k' _) _ => ¬(q.core = i ∧ u' = u ∧ k' = k)
  | _ => True

theorem stored_cons_of_spares {a : TaskAction} (ha : Spares i u k a) (h : List TaskAction) :
    stored i u k (a :: h) = stored i u k h := by
  cases a with
  | op t q o r =>
    cases o with
    | storageUpdate site u' k' payload => exact if_neg ha
    | _ => rfl
  | _ => rfl

theorem stored_write (t : ℕ) (q : Request) (site : Site) (u k : String) (payload : Bytes)
    (r : Except UpdateError String) (h : List TaskAction) :
    stored q.core u k (.op t q (.storageUpdate site u k payload) r :: h) = some payload :=
  if_pos ⟨rfl,rfl,rfl⟩

theorem write_of_not_spares {a : TaskAction} (ha : ¬ Spares i u k a) : ∃ t q site payload r,
    a = .op t q (.storageUpdate site u k payload) r ∧ q.core = i := by
  cases a with
  | op t q o r =>
    cases o with
    | storageUpdate site u' k' payload =>
      obtain ⟨hq,rfl,rfl⟩ := Classical.not_not.mp ha
      exact ⟨t,q,site,payload,r,rfl,hq⟩
    | _ => exact (ha trivial).elim
  | _ => exact (ha trivial).elim

theorem write_of_stored {payload : Bytes} (hs : stored i u k h = some payload) :
    ∃ t q site r past, q.core = i ∧ .op t q (.storageUpdate site u k payload) r :: past <:+ h := by
  induction h with
  | nil => cases hs
  | cons a h ih =>
    by_cases ha : Spares i u k a
    · rw [stored_cons_of_spares ha] at hs
      obtain ⟨t,q,site,r,past,hq,hp⟩ := ih hs
      exact ⟨t,q,site,r,past,hq,hp.trans (List.suffix_cons _ _)⟩
    · obtain ⟨t,q,site,p,r,rfl,rfl⟩ := write_of_not_spares ha
      rw [stored_write] at hs
      obtain rfl := Option.some.inj hs
      exact ⟨t,q,site,r,h,rfl,List.suffix_rfl⟩

theorem stored_of_write {site : Site} {payload : Bytes} {r : Except UpdateError String}
    (hm : .op t q (.storageUpdate site u k payload) r ∈ h) : stored q.core u k h ≠ none := by
  induction h with
  | nil => cases hm
  | cons a h ih =>
    by_cases ha : Spares q.core u k a
    · rw [stored_cons_of_spares ha]
      rcases List.mem_cons.mp hm with rfl | hm
      · exact (ha ⟨rfl,rfl,rfl⟩).elim
      · exact ih hm
    · obtain ⟨t',q',site',p,r',rfl,hq⟩ := write_of_not_spares ha
      rw [← hq,stored_write]
      simp

theorem stored_preserves {P : Option Bytes → Prop} (hw : Everywhere (OnWrites fun w past =>
      w.request.core = i → w.user = u → w.key = k → P (stored i u k past) → P (some w.payload)) h)
    {past : List TaskAction} (hs : past <:+ h) (hp : P (stored i u k past)) : P (stored i u k h) := by
  induction h with
  | nil => rwa [List.suffix_nil.mp hs] at hp
  | cons a h ih =>
    rcases List.suffix_cons_iff.mp hs with rfl | hs
    · exact hp
    · have hprev := ih hw.2 hs
      by_cases ha : Spares i u k a
      · rwa [stored_cons_of_spares ha]
      · obtain ⟨t,q,site,payload,r,rfl,rfl⟩ := write_of_not_spares ha
        rw [stored_write]
        exact hw.1 _ rfl rfl rfl rfl hprev

theorem exec_before (hc : D.Reach c) {o : Op} {r : Res o}
    (hs : .op t q o r :: h <:+ c.state.history) : ∃ c₀ x, D.Reach c₀ ∧ c₀.state.history = h ∧
      (∃ k, c₀.threads t = some (q,.call o k)) ∧ D.Exec t q c₀.state.shared o r x := by
  obtain ⟨c₀,c₁,hc₀,hh,hstep,-⟩ := hc.before hs
  cases hstep with
  | op runs does => exact ⟨c₀,_,hc₀,hh,⟨_,runs⟩,does⟩

theorem mem_history (hc : D.Reach c) {o : Op} {r : Res o}
    (hs : .op t q o r :: h <:+ c.state.history) {e : TaskEvent} (hm : e ∈ events t h) :
    .op t q e.1 e.2 ∈ h := by
  obtain ⟨q',hm⟩ := mem_events.mp hm
  obtain rfl : q' = q := hc.same_request (hs.subset (List.mem_cons_of_mem _ hm))
    (hs.subset (List.mem_cons_self ..))
  exact hm

theorem made_flags (hc : D.Reach c) {o : Op} {r : Res o} (hs : .op t q o r :: h <:+ c.state.history)
    {a b : Bool} {reason : String} {task : Task} {bs : Bytes} {d : Decision}
    (hm : ⟨.makeDecision a b reason u task bs,.ok d⟩ ∈ events t h) :
    d.isApproved = a ∧ d.isRejected = b := by
  obtain ⟨past,hpast⟩ := suffix_of_mem (mem_history hc hs hm)
  obtain ⟨c₀,x,-,-,-,does⟩ := exec_before hc (hpast.trans ((List.suffix_cons _ _).trans hs))
  generalize hr : (Except.ok d : Except Abort Decision) = r at does
  cases does with
  | makeDecision =>
    have hf := makeDecision_flags hr.symm
    exact ⟨hf.1,hf.2.1⟩

theorem user_noColon (hc : D.Reach c)
    (hs : .op t q (.importedUsersContains u) true ∈ c.state.history) : NoColon u := by
  obtain ⟨past,hpast⟩ := suffix_of_mem hs
  obtain ⟨c₀,x,-,-,-,does⟩ := exec_before hc hpast
  generalize hr : true = b at does
  cases does with
  | importedUsersContains u =>
    exact (c₀.state.shared.cores q.core).imported_noColon u (of_decide_eq_true hr.symm)

theorem writer_noColon (hc : D.Reach c) {site : Site} {payload : Bytes} {r : Except UpdateError String}
    (hs : .op t q (.storageUpdate site u k payload) r :: h <:+ c.state.history) : NoColon u := by
  have hu : ActsFor q u (events t h) := (obligation hc hs).1
  obtain ⟨q',hm⟩ := mem_events.mp hu.2
  exact user_noColon hc (hs.subset (List.mem_cons_of_mem _ hm))

theorem exec_storage {o : Op} {r : Res o} {w w' : World} (hx : D.Exec t q w o r w') :
    (∃ site u k payload now, o = .storageUpdate site u k payload ∧
      (∀ j ≠ q.core, (w'.cores j).storage = (w.cores j).storage) ∧ (w'.cores q.core).storage =
        (BasicStorage.update (w.cores q.core).storage u k payload now).2) ∨
    o.kind ≠ .storageUpdate ∧ ∀ j, (w'.cores j).storage = (w.cores j).storage := by
  cases hx with
  | storageUpdate site u k payload now r tick result =>
    exact .inl ⟨site,u,k,payload,now,rfl,fun j hj => by simp [hj],by simp⟩
  | _ =>
    refine .inr ⟨by simp [Op.kind],fun j => ?_⟩
    first
    | rfl
    | (simp only [World.setCore_cores]
       split_ifs with hj
       · rw [hj]
       · rfl)

theorem env_value {w w' : World} (hx : D.Env w w') (hu : NoColon u) (hk : Guarded k) :
    w'.read i u k = w.read i u k := by
  cases hx with
  | importUser j userId hj =>
    simp only [World.read,World.setCore_cores]
    split_ifs with hi
    · rw [hi]
    · rfl
  | storage j call now user key tick =>
    simp only [World.read,World.setCore_cores]
    split_ifs with hi
    · subst hi
      exact BasicStorage.value_perform_of_ne _ user hu (fun he => key (he.2 ▸ hk)) now
    · rfl

theorem spares_of_kind {a : TaskAction} (ha : ∀ t q o r, a = .op t q o r → o.kind ≠ .storageUpdate) :
    Spares i u k a := by
  cases a with
  | op t q o r =>
    have hk := ha t q o r rfl
    cases o <;> first | exact absurd rfl hk | trivial
  | _ => trivial

theorem read_eq_stored (hc : D.Reach c) (hu : NoColon u) (hk : Guarded k) (i : ℕ) :
    c.state.shared.read i u k = stored i u k c.state.history := by
  induction hc with
  | init hx => simp [World.read,(hx.1 i).1,BasicStorage.value_empty,stored]
  | @step c c' a hc s ih =>
    have hc' := hc.step s
    cases s with
    | start fresh begins =>
      obtain ⟨-,-,rfl⟩ := begins
      exact ih
    | env moves => exact (env_value moves hu hk).trans ih
    | @op t q o kont r x runs does =>
      rw [State.push_shared,State.push_history]
      rcases exec_storage does with ⟨site,u',k',payload,now,rfl,hother,hself⟩ | ⟨hkind,hsame⟩
      · have hu' : NoColon u' := writer_noColon hc' List.suffix_rfl
        by_cases hi : i = q.core
        · subst hi
          rw [World.read,hself]
          by_cases he : u = u' ∧ k = k'
          · obtain ⟨rfl,rfl⟩ := he
            rw [BasicStorage.value_update_self,stored_write]
          · rw [BasicStorage.value_update_of_ne _ hu' hu he]
            have hsp : Spares q.core u k (.op t q (.storageUpdate site u' k' payload) r) :=
              fun hh => he ⟨hh.2.1.symm,hh.2.2.symm⟩
            rw [stored_cons_of_spares hsp]
            exact ih
        · rw [World.read,hother i hi]
          have hsp : Spares i u k (.op t q (.storageUpdate site u' k' payload) r) :=
            fun hh => hi hh.1.symm
          rw [stored_cons_of_spares hsp]
          exact ih
      · rw [World.read,hsame i,stored_cons_of_spares]
        · exact ih
        · refine spares_of_kind fun t' q' o' r' he => ?_
          obtain ⟨-,-,rfl,-⟩ := Action.op.inj he
          exact hkind

theorem stored_of_read (hc : D.Reach c) (hu : NoColon u) (hk : Guarded k) {payload : Bytes}
    (hs : .op t q (.storageRead u k) (.ok payload) :: h <:+ c.state.history) :
    stored q.core u k h = some payload := by
  obtain ⟨c₀,x,hc₀,rfl,-,does⟩ := exec_before hc hs
  rw [← read_eq_stored hc₀ hu hk]
  generalize hr : (Except.ok payload : Except String Bytes) = r at does
  cases does with
  | storageRead u k => exact BasicStorage.readKeyName_eq_ok.mp hr.symm

theorem stored_of_read_error (hc : D.Reach c) (hu : NoColon u) (hk : Guarded k) {e : String}
    (hs : .op t q (.storageRead u k) (.error e) :: h <:+ c.state.history) :
    stored q.core u k h = none := by
  obtain ⟨c₀,x,hc₀,rfl,-,does⟩ := exec_before hc hs
  rw [← read_eq_stored hc₀ hu hk]
  cases hv : c₀.state.shared.read q.core u k with
  | none => rfl
  | some payload =>
    generalize hr : (Except.error e : Except String Bytes) = r at does
    cases does with
    | storageRead u k =>
      rw [BasicStorage.readKeyName_eq_ok.mpr hv] at hr
      cases hr

theorem stored_of_contains (hc : D.Reach c) (hu : NoColon u) (hk : Guarded k) {b : Bool}
    (hs : .op t q (.storageContains u k) b :: h <:+ c.state.history) :
    (stored q.core u k h).isSome = b := by
  obtain ⟨c₀,x,hc₀,rfl,-,does⟩ := exec_before hc hs
  rw [← read_eq_stored hc₀ hu hk]
  cases does with
  | storageContains u k => exact BasicStorage.readFromKeyNames_isOk.symm

theorem exec_mutex {o : Op} {r : Res o} {w w' : World} (hx : D.Exec t q w o r w') (j : ℕ) :
    (w'.cores j).taskStorageMutex = match o with
    | .lock _ => if j = q.core then some t else (w.cores j).taskStorageMutex
    | .unlock _ => if j = q.core then none else (w.cores j).taskStorageMutex
    | _ => (w.cores j).taskStorageMutex := by
  cases hx with
  | _ =>
    first
    | rfl
    | (simp only [World.setCore_cores,World.stored_cores]
       split_ifs with hj
       · first | rfl | rw [hj]
       · rfl)

theorem lock_free {s : Section} {w w' : World} {r : Unit} (hx : D.Exec t q w (.lock s) r w') :
    (w.cores q.core).taskStorageMutex = none := by
  cases hx
  assumption

theorem unlock_held {s : Section} {w w' : World} {r : Unit} (hx : D.Exec t q w (.unlock s) r w') :
    (w.cores q.core).taskStorageMutex = some t := by
  cases hx
  assumption

theorem held_cons {e : TaskEvent} (he : e.1.kind ≠ .lock) (he' : e.1.kind ≠ .unlock)
    (h : List TaskEvent) : held (e :: h) = held h := by
  have ha : ∀ e' ∈ [e], e'.1.kind ≠ .lock ∧ e'.1.kind ≠ .unlock := by simp [he,he']
  exact held_append ha h

/-- The mutex of a core belongs to the thread there whose last operation on it was to take it. -/
theorem mutex_iff (hc : D.Reach c) (i t : ℕ) : (c.state.shared.cores i).taskStorageMutex = some t ↔
    ∃ q p, c.threads t = some (q,p) ∧ q.core = i ∧ held (events t c.state.history) := by
  induction hc with
  | init hx => simp [(hx.1 i).2.1]
  | @step c c' a hc s ih =>
    cases s with
    | @start t₀ q₀ x fresh begins =>
      obtain ⟨-,-,rfl⟩ := begins
      rw [State.push_shared,State.push_history,events_start]
      refine ih.trans ?_
      by_cases ht : t = t₀
      · subst ht
        have hno : events t c.state.history = [] := ((hc.traced (traced_serve D)) t).1 fresh
        simp [fresh,hno,held]
      · simp [ht]
    | env moves =>
      rw [State.push_shared,State.push_history,events_env,← ih]
      cases moves with
      | _ =>
        simp only [World.setCore_cores]
        split_ifs with hi
        · rw [hi]
        · rfl
    | @op t₀ q₀ o k r x runs does =>
      rw [State.push_shared,State.push_history]
      have hm := exec_mutex does i
      have hother (hne : t ≠ t₀) : (∃ q p, Function.update c.threads t₀ (some (q₀,k r)) t = some (q,p) ∧
          q.core = i ∧ held (events t (.op t₀ q₀ o r :: c.state.history))) ↔
          (c.state.shared.cores i).taskStorageMutex = some t := by
        rw [events_op_of_ne (Ne.symm hne),ih]
        simp [hne]
      have hself : (∃ q p, Function.update c.threads t₀ (some (q₀,k r)) t₀ = some (q,p) ∧
          q.core = i ∧ held (events t₀ (.op t₀ q₀ o r :: c.state.history))) ↔
          q₀.core = i ∧ held (⟨o,r⟩ :: events t₀ c.state.history) := by
        rw [events_op_self]
        simp
      have hbefore : (∃ q p, c.threads t₀ = some (q,p) ∧ q.core = i ∧
          held (events t₀ c.state.history)) ↔ q₀.core = i ∧ held (events t₀ c.state.history) := by
        simp [runs]
      by_cases hl : o.kind = .lock
      · cases o <;> simp [Op.kind] at hl
        have hfree := lock_free does
        by_cases ht : t = t₀
        · subst ht
          rw [hself,hm]
          by_cases hi : i = q₀.core
          · simp [hi,held]
          · have hno : ¬ (c.state.shared.cores i).taskStorageMutex = some t :=
              fun hh => hi ((hbefore.mp (ih.mp hh)).1).symm
            simp [hi,hno,Ne.symm hi]
        · rw [hother ht,hm]
          by_cases hi : i = q₀.core
          · subst hi
            simp [hfree,Ne.symm ht]
          · simp [hi]
      · by_cases hul : o.kind = .unlock
        · cases o <;> simp [Op.kind] at hul
          have hheld := unlock_held does
          by_cases ht : t = t₀
          · subst ht
            rw [hself,hm]
            by_cases hi : i = q₀.core
            · simp [hi,held]
            · have hno : ¬ (c.state.shared.cores i).taskStorageMutex = some t :=
                fun hh => hi ((hbefore.mp (ih.mp hh)).1).symm
              simp [hi,hno,Ne.symm hi]
          · rw [hother ht,hm]
            by_cases hi : i = q₀.core
            · subst hi
              simp [hheld,Ne.symm ht]
            · simp [hi]
        · have hsame : (x.cores i).taskStorageMutex = (c.state.shared.cores i).taskStorageMutex := by
            rw [hm]
            cases o <;> first | rfl | exact absurd rfl hl | exact absurd rfl hul
          rw [hsame]
          by_cases ht : t = t₀
          · subst ht
            rw [hself,held_cons (e := ⟨o,r⟩) hl hul,ih,hbefore]
          · rw [hother ht]

theorem holder_eq (hc : D.Reach c) {t' : ℕ} {q' : Request} {p p' : Service Unit}
    (ht : c.threads t = some (q,p)) (ht' : c.threads t' = some (q',p')) (hq : q.core = q'.core)
    (hh : held (events t c.state.history)) (hh' : held (events t' c.state.history)) : t = t' := by
  have hm := (mutex_iff hc q.core t).mpr ⟨q,p,ht,rfl,hh⟩
  have hm' := (mutex_iff hc q.core t').mpr ⟨q',p',ht',hq.symm,hh'⟩
  exact Option.some.inj (hm.symm.trans hm')

/-- Whoever writes the key holds the mutex, or is the first to write it. -/
def Exclusive (i : ℕ) (u k : String) (s : Write) (h : List TaskAction) : Prop :=
  s.request.core = i ∧ s.user = u ∧ s.key = k →
    held (events s.thread h) ∨ stored i u k h = none

/-- What an operation does to the knowledge of the thread that performs it. -/
theorem knows_cons {o : Op} {r : Res o} {past : List TaskEvent} {v : Bytes}
    (hk : knows u k (⟨o,r⟩ :: past) = some v) :
    (Leaves u k o ∧ knows u k past = some v) ∨ (o = .storageRead u k ∧ HEq r (Except.ok v : Except String Bytes)) ∨
      (∃ e, o = .storageRead u k ∧ HEq r (Except.error e : Except String Bytes) ∧
        knows u k past = some v) ∨ ∃ site, o = .storageUpdate site u k v := by
  by_cases hl : Leaves u k o
  · have ha : ∀ e ∈ ([⟨o,r⟩] : List TaskEvent), Leaves u k e.1 := by simpa using hl
    exact .inl ⟨hl,(knows_append ha past) ▸ hk⟩
  · cases o with
    | lock s => simp [knows] at hk
    | unlock s => simp [knows] at hk
    | storageRead u' k' =>
      obtain ⟨rfl,rfl⟩ := Classical.not_not.mp hl
      cases r with
      | ok payload =>
        have he : payload = v := by simpa [knows] using hk
        exact .inr (.inl ⟨rfl,by rw [he]⟩)
      | error e => exact .inr (.inr (.inl ⟨e,rfl,HEq.rfl,hk⟩))
    | storageUpdate site u' k' payload =>
      obtain ⟨rfl,rfl⟩ := Classical.not_not.mp hl
      have he : payload = v := by simpa [knows] using hk
      exact .inr (.inr (.inr ⟨site,by rw [he]⟩))
    | _ => exact absurd trivial hl

theorem spares_of_leaves {o : Op} {r : Res o} (hl : Leaves u k o) : Spares i u k (.op t q o r) := by
  cases o with
  | storageUpdate site u' k' payload => exact fun hh => hl hh.2
  | _ => trivial

/-- At the moment `base` nobody on core `i` is in a critical section. -/
def Idle (i : ℕ) (base : List TaskAction) : Prop :=
  ∀ t q o r, .op t q o r ∈ base → q.core = i → held (events t base) = false

theorem idle_nil (i : ℕ) : Idle i [] := fun _ _ _ _ hm => absurd hm List.not_mem_nil

theorem idle_of_mutex (hc : D.Reach c) (hfree : (c.state.shared.cores i).taskStorageMutex = none) :
    Idle i c.state.history := by
  intro t q o r hm hi
  rw [Bool.eq_false_iff]
  intro hheld
  cases ht : c.threads t with
  | none => exact (hc.history_thread t).1 ht _ hm rfl
  | some x =>
    have hq := ((hc.history_thread t).2 x.1 x.2 ht).2 q o r hm
    have hmutex := (mutex_iff hc i t).mpr ⟨x.1,x.2,ht,hq ▸ hi,hheld⟩
    rw [hfree] at hmutex
    cases hmutex

theorem since_of_held (hc : D.Reach c) {a : TaskAction} {past base : List TaskAction}
    (ha : c.state.history = a :: past) (hbase : base <:+ c.state.history) (hidle : Idle i base)
    {p : Service Unit} (ht : c.threads t = some (q,p)) (hi : q.core = i)
    (hh : held (events t c.state.history)) : base <:+ past := by
  rw [ha] at hbase
  refine (List.suffix_cons_iff.mp hbase).resolve_left fun he => ?_
  rw [← ha] at he
  subst he
  have hne : events t c.state.history ≠ [] := by
    intro he
    rw [he] at hh
    cases hh
  obtain ⟨⟨o,r⟩,hm⟩ := List.exists_mem_of_ne_nil _ hne
  obtain ⟨q',hm⟩ := mem_events.mp hm
  obtain rfl : q' = q := ((hc.history_thread t).2 q p ht).2 q' o r hm
  rw [hidle t q' o r hm hi] at hh
  cases hh

/-- What the holder of the mutex knows is what is stored, if from an idle moment on whoever writes
the key holds the mutex. -/
theorem stored_of_knows (hc : D.Reach c) (hu : NoColon u) (hk : Guarded k) {base : List TaskAction}
    (hbase : base <:+ c.state.history) (hidle : Idle i base)
    (hex : Everywhere (OnWrites fun w past => base <:+ past → Exclusive i u k w past) c.state.history)
    {p : Service Unit} (ht : c.threads t = some (q,p)) (hi : q.core = i)
    (hh : held (events t c.state.history)) {v : Bytes}
    (hv : knows u k (events t c.state.history) = some v) :
    stored i u k c.state.history = some v := by
  induction hc generalizing q p v with
  | init hx => cases ht
  | @step c c' a hc s ih =>
    have hc' := hc.step s
    have hsince : base <:+ c.state.history := since_of_held hc' s.history hbase hidle ht hi hh
    rw [s.history] at hex hh hv ⊢
    cases s with
    | @start t₀ q₀ x fresh begins =>
      rw [events_start] at hh hv
      have hne : t ≠ t₀ := by
        rintro rfl
        have hno : events t c.state.history = [] := ((hc.traced (traced_serve D)) t).1 fresh
        rw [hno] at hh
        cases hh
      have ht' : c.threads t = some (q,p) := by simpa [hne] using ht
      show stored i u k c.state.history = some v
      exact ih hsince hex.2 ht' hi hh hv
    | env moves =>
      rw [events_env] at hh hv
      show stored i u k c.state.history = some v
      exact ih hsince hex.2 ht hi hh hv
    | @op t₀ q₀ o kont r x runs does =>
      by_cases hne : t = t₀
      · subst hne
        obtain ⟨rfl,-⟩ : q₀ = q ∧ kont r = p := by simpa using ht
        rw [events_op_self] at hh hv
        rcases knows_cons hv with ⟨hl,hv'⟩ | ⟨rfl,hr⟩ | ⟨e,rfl,-,hv'⟩ | ⟨site,rfl⟩
        · rw [stored_cons_of_spares (spares_of_leaves hl)]
          refine ih hsince hex.2 runs hi ?_ hv'
          cases o with
          | lock s => exact hl.elim
          | unlock s => exact hl.elim
          | _ => exact hh
        · show stored i u k c.state.history = some v
          rw [← hi]
          obtain rfl := eq_of_heq hr
          exact stored_of_read hc' hu hk List.suffix_rfl
        · show stored i u k c.state.history = some v
          exact ih hsince hex.2 runs hi hh hv'
        · rw [← hi,stored_write]
      · rw [events_op_of_ne (Ne.symm hne)] at hh hv
        have ht' : c.threads t = some (q,p) := by simpa [hne] using ht
        have hst := ih hsince hex.2 ht' hi hh hv
        by_cases hsp : Spares i u k (.op t₀ q₀ o r)
        · rw [stored_cons_of_spares hsp]
          exact hst
        · cases o with
          | storageUpdate site u' k' payload =>
            have hsame := Classical.not_not.mp hsp
            rcases hex.1 _ rfl hsince hsame with hheld | hnone
            · exact absurd (holder_eq hc ht' runs (hi.trans hsame.1.symm) hh hheld) hne
            · rw [hnone] at hst
              cases hst
          | _ => exact absurd trivial hsp

theorem stored_of_known (hc : D.Reach c) (hu : NoColon u) (hk : Guarded k) {o : Op} {r : Res o}
    (hs : .op t q o r :: h <:+ c.state.history) {base : List TaskAction} (hbase : base <:+ h)
    (hidle : Idle q.core base)
    (hex : Everywhere (OnWrites fun w past => base <:+ past → Exclusive q.core u k w past) h)
    (hh : held (events t h)) {v : Bytes} (hv : knows u k (events t h) = some v) :
    stored q.core u k h = some v := by
  obtain ⟨c₀,x,hc₀,rfl,⟨kont,runs⟩,does⟩ := exec_before hc hs
  exact stored_of_knows hc₀ hu hk hbase hidle hex runs rfl hh hv

/-- What everybody writes under the mutex stays as it is while a thread that leaves it alone holds
the mutex. -/
theorem stored_of_held (hc : D.Reach c) {s : Section} {mid past : List TaskAction}
    (hs : mid ++ .op t q (.lock s) () :: past <:+ c.state.history)
    (hex : Everywhere (OnWrites (Exclusive q.core u k)) (mid ++ .op t q (.lock s) () :: past))
    (hpresent : stored q.core u k past ≠ none) (hmid : ∀ e ∈ events t mid, Leaves u k e.1) :
    stored q.core u k (mid ++ .op t q (.lock s) () :: past) = stored q.core u k past := by
  induction mid with
  | nil => rfl
  | cons a mid ih =>
    have hs' : mid ++ .op t q (.lock s) () :: past <:+ c.state.history := (List.suffix_cons _ _).trans hs
    have hmid' : ∀ e ∈ events t mid, Leaves u k e.1 := fun e he => by
      obtain ⟨q',hm⟩ := mem_events.mp he
      exact hmid e (mem_events.mpr ⟨q',List.mem_cons_of_mem a hm⟩)
    have hprev := ih hs' hex.2 hmid'
    by_cases hsp : Spares q.core u k a
    · rw [List.cons_append,stored_cons_of_spares hsp]
      exact hprev
    · obtain ⟨t',q',site,payload,r,rfl,hq⟩ := write_of_not_spares hsp
      have hsame := Classical.not_not.mp hsp
      exfalso
      rcases hex.1 _ rfl hsame with hheld | hnone
      · obtain ⟨c₀,x,hc₀,hh,⟨kont,runs⟩,-⟩ := exec_before hc hs
        replace hh : c₀.state.history = mid ++ .op t q (.lock s) () :: past := hh
        have hlock : .op t q (.lock s) () ∈ c₀.state.history := by
          rw [hh]
          exact List.mem_append_right _ (List.mem_cons_self ..)
        have hheld' : held (events t c₀.state.history) := by
          rw [hh,events_append,events_op_self]
          refine (held_append (fun e he => ?_) _).trans rfl
          have hl := hmid' e he
          obtain ⟨o,r'⟩ := e
          constructor <;> intro hk <;> cases o <;> simp [Op.kind] at hk <;> exact hl
        cases ht : c₀.threads t with
        | none => exact (hc₀.history_thread t).1 ht _ hlock rfl
        | some y =>
          have hreq := ((hc₀.history_thread t).2 y.1 y.2 ht).2 q _ _ hlock
          obtain rfl := holder_eq hc₀ ht runs (hreq ▸ hq.symm) hheld' (hh ▸ hheld)
          exact hmid ⟨.storageUpdate site u k payload,r⟩
            (mem_events.mpr ⟨q',List.mem_cons_self ..⟩) ⟨rfl,rfl⟩
      · exact hpresent (hprev.symm.trans hnone)

theorem read_of_held (hc : D.Reach c) (hu : NoColon u) (hk : Guarded k) {s : Section}
    {mid past : List TaskAction} {r : Except String Bytes} {payload : Bytes}
    (hs : .op t q (.storageRead u k) r :: (mid ++ .op t q (.lock s) () :: past) <:+ c.state.history)
    (hex : Everywhere (OnWrites (Exclusive q.core u k)) c.state.history)
    (hst : stored q.core u k past = some payload) (hmid : ∀ e ∈ events t mid, Leaves u k e.1) :
    r = .ok payload := by
  have hs' := (List.suffix_cons _ _).trans hs
  have hpresent : stored q.core u k past ≠ none := by simp [hst]
  have hnow := (stored_of_held hc hs' (hex.suffix hs') hpresent hmid).trans hst
  cases r with
  | error e =>
    rw [stored_of_read_error hc hu hk hs] at hnow
    cases hnow
  | ok payload' =>
    rw [stored_of_read hc hu hk hs] at hnow
    rw [Option.some.inj hnow]

theorem guarded_recordKey (id : String) : Guarded (recordKey id) := by
  left
  exact ⟨id.toList,by simp [recordKey]⟩

theorem guarded_listOf {task : Task} (hk : ListOf u task k) : Guarded k := by
  rcases hk with rfl | rfl
  · right
    exact ⟨_,by simp [TaskService.protocolListKey]; rfl⟩
  · left
    exact ⟨("status:" ++ task.status).toList,by simp [TaskService.statusListKey]⟩

/-- The keys of the status lists and of their pointers. -/
def reservedKeys : List String := statuses.flatMap fun s =>
  [recordKey ("status:" ++ s),recordKey ("status:" ++ s ++ ":latest")]

theorem recordKey_mem_reservedKeys {id : String} : recordKey id ∈ reservedKeys ↔ Reserved id := by
  simp only [reservedKeys,List.mem_flatMap,List.mem_cons,List.not_mem_nil,or_false,recordKey_inj,
    Reserved,Collides]

/-- What is written under a key by each statement of the source. -/
def Kept (M : Prost) (u : String) : Site → String → Bytes → Prop
  | .list,k,payload => ∃ task list, ListOf u task k ∧ task.status ∈ statuses ∧
      payload = M.taskIdList.encode list
  | .latest,k,payload => ∃ task listKey, ListOf u task listKey ∧ task.status ∈ statuses ∧
      k = listKey ++ ":latest" ∧ payload = M.task.encode { taskId := task.taskId }
  | _,k,payload => ∃ task, k = recordKey task.taskId ∧ payload = M.task.encode task ∧
      task.status ∈ statuses ∧ ¬ Reserved task.taskId

end TaskRecords
end CoLinkServer
