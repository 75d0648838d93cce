import CoLinkServer.Credits
import CoLinkServer.KeyPaths
import Mathlib.Data.Set.Card

/-! The two maps of the subscriptions against each other. A subscribing thread counts a
subscription before it enters the queue, and an unsubscribing one discounts it after it has
removed the queue, so the count of a key is never below the number of its queues. -/
namespace CoLinkServer
namespace Subscription

open Interleaving SeparatedText

variable {σ α : Type} (F : Formats)

/-- The operation has to do with the two maps or with the name of a queue. -/
def Op.marks : Op → Bool
  | .createQueue _ _ => true
  | .countSubscription _ => true
  | .discountSubscription _ => true
  | .insertQueue _ _ => true
  | .removeQueue _ => true
  | _ => false

abbrev Events := List (Event Op Res)

def marked (h : Events) : Events := h.filter fun e => e.1.marks

theorem marked_cons (e : Event Op Res) (h : Events) :
    marked (e :: h) = if e.1.marks then e :: marked h else marked h := List.filter_cons

/-- What a subscribing thread has done to the maps, newest first. -/
def Subscribing (name : String) (h : Events) : Prop :=
  h = [] ∨ (∃ uri r, h = [⟨.createQueue uri "",r⟩]) ∨
    ∃ uri queueName, h = [⟨.countSubscription name,()⟩,⟨.createQueue uri "",.ok queueName⟩] ∨
      h = [⟨.insertQueue queueName name,()⟩,⟨.countSubscription name,()⟩,
        ⟨.createQueue uri "",.ok queueName⟩]

def Subscribed (name : String) (h : Events) : Prop :=
  Subscribing name h ∧ ∀ uri queueName,
    h ≠ [⟨.countSubscription name,()⟩,⟨.createQueue uri "",.ok queueName⟩]

/-- The same for an unsubscribing thread. -/
def Unsubscribing (queueName : String) (h : Events) : Prop :=
  h = [] ∨ (∃ r, h = [⟨.removeQueue queueName,r⟩]) ∨
    ∃ name r, h = [⟨.discountSubscription name,r⟩,⟨.removeQueue queueName,some name⟩]

def Unsubscribed (userId queueName : String) (h : Events) : Prop :=
  Unsubscribing queueName h ∧
    ∀ name, h = [⟨.removeQueue queueName,some name⟩] → userId ≠ getUserId name

def Moment : Request → Events → Prop
  | .subscribe userId keyName _,h => Subscribing (userIdKeyName userId keyName) (marked h)
  | .unsubscribe _ queueName,h => Unsubscribing queueName (marked h)
  | _,h => marked h = []

def Finished : Request → Events → Prop
  | .subscribe userId keyName _,h => Subscribed (userIdKeyName userId keyName) (marked h)
  | .unsubscribe userId queueName,h => Unsubscribed userId queueName (marked h)
  | _,h => marked h = []

/-- A program that meets `J` at every moment, said of the marked events alone. -/
def Marks (J : Events → Prop) (before : Events) (p : Service α)
    (P : α → Events → Prop) (E : Events → Prop) : Prop :=
  ∀ h, marked h = before →
    p.Traced (fun h => J (marked h)) h (Prog.Ends (fun a h => P a (marked h)) fun h => E (marked h))

section Marks

variable {J E : Events → Prop} {before : Events} {p : Service α} {β : Type} {P : α → Events → Prop}
  {Q : β → Events → Prop}

theorem Marks.bind {f : α → Service β} (hp : Marks J before p P E)
    (hf : ∀ a h, P a h → Marks J h (f a) Q E) : Marks J before (p >>= f) Q E := fun h hh =>
  Prog.Traced.seqEnds (hp h hh) fun a h' ha => hf a _ ha h' rfl

theorem Marks.ret (a : α) (h : P a before) : Marks J before (.ret a : Service α) P E := by
  rintro h' rfl
  exact h

theorem Marks.fail (e : Failure) (h : E before) : Marks J before (.fail e : Service α) P E := by
  rintro h' rfl
  exact h

theorem Marks.attempted {r : Except String α} (hok : ∀ a, r = .ok a → P a before)
    (herr : ∀ e, r = .error e → E before) : Marks J before (attempted r) P E := by
  cases r with
  | ok a => exact .ret a (hok a rfl)
  | error e => exact .fail _ (herr e rfl)

theorem Marks.unmarked (hp : p.All fun o => o.marks = false) (hJ : J before) (hE : E before) :
    Marks J before p (fun _ h => h = before) E := by
  rintro h rfl
  refine (Prog.Traced.of_all hp (J := fun h' => marked h' = marked h) (fun o ho r h' hj => ?_)
    rfl).mono fun r h' hr => ?_
  · have hm : marked (⟨o,r⟩ :: h') = marked h := by
      rw [marked_cons,if_neg (by simp [ho]),hj]
    exact ⟨by rwa [hm],hm⟩
  · cases r with
    | ok a => exact hr
    | error e =>
      show E (marked h')
      rwa [hr]

theorem Marks.perform {o : Op} (ho : o.marks = true) (hJ : ∀ r, J (⟨o,r⟩ :: before)) :
    Marks J before (perform o) (fun r h => h = ⟨o,r⟩ :: before) E := by
  rintro h rfl r
  have hm : marked (⟨o,r⟩ :: h) = ⟨o,r⟩ :: marked h := by rw [marked_cons,if_pos ho]
  exact ⟨show J (marked (⟨o,r⟩ :: h)) from hm ▸ hJ r,hm⟩

theorem Marks.bracket {acquire release : Service Unit} (ha : acquire.All fun o => o.marks = false)
    (hr : release.All fun o => o.marks = false) (hJ : ∀ h, E h → J h) (hE : E before)
    (hp : Marks J before p (fun _ => E) E) :
    Marks J before (Prog.bracket acquire release p) (fun _ => E) E := by
  intro h hh
  refine Prog.Traced.bracketEnds (A := fun h' => marked h' = before)
    (Marks.unmarked ha (hJ _ hE) hE h hh) (fun h' hh' => hp h' hh') (fun a h' hh' => ?_)
    fun h' hh' => ?_
  · refine (Marks.unmarked hr (hJ _ hh') hh' h' rfl).mono fun r h'' hr' => ?_
    cases r with
    | ok _ => exact show E (marked h'') from (show marked h'' = marked h' from hr') ▸ hh'
    | error _ => exact hr'
  · refine (Marks.unmarked hr (hJ _ hh') hh' h' rfl).mono fun r h'' hr' => ?_
    cases r with
    | ok _ => exact show E (marked h'') from (show marked h'' = marked h' from hr') ▸ hh'
    | error _ => exact hr'

theorem Marks.rest (hp : p.All fun o => o.marks = false) (hJ : J before) (hE : E before) :
    Marks J before p (fun _ => E) E := fun h hh =>
  (Marks.unmarked hp hJ hE h hh).mono fun r h' hr => by
    cases r with
    | ok a => exact show E (marked h') from (show marked h' = before from hr) ▸ hE
    | error e => exact hr

end Marks

theorem unmarked_perform {o : Op} (ho : o.marks = false) :
    (perform o).All fun o => o.marks = false := all_perform ho

theorem unmarked_try {o : Op} (ho : o.marks = false) {f : Res o → Except String α} :
    (perform o >>= fun r => attempted (f r)).All fun o => o.marks = false :=
  all_try ho fun r => all_attempted (f r)

theorem unmarked_getMqUri (userId : String) : (getMqUri userId).All fun o => o.marks = false :=
  (account_getMqUri userId).mono fun o ho => by cases o <;> first | rfl | exact ho.elim

theorem unmarked_publishChange (userId keyName changeType keyPath : String) (payload : Bytes) :
    (publishChange F userId keyName changeType keyPath payload).All fun o => o.marks = false := by
  refine ⟨rfl,fun subscribed => ?_⟩
  cases subscribed with
  | false => trivial
  | true =>
    exact (unmarked_getMqUri userId).bind fun _ => unmarked_try rfl

theorem unmarked_change (changeType : String) (call : BasicStorage.Call Bytes) (payload : Bytes) :
    (change F changeType call payload).All fun o => o.marks = false := by
  refine .bracket (unmarked_perform rfl) (unmarked_perform rfl) ?_
  refine (unmarked_try rfl).bind fun keyPath => ?_
  exact (unmarked_publishChange F _ _ _ _ _).bind fun _ => trivial

theorem unmarked_replay (mqUri queueName userId keyName : String) (startTimestamp : ℤ) :
    (replay F mqUri queueName userId keyName startTimestamp).All fun o => o.marks = false :=
  (replay_replay F mqUri queueName userId keyName startTimestamp).mono fun o ho => by
    cases o <;> first | rfl | exact ho.elim

theorem marks_subscribe (userId keyName : String) (startTimestamp : ℤ) :
    Marks (Subscribing (userIdKeyName userId keyName)) [] (subscribe F userId keyName startTimestamp)
      (fun _ => Subscribed (userIdKeyName userId keyName))
      (Subscribed (userIdKeyName userId keyName)) := by
  have hnil : Subscribed (userIdKeyName userId keyName) [] := ⟨.inl rfl,by simp⟩
  have hcreated (uri : String) (r : Except String String) :
      Subscribed (userIdKeyName userId keyName) [⟨.createQueue uri "",r⟩] :=
    ⟨.inr (.inl ⟨uri,r,rfl⟩),by simp⟩
  have hinserted (uri queueName : String) : Subscribed (userIdKeyName userId keyName)
      [⟨.insertQueue queueName (userIdKeyName userId keyName),()⟩,
        ⟨.countSubscription (userIdKeyName userId keyName),()⟩,
        ⟨.createQueue uri "",.ok queueName⟩] :=
    ⟨.inr (.inr ⟨uri,queueName,.inr rfl⟩),by simp⟩
  unfold subscribe
  refine (Marks.unmarked (unmarked_getMqUri userId) hnil.1 hnil).bind fun mqUri h hh => ?_
  subst hh
  refine Marks.bind (P := fun queueName h => h = [⟨.createQueue mqUri "",.ok queueName⟩]) ?_
    fun queueName h hh => ?_
  · refine (Marks.perform rfl fun r => (hcreated mqUri r).1).bind fun r h hh => ?_
    subst hh
    exact .attempted (fun a ha => by rw [ha]) fun e _ => hcreated mqUri r
  subst hh
  refine (Marks.unmarked (unmarked_try rfl) (hcreated mqUri _).1
    (hcreated mqUri _)).bind fun _ h hh => ?_
  subst hh
  refine Marks.bind (P := fun _ => Subscribed (userIdKeyName userId keyName)) ?_
    fun _ h hh => .ret _ hh
  refine .bracket (unmarked_perform rfl) (unmarked_perform rfl) (fun h hh => hh.1)
    (hcreated mqUri _) ?_
  refine (Marks.perform rfl fun _ => .inr (.inr ⟨mqUri,queueName,.inl rfl⟩)).bind fun _ h hh => ?_
  subst hh
  refine (Marks.perform rfl fun _ => (hinserted mqUri queueName).1).bind fun _ h hh => ?_
  subst hh
  refine (Marks.unmarked (unmarked_try rfl)
    (hinserted mqUri queueName).1 (hinserted mqUri queueName)).bind fun _ h hh => ?_
  subst hh
  exact .rest (unmarked_replay F mqUri queueName userId keyName startTimestamp)
    (hinserted mqUri queueName).1 (hinserted mqUri queueName)

theorem marks_unsubscribe (userId queueName : String) :
    Marks (Unsubscribing queueName) [] (unsubscribe userId queueName)
      (fun _ => Unsubscribed userId queueName) (Unsubscribed userId queueName) := by
  have hdiscounted (name : String) (r : Bool) : Unsubscribed userId queueName
      [⟨.discountSubscription name,r⟩,⟨.removeQueue queueName,some name⟩] :=
    ⟨.inr (.inr ⟨name,r,rfl⟩),by simp⟩
  unfold unsubscribe
  refine (Marks.perform rfl fun r => .inr (.inl ⟨r,rfl⟩)).bind fun r h hh => ?_
  subst hh
  cases r with
  | none => exact .fail _ ⟨.inr (.inl ⟨none,rfl⟩),by simp⟩
  | some name =>
    dsimp only
    split_ifs with howner
    · refine .fail _ ⟨.inr (.inl ⟨some name,rfl⟩),fun name' he => ?_⟩
      have hname : name = name' := by simpa using he
      rwa [← hname]
    · refine (Marks.perform rfl fun r => (hdiscounted name r).1).bind fun found h hh => ?_
      subst hh
      cases found with
      | false => exact .fail _ (hdiscounted name false)
      | true =>
        exact .rest ((unmarked_getMqUri userId).bind fun mqUri =>
          unmarked_try rfl)
          (hdiscounted name true).1 (hdiscounted name true)

theorem marks_handle (q : Request) :
    (handle F q).Traced (Moment q) [] fun _ h => Finished q h := by
  have hplain {p : Service String} (hp : p.All fun o => o.marks = false) :
      p.Traced (fun h => marked h = []) [] fun _ h => marked h = [] :=
    (Marks.rest (J := fun h => h = []) (E := fun h => h = []) hp rfl rfl [] rfl).mono fun r h hr => by
      cases r <;> exact hr
  cases q with
  | create u k v => exact hplain (unmarked_change F _ _ _)
  | update u k v => exact hplain (unmarked_change F _ _ _)
  | delete u k => exact hplain (unmarked_change F _ _ _)
  | subscribe u k start =>
    exact (marks_subscribe F u k start [] rfl).mono fun r h hr => by cases r <;> exact hr
  | unsubscribe u queueName =>
    have hm := (marks_unsubscribe u queueName).bind (f := fun _ => (.ret "" : Service String))
      (Q := fun _ => Unsubscribed u queueName) fun _ h hh => .ret _ hh
    exact (hm [] rfl).mono fun r h hr => by cases r <;> exact hr

/-- A subscription is entered after it has been counted, discounted after its queue has been
removed, and the queue that is entered has been named by the message queue. -/
inductive Ledger
  | subscription (userIdKeyName : String)
  | removal (userIdKeyName : String)
  | queue (queueName : String)

def ledger : Account Op Res Ledger where
  earns
    | .subscription name,⟨.countSubscription name',_⟩ => name' = name
    | .removal name,⟨.removeQueue _,r⟩ => r = some name
    | .queue queueName,⟨.createQueue _ _,.ok queueName'⟩ => queueName' = queueName
    | _,_ => false
  spends
    | .subscription name,⟨.insertQueue _ name',_⟩ => name' = name
    | .removal name,⟨.discountSubscription name',_⟩ => name' = name
    | .queue queueName,⟨.insertQueue queueName' _,_⟩ => queueName' = queueName
    | _,_ => false

theorem ledger_marks (x : Ledger) (e : Event Op Res) :
    (ledger.earns x e → e.1.marks = true) ∧ (ledger.spends x e → e.1.marks = true) := by
  obtain ⟨o,r⟩ := e
  cases x <;> cases o <;> first
    | exact ⟨fun _ => rfl,fun _ => rfl⟩
    | exact ⟨fun he => absurd he Bool.false_ne_true,fun he => absurd he Bool.false_ne_true⟩

theorem countP_marked {P : Event Op Res → Bool} (hP : ∀ e, P e → e.1.marks = true) (h : Events) :
    (marked h).countP P = h.countP P := by
  rw [marked,List.countP_filter]
  refine List.countP_congr fun e _ => ?_
  cases hp : P e <;> simp [hP e,hp]

theorem moment_covers {q : Request} {h : Events} (hm : Moment q h) : ledger.Covers 0 h := by
  intro x
  rw [← countP_marked (fun e => (ledger_marks x e).1),← countP_marked (fun e => (ledger_marks x e).2)]
  cases q with
  | subscribe u k start =>
    rcases hm with hm | ⟨uri,r,hm⟩ | ⟨uri,queueName,hm | hm⟩ <;> rw [hm] <;> cases x <;>
      simp [ledger,List.countP_cons]
  | unsubscribe u queueName =>
    rcases hm with hm | ⟨r,hm⟩ | ⟨name,r,hm⟩ <;> rw [hm] <;> cases x <;>
      simp [ledger,List.countP_cons]
  | _ =>
    rw [show marked h = [] from hm]
    simp

noncomputable def mapped (x : Shared σ) (name : String) : ℕ :=
  Set.ncard {queueName | x.queueNameToUserIdKeyName queueName = some name}

def FiniteQueues (x : Shared σ) : Prop := {queueName | x.queueNameToUserIdKeyName queueName ≠ none}.Finite

theorem FiniteQueues.queues {x : Shared σ} (hx : FiniteQueues x) (name : String) :
    {queueName | x.queueNameToUserIdKeyName queueName = some name}.Finite :=
  hx.subset fun queueName hq => by simp [show x.queueNameToUserIdKeyName queueName = some name from hq]

theorem finiteQueues_setQueue {x : Shared σ} (hx : FiniteQueues x) (queueName : String)
    (name : Option String) : FiniteQueues (x.setQueue queueName name) := by
  refine (hx.insert queueName).subset fun other ho => ?_
  by_cases hq : other = queueName
  · exact .inl hq
  · have hh : x.queueNameToUserIdKeyName other ≠ none := by
      simpa [Shared.setQueue,Function.update_of_ne hq] using ho
    exact .inr hh

theorem mapped_insert {x : Shared σ} (hx : FiniteQueues x) {queueName : String}
    (hq : x.queueNameToUserIdKeyName queueName = none) (name name' : String) :
    mapped (x.setQueue queueName (some name)) name' =
      mapped x name' + if name = name' then 1 else 0 := by
  split_ifs with hn
  · subst hn
    have hset : {other | (x.setQueue queueName (some name)).queueNameToUserIdKeyName other = some name} =
        insert queueName {other | x.queueNameToUserIdKeyName other = some name} := by
      ext other
      by_cases ho : other = queueName <;> simp [Shared.setQueue,ho]
    rw [mapped,hset,Set.ncard_insert_of_notMem (by simp [hq]) (hx.queues name)]
    rfl
  · have hset : {other | (x.setQueue queueName (some name)).queueNameToUserIdKeyName other = some name'} =
        {other | x.queueNameToUserIdKeyName other = some name'} := by
      ext other
      by_cases ho : other = queueName <;> simp [Shared.setQueue,ho,hn,hq]
    rw [mapped,hset]
    rfl

theorem mapped_remove {x : Shared σ} (hx : FiniteQueues x) (queueName name : String) :
    mapped (x.setQueue queueName none) name +
      (if x.queueNameToUserIdKeyName queueName = some name then 1 else 0) = mapped x name := by
  have hset : {other | (x.setQueue queueName none).queueNameToUserIdKeyName other = some name} =
      {other | x.queueNameToUserIdKeyName other = some name} \ {queueName} := by
    ext other
    by_cases ho : other = queueName <;> simp [Shared.setQueue,ho]
  split_ifs with hq
  · rw [mapped,hset]
    exact Set.ncard_sdiff_singleton_add_one hq (hx.queues name)
  · rw [mapped,hset,Set.sdiff_singleton_eq_self (by simpa using hq)]
    rfl

def total (P : Event Op Res → Bool) (h : History) : ℕ := h.countP (Action.meets (fun _ => true) P)

theorem total_op (P : Event Op Res → Bool) (t : ℕ) (q : Request) (o : Op) (r : Res o) (h : History) :
    total P (.op t q o r :: h) = total P h + (P ⟨o,r⟩).toNat := by
  rw [total,List.countP_cons]
  cases hp : P ⟨o,r⟩ <;> simp [Action.meets,hp,total]

/-- The message queue gives no name twice. -/
def FreshQueue : Action Op Res Request → History → Prop
  | .op _ _ (.createQueue _ _) (.ok queueName),past => ∀ t q uri name,
      .op t q (.createQueue uri name) (.ok queueName) ∉ past
  | _,_ => True

/-- Whoever unsubscribes a queue is the one who has subscribed it. -/
def OwnQueue : Action Op Res Request → History → Prop
  | .op _ q (.removeQueue queueName) _,past => ∀ t q' name,
      .op t q' (.insertQueue queueName name) () ∈ past → q'.userId = q.userId
  | _,_ => True

theorem named_of_earns {queueName : String} {a : Action Op Res Request}
    (h : Action.meets (fun _ => true) (ledger.earns (.queue queueName)) a) :
    ∃ t q uri name, a = .op t q (.createQueue uri name) (.ok queueName) := by
  cases a with
  | op t q o r =>
    cases o with
    | createQueue uri name =>
      cases r with
      | ok queueName' =>
        have hq : queueName' = queueName := by simpa [Action.meets,ledger] using h
        exact ⟨t,q,uri,name,by rw [hq]⟩
      | error e => cases h
    | _ => cases h
  | start t q => cases h
  | env => cases h

theorem names_le_one {h : History} (hf : Everywhere FreshQueue h) (queueName : String) :
    total (ledger.earns (.queue queueName)) h ≤ 1 := by
  induction h with
  | nil => exact Nat.zero_le _
  | cons a h ih =>
    have ih := ih hf.2
    rw [total] at ih ⊢
    rw [List.countP_cons]
    split_ifs with ha
    · obtain ⟨t,q,uri,name,rfl⟩ := named_of_earns ha
      have hzero : h.countP (Action.meets (fun _ => true) (ledger.earns (.queue queueName))) = 0 := by
        refine List.countP_eq_zero.mpr fun b hb hm => ?_
        obtain ⟨t',q',uri',name',rfl⟩ := named_of_earns hm
        exact hf.1 t' q' uri' name' hb
      omega
    · exact ih

/-- What the maps contain, told by the run. -/
structure Counted (s : State Op Res Request (Shared σ)) : Prop where
  finite : FiniteQueues s.shared
  entered : ∀ queueName name, s.shared.queueNameToUserIdKeyName queueName = some name →
    ∃ t q, .op t q (.insertQueue queueName name) () ∈ s.history
  mapped : ∀ name, mapped s.shared name + total (ledger.earns (.removal name)) s.history =
    total (ledger.spends (.subscription name)) s.history
  counted : ∀ name, (s.shared.keySubscriptionCount name).getD 0 +
    total (ledger.spends (.removal name)) s.history =
      total (ledger.earns (.subscription name)) s.history
  positive : ∀ name num, s.shared.keySubscriptionCount name = some num → 0 < num
  found : ∀ t q name r, .op t q (.discountSubscription name) r ∈ s.history → r = true

theorem covered {B : Backend σ} {c : Config Op Res Failure Request String (Shared σ)}
    (hc : Reach F B c) (x : Ledger) :
    total (ledger.spends x) c.state.history ≤ total (ledger.earns x) c.state.history := by
  refine System.Reach.covered (fun q => ?_) hc (fun _ => true) x
  exact ((marks_handle F q).weaken fun h hm => moment_covers hm).mono fun _ _ _ => trivial

theorem maps_of_unmarked (B : Backend σ) {o : Op} (ho : o.marks = false) (x : Shared σ) :
    (answer B o x).2.keySubscriptionCount = x.keySubscriptionCount ∧
    (answer B o x).2.queueNameToUserIdKeyName = x.queueNameToUserIdKeyName := by
  cases o <;> first | exact ⟨rfl,rfl⟩ | cases ho

/-- The step has to do with none of the accounts of the key. -/
def Aside (a : Action Op Res Request) : Prop := ∀ name,
  Action.meets (fun _ => true) (ledger.earns (.subscription name)) a = false ∧
  Action.meets (fun _ => true) (ledger.spends (.subscription name)) a = false ∧
  Action.meets (fun _ => true) (ledger.earns (.removal name)) a = false ∧
  Action.meets (fun _ => true) (ledger.spends (.removal name)) a = false

theorem total_cons_of_not {P : Event Op Res → Bool} {a : Action Op Res Request} {h : History}
    (ha : Action.meets (fun _ => true) P a = false) : total P (a :: h) = total P h := by
  rw [total,List.countP_cons,ha]
  rfl

theorem Counted.aside {s : State Op Res Request (Shared σ)} (hs : Counted s) {x : Shared σ}
    {a : Action Op Res Request} (hcount : x.keySubscriptionCount = s.shared.keySubscriptionCount)
    (hqueue : x.queueNameToUserIdKeyName = s.shared.queueNameToUserIdKeyName) (ha : Aside a) :
    Counted (s.push x a) where
  finite := by
    have hh := hs.finite
    rwa [FiniteQueues,← hqueue] at hh
  entered queueName name h := by
    rw [State.push_shared,hqueue] at h
    obtain ⟨t,q,hm⟩ := hs.entered queueName name h
    exact ⟨t,q,List.mem_cons_of_mem _ hm⟩
  mapped name := by
    have hh := hs.mapped name
    rw [Subscription.mapped,← hqueue] at hh
    rw [State.push_history,total_cons_of_not (ha name).2.2.1,total_cons_of_not (ha name).2.1]
    exact hh
  counted name := by
    rw [State.push_history,State.push_shared,total_cons_of_not (ha name).2.2.2,
      total_cons_of_not (ha name).1,hcount]
    exact hs.counted name
  positive name num h := hs.positive name num (by rwa [State.push_shared,hcount] at h)
  found t q name r hm := by
    rcases List.mem_cons.mp hm with rfl | hm
    · have hh := (ha name).2.2.2
      simp [Action.meets,ledger] at hh
    · exact hs.found t q name r hm

theorem toNat_decide (p : Prop) [Decidable p] : (decide p).toNat = if p then 1 else 0 := by
  by_cases hp : p <;> simp [hp]

theorem Counted.count {s : State Op Res Request (Shared σ)} (hs : Counted s) {B : Backend σ} (t : ℕ)
    (q : Request) (name : String) :
    Counted (s.push (answer B (.countSubscription name) s.shared).2
      (.op t q (.countSubscription name) ())) := by
  obtain ⟨num,hx,hnum⟩ : ∃ num, (answer B (.countSubscription name) s.shared).2 =
      s.shared.setCount name (some num) ∧ num = (s.shared.keySubscriptionCount name).getD 0 + 1 := by
    cases h : s.shared.keySubscriptionCount name with
    | none => exact ⟨1,by simp [answer,h],by simp⟩
    | some n => exact ⟨n+1,by simp [answer,h],by simp⟩
  have hpos : 0 < num := by
    cases h : s.shared.keySubscriptionCount name with
    | none => simp [hnum,h]
    | some n =>
      have hn := hs.positive name n h
      simp only [hnum,h,Option.getD_some]
      omega
  rw [hx]
  refine ⟨hs.finite,fun queueName name' h => ?_,hs.mapped,fun name' => ?_,fun name' n h => ?_,
    fun t' q' name' r hm => ?_⟩
  · obtain ⟨t',q',hm⟩ := hs.entered queueName name' h
    exact ⟨t',q',List.mem_cons_of_mem _ hm⟩
  · have hh := hs.counted name'
    rw [State.push_history,total_op,total_op,
      show ledger.spends (.removal name') ⟨.countSubscription name,()⟩ = false from rfl,
      show ledger.earns (.subscription name') ⟨.countSubscription name,()⟩ = decide (name = name')
        from rfl,toNat_decide]
    by_cases hn : name' = name
    · subst hn
      simp only [State.push_shared,Shared.setCount,Function.update_self,Option.getD_some,
        Bool.toNat_false,if_true]
      omega
    · simpa [Shared.setCount,hn,Ne.symm hn] using hh
  · by_cases hn : name' = name
    · subst hn
      have he : num = n := by simpa [Shared.setCount] using h
      omega
    · exact hs.positive name' n (by simpa [Shared.setCount,hn] using h)
  · rcases List.mem_cons.mp hm with hm | hm
    · cases hm
    · exact hs.found t' q' name' r hm

/-- A count that is there when a subscription is discounted. -/
theorem Counted.discount {s : State Op Res Request (Shared σ)} (hs : Counted s) {B : Backend σ}
    (t : ℕ) (q : Request) (name : String)
    (hleft : total (ledger.spends (.removal name)) s.history <
      total (ledger.earns (.subscription name)) s.history) :
    (answer B (.discountSubscription name) s.shared).1 = true ∧
    Counted (s.push (answer B (.discountSubscription name) s.shared).2
      (.op t q (.discountSubscription name) (answer B (.discountSubscription name) s.shared).1)) := by
  cases h : s.shared.keySubscriptionCount name with
  | none =>
    have hh := hs.counted name
    rw [h] at hh
    simp only [Option.getD_none] at hh
    omega
  | some num =>
    have hpos := hs.positive name num h
    have hx : answer B (.discountSubscription name) s.shared =
        (true,s.shared.setCount name (if num = 1 then none else some (num - 1))) := by
      simp [answer,h]
    have hval : (if num = 1 then none else some (num - 1)).getD 0 = num - 1 := by
      split_ifs with h1 <;> simp [h1]
    rw [hx]
    refine ⟨rfl,hs.finite,fun queueName name' h => ?_,hs.mapped,fun name' => ?_,fun name' n hn => ?_,
      fun t' q' name' r hm => ?_⟩
    · obtain ⟨t',q',hm⟩ := hs.entered queueName name' h
      exact ⟨t',q',List.mem_cons_of_mem _ hm⟩
    · have hh := hs.counted name'
      rw [State.push_history,total_op,total_op,
        show ledger.earns (.subscription name') ⟨.discountSubscription name,true⟩ = false from rfl,
        show ledger.spends (.removal name') ⟨.discountSubscription name,true⟩ =
          decide (name = name') from rfl,toNat_decide]
      by_cases hn : name' = name
      · subst hn
        rw [h,Option.getD_some] at hh
        simp only [State.push_shared,Shared.setCount,Function.update_self,hval,Bool.toNat_false,
          if_true]
        omega
      · simpa [Shared.setCount,hn,Ne.symm hn] using hh
    · by_cases hname : name' = name
      · subst hname
        have he : (if num = 1 then none else some (num - 1)) = some n := by
          simpa [Shared.setCount] using hn
        split_ifs at he
        have hn1 := Option.some.inj he
        omega
      · exact hs.positive name' n (by simpa [Shared.setCount,hname] using hn)
    · rcases List.mem_cons.mp hm with hm | hm
      · cases hm
        rfl
      · exact hs.found t' q' name' r hm

/-- A queue that nobody has entered yet. -/
theorem Counted.insert {s : State Op Res Request (Shared σ)} (hs : Counted s) (t : ℕ) (q : Request)
    {queueName : String} (hq : s.shared.queueNameToUserIdKeyName queueName = none) (name : String) :
    Counted (s.push (s.shared.setQueue queueName (some name))
      (.op t q (.insertQueue queueName name) ())) := by
  refine ⟨finiteQueues_setQueue hs.finite _ _,fun queueName' name' h => ?_,fun name' => ?_,hs.counted,
    hs.positive,fun t' q' name' r hm => ?_⟩
  · by_cases hn : queueName' = queueName
    · subst hn
      have he : name = name' := by simpa [Shared.setQueue] using h
      exact ⟨t,q,by simp [he]⟩
    · obtain ⟨t',q',hm⟩ := hs.entered queueName' name' (by simpa [Shared.setQueue,hn] using h)
      exact ⟨t',q',List.mem_cons_of_mem _ hm⟩
  · have hh := hs.mapped name'
    rw [State.push_history,State.push_shared,total_op,total_op,mapped_insert hs.finite hq,
      show ledger.earns (.removal name') ⟨.insertQueue queueName name,()⟩ = false from rfl,
      show ledger.spends (.subscription name') ⟨.insertQueue queueName name,()⟩ =
        decide (name = name') from rfl,toNat_decide]
    simp only [Bool.toNat_false]
    omega
  · rcases List.mem_cons.mp hm with hm | hm
    · cases hm
    · exact hs.found t' q' name' r hm

theorem Counted.remove {s : State Op Res Request (Shared σ)} (hs : Counted s) (t : ℕ) (q : Request)
    (queueName : String) :
    Counted (s.push (s.shared.setQueue queueName none)
      (.op t q (.removeQueue queueName) (s.shared.queueNameToUserIdKeyName queueName))) := by
  refine ⟨finiteQueues_setQueue hs.finite _ _,fun queueName' name' h => ?_,fun name' => ?_,hs.counted,
    hs.positive,fun t' q' name' r hm => ?_⟩
  · by_cases hn : queueName' = queueName
    · simp [Shared.setQueue,hn] at h
    · obtain ⟨t',q',hm⟩ := hs.entered queueName' name' (by simpa [Shared.setQueue,hn] using h)
      exact ⟨t',q',List.mem_cons_of_mem _ hm⟩
  · have hh := hs.mapped name'
    have hm := mapped_remove hs.finite queueName name'
    rw [State.push_history,State.push_shared,total_op,total_op,
      show ledger.earns (.removal name') ⟨.removeQueue queueName,
        s.shared.queueNameToUserIdKeyName queueName⟩ =
          decide (s.shared.queueNameToUserIdKeyName queueName = some name') from rfl,
      show ledger.spends (.subscription name') ⟨.removeQueue queueName,
        s.shared.queueNameToUserIdKeyName queueName⟩ = false from rfl,toNat_decide]
    simp only [Bool.toNat_false]
    omega
  · rcases List.mem_cons.mp hm with hm | hm
    · cases hm
    · exact hs.found t' q' name' r hm

theorem aside_of_unmarked {t : ℕ} {q : Request} {o : Op} {r : Res o} (ho : o.marks = false) :
    Aside (.op t q o r) := fun name => by
  have hm (P : Event Op Res → Bool) (hP : ∀ e, P e → e.1.marks = true) :
      Action.meets (fun _ => true) P (.op t q o r) = false := by
    cases hp : P ⟨o,r⟩ with
    | false => simp [Action.meets,hp]
    | true =>
      have hh := hP ⟨o,r⟩ hp
      rw [ho] at hh
      cases hh
  exact ⟨hm _ fun e => (ledger_marks _ e).1,hm _ fun e => (ledger_marks _ e).2,
    hm _ fun e => (ledger_marks _ e).1,hm _ fun e => (ledger_marks _ e).2⟩

theorem total_pos {P : Event Op Res → Bool} {t : ℕ} {q : Request} {o : Op} {r : Res o} {h : History}
    (hm : .op t q o r ∈ h) (hP : P ⟨o,r⟩ = true) : 0 < total P h :=
  List.countP_pos_iff.mpr ⟨_,hm,by simpa [Action.meets] using hP⟩

/-- What the maps contain in every reachable state. -/
theorem reach_counted {B : Backend σ} {c : Config Op Res Failure Request String (Shared σ)}
    (hc : Reach F B c) (hf : Everywhere FreshQueue c.state.history) : Counted c.state := by
  induction hc with
  | init hx =>
    obtain ⟨backend,rfl⟩ := hx
    refine ⟨by simp [FiniteQueues,Shared.new],fun _ _ h => ?_,fun name => ?_,fun name => ?_,
      fun _ _ h => ?_,by simp⟩
    · simp [Shared.new] at h
    · simp [Shared.new,Subscription.mapped,total]
    · simp [Shared.new,total]
    · simp [Shared.new] at h
  | @step c c' a hc hs ih =>
    have hcover := covered F (show Reach F B c' from hc.step hs)
    rw [hs.history] at hf
    have hI := ih hf.2
    cases hs with
    | start fresh begins =>
      obtain rfl := begins
      exact hI.aside rfl rfl fun name => ⟨rfl,rfl,rfl,rfl⟩
    | env moves =>
      obtain ⟨backend,rfl⟩ := moves
      exact hI.aside rfl rfl fun name => ⟨rfl,rfl,rfl,rfl⟩
    | @op t q o k r x runs does =>
      have hr : r = (answer B o c.state.shared).1 := congrArg Prod.fst does.2
      have hx : x = (answer B o c.state.shared).2 := congrArg Prod.snd does.2
      subst hx
      cases ho : o.marks with
      | false =>
        exact hI.aside (maps_of_unmarked B ho _).1 (maps_of_unmarked B ho _).2 (aside_of_unmarked ho)
      | true =>
        cases o with
        | createQueue uri name => exact hI.aside rfl rfl fun name => ⟨rfl,rfl,rfl,rfl⟩
        | countSubscription name => exact hI.count t q name
        | removeQueue queueName =>
          subst hr
          exact hI.remove t q queueName
        | insertQueue queueName name =>
          refine hI.insert t q ?_ name
          cases hq : c.state.shared.queueNameToUserIdKeyName queueName with
          | none => rfl
          | some name' =>
            obtain ⟨t',q',hm⟩ := hI.entered queueName name' hq
            have hone := total_pos (P := ledger.spends (.queue queueName)) hm (by simp [ledger])
            have htwo := hcover (.queue queueName)
            have hle := names_le_one hf.2 queueName
            rw [State.push_history,total_op,total_op,
              show ledger.spends (.queue queueName) ⟨.insertQueue queueName name,r⟩ =
                decide (queueName = queueName) from rfl,
              show ledger.earns (.queue queueName) ⟨.insertQueue queueName name,r⟩ = false from rfl,
              toNat_decide,if_pos rfl,Bool.toNat_false] at htwo
            omega
        | discountSubscription name =>
          have hdis := hcover (.removal name)
          have hsub := hcover (.subscription name)
          have hmap := hI.mapped name
          rw [State.push_history,total_op,total_op,
            show ledger.spends (.removal name) ⟨.discountSubscription name,r⟩ = decide (name = name)
              from rfl,
            show ledger.earns (.removal name) ⟨.discountSubscription name,r⟩ = false from rfl,
            toNat_decide,if_pos rfl,Bool.toNat_false] at hdis
          rw [State.push_history,total_op,total_op,
            show ledger.spends (.subscription name) ⟨.discountSubscription name,r⟩ = false from rfl,
            show ledger.earns (.subscription name) ⟨.discountSubscription name,r⟩ = false from rfl,
            Bool.toNat_false] at hsub
          subst hr
          exact (hI.discount t q name (by omega)).2
        | _ => cases ho

theorem finished_balanced {q : Request} {h : Events} (hf : Finished q h)
    (howner : ∀ queueName name, ⟨.removeQueue queueName,some name⟩ ∈ h → q.userId = getUserId name)
    (name : String) :
    h.countP (ledger.spends (.subscription name)) = h.countP (ledger.earns (.subscription name)) ∧
    h.countP (ledger.spends (.removal name)) = h.countP (ledger.earns (.removal name)) := by
  rw [← countP_marked (fun e => (ledger_marks (.subscription name) e).1),
    ← countP_marked (fun e => (ledger_marks (.subscription name) e).2),
    ← countP_marked (fun e => (ledger_marks (.removal name) e).1),
    ← countP_marked (fun e => (ledger_marks (.removal name) e).2)]
  cases q with
  | subscribe u k start =>
    obtain ⟨hm | ⟨uri,r,hm⟩ | ⟨uri,queueName,hm | hm⟩,hn⟩ := hf
    · simp [hm]
    · simp [hm,ledger]
    · exact absurd hm (hn uri queueName)
    · simp [hm,ledger,List.countP_cons]
  | unsubscribe u queueName =>
    obtain ⟨hm | ⟨r,hm⟩ | ⟨name',r,hm⟩,hn⟩ := hf
    · simp [hm]
    · cases r with
      | none => simp [hm,ledger]
      | some name' =>
        have hmem : ⟨.removeQueue queueName,some name'⟩ ∈ marked h := by simp [hm]
        exact absurd (howner queueName name' (List.mem_of_mem_filter hmem)) (hn name' hm)
    · simp [hm,ledger,List.countP_cons]
  | _ => simp [show marked h = [] from hf]

/-- The user ids of the calls have no colon, the message queue gives no name twice, and queues are
unsubscribed by those who have subscribed them. -/
structure Regular (h : History) : Prop where
  users : ∀ t q, .start t q ∈ h → NoColon q.userId
  fresh : Everywhere FreshQueue h
  own : Everywhere OwnQueue h

def Idle (c : Config Op Res Failure Request String (Shared σ)) : Prop :=
  ∀ t q p, c.threads t = some (q,p) → ∃ r, p = .ofExcept r

section Runs

variable {F} {B : Backend σ} {c : Config Op Res Failure Request String (Shared σ)}

theorem name_of_insert (hc : Reach F B c) {t : ℕ} {q : Request} {queueName name : String}
    (hm : .op t q (.insertQueue queueName name) () ∈ c.state.history) :
    ∃ keyName, name = userIdKeyName q.userId keyName := by
  obtain ⟨past,hs⟩ := suffix_of_mem hm
  have hmoment := hc.traced_op (marks_handle F) hs
  have hmark : marked (⟨.insertQueue queueName name,()⟩ :: events t past) =
      ⟨.insertQueue queueName name,()⟩ :: marked (events t past) := marked_cons _ _
  cases q with
  | subscribe u k start =>
    rcases hmoment with h | ⟨uri,r,h⟩ | ⟨uri,queueName',h | h⟩ <;> rw [hmark] at h
    · cases h
    · cases (List.cons.inj h).1
    · cases (List.cons.inj h).1
    · have hh := (List.cons.inj h).1
      simp only [Sigma.mk.injEq,Op.insertQueue.injEq] at hh
      exact ⟨k,hh.1.2⟩
  | unsubscribe u queueName' =>
    rcases hmoment with h | ⟨r,h⟩ | ⟨name',r,h⟩ <;> rw [hmark] at h
    · cases h
    · cases (List.cons.inj h).1
    · cases (List.cons.inj h).1
  | _ =>
    have h : marked (⟨.insertQueue queueName name,()⟩ :: events t past) = [] := hmoment
    rw [hmark] at h
    cases h

theorem owner_of_removed (hc : Reach F B c) (h : Regular c.state.history) {t : ℕ} {q : Request}
    {queueName name : String} (hm : .op t q (.removeQueue queueName) (some name) ∈ c.state.history) :
    q.userId = getUserId name := by
  obtain ⟨past,hs⟩ := suffix_of_mem hm
  obtain ⟨c₀,c₁,hc₀,rfl,hstep,-⟩ := hc.before hs
  have hsuf := (List.suffix_cons _ _).trans hs
  have hq : c₀.state.shared.queueNameToUserIdKeyName queueName = some name := by
    cases hstep with
    | op runs does => exact (congrArg Prod.fst does.2).symm
  obtain ⟨t',q',hins⟩ := (reach_counted F hc₀ (h.fresh.suffix hsuf)).entered queueName name hq
  obtain ⟨keyName,rfl⟩ := name_of_insert hc₀ hins
  have hown := everywhere_iff.mp h.own _ _ hs
  rw [getUserId_userIdKeyName (h.users t' q' (hsuf.subset (hc₀.start_of_op hins))),
    hown t' q' _ hins]

theorem balanced_of_idle (hc : Reach F B c) (h : Regular c.state.history) (hidle : Idle c)
    (name : String) :
    total (ledger.spends (.subscription name)) c.state.history =
      total (ledger.earns (.subscription name)) c.state.history ∧
    total (ledger.spends (.removal name)) c.state.history =
      total (ledger.earns (.removal name)) c.state.history := by
  have hthread (t : ℕ) : (events t c.state.history).countP (ledger.spends (.subscription name)) =
        (events t c.state.history).countP (ledger.earns (.subscription name)) ∧
      (events t c.state.history).countP (ledger.spends (.removal name)) =
        (events t c.state.history).countP (ledger.earns (.removal name)) := by
    cases ht : c.threads t with
    | none => simp [(hc.traced (marks_handle F) t).1 ht]
    | some x =>
      obtain ⟨q,p⟩ := x
      obtain ⟨r,rfl⟩ := hidle t q p ht
      refine finished_balanced (hc.traced_end (marks_handle F) ht) (fun queueName name' hm => ?_) name
      obtain ⟨q',hm⟩ := mem_events.mp hm
      obtain rfl := ((hc.history_thread t).2 q _ ht).2 q' _ _ hm
      exact owner_of_removed hc h hm
  exact ⟨hc.balanced (fun _ => true) fun t => (hthread t).1,
    hc.balanced (fun _ => true) fun t => (hthread t).2⟩

end Runs

/-- The count of a key is never below the number of its queues, and it is that number whenever no
call is running. No thread finds the count missing, and a change of a key with a queue is always
published. -/
theorem count_covers_queues (B : Backend σ) (c : Config Op Res Failure Request String (Shared σ))
    (hc : Reach F B c) (h : Regular c.state.history) :
    (∀ name, (mapped c.state.shared name : ℤ) ≤ (c.state.shared.keySubscriptionCount name).getD 0) ∧
    (Idle c → ∀ name, c.state.shared.keySubscriptionCount name =
      if mapped c.state.shared name = 0 then none else some (mapped c.state.shared name : ℤ)) ∧
    (∀ t q name r, .op t q (.discountSubscription name) r ∈ c.state.history → r = true) ∧
    ∀ t q name r c', (system F B).Step c (.op t q (.containsSubscription name) r) c' →
      mapped c.state.shared name ≠ 0 → r = true := by
  have hI := reach_counted F hc h.fresh
  have hle (name : String) :
      (mapped c.state.shared name : ℤ) ≤ (c.state.shared.keySubscriptionCount name).getD 0 := by
    have hm := hI.mapped name
    have hn := hI.counted name
    have hsub := covered F hc (.subscription name)
    have hrem := covered F hc (.removal name)
    omega
  refine ⟨hle,fun hidle name => ?_,hI.found,fun t q name r c' hs hm => ?_⟩
  · have hm := hI.mapped name
    have hn := hI.counted name
    obtain ⟨hsub,hrem⟩ := balanced_of_idle hc h hidle name
    cases hv : c.state.shared.keySubscriptionCount name with
    | none =>
      rw [hv,Option.getD_none] at hn
      rw [if_pos (by omega)]
    | some num =>
      have hpos := hI.positive name num hv
      rw [hv,Option.getD_some] at hn
      rw [if_neg (by omega)]
      congr 1
      omega
  · have hr : r = (c.state.shared.keySubscriptionCount name).isSome := by
      cases hs with
      | op runs does => exact congrArg Prod.fst does.2
    cases hv : c.state.shared.keySubscriptionCount name with
    | none =>
      have hh := hle name
      rw [hv,Option.getD_none] at hh
      omega
    | some num => rw [hr,hv]; rfl

/-- An empty storage beside a message queue that is always there. -/
def sampleBackend : Backend Unit where
  change x _ := (.error "Key name not found: ",x)
  readFromKeyPaths x _ := (.ok [],x)
  readFromKeyNames x _ _ := (.ok [("alice::_internal:mq_uri@1",[])],x)
  listKeys x _ _ := (.ok [],x)
  createUserAccount x := (.ok "",x)
  createQueue x _ _ := (.ok "queue-1",x)
  deleteQueue x _ _ := (.ok (),x)
  queueBind x _ _ _ := (.ok (),x)
  publishMessage x _ _ _ := (.ok (),x)

theorem count_covers_queues_sample : ∃ c, Reach sampleFormats sampleBackend c ∧ Idle c ∧
    c.state.shared.queueNameToUserIdKeyName "queue-1" = some "alice::key" ∧
    c.state.shared.keySubscriptionCount "alice::key" = some 1 ∧
    ∀ name, (mapped c.state.shared name : ℤ) ≤ (c.state.shared.keySubscriptionCount name).getD 0 := by
  obtain ⟨c,hc,hthreads,hshared,-,hhistory⟩ := (show Reach sampleFormats sampleBackend
    ⟨⟨.new (),[]⟩,fun _ => none⟩ from .init ⟨(),rfl⟩).serve (F := sampleFormats) (t := 0) rfl
      (.subscribe "alice" "key" 0) rfl
  have hevents : ((handle sampleFormats (.subscribe "alice" "key" 0)).eval (answer sampleBackend)
      (.new ()) []).events = [⟨.unlockWrite,()⟩,⟨.readFromKeyPaths [],.ok []⟩,
        ⟨.listKeys "alice:" true,.ok []⟩,⟨.queueBind "" "queue-1" "alice::key",.ok ()⟩,
        ⟨.insertQueue "queue-1" "alice::key",()⟩,⟨.countSubscription "alice::key",()⟩,
        ⟨.lockWrite,()⟩,⟨.queueBind "" "queue-1" "queue-1",.ok ()⟩,
        ⟨.createQueue "" "",.ok "queue-1"⟩,⟨.unlockGetMqUri,()⟩,
        ⟨.readFromKeyNames "alice" ["_internal:mq_uri"],.ok [("alice::_internal:mq_uri@1",[])]⟩,
        ⟨.lockGetMqUri,()⟩] := by rfl
  rw [hevents] at hhistory
  have hregular : Regular c.state.history := by
    rw [hhistory]
    refine ⟨fun t q hm => ?_,by simp [Everywhere,FreshQueue],by simp [Everywhere,OwnQueue]⟩
    have hq : t = 0 ∧ q = .subscribe "alice" "key" 0 := by simpa using hm
    rw [hq.2]
    exact (by decide : NoColon "alice")
  have hidle : Idle c := fun t q p ht => by
    rw [hthreads] at ht
    by_cases h0 : t = 0
    · subst h0
      rw [Function.update_self] at ht
      exact ⟨_,(Prod.mk.inj (Option.some.inj ht)).2.symm⟩
    · rw [Function.update_of_ne h0] at ht
      cases ht
  exact ⟨c,hc,hidle,by rw [hshared]; rfl,by rw [hshared]; rfl,
    (count_covers_queues sampleFormats sampleBackend c hc hregular).1⟩

end Subscription
end CoLinkServer
