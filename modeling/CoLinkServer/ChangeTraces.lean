import CoLinkServer.SharedLocks
import CoLinkServer.SubscriptionCounts
import CoLinkServer.SubscriptionReplay

/-! What the calls on the storage with subscriptions have done when they publish or bind a queue: a change
has been stored under the lock that readers share, and the past of a key has been read under the lock of
the writer. -/
namespace CoLinkServer
namespace Subscription

open Interleaving BasicStorage

namespace ChangeOrder

variable {M : Type}

/-- Any number of calls at once. Nobody but them changes the storage. -/
def ordinary (F : Formats) (O : Outside M) : System Op Res Failure Request String (Shared (Inner M)) :=
  { system F (basic O) with env := fun s y => ∃ m, y = s.shared.outside m }

def Starts (clock : ℕ → ℤ) (x : Shared (Inner M)) : Prop := ∃ m, x = .new ⟨BasicStorage.empty,clock,m⟩

/-- The runs of a freshly started server whose clock shows these times one after another. -/
abbrev Reach (F : Formats) (O : Outside M) (clock : ℕ → ℤ) :
    Config Op Res Failure Request String (Shared (Inner M)) → Prop :=
  (ordinary F O).Reach (Starts clock)

variable (F : Formats) {O : Outside M} {clock : ℕ → ℤ}

def lockAccount : Account Op Res Mode where
  earns
    | .shared,⟨.lockRead,_⟩ => true
    | .exclusive,⟨.lockWrite,_⟩ => true
    | _,_ => false
  spends
    | .shared,⟨.unlockRead,_⟩ => true
    | .exclusive,⟨.unlockWrite,_⟩ => true
    | _,_ => false

/-- Operations that leave the lock alone. -/
def Op.Free (o : Op) : Prop := ∀ r m, lockAccount.spends m ⟨o,r⟩ = false

section Discipline

variable {α : Type} {e : Mode → ℕ}

theorem moves_free {p : Service α} (hp : p.All Op.Free) : lockAccount.Moves e e p :=
  Account.moves_of_all (fun _ ho => ho) hp

theorem free_try {o : Op} (ho : Op.Free o) {f : Res o → Except String α} :
    (perform o >>= fun r => attempted (f r)).All Op.Free := all_try ho fun r => all_attempted (f r)

theorem free_getMqUri (userId : String) : (getMqUri userId).All Op.Free :=
  (account_getMqUri userId).mono fun o ho => by
    cases o <;> first | exact ho.elim | (intro r m; cases m <;> rfl)

def one (m : Mode) : Mode → ℕ := fun m' => if m' = m then 1 else 0

theorem moves_change (changeType : String) (call : Call Bytes) (payload : Bytes) :
    lockAccount.Moves 0 0 (change F changeType call payload) := by
  refine Account.Moves.guard (c := one .shared)
    (Account.moves_call fun r m => by cases m <;> simp [lockAccount,one]) (moves_free ?_)
    (Account.moves_call fun r m => by cases m <;> simp [lockAccount,one])
  refine (free_try fun r m => by cases m <;> rfl).bind fun keyPath => Prog.All.bind ?_ fun _ => trivial
  refine (all_perform fun r m => by cases m <;> rfl).bind fun subscribed => ?_
  cases subscribed with
  | false => trivial
  | true => exact (free_getMqUri _).bind fun _ => free_try fun r m => by cases m <;> rfl

theorem moves_subscribe (userId keyName : String) (startTimestamp : ℤ) :
    lockAccount.Moves 0 0 (subscribe F userId keyName startTimestamp) := by
  refine (moves_free (free_getMqUri _)).bind fun mqUri =>
    (moves_free (free_try fun r m => by cases m <;> rfl)).bind fun queueName =>
    (moves_free (free_try fun r m => by cases m <;> rfl)).bind fun _ =>
    Account.Moves.bind ?_ fun _ => moves_free trivial
  refine Account.Moves.guard (c := one .exclusive)
    (Account.moves_call fun r m => by cases m <;> simp [lockAccount,one]) (moves_free ?_)
    (Account.moves_call fun r m => by cases m <;> simp [lockAccount,one])
  refine ⟨fun r m => by cases m <;> rfl,fun _ => ⟨fun r m => by cases m <;> rfl,fun _ => ?_⟩⟩
  refine (free_try fun r m => by cases m <;> rfl).bind fun _ => ?_
  exact (replay_replay F mqUri queueName userId keyName startTimestamp).mono fun o ho => by
    cases o <;> first | exact ho.elim | (intro r m; cases m <;> rfl)

theorem moves_handle (q : Request) : lockAccount.Moves 0 0 (handle F q) := by
  cases q with
  | create u k v => exact moves_change F _ _ _
  | update u k v => exact moves_change F _ _ _
  | delete u k => exact moves_change F _ _ _
  | subscribe u k start => exact moves_subscribe F u k start
  | unsubscribe u queueName =>
    refine moves_free (Prog.All.bind ?_ fun _ => trivial)
    refine (all_perform fun r m => by cases m <;> rfl).bind fun r => ?_
    cases r with
    | none => trivial
    | some name =>
      dsimp only
      split_ifs
      · trivial
      · refine (all_perform fun r m => by cases m <;> rfl).bind fun found => ?_
        cases found with
        | false => trivial
        | true => exact (free_getMqUri _).bind fun _ => free_try fun r m => by cases m <;> rfl

end Discipline

def lock (F : Formats) (O : Outside M) (clock : ℕ → ℤ) : SharedLock (ordinary F O) (Starts clock) where
  account := lockAccount
  readers := Shared.readers
  writer := Shared.writer
  free x hx := by
    obtain ⟨m,rfl⟩ := hx
    exact ⟨rfl,rfl⟩
  shares t q o s r y hx he := by
    cases o <;> first | exact hx.1 | cases he
  excludes t q o s r y hx he := by
    cases o <;> first | exact hx.1 | cases he
  reads t q o s r y hx := by
    obtain ⟨-,hy⟩ := hx
    obtain rfl := (Prod.mk.inj hy).2
    cases o with
    | discountSubscription name =>
      cases hc : s.shared.keySubscriptionCount name <;> simp [hc,Shared.setCount,lockAccount]
    | _ => simp [Shared.answer,lockAccount,Shared.setCount,Shared.setQueue]
  writes t q o s r y hx := by
    obtain ⟨henabled,hy⟩ := hx
    obtain rfl := (Prod.mk.inj hy).2
    cases o with
    | discountSubscription name =>
      cases hc : s.shared.keySubscriptionCount name <;> simp [hc,Shared.setCount,lockAccount]
    | lockWrite => simp [lockAccount,show s.shared.writer = false from henabled.1]
    | unlockWrite => cases s.shared.writer <;> rfl
    | _ => simp [Shared.answer,lockAccount,Shared.setCount,Shared.setQueue]
  apart o r he := by
    cases o <;> first | rfl | cases he
  start t q s y hs := by
    obtain rfl : y = s.shared := hs
    exact ⟨rfl,rfl⟩
  env s y hs := by
    obtain ⟨m,rfl⟩ := hs
    exact ⟨rfl,rfl⟩

/-- The change that a request asks for: how it is announced, the call and the value. -/
def asks : Request → Option (String × Call Bytes × Bytes)
  | .create userId keyName value => some ("create",.create userId keyName value,value)
  | .update userId keyName value => some ("update",.update userId keyName value,value)
  | .delete userId keyName => some ("delete",.delete userId keyName,[])
  | _ => none

/-- A change is announced once, after it has been stored and while the lock is held. -/
def Notice (q : Request) (key : String) (message : Bytes) (h : Events) : Prop :=
  ∃ changeType call value path, asks q = some (changeType,call,value) ∧ key = routingKey F call.name ∧
    message = F.subscriptionMessage.encode ⟨changeType,path,value⟩ ∧
    [⟨.change call,.ok path⟩,⟨.lockRead,()⟩] <:+ h ∧
    ∀ e ∈ h, e.1.isPublish = false ∧ lockAccount.spends .shared e = false

/-- What is replayed to a queue has been read while the lock was held, and the entries before it have
been replayed before. -/
def Replays (q : Request) (mqUri queueName : String) (message : Bytes) (h : Events) : Prop :=
  ∃ u k start, q = .subscribe u k start ∧ ⟨.createQueue mqUri "",.ok queueName⟩ ∈ h ∧
    ∃ keyList valid sent path value rest opening,
      validKeyPaths (userIdKeyName u k) start keyList = some valid ∧
      message = F.subscriptionMessage.encode ⟨"in-storage",path,value⟩ ∧
      h = (sent.map (told F mqUri queueName)).reverse ++
        ⟨.readFromKeyPaths valid,.ok (sent ++ (path,value) :: rest)⟩ :: opening ∧
      ⟨.lockWrite,()⟩ ∈ opening ∧
      ∀ e ∈ opening, e.1.isPublish = false ∧ lockAccount.spends .exclusive e = false

/-- A queue is bound by the call that has created it: to its own name, and under the lock to the key. -/
def Binds (q : Request) (mqUri queueName key : String) (h : Events) : Prop :=
  ∃ u k start, q = .subscribe u k start ∧ ⟨.createQueue mqUri "",.ok queueName⟩ ∈ h ∧
    (key = queueName ∨ key = routingKey F (userIdKeyName u k) ∧ ⟨.lockWrite,()⟩ ∈ h)

/-- What has to hold when the newest event happens. -/
def Obligation (q : Request) : Events → Prop
  | ⟨.publishMessage mqUri key message,_⟩ :: h =>
      Notice F q key message h ∨ Replays F q mqUri key message h
  | ⟨.queueBind mqUri queueName key,_⟩ :: h => Binds F q mqUri queueName key h
  | _ => True

/-- Operations without an obligation, that are not about the lock either. -/
def Plain : Op → Prop
  | .publishMessage _ _ _ => False
  | .queueBind _ _ _ => False
  | .lockRead => False
  | .unlockRead => False
  | .lockWrite => False
  | .unlockWrite => False
  | _ => True

section Traces

variable {q : Request} {h : Events} {α : Type}

theorem Plain.obligation {e : Event Op Res} (he : Plain e.1) : Obligation F q (e :: h) := by
  obtain ⟨o,r⟩ := e
  cases o <;> first | exact trivial | exact he.elim

theorem Plain.quiet {e : Event Op Res} (he : Plain e.1) :
    e.1.isPublish = false ∧ ∀ m, lockAccount.spends m e = false := by
  obtain ⟨o,r⟩ := e
  cases o <;> first | exact he.elim | exact ⟨rfl,fun m => by cases m <;> rfl⟩

theorem traced_plain {p : Service α} (hp : p.All Plain) : p.Traced (Obligation F q) h
    fun _ h' => ∃ added, h' = added ++ h ∧ ∀ e ∈ added, Plain e.1 :=
  Prog.Traced.adds hp fun _ _ _ he => Plain.obligation F he

theorem plain_getMqUri (userId : String) : (getMqUri userId).All Plain :=
  (account_getMqUri userId).mono fun o ho => by cases o <;> trivial

theorem plain_try {o : Op} (ho : Plain o) {f : Res o → Except String α} :
    (perform o >>= fun r => attempted (f r)).All Plain := all_try ho fun r => all_attempted (f r)

theorem traced_guard {acquire release : Service Unit} {body : Service α} {A : Events → Prop}
    (ha : acquire.Traced (Obligation F q) h fun _ => A)
    (hb : ∀ h', A h' → body.Traced (Obligation F q) h' fun _ _ => True)
    (hr : ∀ h', release.Traced (Obligation F q) h' fun _ _ => True) :
    (Prog.bracket acquire release body).Traced (Obligation F q) h fun _ _ => True := by
  refine Prog.Traced.bind (ha.mono fun r h₁ hA => ?_)
  cases r with
  | error e => trivial
  | ok _ =>
    refine Prog.Traced.bind (Prog.Traced.attempt ((hb h₁ hA).mono fun r h₂ _ => ?_))
    refine Prog.Traced.bind ((hr h₂).mono fun r' h₃ _ => ?_)
    cases r' with
    | error e => trivial
    | ok _ => exact Prog.Traced.ofExcept trivial

theorem traced_ret {β : Type} {p : Service α} (b : β)
    (hp : p.Traced (Obligation F q) h fun _ _ => True) :
    (p >>= fun _ => (.ret b : Service β)).Traced (Obligation F q) h fun _ _ => True :=
  Prog.Traced.bind (hp.mono fun r _ _ => by cases r <;> trivial)

theorem traced_publishChange {changeType path : String} {call : Call Bytes} {value : Bytes}
    (hq : asks q = some (changeType,call,value))
    (hstored : [⟨.change call,.ok path⟩,⟨.lockRead,()⟩] <:+ h)
    (hquiet : ∀ e ∈ h, e.1.isPublish = false ∧ lockAccount.spends .shared e = false) :
    (publishChange F call.userId call.keyName changeType path value).Traced (Obligation F q) h
      fun _ _ => True := by
  intro subscribed
  refine ⟨trivial,?_⟩
  cases (subscribed : Bool) with
  | false => trivial
  | true =>
    refine Prog.Traced.bind (p := getMqUri call.userId) ((traced_plain F (plain_getMqUri _)).mono
      fun r h' hh => ?_)
    obtain ⟨added,rfl,hadded⟩ := hh
    cases r with
    | error e => trivial
    | ok mqUri =>
      refine fun r => ⟨.inl ⟨changeType,call,value,path,hq,rfl,rfl,?_,fun e he => ?_⟩,?_⟩
      · exact hstored.trans ((List.suffix_cons _ _).trans (List.suffix_append _ _))
      · rcases List.mem_append.mp he with he | he
        · have hplain := Plain.quiet (hadded e he)
          exact ⟨hplain.1,hplain.2 _⟩
        · rcases List.mem_cons.mp he with rfl | he
          · exact ⟨rfl,rfl⟩
          · exact hquiet e he
      · cases r <;> trivial

theorem traced_change {changeType : String} {call : Call Bytes} {value : Bytes}
    (hq : asks q = some (changeType,call,value)) :
    (change F changeType call value).Traced (Obligation F q) [] fun _ _ => True := by
  refine traced_guard F (A := fun h => h = [⟨.lockRead,()⟩]) (fun _ => ⟨trivial,rfl⟩) ?_
    fun _ _ => ⟨trivial,trivial⟩
  rintro _ rfl r
  refine ⟨trivial,?_⟩
  cases r with
  | error e => trivial
  | ok path =>
    refine traced_ret F path (traced_publishChange F hq List.suffix_rfl fun e he => ?_)
    simp only [List.mem_cons,List.not_mem_nil,or_false] at he
    rcases he with rfl | rfl <;> exact ⟨rfl,rfl⟩

/-- The rounds of a replay, each after those before it. -/
theorem traced_replay {u k : String} {start : ℤ} {mqUri queueName : String}
    (hq : q = .subscribe u k start) (hcreated : ⟨.createQueue mqUri "",.ok queueName⟩ ∈ h)
    (hlock : ⟨.lockWrite,()⟩ ∈ h)
    (hquiet : ∀ e ∈ h, e.1.isPublish = false ∧ lockAccount.spends .exclusive e = false) :
    (replay F mqUri queueName u k start).Traced (Obligation F q) h fun _ _ => True := by
  intro keys
  refine ⟨trivial,?_⟩
  cases keys with
  | error e => trivial
  | ok keyList =>
    cases hvalid : validKeyPaths (userIdKeyName u k) start keyList with
    | none =>
      show Prog.Traced _ (unwrap (validKeyPaths (userIdKeyName u k) start keyList) >>= _) _ _
      rw [hvalid]
      trivial
    | some valid =>
      show Prog.Traced _ (unwrap (validKeyPaths (userIdKeyName u k) start keyList) >>= _) _ _
      rw [hvalid]
      intro entries
      refine ⟨trivial,?_⟩
      cases entries with
      | error e => trivial
      | ok res =>
        let base : Events := ⟨.readFromKeyPaths valid,.ok res⟩ ::
          ⟨.listKeys (getPrefix u k) true,.ok keyList⟩ :: h
        refine (Prog.Traced.foldlM (J := fun rest _ h' => ∃ sent, sent ++ rest = res ∧
          h' = (sent.map (told F mqUri queueName)).reverse ++ base) (fun entry rest _ h' hj => ?_)
          (h := base) ⟨[],rfl,rfl⟩).mono fun _ _ _ => trivial
        obtain ⟨sent,rfl,rfl⟩ := hj
        refine fun r => ⟨.inr ⟨u,k,start,hq,?_,keyList,valid,sent,entry.1,entry.2,rest,_,hvalid,rfl,rfl,
          List.mem_cons_of_mem _ hlock,fun e he => ?_⟩,?_⟩
        · exact List.mem_append_right _ (List.mem_cons_of_mem _ (List.mem_cons_of_mem _ hcreated))
        · rcases List.mem_cons.mp he with rfl | he
          · exact ⟨rfl,rfl⟩
          · exact hquiet e he
        · cases r with
          | error e => trivial
          | ok _ => exact ⟨sent ++ [entry],by simp,by simp [told]⟩

theorem traced_subscribe {u k : String} {start : ℤ} (hq : q = .subscribe u k start) :
    (subscribe F u k start).Traced (Obligation F q) [] fun _ _ => True := by
  refine Prog.Traced.bind ((traced_plain F (plain_getMqUri u)).mono fun r h hh => ?_)
  obtain ⟨added,rfl,hadded⟩ := hh
  cases r with
  | error e => trivial
  | ok mqUri =>
    refine fun created => ⟨trivial,?_⟩
    cases created with
    | error e => trivial
    | ok queueName =>
      refine fun bound => ⟨⟨u,k,start,hq,List.mem_cons_self ..,.inl rfl⟩,?_⟩
      cases bound with
      | error e => trivial
      | ok _ =>
        let opening : Events := ⟨.queueBind mqUri queueName queueName,.ok ()⟩ ::
          ⟨.createQueue mqUri "",.ok queueName⟩ :: (added ++ [])
        have hquiet : ∀ e ∈ opening, e.1.isPublish = false ∧ lockAccount.spends .exclusive e = false := by
          intro e he
          simp only [opening,List.append_nil,List.mem_cons] at he
          rcases he with rfl | rfl | he
          · exact ⟨rfl,rfl⟩
          · exact ⟨rfl,rfl⟩
          · have hplain := Plain.quiet (hadded e he)
            exact ⟨hplain.1,hplain.2 _⟩
        have hsection : (Prog.bracket (perform .lockWrite) (perform .unlockWrite)
            (register F mqUri queueName u k start)).Traced (Obligation F q) opening fun _ _ => True := by
          refine traced_guard F (A := fun h => h = ⟨.lockWrite,()⟩ :: opening)
            (fun _ => ⟨trivial,rfl⟩) ?_ fun _ _ => ⟨trivial,trivial⟩
          rintro _ rfl
          refine fun _ => ⟨trivial,fun _ => ⟨trivial,fun bound => ⟨⟨u,k,start,hq,?_,.inr ⟨rfl,?_⟩⟩,?_⟩⟩⟩
          · simp [opening]
          · simp
          · cases bound with
            | error e => trivial
            | ok _ =>
              refine traced_replay F hq (by simp [opening]) (by simp) fun e he => ?_
              simp only [List.mem_cons] at he
              rcases he with rfl | rfl | rfl | rfl | he
              · exact ⟨rfl,rfl⟩
              · exact ⟨rfl,rfl⟩
              · exact ⟨rfl,rfl⟩
              · exact ⟨rfl,rfl⟩
              · exact hquiet e (by simpa [opening] using he)
        exact traced_ret F queueName hsection

theorem traced_handle (q : Request) : (handle F q).Traced (Obligation F q) [] fun _ _ => True := by
  cases q with
  | create u k v => exact traced_change F rfl
  | update u k v => exact traced_change F rfl
  | delete u k => exact traced_change F rfl
  | subscribe u k start => exact traced_subscribe F rfl
  | unsubscribe u queueName =>
    have hplain : (unsubscribe u queueName).All Plain := by
      refine (all_perform (o := .removeQueue queueName) trivial).bind fun r => ?_
      cases r with
      | none => trivial
      | some name =>
        dsimp only
        split_ifs
        · trivial
        · refine (all_perform (o := .discountSubscription name) trivial).bind fun found => ?_
          cases (found : Bool) with
          | false => trivial
          | true => exact (plain_getMqUri _).bind fun mqUri =>
              plain_try (o := .deleteQueue mqUri queueName) trivial
    exact traced_ret F "" ((traced_plain F hplain).mono fun _ _ _ => trivial)

end Traces

end ChangeOrder
end Subscription
end CoLinkServer
