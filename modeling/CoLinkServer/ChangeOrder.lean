import CoLinkServer.ChangeTraces
import CoLinkServer.DirectExchange
import CoLinkServer.Schedules
import Mathlib.Data.Int.ConditionallyCompleteOrder

/-! In which order the changes of a key reach its subscribers. A change is stored and announced in two
steps, and the past of a key is replayed as a hash map is iterated over, so the order is that of the
versions only if no writer overtakes another one between the two steps. -/
namespace CoLinkServer
namespace Subscription

open Interleaving BasicStorage

namespace ChangeOrder

variable {M : Type} (F : Formats) {O : Outside M} {clock : ℕ → ℤ}

def Action.isChange : Action Op Res Request → Bool
  | .op _ _ (.change _) _ => true
  | _ => false

/-- How often the clock has been read. -/
def readings (h : History) : ℕ := h.countP Action.isChange

theorem readings_change (t : ℕ) (q : Request) (call : Call Bytes) (r : Except String String) (h : History) :
    readings (.op t q (.change call) r :: h) = readings h + 1 := by
  simp [readings,List.countP_cons,Action.isChange]

theorem readings_other {t : ℕ} {q : Request} {o : Op} {r : Res o} (ho : ∀ call, o ≠ .change call)
    (h : History) : readings (.op t q o r :: h) = readings h := by
  cases o with
  | change call => exact absurd rfl (ho call)
  | _ => simp [readings,Action.isChange]

section Storage

variable {F} {c : Config Op Res Failure Request String (Shared (Inner M))} {t : ℕ} {q : Request}
  {past : History}

theorem exec_before (hc : Reach F O clock c) {o : Op} {r : Res o}
    (hs : .op t q o r :: past <:+ c.state.history) : ∃ c₀ c₁, Reach F O clock c₀ ∧ Reach F O clock c₁ ∧
      c₀.state.history = past ∧ c₁.state.history = .op t q o r :: past ∧
      (r,c₁.state.shared) = answer (basic O) o c₀.state.shared := by
  obtain ⟨c₀,c₁,hc₀,hh,hstep,hh'⟩ := hc.before hs
  refine ⟨c₀,c₁,hc₀,hc₀.step hstep,hh,hh',?_⟩
  cases hstep with
  | op runs does => exact does.2

theorem answer_inner {o : Op} (ho : ∀ call, o ≠ .change call) (x : Shared (Inner M)) :
    (answer (basic O) o x).2.backend.maps = x.backend.maps ∧
    (answer (basic O) o x).2.backend.clock = x.backend.clock := by
  cases o with
  | change call => exact absurd rfl (ho call)
  | discountSubscription name =>
    cases hcount : x.keySubscriptionCount name <;> simp [answer,hcount,Shared.setCount]
  | _ => exact ⟨rfl,rfl⟩

theorem clock_eq (hc : Reach F O clock c) :
    c.state.shared.backend.clock = fun n => clock (n + readings c.state.history) := by
  induction hc with
  | init hx =>
    obtain ⟨m,rfl⟩ := hx
    rfl
  | @step c c' a hc s ih =>
    cases s with
    | start fresh begins =>
      obtain rfl := (show _ = c.state.shared from begins)
      exact ih
    | env moves =>
      obtain ⟨m,rfl⟩ := moves
      exact ih
    | @op t q o k r x runs does =>
      obtain rfl := (Prod.mk.inj does.2).2
      rw [State.push_shared,State.push_history]
      by_cases hchange : ∃ call, o = .change call
      · obtain ⟨call,rfl⟩ := hchange
        funext n
        show c.state.shared.backend.clock (n + 1) = _
        rw [ih,readings_change]
        exact congrArg clock (by omega)
      · rw [readings_other fun call he => hchange ⟨call,he⟩]
        exact (answer_inner (fun call he => hchange ⟨call,he⟩) c.state.shared).2.trans ih

/-- Every value has been written, and is found under the key path that the write has returned. -/
theorem write_of_value (hc : Reach F O clock c) {path : String} {v : Bytes}
    (hv : c.state.shared.backend.maps.keyPathToValue path = some v) : ∃ t q call past,
      call.value? = some v ∧ .op t q (.change call) (.ok path) :: past <:+ c.state.history := by
  induction hc with
  | init hx =>
    obtain ⟨m,rfl⟩ := hx
    cases hv
  | @step c c' a hc s ih =>
    have hold (hv : c.state.shared.backend.maps.keyPathToValue path = some v) : ∃ t q call past,
        call.value? = some v ∧ .op t q (.change call) (.ok path) :: past <:+ a :: c.state.history := by
      obtain ⟨t,q,call,past,hvalue,hs⟩ := ih hv
      exact ⟨t,q,call,past,hvalue,hs.trans (List.suffix_cons _ _)⟩
    cases s with
    | start fresh begins =>
      obtain rfl := (show _ = c.state.shared from begins)
      exact hold hv
    | env moves =>
      obtain ⟨m,rfl⟩ := moves
      exact hold hv
    | @op t q o k r x runs does =>
      obtain ⟨hr,rfl⟩ := Prod.mk.inj does.2
      by_cases hchange : ∃ call, o = .change call
      · obtain ⟨call,rfl⟩ := hchange
        let b := c.state.shared.backend
        replace hv : (BasicStorage.perform b.maps (b.clock 0) call).2.keyPathToValue path = some v := hv
        replace hr : r = (BasicStorage.perform b.maps (b.clock 0) call).1 := hr
        rcases perform_cases b.maps (b.clock 0) call with ⟨-,hok,-,hvalues⟩ | ⟨-,-,hmaps⟩
        · cases hvalue : call.value? with
          | none =>
            rw [hvalues,hvalue] at hv
            exact hold hv
          | some w =>
            rw [hvalues,hvalue] at hv
            by_cases hp : path = atTimestamp call.name (stamp (b.clock 0) call)
            · subst hp
              have hvw : w = v := by simpa using hv
              subst hvw
              exact ⟨t,q,call,_,hvalue,by rw [State.push_history,hr,hok]⟩
            · exact hold (by simpa [hp] using hv)
        · rw [hmaps] at hv
          exact hold hv
      · have hmaps := (answer_inner (O := O) (fun call he => hchange ⟨call,he⟩) c.state.shared).1
        exact hold ((congrArg (·.keyPathToValue path) hmaps).symm.trans hv)

/-- A write returns the key path of its reading of the clock, and is what is read afterwards. -/
theorem write_spec (hc : Reach F O clock c) {call : Call Bytes} {path u k : String} {v : Bytes}
    (hs : .op t q (.change call) (.ok path) :: past <:+ c.state.history) (hv : call.value? = some v)
    (hname : call.name = userIdKeyName u k) : path = keyPath u k (clock (readings past)) ∧
    ∃ c', Reach F O clock c' ∧ c'.state.history = .op t q (.change call) (.ok path) :: past ∧
      readKeyName c'.state.shared.backend.maps u k = .ok v := by
  obtain ⟨c₀,c₁,hc₀,hc₁,rfl,hh,he⟩ := exec_before hc hs
  let b := c₀.state.shared.backend
  have hr : (.ok path : Except String String) = (BasicStorage.perform b.maps (b.clock 0) call).1 :=
    (Prod.mk.inj he).1
  have hmaps : c₁.state.shared.backend.maps = (BasicStorage.perform b.maps (b.clock 0) call).2 := by
    rw [(Prod.mk.inj he).2]
    rfl
  have hnow : b.clock 0 = clock (readings c₀.state.history) := by
    rw [show b.clock = _ from clock_eq hc₀]
    simp
  rcases perform_cases b.maps (b.clock 0) call with ⟨-,hok,htime,hvalues⟩ | ⟨-,⟨e,herr⟩,-⟩
  · have hpath : path = atTimestamp call.name (b.clock 0) := by
      have hstamp : stamp (b.clock 0) call = b.clock 0 := stamp_of_value hv
      rw [← hstamp]
      exact Except.ok.inj (hr.trans hok)
    refine ⟨by rw [hpath,hnow,hname,atTimestamp_userIdKeyName],c₁,hc₁,hh,readKeyName_eq_ok.mpr ?_⟩
    rw [hmaps,value_eq,htime,← hname,Function.update_self,Option.bind_some,hvalues,hv]
    simp
  · rw [herr] at hr
    cases hr

/-- What is read by key path has been written before. -/
theorem write_of_entry (hc : Reach F O clock c) {paths : List String} {res : Payloads} {path : String}
    {v : Bytes} (hs : .op t q (.readFromKeyPaths paths) (.ok res) :: past <:+ c.state.history)
    (hm : (path,v) ∈ res) : path ∈ paths ∧ ∃ t q call past', call.value? = some v ∧
      .op t q (.change call) (.ok path) :: past' <:+ past := by
  obtain ⟨c₀,c₁,hc₀,-,rfl,-,he⟩ := exec_before hc hs
  let b := c₀.state.shared.backend
  have hr : (.ok res : Except String Payloads) =
      (BasicStorage.readFromKeyPaths b.maps paths).map (O.entryOrder b.outside) := (Prod.mk.inj he).1
  cases hentries : BasicStorage.readFromKeyPaths b.maps paths with
  | error e =>
    rw [hentries] at hr
    cases hr
  | ok entries =>
    rw [hentries] at hr
    obtain rfl : res = O.entryOrder b.outside entries := Except.ok.inj hr
    have hlookup := (O.mem_entryOrder b.outside entries path v).mp hm
    have hpresent : ∀ path ∈ paths, b.maps.keyPathToValue path ≠ none := by
      by_contra hn
      push Not at hn
      obtain ⟨e,herr⟩ := (readFromKeyPaths_cases b.maps paths).2 hn
      rw [herr] at hentries
      cases hentries
    obtain ⟨entries',hok,hentry⟩ := (readFromKeyPaths_cases b.maps paths).1 hpresent
    obtain rfl := Except.ok.inj (hentries.symm.trans hok)
    obtain ⟨hpath,hv⟩ := (hentry path v).mp hlookup
    exact ⟨hpath,write_of_value hc₀ hv⟩

end Storage

/-- What an operation is to the message queue. Every user has an exchange of its own. -/
def mqCall : Action Op Res Request → Option (DirectExchange.Call (String × String) (String × String) Bytes)
  | .op _ _ (.createQueue mqUri _) (.ok queueName) => some (.declare (mqUri,queueName))
  | .op _ _ (.deleteQueue mqUri queueName) (.ok _) => some (.delete (mqUri,queueName))
  | .op _ _ (.queueBind mqUri queueName key) (.ok _) => some (.bind (mqUri,queueName) (mqUri,key))
  | .op _ _ (.publishMessage mqUri key payload) (.ok _) => some (.publish (mqUri,key) payload)
  | _ => none

/-- The messages about creations and updates that stand in a queue, the oldest first. -/
def changes (h : History) (mqUri queueName : String) : List SubscriptionMessage :=
  (((DirectExchange.after mqCall h).held (mqUri,queueName)).filterMap F.subscriptionMessage.decode).filter
    fun m => m.changeType ≠ "delete"

/-- A name under which no change is announced. -/
def PlainName (queueName : String) : Prop :=
  ¬ "::".toList <:+: queueName.toList ∧ ¬ "sha256:".toList <+: queueName.toList

instance (queueName : String) : Decidable (PlainName queueName) := inferInstanceAs (Decidable (_ ∧ _))

/-- A new queue has a name of its own, which is not the routing key of any key name. -/
def NewQueue : Action Op Res Request → History → Prop
  | .op _ _ (.createQueue mqUri _) (.ok queueName),past => PlainName queueName ∧
      ∀ t q name, .op t q (.createQueue mqUri name) (.ok queueName) ∉ past
  | _,_ => True

def write : Request → Option (Call Bytes)
  | .create userId keyName value => some (.create userId keyName value)
  | .update userId keyName value => some (.update userId keyName value)
  | _ => none

/-- The thread has announced its change, or has given the lock back. -/
def Settled (t : ℕ) (h : History) : Prop :=
  ∃ e ∈ events t h, e.1.isPublish = true ∨ lockAccount.spends .shared e = true

/-- A write is announced only when all earlier writes of the key have been. -/
def InTurn : Action Op Res Request → History → Prop
  | .op t q (.publishMessage _ _ _) _,past => ∀ call path earlier, write q = some call →
      .op t q (.change call) (.ok path) :: earlier <:+ past → ∀ t' q' call' path', t' ≠ t →
      write q' = some call' → call'.name = call.name →
      .op t' q' (.change call') (.ok path') ∈ earlier → Settled t' past
  | _,_ => True

/-- The entries that are replayed come in the order of their timestamps. -/
def Chronological : Action Op Res Request → History → Prop
  | .op _ (.subscribe u k _) (.readFromKeyPaths _) (.ok res),_ => res.Pairwise fun e e' =>
      ∀ s s', e.1 = keyPath u k s → e'.1 = keyPath u k s' → s < s'
  | _,_ => True

/-- No write overtakes another one, the hash maps are iterated over in order, and different keys have
different routing keys. -/
structure Orderly (h : History) : Prop where
  inTurn : Everywhere InTurn h
  chronological : Everywhere Chronological h
  keys : ∀ t q call t' u k start, .start t q ∈ h → write q = some call →
    .start t' (.subscribe u k start) ∈ h → routingKey F call.name = routingKey F (userIdKeyName u k) →
    call.name = userIdKeyName u k

/-- The message is announced by the thread that has stored what it says, which holds the lock, to the
queue of a thread that has had the lock already. -/
def Announced (u k : String) (t : ℕ) (m : SubscriptionMessage) (t' : ℕ) (q : Request) (past : History) :
    Prop :=
  ∃ call earlier, write q = some call ∧ call.value? = some m.payload ∧ call.name = userIdKeyName u k ∧
    .op t' q (.change call) (.ok m.keyPath) :: earlier <:+ past ∧ events t' earlier = [⟨.lockRead,()⟩] ∧
    (∀ e ∈ events t' past, e.1.isPublish = false ∧ lockAccount.spends .shared e = false) ∧
    ⟨.lockWrite,()⟩ ∈ events t past

/-- The message is replayed by the thread that has the queue, after those before it. -/
def Replayed (u k : String) (start : ℤ) (mqUri queueName : String) (t : ℕ) (m : SubscriptionMessage)
    (past : History) : Prop :=
  ∃ keyList valid sent rest opening, validKeyPaths (userIdKeyName u k) start keyList = some valid ∧
    events t past = (sent.map (told F mqUri queueName)).reverse ++
      ⟨.readFromKeyPaths valid,.ok (sent ++ (m.keyPath,m.payload) :: rest)⟩ :: opening ∧
    ⟨.lockWrite,()⟩ ∈ opening ∧
    ∀ e ∈ opening, e.1.isPublish = false ∧ lockAccount.spends .exclusive e = false

theorem routingKey_not_plain (u k : String) : ¬ PlainName (routingKey F (userIdKeyName u k)) := by
  rintro ⟨hcolons,hhash⟩
  unfold routingKey at hcolons hhash
  split_ifs at hcolons hhash
  · exact hhash ⟨_,String.toList_append.symm⟩
  · refine hcolons ⟨u.toList,k.toList,?_⟩
    simp [userIdKeyName]

example : PlainName "colink--mn3vx8cw:0a1b2c3d4e5f6a7b8c9d0e1f" := by decide

section Queues

variable {F} {c : Config Op Res Failure Request String (Shared (Inner M))} {t : ℕ} {u k : String} {start : ℤ}
  {mqUri queueName : String}

theorem creator_unique {h : History} (hmq : Everywhere NewQueue h) {t' : ℕ} {q q' : Request}
    {name name' : String} (hm : .op t q (.createQueue mqUri name) (.ok queueName) ∈ h)
    (hm' : .op t' q' (.createQueue mqUri name') (.ok queueName) ∈ h) : t = t' ∧ q = q' := by
  rcases before_or_after hm hm' with he | ⟨past,hs,hp⟩ | ⟨past,hs,hp⟩
  · cases he
    exact ⟨rfl,rfl⟩
  · exact absurd hp ((everywhere_iff.mp hmq _ _ hs).2 t' q' name')
  · exact absurd hp ((everywhere_iff.mp hmq _ _ hs).2 t q name)

/-- A queue is bound by the call that has created it. -/
theorem bound_of_queue (hc : Reach F O clock c) (hmq : Everywhere NewQueue c.state.history)
    (hsub : .op t (.subscribe u k start) (.createQueue mqUri "") (.ok queueName) ∈ c.state.history)
    {past : History} (hpast : past <:+ c.state.history) {mqUri' key : String}
    (hb : ((mqUri,queueName),(mqUri',key)) ∈ (DirectExchange.after mqCall past).bindings) :
    mqUri' = mqUri ∧ (key = queueName ∨ key = routingKey F (userIdKeyName u k) ∧
      ⟨.lockWrite,()⟩ ∈ events t past) := by
  obtain ⟨a,ha,hcall⟩ := DirectExchange.bind_of_mem hb
  unfold mqCall at hcall
  split at hcall <;> simp only [Option.some.injEq,reduceCtorEq,DirectExchange.Call.bind.injEq,
    Prod.mk.injEq] at hcall
  rename_i t' q' mqUri₁ queueName₁ key₁ _
  obtain ⟨⟨rfl,rfl⟩,rfl,rfl⟩ := hcall
  obtain ⟨past₁,hs₁⟩ := suffix_of_mem ha
  have hbinds : Binds F q' mqUri₁ queueName₁ key₁ (events t' past₁) :=
    hc.traced_op (traced_handle F) (hs₁.trans hpast)
  obtain ⟨u',k',start',rfl,hcreated,hkey⟩ := hbinds
  obtain ⟨q₁,hcreated⟩ := mem_events.mp hcreated
  have hbefore := (List.suffix_cons _ past₁).trans hs₁
  obtain ⟨rfl,rfl⟩ := creator_unique hmq hsub ((hbefore.trans hpast).subset hcreated)
  obtain ⟨rfl,rfl,rfl⟩ := Request.subscribe.inj
    (hc.same_request ((hs₁.trans hpast).subset (List.mem_cons_self ..)) hsub)
  refine ⟨rfl,hkey.imp_right fun hkey => ⟨hkey.1,?_⟩⟩
  exact (hbefore.filterMap (Action.event t)).subset hkey.2

theorem write_of_asks {q : Request} {changeType : String} {call : Call Bytes} {value : Bytes}
    (hq : asks q = some (changeType,call,value)) (hd : changeType ≠ "delete") :
    write q = some call ∧ call.value? = some value := by
  cases q with
  | delete u k =>
    cases hq
    exact absurd rfl hd
  | _ => first | (cases hq; exact ⟨rfl,rfl⟩) | cases hq

/-- What reaches a queue has been announced or replayed. -/
theorem source_of_reaches (hc : Reach F O clock c) (hmq : Everywhere NewQueue c.state.history)
    (hkeys : Orderly F c.state.history)
    (hsub : .op t (.subscribe u k start) (.createQueue mqUri "") (.ok queueName) ∈ c.state.history)
    {a : Action Op Res Request} {past : History} (hs : a :: past <:+ c.state.history) {b : Bytes}
    (hr : DirectExchange.Reaches mqCall (mqUri,queueName) b a past) {m : SubscriptionMessage}
    (hm : F.subscriptionMessage.decode b = some m) (hd : m.changeType ≠ "delete") :
    ∃ t' q key, a = .op t' q (.publishMessage mqUri key b) (.ok ()) ∧
      (Announced u k t m t' q past ∨ t' = t ∧ key = queueName ∧
        b = F.subscriptionMessage.encode ⟨"in-storage",m.keyPath,m.payload⟩ ∧
        Replayed F u k start mqUri queueName t m past) := by
  obtain ⟨key,hcall,hbound⟩ := hr
  unfold mqCall at hcall
  split at hcall <;> simp only [Option.some.injEq,reduceCtorEq,DirectExchange.Call.publish.injEq] at hcall
  rename_i t' q mqUri₁ key₁ payload _
  obtain ⟨rfl,rfl⟩ := hcall
  have hpast := (List.suffix_cons _ past).trans hs
  obtain ⟨rfl,hkey⟩ := bound_of_queue hc hmq hsub hpast hbound
  have hplain : PlainName queueName := by
    obtain ⟨before,hs'⟩ := suffix_of_mem hsub
    exact (everywhere_iff.mp hmq _ _ hs').1
  refine ⟨t',q,key₁,rfl,?_⟩
  rcases (hc.traced_op (traced_handle F) hs : Notice F q key₁ payload (events t' past) ∨
    Replays F q mqUri₁ key₁ payload (events t' past)) with hn | hn
  · obtain ⟨changeType,call,value,path,hq,hkey₁,rfl,hstored,hquiet⟩ := hn
    rw [Message.decode_encode,Option.some.injEq] at hm
    subst hm
    obtain ⟨hwrite,hvalue⟩ := write_of_asks hq hd
    rcases hkey with rfl | ⟨hkey,hlock⟩
    · exact absurd hplain (hkey₁ ▸ routingKey_not_plain F call.userId call.keyName)
    · refine .inl ?_
      obtain ⟨later,he⟩ := hstored
      obtain ⟨later',q',earlier,hh,-,hearlier⟩ := split_at_event he.symm
      have hs' : .op t' q' (.change call) (.ok path) :: earlier <:+ past := ⟨later',hh.symm⟩
      obtain rfl : q' = q := hc.same_request ((hs'.trans hpast).subset (List.mem_cons_self ..))
        (hs.subset (List.mem_cons_self ..))
      exact ⟨call,earlier,hwrite,hvalue,hkeys.keys t' q' call t u k start
        (hc.start_of_op (hs.subset (List.mem_cons_self ..))) hwrite (hc.start_of_op hsub)
        (hkey₁.symm.trans hkey),hs',hearlier,hquiet,hlock⟩
  · obtain ⟨u',k',start',rfl,hcreated,keyList,valid,sent,path,value,rest,opening,hvalid,rfl,he,hlock,
      hquiet⟩ := hn
    rw [Message.decode_encode,Option.some.injEq] at hm
    subst hm
    rcases hkey with rfl | ⟨hkey,-⟩
    · obtain ⟨q₁,hcreated⟩ := mem_events.mp hcreated
      obtain ⟨rfl,rfl⟩ := creator_unique hmq hsub (hpast.subset hcreated)
      obtain ⟨rfl,rfl,rfl⟩ := Request.subscribe.inj
        (hc.same_request (hs.subset (List.mem_cons_self ..)) hsub)
      exact .inr ⟨rfl,rfl,rfl,keyList,valid,sent,rest,opening,hvalid,he,hlock,hquiet⟩
    · obtain ⟨q₁,hcreated⟩ := mem_events.mp hcreated
      obtain ⟨before,hs'⟩ := suffix_of_mem (hpast.subset hcreated)
      exact absurd (everywhere_iff.mp hmq _ _ hs').1 (hkey ▸ routingKey_not_plain F u k)

theorem locked_apart (hc : Reach F O clock c) {past : History} (hpast : past <:+ c.state.history)
    (t t' : ℕ) (hshared : ⟨.lockRead,()⟩ ∈ events t past)
    (hkept : ∀ e ∈ events t past, lockAccount.spends .shared e = false)
    (hexclusive : ⟨.lockWrite,()⟩ ∈ events t' past)
    (hkept' : ∀ e ∈ events t' past, lockAccount.spends .exclusive e = false) : False := by
  obtain ⟨c₀,hc₀,rfl,-⟩ := hc.passed hpast
  have hhas {m : Mode} {h : Events} {e : Event Op Res} (he : e ∈ h)
      (hearns : lockAccount.earns m e = true) (hk : ∀ e ∈ h, lockAccount.spends m e = false) :
      (lock F O clock).Has m h := by
    have hnone : h.countP (lockAccount.spends m) = 0 :=
      List.countP_eq_zero.mpr fun e he => by simp [hk e he]
    show h.countP (lockAccount.spends m) < h.countP (lockAccount.earns m)
    rw [hnone]
    exact List.countP_pos_iff.mpr ⟨e,he,hearns⟩
  exact (lock F O clock).exclusive (fun q => (moves_handle F q).traced) hc₀ (hhas hshared rfl hkept)
    (hhas hexclusive rfl hkept')

/-- The message says what this write has stored. -/
structure Says (u k : String) (m : SubscriptionMessage) (call : Call Bytes) : Prop where
  name : call.name = userIdKeyName u k
  value : call.value? = some m.payload

/-- The first message is about an older version than the second one. -/
def Older (u k : String) (m m' : SubscriptionMessage) : Prop :=
  ∃ s s', m.keyPath = keyPath u k s ∧ m'.keyPath = keyPath u k s' ∧ s < s'

theorem readings_lt {t : ℕ} {q : Request} {call : Call Bytes} {r : Except String String}
    {past past' : History} (hs : .op t q (.change call) r :: past <:+ past') :
    readings past < readings past' := by
  have hle : readings (.op t q (.change call) r :: past) ≤ readings past' := hs.sublist.countP_le
  rw [readings_change] at hle
  omega

theorem older_of_before (hclock : StrictMono clock) (hc : Reach F O clock c) {m m' : SubscriptionMessage}
    {t₁ t₂ : ℕ} {q₁ q₂ : Request} {call₁ call₂ : Call Bytes} {past₁ past₂ : History}
    (hm : Says u k m call₁) (hm' : Says u k m' call₂)
    (hs : .op t₁ q₁ (.change call₁) (.ok m.keyPath) :: past₁ <:+ past₂)
    (hs' : .op t₂ q₂ (.change call₂) (.ok m'.keyPath) :: past₂ <:+ c.state.history) : Older u k m m' := by
  have hbefore := hs.trans ((List.suffix_cons _ past₂).trans hs')
  exact ⟨_,_,(write_spec hc hbefore hm.value hm.name).1,(write_spec hc hs' hm'.value hm'.name).1,
    hclock (readings_lt hs)⟩

theorem mem_validKeyPaths {name path : String} {startTimestamp : ℤ} {keyList : List String} :
    ∀ {valid : List String}, validKeyPaths name startTimestamp keyList = some valid → path ∈ valid →
      getUserIdKeyName path = some name := by
  induction keyList with
  | nil =>
    rintro valid hv hm
    cases hv
    cases hm
  | cons p keyList ih =>
    intro valid hv hm
    simp only [validKeyPaths,Option.bind_eq_bind,Option.bind_eq_some_iff] at hv
    obtain ⟨name',hname',hv⟩ := hv
    by_cases hn : name' = name
    · rw [if_pos hn] at hv
      simp only [Option.bind_eq_some_iff,Option.some.injEq] at hv
      obtain ⟨isValid,-,rest,hrest,rfl⟩ := hv
      split_ifs at hm
      · rcases List.mem_cons.mp hm with rfl | hm
        · rw [hname',hn]
        · exact ih hrest hm
      · exact ih hrest hm
    · rw [if_neg hn] at hv
      simp only [Option.bind_some,Option.bind_eq_some_iff,Option.some.injEq] at hv
      obtain ⟨rest,hrest,rfl⟩ := hv
      exact ih hrest (by simpa using hm)

/-- What is replayed has been written before it was read, and it was read under the lock. -/
theorem read_of_replayed (hc : Reach F O clock c) {past : History} (hpast : past <:+ c.state.history)
    {m : SubscriptionMessage} (hr : Replayed F u k start mqUri queueName t m past) :
    ∃ q paths res before, .op t q (.readFromKeyPaths paths) (.ok res) :: before <:+ past ∧
      ⟨.lockWrite,()⟩ ∈ events t before ∧
      (∀ e ∈ events t before, lockAccount.spends .exclusive e = false) ∧
      ∃ t' q' call earlier, Says u k m call ∧
        .op t' q' (.change call) (.ok m.keyPath) :: earlier <:+ before := by
  obtain ⟨keyList,valid,sent,rest,opening,hvalid,he,hlock,hquiet⟩ := hr
  obtain ⟨later,q,before,rfl,-,rfl⟩ := split_at_event he
  have hread : .op t q (.readFromKeyPaths valid) (.ok (sent ++ (m.keyPath,m.payload) :: rest)) :: before <:+
      later ++ .op t q (.readFromKeyPaths valid) (.ok (sent ++ (m.keyPath,m.payload) :: rest)) :: before :=
    List.suffix_append _ _
  refine ⟨q,valid,_,before,hread,hlock,fun e he => (hquiet e he).2,?_⟩
  obtain ⟨hpath,t',q',call,earlier,hvalue,hs⟩ := write_of_entry hc (hread.trans hpast)
    (List.mem_append_right _ (List.mem_cons_self ..))
  refine ⟨t',q',call,earlier,⟨?_,hvalue⟩,hs⟩
  have hwhole := hs.trans ((List.suffix_cons _ _).trans (hread.trans hpast))
  have hname := mem_validKeyPaths hvalid hpath
  rw [(write_spec hc hwhole hvalue rfl).1,← atTimestamp_userIdKeyName,getUserIdKeyName_atTimestamp,
    Option.some.injEq] at hname
  exact hname

variable {past past' : History} {t₁ t₂ : ℕ} {q₁ q₂ : Request} {m m' : SubscriptionMessage} {key : String}
  {b : Bytes}

theorem older_of_announced (hclock : StrictMono clock) (hc : Reach F O clock c)
    (h : Orderly F c.state.history)
    (hs : .op t₁ q₁ (.publishMessage mqUri key b) (.ok ()) :: past <:+ past')
    (hpast : past' <:+ c.state.history) (hm : Announced u k t m t₁ q₁ past)
    (hm' : Announced u k t m' t₂ q₂ past') : Older u k m m' := by
  obtain ⟨call₁,earlier₁,hw₁,hv₁,hn₁,hs₁,-,-,-⟩ := hm
  obtain ⟨call₂,earlier₂,hw₂,hv₂,hn₂,hs₂,-,hquiet,-⟩ := hm'
  have hbefore := (List.suffix_cons _ past).trans hs
  have hne : t₂ ≠ t₁ := by
    rintro rfl
    have hpublished := (hquiet _ (mem_events.mpr ⟨q₁,hs.subset (List.mem_cons_self ..)⟩)).1
    cases hpublished
  rcases one_first (hs₁.trans hbefore) hs₂ with he | hss | hss
  · exact absurd (Action.op.inj (List.cons.inj he).1).1 (Ne.symm hne)
  · exact older_of_before hclock hc ⟨hn₁,hv₁⟩ ⟨hn₂,hv₂⟩ hss (hs₂.trans hpast)
  · obtain ⟨e,he,hsettled⟩ := everywhere_iff.mp h.inTurn _ _ (hs.trans hpast) call₁ m.keyPath earlier₁ hw₁
      hs₁ t₂ q₂ call₂ m'.keyPath hne hw₂ (hn₂.trans hn₁.symm) (hss.subset (List.mem_cons_self ..))
    have hq := hquiet e ((events_mono hbefore t₂).subset he)
    simp [hq.1,hq.2] at hsettled

theorem stamp_of_replayed (hc : Reach F O clock c) (hpast : past <:+ c.state.history)
    (hm : Replayed F u k start mqUri queueName t m past) : ∃ s, m.keyPath = keyPath u k s := by
  obtain ⟨_,_,_,before,hread,-,-,_,_,call,earlier,hwrote,hs⟩ := read_of_replayed hc hpast hm
  have hwhole := hs.trans ((List.suffix_cons _ before).trans (hread.trans hpast))
  exact ⟨_,(write_spec hc hwhole hwrote.value hwrote.name).1⟩

theorem older_of_replayed (hc : Reach F O clock c)
    (h : Orderly F c.state.history)
    (hsub : .op t (.subscribe u k start) (.createQueue mqUri "") (.ok queueName) ∈ c.state.history)
    (hs : .op t q₁ (.publishMessage mqUri queueName
      (F.subscriptionMessage.encode ⟨"in-storage",m.keyPath,m.payload⟩)) (.ok ()) :: past <:+ past')
    (hpast : past' <:+ c.state.history) (hm : Replayed F u k start mqUri queueName t m past)
    (hm' : Replayed F u k start mqUri queueName t m' past') : Older u k m m' := by
  have hbefore := (List.suffix_cons _ past).trans hs
  obtain ⟨s,hpath₁⟩ := stamp_of_replayed hc (hbefore.trans hpast) hm
  obtain ⟨s',hpath₂⟩ := stamp_of_replayed hc hpast hm'
  refine ⟨s,s',hpath₁,hpath₂,?_⟩
  obtain ⟨keyList,valid,sent,rest,opening,-,he,-,hquiet⟩ := hm'
  have hsent : ∃ payload, (m.keyPath,payload) ∈ sent := by
    have hpublished : ⟨.publishMessage mqUri queueName
        (F.subscriptionMessage.encode ⟨"in-storage",m.keyPath,m.payload⟩),.ok ()⟩ ∈ events t past' :=
      mem_events.mpr ⟨q₁,hs.subset (List.mem_cons_self ..)⟩
    rw [he,List.mem_append,List.mem_reverse,List.mem_map,List.mem_cons] at hpublished
    rcases hpublished with ⟨entry,hentry,htold⟩ | hpublished | hpublished
    · simp only [told,Sigma.mk.injEq,Op.publishMessage.injEq,true_and] at htold
      have hmessage := F.subscriptionMessage.encode_inj htold.1
      simp only [SubscriptionMessage.mk.injEq,true_and] at hmessage
      exact ⟨entry.2,hmessage.1 ▸ hentry⟩
    · cases (congrArg Sigma.fst hpublished)
    · cases (hquiet _ hpublished).1
  obtain ⟨payload,hsent⟩ := hsent
  obtain ⟨later,q,before,hh,-,-⟩ := split_at_event he
  have hread : .op t q (.readFromKeyPaths valid) (.ok (sent ++ (m'.keyPath,m'.payload) :: rest)) :: before
      <:+ c.state.history := List.IsSuffix.trans ⟨later,hh.symm⟩ hpast
  obtain rfl := hc.same_request (hread.subset (List.mem_cons_self ..)) hsub
  have hpairwise : (sent ++ (m'.keyPath,m'.payload) :: rest).Pairwise fun e e' =>
      ∀ s s', e.1 = keyPath u k s → e'.1 = keyPath u k s' → s < s' :=
    everywhere_iff.mp h.chronological _ _ hread
  exact (List.pairwise_append.mp hpairwise).2.2 _ hsent _ (List.mem_cons_self ..) _ _ hpath₁ hpath₂

theorem not_announced_of_replayed (hc : Reach F O clock c)
    (hs : .op t₁ q₁ (.publishMessage mqUri key b) (.ok ()) :: past <:+ past')
    (hpast : past' <:+ c.state.history) (hm : Announced u k t m t₁ q₁ past) :
    ¬ Replayed F u k start mqUri queueName t m' past' := by
  rintro ⟨keyList,valid,sent,rest,opening,-,he,-,hquiet⟩
  obtain ⟨call,earlier,-,-,-,hstore,hearlier,hkept,hlock⟩ := hm
  have hbefore := (List.suffix_cons _ past).trans hs
  refine locked_apart hc (hbefore.trans hpast) t₁ t ?_ (fun e he => (hkept e he).2) hlock
    fun e hm => ?_
  · exact (events_mono ((List.suffix_cons _ _).trans hstore) t₁).subset
      (by rw [hearlier]; exact List.mem_cons_self ..)
  · replace hm := (events_mono hbefore t).subset hm
    rw [he,List.mem_append,List.mem_reverse,List.mem_map,List.mem_cons] at hm
    rcases hm with ⟨entry,-,rfl⟩ | rfl | hm
    · rfl
    · rfl
    · exact (hquiet e hm).2

theorem older_of_replayed_announced (hclock : StrictMono clock) (hc : Reach F O clock c)
    (hs : past <:+ past') (hpast : past' <:+ c.state.history)
    (hm : Replayed F u k start mqUri queueName t m past) (hm' : Announced u k t m' t₂ q₂ past') :
    Older u k m m' := by
  obtain ⟨q,paths,res,before,hread,hlock,hkept,_,_,call₁,earlier₁,hwrote₁,hs₁⟩ :=
    read_of_replayed hc (hs.trans hpast) hm
  obtain ⟨call₂,earlier₂,-,hv₂,hn₂,hs₂,hearlier,hquiet,-⟩ := hm'
  rcases one_first (hread.trans hs) hs₂ with he | hss | hss
  · cases (Action.op.inj (List.cons.inj he).1).2.2.1
  · exact older_of_before hclock hc hwrote₁ ⟨hn₂,hv₂⟩
      (hs₁.trans ((List.suffix_cons _ _).trans hss)) (hs₂.trans hpast)
  · have hbefore := (List.suffix_cons _ before).trans (hread.trans hs)
    refine (locked_apart hc (hbefore.trans hpast) t₂ t ?_
      (fun e he => (hquiet e ((events_mono hbefore t₂).subset he)).2) hlock hkept).elim
    exact (events_mono ((List.suffix_cons _ _).trans hss) t₂).subset
      (by rw [hearlier]; exact List.mem_cons_self ..)

theorem write_of_source (hc : Reach F O clock c) (hpast : past <:+ c.state.history)
    (hm : Announced u k t m t₁ q₁ past ∨ Replayed F u k start mqUri queueName t m past) :
    ∃ t' q' call earlier, Says u k m call ∧
      .op t' q' (.change call) (.ok m.keyPath) :: earlier <:+ c.state.history := by
  rcases hm with ⟨call,earlier,-,hvalue,hname,hs,-⟩ | hm
  · exact ⟨t₁,q₁,call,earlier,⟨hname,hvalue⟩,hs.trans hpast⟩
  · obtain ⟨_,_,_,before,hread,-,-,t',q',call,earlier,hwrote,hs⟩ := read_of_replayed hc hpast hm
    exact ⟨t',q',call,earlier,hwrote,hs.trans ((List.suffix_cons _ before).trans (hread.trans hpast))⟩

end Queues

/-- In an earlier state of the run the version has just been written, and reading the key gives the value
that the message carries. -/
def Current (O : Outside M) (clock : ℕ → ℤ) (u k : String) (m : SubscriptionMessage) (h : History) : Prop :=
  ∃ (c : Config Op Res Failure Request String (Shared (Inner M))) (t : ℕ) (q : Request)
    (call : Call Bytes) (past : History), Reach F O clock c ∧ c.state.history <:+ h ∧
    c.state.history = .op t q (.change call) (.ok m.keyPath) :: past ∧ call.name = userIdKeyName u k ∧
    readKeyName c.state.shared.backend.maps u k = .ok m.payload

/-- As long as no write overtakes another one of its key and hash maps are iterated over in order, the
versions stand in the queue of a subscriber from the oldest to the newest, each with the value that was
read of the key when it had been written. -/
theorem changes_in_order (O : Outside M) (clock : ℕ → ℤ) (hclock : StrictMono clock)
    (c : Config Op Res Failure Request String (Shared (Inner M))) (hc : Reach F O clock c)
    (hmq : Everywhere NewQueue c.state.history) (h : Orderly F c.state.history)
    (t : ℕ) (u k : String) (start : ℤ) (mqUri queueName : String)
    (hsub : .op t (.subscribe u k start) (.createQueue mqUri "") (.ok queueName) ∈ c.state.history) :
    (changes F c.state.history mqUri queueName).Pairwise (Older u k) ∧
    ∀ m ∈ changes F c.state.history mqUri queueName, Current F O clock u k m c.state.history := by
  constructor
  · rw [changes,List.pairwise_filter,List.pairwise_filterMap]
    refine DirectExchange.held_pairwise fun a past a' past' b b' hs hs' hr hr' m hm m' hm' hd hd' => ?_
    have hpast' := (List.suffix_cons a' past').trans hs'
    obtain ⟨t₁,q₁,key₁,rfl,hsource⟩ :=
      source_of_reaches hc hmq h hsub (hs.trans hpast') hr hm (by simpa using hd)
    obtain ⟨t₂,q₂,key₂,rfl,hsource'⟩ := source_of_reaches hc hmq h hsub hs' hr' hm' (by simpa using hd')
    rcases hsource with hsource | ⟨rfl,rfl,rfl,hsource⟩
    · rcases hsource' with hsource' | ⟨rfl,-,-,hsource'⟩
      · exact older_of_announced hclock hc h hs hpast' hsource hsource'
      · exact absurd hsource' (not_announced_of_replayed hc hs hpast' hsource)
    · rcases hsource' with hsource' | ⟨rfl,-,-,hsource'⟩
      · exact older_of_replayed_announced hclock hc ((List.suffix_cons _ past).trans hs) hpast' hsource
          hsource'
      · exact older_of_replayed hc h hsub hs hpast' hsource hsource'
  · intro m hm
    obtain ⟨hm,hd⟩ := List.mem_filter.mp hm
    obtain ⟨b,hb,hm⟩ := List.mem_filterMap.mp hm
    obtain ⟨a,past,hs,hr⟩ := DirectExchange.reaches_of_mem hb
    obtain ⟨t₁,q₁,key,rfl,hsource⟩ := source_of_reaches hc hmq h hsub hs hr hm (by simpa using hd)
    obtain ⟨t',q',call,earlier,hwrote,hs'⟩ := write_of_source hc ((List.suffix_cons _ past).trans hs)
      (hsource.imp_right fun hsource => hsource.2.2.2)
    obtain ⟨-,c',hc',hh,hread⟩ := write_spec hc hs' hwrote.value hwrote.name
    exact ⟨c',t',q',call,earlier,hc',hh ▸ hs',hh,hwrote.name,hread⟩

def enabled {σ : Type} (x : Shared σ) : Op → Bool
  | .lockRead => !x.writer
  | .lockWrite => !x.writer && x.readers == 0
  | .lockGetMqUri => !x.getMqUriMutex
  | _ => true

theorem enabled_iff {σ : Type} (x : Shared σ) (o : Op) : enabled x o = true ↔ Enabled x o := by
  cases o <;> simp [enabled,Enabled]

def player (O : Outside M) : Player (ordinary F O) Request where
  answer _ _ s o := if enabled s.shared o then some (answer (basic O) o s.shared) else none
  does h := by
    split_ifs at h with he
    exact ⟨(enabled_iff _ _).mp he,(Option.some.inj h).symm⟩
  serves _ q s := some (q,s.shared)
  begins h := (Prod.mk.inj (Option.some.inj h)).2.symm

deriving instance DecidableEq for Request

/-- The call that has created a queue, with the queue. -/
def creator : Action Op Res Request → Option (ℕ × Request × String × String × String)
  | .op t q (.createQueue mqUri name) (.ok queueName) => some (t,q,mqUri,name,queueName)
  | _ => none

def creators (h : History) : List (ℕ × Request × String × String × String) := h.filterMap creator

theorem mem_creators {h : History} {t : ℕ} {q : Request} {mqUri name queueName : String} :
    (t,q,mqUri,name,queueName) ∈ creators h ↔ .op t q (.createQueue mqUri name) (.ok queueName) ∈ h := by
  rw [creators,List.mem_filterMap]
  constructor
  · rintro ⟨a,ha,he⟩
    unfold creator at he
    split at he <;> simp only [Option.some.injEq,Prod.mk.injEq,reduceCtorEq] at he
    obtain ⟨rfl,rfl,rfl,rfl,rfl⟩ := he
    exact ha
  · exact fun hm => ⟨_,hm,rfl⟩

theorem newQueue_of_one {h : History} (hone : (creators h).length ≤ 1)
    (hplain : ∀ x ∈ creators h, PlainName x.2.2.2.2) : Everywhere NewQueue h := by
  refine everywhere_iff.mpr fun a past hs => ?_
  unfold NewQueue
  split
  · next t q mqUri queueName' queueName =>
    have hsuffix : (t,q,mqUri,queueName',queueName) :: creators past <:+ creators h :=
      hs.filterMap creator
    refine ⟨hplain _ (hsuffix.subset (List.mem_cons_self ..)),fun t' q' name' hm => ?_⟩
    have hlength := hsuffix.length_le
    have hpos := List.length_pos_of_mem (mem_creators.mpr hm)
    rw [List.length_cons] at hlength
    omega
  · trivial

/-- Runs on one key in which the replay finds at most one version, and every other thread is done with its
change when a message is published. -/
def calm (name : String) : Action Op Res Request → History → Bool
  | .start _ (.subscribe u k _),_ => userIdKeyName u k = name
  | .start _ q,_ => (write q).all fun call => call.name = name
  | .op t _ (.publishMessage _ _ _) _,past => past.all fun a => done t a past
  | .op _ _ (.readFromKeyPaths _) (.ok res),_ => res.length ≤ 1
  | _,_ => true
where
  done (t : ℕ) : Action Op Res Request → History → Bool
    | .op t' q (.change _) _,past => t' = t ∨ write q = none ∨
        (events t' past).any fun e => e.1.isPublish || lockAccount.spends .shared e
    | _,_ => true

section Calm

variable {name : String} {h : History} (hcalm : Everywhere (fun a past => calm name a past = true) h)
include hcalm

theorem inTurn_of_calm : Everywhere InTurn h := by
  refine hcalm.mono fun a past ha => ?_
  unfold InTurn
  split
  · next t q mqUri key payload r =>
    intro call path earlier hw hs t' q' call' path' hne hw' hname hm
    have hdone := List.all_eq_true.mp ha _ (((List.suffix_cons _ earlier).trans hs).subset hm)
    simp only [calm.done,hne,hw',false_or,reduceCtorEq,decide_eq_true_eq,List.any_eq_true,
      Bool.or_eq_true] at hdone
    exact hdone
  · trivial

theorem chronological_of_calm : Everywhere Chronological h := by
  refine hcalm.mono fun a past ha => ?_
  unfold Chronological
  split
  · next t u k start paths res =>
    have hlength : res.length ≤ 1 := of_decide_eq_true ha
    match res,hlength with
    | [],_ => exact List.Pairwise.nil
    | [e],_ => exact List.pairwise_singleton ..
  · trivial

theorem orderly_of_calm : Orderly F h where
  inTurn := inTurn_of_calm hcalm
  chronological := chronological_of_calm hcalm
  keys t q call t' u k start hq hw hsub _ := by
    obtain ⟨past,hs⟩ := suffix_of_mem hq
    obtain ⟨past',hs'⟩ := suffix_of_mem hsub
    have hname := everywhere_iff.mp hcalm _ _ hs
    have hname' : userIdKeyName u k = name := of_decide_eq_true (everywhere_iff.mp hcalm _ _ hs')
    rw [hname']
    cases q with
    | create u' k' v =>
      obtain rfl := Option.some.inj hw
      exact of_decide_eq_true hname
    | update u' k' v =>
      obtain rfl := Option.some.inj hw
      exact of_decide_eq_true hname
    | _ => cases hw

end Calm

def sampleClock (n : ℕ) : ℤ := 1700000000000000000 + n

theorem sampleClock_strictMono : StrictMono sampleClock := fun n n' hn => by
  simp only [sampleClock]
  omega

abbrev sampleRun (schedule : List (Turn Request)) :
    Config Op Res Failure Request String (Shared (Inner ℕ)) :=
  (player sampleFormats (sampleOutside fun _ => true)).play (.new ⟨BasicStorage.empty,sampleClock,0⟩)
    schedule

theorem sampleRun_reach (schedule : List (Turn Request)) :
    Reach sampleFormats (sampleOutside fun _ => true) sampleClock (sampleRun schedule) :=
  Player.reach_play _ (Starts sampleClock) ⟨0,rfl⟩ schedule

/-- One version is stored before the subscription and two after it, one after another. -/
def oneByOne : List (Turn Request) :=
  .start 0 (.update "alice" "a:b" [1]) :: List.replicate 4 (.step 0) ++
  .start 1 (.subscribe "alice" "a:b" 0) :: List.replicate 15 (.step 1) ++
  .start 2 (.update "alice" "a:b" [2]) :: List.replicate 8 (.step 2) ++
  .start 3 (.update "alice" "a:b" [3]) :: List.replicate 8 (.step 3)

theorem changes_in_order_one_by_one :
    changes sampleFormats (sampleRun oneByOne).state.history "amqp://user" "queue-1" =
      [⟨"in-storage","alice::a:b@1700000000000000000",[1]⟩,⟨"update","alice::a:b@1700000000000000002",[2]⟩,
        ⟨"update","alice::a:b@1700000000000000003",[3]⟩] ∧
    (changes sampleFormats (sampleRun oneByOne).state.history "amqp://user" "queue-1").Pairwise
      (Older "alice" "a:b") ∧
    ∀ m ∈ changes sampleFormats (sampleRun oneByOne).state.history "amqp://user" "queue-1",
      Current sampleFormats (sampleOutside fun _ => true) sampleClock "alice" "a:b" m
        (sampleRun oneByOne).state.history := by
  have hcalm : Everywhere (fun a past => calm "alice::a:b" a past = true)
      (sampleRun oneByOne).state.history := by decide +kernel
  exact ⟨by decide +kernel,changes_in_order sampleFormats _ sampleClock sampleClock_strictMono _
    (sampleRun_reach oneByOne) (newQueue_of_one (by decide +kernel) (by decide +kernel))
    (orderly_of_calm sampleFormats hcalm) 1 "alice" "a:b" 0 "amqp://user" "queue-1"
    (mem_creators.mp (by decide +kernel))⟩

/-- Both versions are stored before the second one is announced, and then the first one. -/
def overtaking : List (Turn Request) :=
  .start 0 (.subscribe "alice" "a:b" 0) :: List.replicate 18 (.step 0) ++
  .start 1 (.update "alice" "a:b" [1]) :: List.replicate 2 (.step 1) ++
  .start 2 (.update "alice" "a:b" [2]) :: List.replicate 8 (.step 2) ++ List.replicate 6 (.step 1)

/-- The last message tells of the first version, while the storage has the second one. -/
theorem older_version_last : StrictMono sampleClock ∧
    Reach sampleFormats (sampleOutside fun _ => true) sampleClock (sampleRun overtaking) ∧
    Everywhere NewQueue (sampleRun overtaking).state.history ∧
    .op 0 (.subscribe "alice" "a:b" 0) (.createQueue "amqp://user" "") (.ok "queue-1") ∈
      (sampleRun overtaking).state.history ∧
    changes sampleFormats (sampleRun overtaking).state.history "amqp://user" "queue-1" =
      [⟨"update","alice::a:b@1700000000000000002",[2]⟩,⟨"update","alice::a:b@1700000000000000001",[1]⟩] ∧
    readKeyName (sampleRun overtaking).state.shared.backend.maps "alice" "a:b" = .ok [2] ∧
    ¬ (changes sampleFormats (sampleRun overtaking).state.history "amqp://user" "queue-1").Pairwise
      (Older "alice" "a:b") := by
  have hchanges : changes sampleFormats (sampleRun overtaking).state.history "amqp://user" "queue-1" =
      [⟨"update","alice::a:b@1700000000000000002",[2]⟩,⟨"update","alice::a:b@1700000000000000001",[1]⟩] := by
    decide +kernel
  refine ⟨sampleClock_strictMono,sampleRun_reach overtaking,newQueue_of_one (by decide +kernel)
    (by decide +kernel),mem_creators.mp (by decide +kernel),hchanges,by decide +kernel,?_⟩
  rw [hchanges,List.pairwise_pair]
  rintro ⟨s,s',hs,hs',hlt⟩
  have hfirst : keyPath "alice" "a:b" 1700000000000000002 = keyPath "alice" "a:b" s := hs
  have hsecond : keyPath "alice" "a:b" 1700000000000000001 = keyPath "alice" "a:b" s' := hs'
  obtain ⟨-,-,rfl⟩ := (keyPath_inj (by decide) (by decide)).mp hfirst
  obtain ⟨-,-,rfl⟩ := (keyPath_inj (by decide) (by decide)).mp hsecond
  omega

end ChangeOrder
end Subscription
end CoLinkServer
