import CoLinkServer.SubscriptionCounts
import CoLinkServer.SubscriptionReplay

/-! One user beside the others. Whose a queue is can be told from its entry only, and `unsubscribe`
removes the entry before it looks. -/
namespace CoLinkServer
namespace Subscription

open Interleaving BasicStorage

variable {M : Type} {O : Outside M} (F : Formats)

/-- The names of queues that have been given so far; a new one is not among them. -/
structure Unique (O : Outside M) (named : M → Set String) : Prop where
  fresh : ∀ m mqUri name queueName m', O.createQueue m mqUri name = (.ok queueName,m') →
    queueName ∉ named m ∧ queueName ∈ named m'
  createUserAccount : ∀ m, named m ⊆ named (O.createUserAccount m).2
  createQueue : ∀ m mqUri name, named m ⊆ named (O.createQueue m mqUri name).2
  deleteQueue : ∀ m mqUri queueName, named m ⊆ named (O.deleteQueue m mqUri queueName).2
  queueBind : ∀ m mqUri queueName key, named m ⊆ named (O.queueBind m mqUri queueName key).2
  publishMessage : ∀ m mqUri key payload, named m ⊆ named (O.publishMessage m mqUri key payload).2

section Named

variable {named : M → Set String} {x : Shared (Inner M)} {h : List (Event Op Res)}

theorem Unique.step (hU : Unique O named) (o : Op) (x : Shared (Inner M)) :
    named x.backend.outside ⊆ named (answer (basic O) o x).2.backend.outside := by
  cases o with
  | createUserAccount => exact hU.createUserAccount _
  | createQueue mqUri name => exact hU.createQueue _ _ _
  | deleteQueue mqUri queueName => exact hU.deleteQueue _ _ _
  | queueBind mqUri queueName key => exact hU.queueBind _ _ _ _
  | publishMessage mqUri key payload => exact hU.publishMessage _ _ _ _
  | discountSubscription name =>
    cases hc : x.keySubscriptionCount name <;>
      simp [answer,hc,Shared.setCount]
  | _ => exact subset_rfl

theorem Unique.kept {α : Type} (hU : Unique O named) (p : Service α) (x : Shared (Inner M))
    (h : List (Event Op Res)) : named x.backend.outside ⊆ named (solo O p x h).state.backend.outside := by
  have hall : p.All fun _ => True := by
    induction p with
    | ret a => trivial
    | fail e => trivial
    | call o k ih => exact ⟨trivial,ih⟩
  exact hall.eval (P := fun y : Shared (Inner M) => named x.backend.outside ⊆ named y.backend.outside)
    (fun o _ y hy => hy.trans (hU.step o y)) subset_rfl

/-- The queue of a successful opening is new. -/
theorem Unique.opened (hU : Unique O named) {userId : String} {opened : String × String}
    (hr : (solo O (opening userId) x h).result = .ok opened) :
    opened.2 ∉ named x.backend.outside ∧
      opened.2 ∈ named (solo O (opening userId) x h).state.backend.outside := by
  rw [opening] at hr ⊢
  cases hq : (solo O (getMqUri userId) x h).result with
  | error f =>
    rw [solo,Prog.eval_bind_error hq] at hr
    cases hr
  | ok uri =>
    have hpast := hU.kept (getMqUri userId) x h
    rw [solo,Prog.eval_bind_ok hq] at hr ⊢
    dsimp only [solo] at hpast
    generalize Prog.eval (answer (basic O)) (getMqUri userId) x h = e at hr hpast ⊢
    cases hc : O.createQueue e.state.backend.outside uri "" with
    | mk r m =>
      have ha : answer (basic O) (.createQueue uri "") e.state =
          (r,e.state.outside m) := by
        simp [answer,basic,Shared.answer,Inner.answer,hc,Shared.outside]
      simp only [perform,Prog.call_bind,Prog.ret_bind,Prog.eval_call,ha] at hr ⊢
      cases r with
      | error err => cases hr
      | ok q =>
        cases hb : O.queueBind m uri q q with
        | mk r' m' =>
          have ha' : answer (basic O) (.queueBind uri q q) (e.state.outside m) =
              (r',e.state.outside m') := by
            simp [answer,basic,Shared.answer,Inner.answer,hb,Shared.outside]
          simp only [attempted,Prog.ret_bind,Prog.eval_call,ha'] at hr ⊢
          cases r' with
          | error err => cases hr
          | ok _ =>
            obtain rfl := Except.ok.inj hr
            have hnew := hU.fresh _ _ _ _ _ hc
            have hkept := hU.queueBind m uri q q
            rw [hb] at hkept
            exact ⟨fun hm => hnew.1 (hpast hm),hkept hnew.2⟩

/-- What a subscription leaves of the two maps, whether it succeeds or not. -/
theorem served_subscribe (hU : Unique O named) (x : Shared (Inner M)) (u k : String)
    (startTimestamp : ℤ) :
    SameMaps x (serve F O x (.subscribe u k startTimestamp)) ∨ ∃ queueName ∉ named x.backend.outside,
      queueName ∈ named (serve F O x (.subscribe u k startTimestamp)).backend.outside ∧
      (serve F O x (.subscribe u k startTimestamp)).keySubscriptionCount =
        Function.update x.keySubscriptionCount (userIdKeyName u k)
          (some ((x.keySubscriptionCount (userIdKeyName u k)).getD 0 + 1)) ∧
      (serve F O x (.subscribe u k startTimestamp)).queueNameToUserIdKeyName =
        Function.update x.queueNameToUserIdKeyName queueName (some (userIdKeyName u k)) := by
  have hopening := sameMaps_eval (B := basic O) (opening_noMaps u) x []
  have hserve : serve F O x (.subscribe u k startTimestamp) =
      (solo O (subscribe F u k startTimestamp) x []).state := rfl
  cases hr : (solo O (opening u) x []).result with
  | error f =>
    rw [hserve,solo,eval_subscribe_error F _ hr]
    exact .inl hopening
  | ok opened =>
    obtain ⟨hfresh,hnamed⟩ := hU.opened hr
    have hregister := register_maps F (basic O) opened.1 opened.2 u k startTimestamp
      { (solo O (opening u) x []).state with writer := true }
      (⟨.lockWrite,()⟩ :: (solo O (opening u) x []).events)
    have hkept := hU.kept (register F opened.1 opened.2 u k startTimestamp)
      { (solo O (opening u) x []).state with writer := true }
      (⟨.lockWrite,()⟩ :: (solo O (opening u) x []).events)
    rw [hserve,solo,eval_subscribe F _ hr]
    refine .inr ⟨opened.2,hfresh,hkept hnamed,?_,?_⟩
    · rw [← hopening.counts]
      exact hregister.counts
    · rw [← hopening.queues]
      exact hregister.queues

end Named

/-- The last steps of `unsubscribe`, after the maps have been seen to. -/
def closing (userId queueName : String) : Service Unit := do
  let mqUri ← getMqUri userId
  perform (.deleteQueue mqUri queueName) >>= attempted

theorem closing_noMaps (userId queueName : String) : (closing userId queueName).All Op.NoMaps := by
  refine ((account_getMqUri userId).mono fun o ho => ?_).bind fun mqUri => all_try trivial all_attempted
  cases o <;> trivial

/-- The ways through `unsubscribe`. -/
inductive UnsubscribeEnds (x : Shared (Inner M)) (userId queueName : String) :
    Except Failure Unit → Shared (Inner M) → Prop
  | missing {e : String} {y : Shared (Inner M)} (hq : x.queueNameToUserIdKeyName queueName = none)
      (hy : SameMaps x y) : UnsubscribeEnds x userId queueName (.error (.error e)) y
  | denied {e name : String} {y : Shared (Inner M)}
      (hq : x.queueNameToUserIdKeyName queueName = some name) (howner : getUserId name ≠ userId)
      (hy : SameMaps (x.setQueue queueName none) y) :
      UnsubscribeEnds x userId queueName (.error (.error e)) y
  | uncounted {e name : String} {y : Shared (Inner M)}
      (hq : x.queueNameToUserIdKeyName queueName = some name) (howner : getUserId name = userId)
      (hn : x.keySubscriptionCount name = none) (hy : SameMaps (x.setQueue queueName none) y) :
      UnsubscribeEnds x userId queueName (.error (.error e)) y
  | closed {name : String} {num : ℤ} {r : Except Failure Unit} {y z : Shared (Inner M)}
      (hq : x.queueNameToUserIdKeyName queueName = some name) (howner : getUserId name = userId)
      (hn : x.keySubscriptionCount name = some num) (hb : z.backend = x.backend)
      (hy : SameMaps ((x.setQueue queueName none).setCount name
        (if num = 1 then none else some (num - 1))) y)
      {h : List (Event Op Res)} (hr : (solo O (closing userId queueName) z h).result = r) :
      UnsubscribeEnds x userId queueName r y

theorem solo_unsubscribe (O : Outside M) (x : Shared (Inner M)) (userId queueName : String)
    (h : List (Event Op Res)) :
    UnsubscribeEnds (O := O) x userId queueName (solo O (unsubscribe userId queueName) x h).result
      (solo O (unsubscribe userId queueName) x h).state := by
  have hremove : answer (basic O) (.removeQueue queueName) x =
      (x.queueNameToUserIdKeyName queueName,x.setQueue queueName none) := rfl
  simp only [solo,unsubscribe,perform,Prog.call_bind,Prog.ret_bind,Prog.eval_call,hremove]
  cases hq : x.queueNameToUserIdKeyName queueName with
  | none =>
    refine .missing hq ⟨rfl,?_⟩
    exact Function.update_eq_self_iff.mpr hq.symm
  | some name =>
    dsimp only
    split_ifs with howner
    · exact .denied hq (Ne.symm howner) ⟨rfl,rfl⟩
    · cases hn : x.keySubscriptionCount name with
      | none =>
        have hcount : answer (basic O) (.discountSubscription name) (x.setQueue queueName none) =
            (false,x.setQueue queueName none) := by simp [answer,Shared.setQueue,hn]
        simp only [Prog.eval_call,hcount]
        exact .uncounted hq (not_not.mp howner).symm hn ⟨rfl,rfl⟩
      | some num =>
        have hcount : answer (basic O) (.discountSubscription name) (x.setQueue queueName none) =
            (true,(x.setQueue queueName none).setCount name (if num = 1 then none else some (num - 1))) := by
          simp [answer,Shared.setQueue,hn]
        simp only [Prog.eval_call,hcount,if_true]
        exact .closed (z := (x.setQueue queueName none).setCount name
          (if num = 1 then none else some (num - 1))) hq (not_not.mp howner).symm hn rfl
          (sameMaps_eval (closing_noMaps userId queueName) _ _) rfl

/-- With a message queue that does not fail, only the account can stop the last steps. -/
theorem closing_ok_iff (hO : Succeeds O) (x : Shared (Inner M)) (userId queueName : String)
    (h : List (Event Op Res)) :
    (solo O (closing userId queueName) x h).result = .ok () ↔ Readable x.backend.maps userId := by
  obtain ⟨hm,-⟩ := solo_getMqUri (O := O) userId x h
  rw [closing]
  cases hr : (solo O (getMqUri userId) x h).result with
  | error f =>
    rw [solo,Prog.eval_bind_error hr]
    rw [hr] at hm
    generalize (solo O (getMqUri userId) x h).state.backend = b at hm
    refine iff_of_false (by simp) fun hread => ?_
    cases hm with
    | garbled hv hu => exact hread _ hv hu
    | refused hv ha =>
      obtain ⟨mqUri,hok⟩ := hO.createUserAccount x.backend.outside
      rw [ha] at hok
      cases hok
  | ok mqUri =>
    rw [solo,Prog.eval_bind_ok hr]
    rw [hr] at hm
    refine iff_of_true ?_ fun payload hv => ?_
    · have ha := hO.deleteQueue (Prog.eval (answer (basic O)) (getMqUri userId) x
        h).state.backend.outside mqUri queueName
      have hb : (answer (basic O) (.deleteQueue mqUri queueName)
        (Prog.eval (answer (basic O)) (getMqUri userId) x h).state).1 = .ok () := ha
      simp only [perform,Prog.call_bind,Prog.ret_bind,Prog.eval_call,hb]
      rfl
    · generalize (solo O (getMqUri userId) x h).state.backend = b at hm
      cases hm with
      | stored hv' hu =>
        rw [hv] at hv'
        rw [Option.some.inj hv',hu]
        simp
      | created hv' ha =>
        rw [hv] at hv'
        cases hv'

theorem unsubscribe_ok_iff (hO : Succeeds O) (x : Shared (Inner M)) (userId queueName : String)
    (h : List (Event Op Res)) :
    (solo O (unsubscribe userId queueName) x h).result = .ok () ↔ ∃ name,
      x.queueNameToUserIdKeyName queueName = some name ∧ getUserId name = userId ∧
        x.keySubscriptionCount name ≠ none ∧ Readable x.backend.maps userId := by
  have hu := solo_unsubscribe O x userId queueName h
  generalize (solo O (unsubscribe userId queueName) x h).result = r at hu ⊢
  generalize (solo O (unsubscribe userId queueName) x h).state = y at hu
  cases hu with
  | missing hq hy =>
    refine iff_of_false (by simp) ?_
    rintro ⟨name,hname,-⟩
    rw [hq] at hname
    cases hname
  | denied hq howner hy =>
    refine iff_of_false (by simp) ?_
    rintro ⟨name,hname,hown,-⟩
    rw [hq] at hname
    exact howner (Option.some.inj hname ▸ hown)
  | uncounted hq howner hn hy =>
    refine iff_of_false (by simp) ?_
    rintro ⟨name,hname,-,hcount,-⟩
    rw [hq] at hname
    exact hcount (Option.some.inj hname ▸ hn)
  | @closed name num r y z hq howner hn hb hy h hr =>
    rw [← hr,closing_ok_iff hO,hb]
    constructor
    · exact fun hread => ⟨name,hq,howner,by simp [hn],hread⟩
    · rintro ⟨-,-,-,-,hread⟩
      exact hread

/-- The only key of the storage that the operation changes. -/
def Op.Changes (name : String) : Op → Prop
  | .change call => call.name = name
  | _ => True

theorem changes_getMqUri (userId : String) :
    (getMqUri userId).All (Op.Changes (userIdKeyName userId mqUriKey)) := by
  refine .bracket (all_perform trivial) (all_perform trivial) ⟨trivial,fun r => ?_⟩
  cases r with
  | ok entries => exact (all_unwrap _).bind fun _ => all_unwrap _
  | error e =>
    refine (all_try trivial all_attempted).bind fun mqUri => ?_
    have hown : Op.Changes (userIdKeyName userId mqUriKey)
      (.change (.create userId mqUriKey (stringBytes mqUri))) := rfl
    exact (all_try hown all_attempted).bind fun _ => trivial

theorem changes_subscribe (u k : String) (startTimestamp : ℤ) :
    (subscribe F u k startTimestamp).All (Op.Changes (userIdKeyName u mqUriKey)) := by
  refine (changes_getMqUri u).bind fun mqUri => (all_try trivial all_attempted).bind fun queueName =>
    (all_try trivial all_attempted).bind fun _ => ?_
  refine (Prog.All.bracket (all_perform trivial) (all_perform trivial) ?_).bind fun _ => trivial
  refine all_try trivial fun _ => all_try trivial fun _ => (all_try trivial all_attempted).bind fun _ => ?_
  exact (replay_replay F mqUri queueName u k startTimestamp).mono fun o ho => by
    cases o <;> trivial

theorem changes_unsubscribe (u queueName : String) :
    (unsubscribe u queueName).All (Op.Changes (userIdKeyName u mqUriKey)) := by
  refine all_try trivial fun r => ?_
  cases r with
  | none => trivial
  | some name =>
    dsimp only
    split_ifs
    · trivial
    · refine all_try trivial fun found => ?_
      cases found with
      | false => trivial
      | true => exact (changes_getMqUri u).bind fun _ => all_try trivial all_attempted

theorem value_of_changes {α : Type} {p : Service α} {name : String} (hp : p.All (Op.Changes name))
    (x : Shared (Inner M)) (h : List (Event Op Res)) {u k : String} (hne : userIdKeyName u k ≠ name) :
    value (solo O p x h).state.backend.maps u k = value x.backend.maps u k := by
  refine hp.eval (P := fun y : Shared (Inner M) => value y.backend.maps u k = value x.backend.maps u k)
    (fun o ho y hy => ?_) rfl
  cases o with
  | change call =>
    rw [← hy]
    exact value_perform_of_name_ne _ _ (by rwa [show call.name = name from ho])
  | discountSubscription name' =>
    rw [← hy]
    cases hc : y.keySubscriptionCount name' <;> simp [answer,hc,Shared.setCount]
  | _ => exact hy

/-- A call of another user, to subscribe or to unsubscribe. -/
inductive Foreign (u : String) : Request → Prop
  | subscribe {u' : String} (k : String) (startTimestamp : ℤ) (hne : u' ≠ u) (hu' : NoColon u') :
      Foreign u (.subscribe u' k startTimestamp)
  | unsubscribe {u' : String} (queueName : String) (hne : u' ≠ u) : Foreign u (.unsubscribe u' queueName)

def serveAll (F : Formats) (O : Outside M) (x : Shared (Inner M)) (qs : List Request) :
    Shared (Inner M) := qs.foldl (serve F O) x

/-- Every queue that has an entry has been named by the message queue. -/
def AllNamed (named : M → Set String) (x : Shared (Inner M)) : Prop :=
  ∀ queueName, x.queueNameToUserIdKeyName queueName ≠ none → queueName ∈ named x.backend.outside

/-- What there is of a user: the entries of the queues and keys that the server takes for the
user's own, and the account. -/
structure SameUser (u : String) (x y : Shared (Inner M)) : Prop where
  queues : ∀ queueName name, getUserId name = u →
    (y.queueNameToUserIdKeyName queueName = some name ↔ x.queueNameToUserIdKeyName queueName = some name)
  counts : ∀ name, getUserId name = u → y.keySubscriptionCount name = x.keySubscriptionCount name
  account : value y.backend.maps u mqUriKey = value x.backend.maps u mqUriKey

def Hits (u : String) (x : Shared (Inner M)) : Request → Prop
  | .unsubscribe _ queueName => ∃ name, x.queueNameToUserIdKeyName queueName = some name ∧ getUserId name = u
  | _ => False

section Foreign

variable {named : M → Set String} {u : String} {q : Request} {x : Shared (Inner M)}

theorem sameMaps_changed (x : Shared (Inner M)) (changeType : String) (call : Call Bytes)
    (payload : Bytes) : SameMaps x (solo O (change F changeType call payload) x []).state :=
  sameMaps_eval ((unmarked_change F changeType call payload).mono fun o ho => by
    cases o <;> trivial) x []

/-- Whoever calls it, `unsubscribe` removes the entry of the queue. -/
theorem served_unsubscribe (x : Shared (Inner M)) (u queueName : String) :
    (serve F O x (.unsubscribe u queueName)).queueNameToUserIdKeyName =
      Function.update x.queueNameToUserIdKeyName queueName none ∧
    ∀ name, (getUserId name ≠ u ∨ x.queueNameToUserIdKeyName queueName ≠ some name) →
      (serve F O x (.unsubscribe u queueName)).keySubscriptionCount name = x.keySubscriptionCount name := by
  have hserve : serve F O x (.unsubscribe u queueName) =
      (solo O (unsubscribe u queueName) x []).state := by
    show (solo O (unsubscribe u queueName >>= fun _ => .ret "") x []).state = _
    rw [solo,Prog.eval_bind_ret (g := fun _ => "")]
  have hu := solo_unsubscribe O x u queueName []
  rw [hserve]
  generalize (solo O (unsubscribe u queueName) x []).result = r at hu
  generalize (solo O (unsubscribe u queueName) x []).state = y at hu ⊢
  cases hu with
  | missing hq hy =>
    refine ⟨?_,fun name _ => congrFun hy.counts name⟩
    rw [hy.queues]
    exact (Function.update_eq_self_iff.mpr hq.symm).symm
  | denied hq howner hy => exact ⟨hy.queues,fun name _ => congrFun hy.counts name⟩
  | uncounted hq howner hn hy => exact ⟨hy.queues,fun name _ => congrFun hy.counts name⟩
  | @closed owned num r y z hq howner hn hb hy h hr =>
    refine ⟨hy.queues,fun name hname => (congrFun hy.counts name).trans ?_⟩
    refine Function.update_of_ne ?_ _ _
    rintro rfl
    exact hname.elim (fun h => h howner) fun h => h hq

/-- Every entry is an old one, or that of a new queue. -/
theorem entry_of_served (hU : Unique O named) {queueName name : String}
    (hn : (serve F O x q).queueNameToUserIdKeyName queueName = some name) :
    x.queueNameToUserIdKeyName queueName = some name ∨ (queueName ∉ named x.backend.outside ∧
      queueName ∈ named (serve F O x q).backend.outside) := by
  have hsame (hm : SameMaps x (serve F O x q)) : x.queueNameToUserIdKeyName queueName = some name := by
    rwa [hm.queues] at hn
  cases q with
  | create u k v => exact .inl (hsame (sameMaps_changed F x _ _ _))
  | update u k v => exact .inl (hsame (sameMaps_changed F x _ _ _))
  | delete u k => exact .inl (hsame (sameMaps_changed F x _ _ _))
  | subscribe u k startTimestamp =>
    rcases served_subscribe F hU x u k startTimestamp with hm | ⟨new,hfresh,hnamed,-,hqueues⟩
    · exact .inl (hsame hm)
    · rw [hqueues] at hn
      by_cases hnew : queueName = new
      · exact .inr (hnew ▸ ⟨hfresh,hnamed⟩)
      · rw [Function.update_of_ne hnew] at hn
        exact .inl hn
  | unsubscribe u removed =>
    rw [(served_unsubscribe F x u removed).1] at hn
    by_cases hremoved : queueName = removed
    · rw [hremoved,Function.update_self] at hn
      cases hn
    · rw [Function.update_of_ne hremoved] at hn
      exact .inl hn

theorem allNamed_serve (hU : Unique O named) (hx : AllNamed named x) (q : Request) :
    AllNamed named (serve F O x q) := fun queueName hq => by
  obtain ⟨name,hname⟩ := Option.ne_none_iff_exists'.mp hq
  rcases entry_of_served F hU hname with hold | ⟨-,hnew⟩
  · exact hU.kept (handle F q) x [] (hx queueName (by simp [hold]))
  · exact hnew

/-- A foreign call that hits no queue of the user leaves everything of the user alone. -/
theorem sameUser_serve (hU : Unique O named) (hx : AllNamed named x) (hq : Foreign u q)
    (hn : ¬ Hits u x q) : SameUser u x (serve F O x q) := by
  have haccount {u' : String} (hne : u' ≠ u) : userIdKeyName u mqUriKey ≠ userIdKeyName u' mqUriKey :=
    fun he => hne (by
      have hh := String.toList_inj.mpr he
      simp only [userIdKeyName,String.toList_append,List.append_left_inj] at hh
      exact (String.toList_inj.mp hh).symm)
  cases hq with
  | @subscribe u' k startTimestamp hne hu' =>
    have hvalue := value_of_changes (O := O) (changes_subscribe F u' k startTimestamp) x []
      (haccount hne)
    rcases served_subscribe F hU x u' k startTimestamp with hm | ⟨queueName,hfresh,-,hcounts,hqueues⟩
    · exact ⟨fun other name _ => by rw [hm.queues],fun name _ => by rw [hm.counts],hvalue⟩
    · have howner : getUserId (userIdKeyName u' k) ≠ u := by rwa [getUserId_userIdKeyName hu']
      refine ⟨fun other name hname => ?_,fun name hname => ?_,hvalue⟩
      · rw [hqueues]
        by_cases ho : other = queueName
        · subst ho
          rw [Function.update_self]
          refine iff_of_false (fun he => howner (Option.some.inj he ▸ hname)) fun he => ?_
          exact hfresh (hx other (by simp [he]))
        · rw [Function.update_of_ne ho]
      · rw [hcounts]
        have hother : name ≠ userIdKeyName u' k := fun he => howner (he ▸ hname)
        exact Function.update_of_ne hother _ _
  | @unsubscribe u' queueName hne =>
    have hchanges : (handle F (.unsubscribe u' queueName)).All
        (Op.Changes (userIdKeyName u' mqUriKey)) :=
      (changes_unsubscribe u' queueName).bind fun _ => trivial
    have hvalue := value_of_changes (O := O) hchanges x [] (haccount hne)
    obtain ⟨hqueues,hcounts⟩ := served_unsubscribe F (O := O) x u' queueName
    refine ⟨fun other name hname => ?_,fun name hname => ?_,hvalue⟩
    · rw [hqueues]
      by_cases ho : other = queueName
      · subst ho
        rw [Function.update_self]
        exact iff_of_false (by simp) fun he => hn ⟨name,he,hname⟩
      · rw [Function.update_of_ne ho]
    · exact hcounts name (.inl fun he => hne (he.symm.trans hname))

end Foreign

section Owners

variable {named : M → Set String} {u : String} {x y z : Shared (Inner M)}

theorem SameUser.refl (u : String) (x : Shared (Inner M)) : SameUser u x x :=
  ⟨fun _ _ _ => .rfl,fun _ _ => rfl,rfl⟩

theorem SameUser.trans (h : SameUser u x y) (h' : SameUser u y z) : SameUser u x z :=
  ⟨fun q name hn => (h'.queues q name hn).trans (h.queues q name hn),
    fun name hn => (h'.counts name hn).trans (h.counts name hn),h'.account.trans h.account⟩

theorem SameUser.hits (h : SameUser u x y) (q : Request) : Hits u y q ↔ Hits u x q := by
  cases q with
  | unsubscribe u' queueName =>
    exact exists_congr fun name => and_congr_left fun hn => h.queues queueName name hn
  | _ => exact .rfl

theorem namesKept (hU : Unique O named) {queueName : String} (hn : queueName ∈ named x.backend.outside)
    (qs : List Request) : queueName ∈ named (serveAll F O x qs).backend.outside := by
  induction qs generalizing x with
  | nil => exact hn
  | cons q qs ih => exact ih (hU.kept (handle F q) x [] hn)

theorem absent_serveAll (hU : Unique O named) {queueName : String} (qs : List Request)
    (hnamed : queueName ∈ named x.backend.outside)
    (hq : x.queueNameToUserIdKeyName queueName = none) :
    (serveAll F O x qs).queueNameToUserIdKeyName queueName = none := by
  induction qs generalizing x with
  | nil => exact hq
  | cons q qs ih =>
    refine ih (hU.kept (handle F q) x [] hnamed) ?_
    by_contra hne
    obtain ⟨name,hname⟩ := Option.ne_none_iff_exists'.mp hne
    rcases entry_of_served F hU hname with hold | ⟨hfresh,-⟩
    · rw [hq] at hold
      cases hold
    · exact hfresh hnamed

theorem allNamed_serveAll (hU : Unique O named) (hx : AllNamed named x) (qs : List Request) :
    AllNamed named (serveAll F O x qs) := by
  induction qs generalizing x with
  | nil => exact hx
  | cons q qs ih => exact ih (allNamed_serve F hU hx q)

theorem sameUser_serveAll (hU : Unique O named) (hx : AllNamed named x) {qs : List Request}
    (hqs : ∀ q ∈ qs, Foreign u q) (hn : ∀ q ∈ qs, ¬ Hits u x q) :
    SameUser u x (serveAll F O x qs) := by
  induction qs generalizing x with
  | nil => exact .refl u x
  | cons q qs ih =>
    have hone := sameUser_serve F hU hx (hqs q (List.mem_cons_self ..)) (hn q (List.mem_cons_self ..))
    refine hone.trans (ih (allNamed_serve F hU hx q) (fun q' hq' => hqs q' (List.mem_cons_of_mem _ hq'))
      fun q' hq' hh => ?_)
    exact hn q' (List.mem_cons_of_mem _ hq') ((hone.hits q').mp hh)

/-- The user finds things as they were: the entries, and every unsubscription that would have
succeeded. -/
structure Undisturbed (O : Outside M) (u : String) (x y : Shared (Inner M)) : Prop where
  queues : ∀ queueName name, getUserId name = u →
    (y.queueNameToUserIdKeyName queueName = some name ↔ x.queueNameToUserIdKeyName queueName = some name)
  counts : ∀ name, getUserId name = u → y.keySubscriptionCount name = x.keySubscriptionCount name
  unsubscribe : ∀ queueName, (solo O (unsubscribe u queueName) x []).result = .ok () →
    (solo O (unsubscribe u queueName) y []).result = .ok ()

/-- The calls of the others leave a user undisturbed exactly when none of them tries to unsubscribe
one of the user's queues. -/
theorem undisturbed_iff (hO : Succeeds O) (hU : Unique O named) (b : Inner M) (before qs : List Request)
    (u : String) (hqs : ∀ q ∈ qs, Foreign u q) :
    Undisturbed O u (serveAll F O (.new b) before) (serveAll F O (serveAll F O (.new b) before) qs) ↔
      ∀ q ∈ qs, ¬ Hits u (serveAll F O (.new b) before) q := by
  have hx : AllNamed named (serveAll F O (.new b) before) :=
    allNamed_serveAll F hU (fun _ hq => absurd rfl hq) before
  generalize serveAll F O (.new b) before = x at hx ⊢
  constructor
  · rintro hundisturbed q hq hh
    cases hqs q hq with
    | subscribe k startTimestamp hne hu' => exact hh
    | @unsubscribe u' queueName hne =>
      obtain ⟨name,hname,howner⟩ := hh
      obtain ⟨pre,post,rfl⟩ := List.append_of_mem hq
      have hnamed := namesKept F hU (hx queueName (by simp [hname])) (pre ++ [.unsubscribe u' queueName])
      have hgone : (serveAll F O x (pre ++ [.unsubscribe u' queueName])).queueNameToUserIdKeyName
          queueName = none := by
        rw [serveAll,List.foldl_append,List.foldl_cons,List.foldl_nil,(served_unsubscribe F _ u' _).1]
        exact Function.update_self ..
      have hafter := absent_serveAll F hU post hnamed hgone
      have hstill := (hundisturbed.queues queueName name howner).mpr hname
      have hwhole : serveAll F O x (pre ++ .unsubscribe u' queueName :: post) =
          serveAll F O (serveAll F O x (pre ++ [.unsubscribe u' queueName])) post := by
        simp [serveAll]
      rw [hwhole,hafter] at hstill
      cases hstill
  · intro hn
    have hsame := sameUser_serveAll F hU hx hqs hn
    refine ⟨hsame.queues,hsame.counts,fun queueName hok => ?_⟩
    obtain ⟨name,hq,howner,hcount,hread⟩ := (unsubscribe_ok_iff hO x u queueName []).mp hok
    refine (unsubscribe_ok_iff hO _ u queueName []).mpr ⟨name,(hsame.queues _ _ howner).mpr hq,howner,
      by rwa [hsame.counts name howner],?_⟩
    rw [Readable,hsame.account]
    exact hread

/-- The names that a queue has given when it has been asked so often. -/
def sampleNamed (n : ℕ) : Set String := {name | ∃ i < n, name = "queue-" ++ toString i}

theorem sample_unique : Unique (sampleOutside fun _ => true) sampleNamed := by
  have hstep (n : ℕ) : sampleNamed n ⊆ sampleNamed (n+1) := fun _ ⟨i,hi,he⟩ => ⟨i,by omega,he⟩
  refine ⟨fun n mqUri name queueName m' hc => ?_,hstep,fun n _ _ => hstep n,fun n _ _ => hstep n,
    fun n _ _ _ => hstep n,fun n _ _ _ => hstep n⟩
  obtain ⟨hname,rfl⟩ := Prod.mk.inj hc
  obtain rfl := Except.ok.inj hname
  refine ⟨?_,n,by omega,rfl⟩
  rintro ⟨i,hi,he⟩
  have hh := String.toList_inj.mpr he
  simp only [String.toList_append,List.append_right_inj] at hh
  have hn : n = i := Nat.repr_injective (String.toList_inj.mp hh)
  omega

theorem undisturbed_sample : Undisturbed (sampleOutside fun _ => true) "alice"
    (serveAll sampleFormats (sampleOutside fun _ => true) (.new sampleInner) [.subscribe "alice" "key" 0])
    (serveAll sampleFormats (sampleOutside fun _ => true) (serveAll sampleFormats
      (sampleOutside fun _ => true) (.new sampleInner) [.subscribe "alice" "key" 0])
        [.subscribe "bob" "key" 0]) :=
  (undisturbed_iff sampleFormats sample_succeeds sample_unique sampleInner [.subscribe "alice" "key" 0]
    [.subscribe "bob" "key" 0] "alice" fun q hq => by
      rw [List.mem_singleton.mp hq]
      exact .subscribe "key" 0 (by decide) (by decide)).mpr fun q hq hh => by
        rw [List.mem_singleton.mp hq] at hh
        exact hh

/-- Bob is told that he may not, and Alice's queue is forgotten. -/
theorem denied_and_removed :
    (solo (sampleOutside fun _ => true) (subscribe sampleFormats "alice" "key" 0) (.new sampleInner)
      []).result = .ok "queue-1" ∧
    (solo (sampleOutside fun _ => true) (unsubscribe "bob" "queue-1") (serveAll sampleFormats
      (sampleOutside fun _ => true) (.new sampleInner) [.subscribe "alice" "key" 0]) []).result =
        .error (.error "Ubsubscribe Error: permission denied.") ∧
    (solo (sampleOutside fun _ => true) (unsubscribe "alice" "queue-1") (serveAll sampleFormats
      (sampleOutside fun _ => true) (.new sampleInner) [.subscribe "alice" "key" 0]) []).result =
        .ok () ∧
    (solo (sampleOutside fun _ => true) (unsubscribe "alice" "queue-1") (serveAll sampleFormats
      (sampleOutside fun _ => true) (serveAll sampleFormats (sampleOutside fun _ => true)
        (.new sampleInner) [.subscribe "alice" "key" 0]) [.unsubscribe "bob" "queue-1"]) []).result =
        .error (.error "Ubsubscribe Error: subscription not found.") ∧
    ¬ Undisturbed (sampleOutside fun _ => true) "alice"
      (serveAll sampleFormats (sampleOutside fun _ => true) (.new sampleInner)
        [.subscribe "alice" "key" 0])
      (serveAll sampleFormats (sampleOutside fun _ => true) (serveAll sampleFormats
        (sampleOutside fun _ => true) (.new sampleInner) [.subscribe "alice" "key" 0])
          [.unsubscribe "bob" "queue-1"]) := by
  have hbefore : (solo (sampleOutside fun _ => true) (unsubscribe "alice" "queue-1") (serveAll sampleFormats
      (sampleOutside fun _ => true) (.new sampleInner) [.subscribe "alice" "key" 0]) []).result =
        .ok () := by decide +kernel
  have hafter : (solo (sampleOutside fun _ => true) (unsubscribe "alice" "queue-1") (serveAll sampleFormats
      (sampleOutside fun _ => true) (serveAll sampleFormats (sampleOutside fun _ => true)
        (.new sampleInner) [.subscribe "alice" "key" 0]) [.unsubscribe "bob" "queue-1"]) []).result =
        .error (.error "Ubsubscribe Error: subscription not found.") := by decide +kernel
  refine ⟨by decide +kernel,by decide +kernel,hbefore,hafter,fun hu => ?_⟩
  have hok := hu.unsubscribe "queue-1" hbefore
  rw [hafter] at hok
  cases hok

end Owners

end Subscription
end CoLinkServer
