import CoLinkServer.SubscriberRuns

/-! Exactly-once delivery to a subscriber. When all calls have returned, the queue of a subscription holds
the versions of the key that were there when the subscription was made, and then one message for every
change that was made afterwards. -/
namespace CoLinkServer
namespace Subscription

open Interleaving BasicStorage

namespace ChangeOrder

variable {M : Type} (F : Formats) {O : Outside M} {clock : ℕ → ℤ}

/-- What the others have done before the subscriber has the lock, until it has bound its queue, until it
has given the lock back, and afterwards; and what it has done itself. -/
structure Course (t : ℕ) (u k : String) (start : ℤ) (queueName : String) where
  mqUri : String
  added : Events
  keyList : List String
  valid : List String
  res : Payloads
  before : History
  opening : History
  telling : History
  later : History
  plain : ∀ e ∈ added, Plain e.1
  account : Account u mqUri added
  listed : validKeyPaths (userIdKeyName u k) start keyList = some valid
  events_before : events t before = ⟨.queueBind mqUri queueName queueName,.ok ()⟩ ::
    ⟨.createQueue mqUri "",.ok queueName⟩ :: added
  events_opening : events t opening = [⟨.insertQueue queueName (userIdKeyName u k),()⟩,
    ⟨.countSubscription (userIdKeyName u k),()⟩]
  events_telling : events t telling = (res.map (told F mqUri queueName)).reverse ++
    [⟨.readFromKeyPaths valid,.ok res⟩,⟨.listKeys (getPrefix u k) true,.ok keyList⟩]
  events_later : events t later = []

namespace Course

variable {F} {t : ℕ} {u k : String} {start : ℤ} {queueName : String} (x : Course F t u k start queueName)

/-- The record when the subscriber gets the lock, when it binds its queue, when it has told the past, and
in the end. -/
def locked : History := .op t (.subscribe u k start) .lockWrite () :: x.before

def entered : History := x.opening ++ x.locked

def bound : History := .op t (.subscribe u k start)
  (.queueBind x.mqUri queueName (routingKey F (userIdKeyName u k))) (.ok ()) :: x.entered

def replayed : History := x.telling ++ x.bound

def whole : History := x.later ++ .op t (.subscribe u k start) .unlockWrite () :: x.replayed

/-- What has happened since the subscriber got the lock. -/
def since : History := x.later ++ .op t (.subscribe u k start) .unlockWrite () ::
  (x.telling ++ .op t (.subscribe u k start)
    (.queueBind x.mqUri queueName (routingKey F (userIdKeyName u k))) (.ok ()) :: x.opening)

theorem whole_eq : x.whole = x.since ++ x.locked := by
  simp [whole,since,replayed,bound,entered]

theorem locked_suffix : x.locked <:+ x.bound := (List.suffix_append ..).trans (List.suffix_cons ..)

theorem bound_suffix : x.bound <:+ x.replayed := List.suffix_append ..

theorem replayed_suffix : x.replayed <:+ x.whole := (List.suffix_cons ..).trans (List.suffix_append ..)

theorem events_locked : events t x.locked = ⟨.lockWrite,()⟩ :: ⟨.queueBind x.mqUri queueName queueName,.ok ()⟩ ::
    ⟨.createQueue x.mqUri "",.ok queueName⟩ :: x.added := by
  rw [locked,events_op_self,x.events_before]

theorem events_bound : events t x.bound =
    ⟨.queueBind x.mqUri queueName (routingKey F (userIdKeyName u k)),.ok ()⟩ ::
    ⟨.insertQueue queueName (userIdKeyName u k),()⟩ :: ⟨.countSubscription (userIdKeyName u k),()⟩ ::
    events t x.locked := by
  rw [bound,events_op_self,entered,events_append,x.events_opening]
  rfl

theorem events_replayed : events t x.replayed = (x.res.map (told F x.mqUri queueName)).reverse ++
    ⟨.readFromKeyPaths x.valid,.ok x.res⟩ :: ⟨.listKeys (getPrefix u k) true,.ok x.keyList⟩ ::
    events t x.bound := by
  rw [replayed,events_append,x.events_telling,List.append_assoc]
  rfl

end Course

section Runs

variable {F} {c : Config Op Res Failure Request String (Shared (Inner M))} {t : ℕ} {u k : String} {start : ℤ}
  {queueName : String}

theorem exists_course (hc : Reach F O clock c)
    (ht : c.threads t = some (.subscribe u k start,.ret queueName)) :
    ∃ x : Course F t u k start queueName, x.whole = c.state.history := by
  have hreg : Registered F u k start queueName (events t c.state.history) :=
    hc.traced_end (ends_handle F) (r := .ok queueName) ht
  obtain ⟨mqUri,added,keyList,valid,res,hplain,haccount,hlisted,he⟩ := hreg
  have hsame {q : Request} {o : Op} {r : Res o} (hm : .op t q o r ∈ c.state.history) :
      q = .subscribe u k start := ((hc.history_thread t).2 _ _ ht).2 q o r hm
  replace he : events t c.state.history = [] ++ ⟨.unlockWrite,()⟩ ::
      ((res.map (told F mqUri queueName)).reverse ++ ⟨.readFromKeyPaths valid,.ok res⟩ ::
        ⟨.listKeys (getPrefix u k) true,.ok keyList⟩ :: opened F u k mqUri queueName added) := he
  obtain ⟨later,q₁,h₁,hh,hlater,he₁⟩ := split_at_event he
  replace he₁ : events t h₁ = ((res.map (told F mqUri queueName)).reverse ++
      [⟨.readFromKeyPaths valid,.ok res⟩,⟨.listKeys (getPrefix u k) true,.ok keyList⟩]) ++
      opened F u k mqUri queueName added := by
    rw [he₁,List.append_assoc]
    rfl
  obtain ⟨telling,q₂,h₂,rfl,htelling,he₂⟩ := split_at_event he₁
  replace he₂ : events t h₂ = [⟨.insertQueue queueName (userIdKeyName u k),()⟩,
      ⟨.countSubscription (userIdKeyName u k),()⟩] ++ ⟨.lockWrite,()⟩ ::
        ⟨.queueBind mqUri queueName queueName,.ok ()⟩ :: ⟨.createQueue mqUri "",.ok queueName⟩ :: added := he₂
  obtain ⟨opening,q₃,before,rfl,hopening,hbefore⟩ := split_at_event he₂
  have hin : ∀ a ∈ opening ++ .op t q₃ .lockWrite () :: before, a ∈ c.state.history := fun a ha => by
    rw [hh]
    exact List.mem_append_right _ (List.mem_cons_of_mem _ (List.mem_append_right _ (List.mem_cons_of_mem _ ha)))
  obtain rfl := hsame (q := q₃) (hin _ (List.mem_append_right _ (List.mem_cons_self ..)))
  obtain rfl := hsame (q := q₁) (by rw [hh]; exact List.mem_append_right _ (List.mem_cons_self ..))
  obtain rfl := hsame (q := q₂) (by
    rw [hh]
    exact List.mem_append_right _ (List.mem_cons_of_mem _ (List.mem_append_right _ (List.mem_cons_self ..))))
  exact ⟨⟨mqUri,added,keyList,valid,res,before,opening,telling,later,hplain,haccount,hlisted,hbefore,
    hopening,htelling,hlater⟩,hh.symm⟩

end Runs

/-- User ids have no colon, queues have plain names, none of which is given twice, the clock is right, no
other key is announced under the routing key of this one, clients leave the account of the user alone, and
the user does not unsubscribe the queue. -/
structure Proper (clock : ℕ → ℤ) (u k queueName : String) (h : History) : Prop where
  users : ∀ t q, .start t q ∈ h → NoColon q.userId
  queues : Everywhere NewQueue h
  fresh : Everywhere FreshQueue h
  times : Timed clock h
  keys : ∀ t q changeType call value, .start t q ∈ h → asks q = some (changeType,call,value) →
    routingKey F call.name = routingKey F (userIdKeyName u k) → call.name = userIdKeyName u k
  account : Untouched u h
  kept : ∀ t, .start t (.unsubscribe u queueName) ∉ h

section Facts

variable {F} {c : Config Op Res Failure Request String (Shared (Inner M))} {t t' : ℕ} {u k : String} {start : ℤ}
  {queueName : String} {q : Request} {past : History} {x : Course F t u k start queueName}

theorem Course.created (hx : x.whole = c.state.history) (hc : Reach F O clock c) :
    .op t (.subscribe u k start) (.createQueue x.mqUri "") (.ok queueName) ∈ x.before := by
  have hm : ⟨.createQueue x.mqUri "",.ok queueName⟩ ∈ events t x.before := by simp [x.events_before]
  obtain ⟨q,hm⟩ := mem_events.mp hm
  have hlocked : x.locked <:+ c.state.history :=
    hx ▸ x.locked_suffix.trans (x.bound_suffix.trans x.replayed_suffix)
  obtain rfl := hc.same_request (hlocked.subset (List.mem_cons_of_mem _ hm))
    (hlocked.subset (List.mem_cons_self ..))
  exact hm

theorem Course.opens (hx : x.whole = c.state.history) (hc : Reach F O clock c)
    (h : Proper F clock u k queueName c.state.history) :
    Opens t u k start x.mqUri queueName c.state.history := by
  have hlocked : x.locked <:+ c.state.history :=
    hx ▸ x.locked_suffix.trans (x.bound_suffix.trans x.replayed_suffix)
  have hm := hlocked.subset (List.mem_cons_of_mem _ (x.created hx hc))
  exact ⟨hm,h.fresh,h.users t _ (hc.start_of_op hm),h.kept⟩

theorem Course.inside (hlocked : ⟨.lockWrite,()⟩ ∈ events t past) (hreplayed : past <:+ x.replayed) :
    Inside t past := by
  refine ⟨hlocked,fun e he => ?_⟩
  replace he := (events_mono hreplayed t).subset he
  simp only [x.events_replayed,x.events_bound,x.events_locked,List.mem_append,List.mem_reverse,List.mem_map,
    List.mem_cons] at he
  rcases he with ⟨entry,-,rfl⟩ | rfl | rfl | rfl | rfl | rfl | rfl | rfl | rfl | he
  case inr.inr.inr.inr.inr.inr.inr.inr.inr => exact (Plain.quiet (x.plain e he)).2 _
  all_goals rfl

/-- Whatever is published to the queue comes from its owner or is about a change of the key. -/
theorem publication (hc : Reach F O clock c) (h : Proper F clock u k queueName c.state.history)
    {mqUri : String} (ho : Opens t u k start mqUri queueName c.state.history) {mqUri' key : String}
    {message : Bytes} {r : Except String Unit}
    (hs : .op t' q (.publishMessage mqUri' key message) r :: past <:+ c.state.history)
    (hkey : key = queueName ∨ key = routingKey F (userIdKeyName u k)) : t' = t ∨
    key = routingKey F (userIdKeyName u k) ∧ ∃ changeType call value, asks q = some (changeType,call,value) ∧
      call.name = userIdKeyName u k ∧ ⟨.lockRead,()⟩ ∈ events t' past ∧ ⟨.unlockRead,()⟩ ∉ events t' past := by
  have hnew {t : ℕ} {q : Request} {mqUri queueName : String}
      (hm : .op t q (.createQueue mqUri "") (.ok queueName) ∈ c.state.history) : PlainName queueName := by
    obtain ⟨before,hs⟩ := suffix_of_mem hm
    exact (everywhere_iff.mp h.queues _ _ hs).1
  rcases (hc.traced_op (traced_handle F) hs : Notice F q key message (events t' past) ∨
    Replays F q mqUri' key message (events t' past)) with hn | hn
  · obtain ⟨changeType,call,value,path,hq,rfl,-,hstored,hquiet⟩ := hn
    rcases hkey with hkey | hkey
    · exact absurd (hnew ho.created) (hkey ▸ routingKey_not_plain F call.userId call.keyName)
    · refine .inr ⟨hkey,changeType,call,value,hq,h.keys t' q changeType call value
        (hc.start_of_op (hs.subset (List.mem_cons_self ..))) hq hkey,hstored.subset (by simp),fun hm => ?_⟩
      cases (hquiet _ hm).2
  · obtain ⟨u',k',start',rfl,hcreated,-⟩ := hn
    obtain ⟨q',hcreated⟩ := mem_events.mp hcreated
    have hcreated := ((List.suffix_cons ..).trans hs).subset hcreated
    rcases hkey with rfl | rfl
    · exact .inl (named_once h.fresh hcreated ho.created).1
    · exact absurd (hnew hcreated) (routingKey_not_plain F u k)

theorem Course.publisher (hx : x.whole = c.state.history) (hc : Reach F O clock c)
    (h : Proper F clock u k queueName c.state.history) {mqUri key : String} {message : Bytes}
    {r : Except String Unit} (hs : .op t' q (.publishMessage mqUri key message) r :: past <:+ x.replayed)
    (hkey : key = queueName ∨ key = routingKey F (userIdKeyName u k) ∧ ⟨.lockWrite,()⟩ ∈ events t past) :
    t' = t := by
  have hpast := (List.suffix_cons ..).trans hs
  have hwhole : x.replayed <:+ c.state.history := hx ▸ x.replayed_suffix
  have ho := x.opens hx hc h
  rcases publication hc h ho (hs.trans hwhole) (hkey.imp_right And.left) with
    ht | ⟨hrouting,changeType,call,value,-,-,hread,hunlock⟩
  · exact ht
  · rcases hkey with hkey | ⟨-,hlocked⟩
    · obtain ⟨before,hs'⟩ := suffix_of_mem ho.created
      have hnew := (everywhere_iff.mp h.queues _ _ hs').1
      exact absurd (hrouting ▸ hkey ▸ hnew) (routingKey_not_plain F u k)
    · exact absurd (given_back hc (hpast.trans hwhole) (x.inside hlocked hpast) hread) hunlock

/-- The keys of the queue. -/
def Course.keys (x : Course F t u k start queueName) (key : String × String) : Bool :=
  key = (x.mqUri,queueName) ∨ key = (x.mqUri,routingKey F (userIdKeyName u k))

/-- What an event publishes under one of them. -/
def Course.publishes (x : Course F t u k start queueName) : Event Op Res → Option Bytes
  | ⟨.publishMessage mqUri key message,.ok _⟩ => if x.keys (mqUri,key) then some message else none
  | _ => none

theorem Course.sends_op (t' : ℕ) (q : Request) (o : Op) (r : Res o) :
    DirectExchange.sends mqCall x.keys (.op t' q o r) = x.publishes ⟨o,r⟩ := by
  cases o with
  | publishMessage mqUri key message => cases r <;> rfl
  | createQueue mqUri name => cases r <;> rfl
  | deleteQueue mqUri name => cases r <;> rfl
  | queueBind mqUri name key => cases r <;> rfl
  | _ => rfl

theorem Course.keys_iff {mqUri key : String} : x.keys (mqUri,key) ↔
    mqUri = x.mqUri ∧ (key = queueName ∨ key = routingKey F (userIdKeyName u k)) := by
  simp only [Course.keys,Prod.mk.injEq,decide_eq_true_eq,and_or_left]

theorem Course.of_sends {a : Action Op Res Request} {m : Bytes}
    (ha : DirectExchange.sends mqCall x.keys a = some m) : ∃ t' q mqUri key,
      a = .op t' q (.publishMessage mqUri key m) (.ok ()) ∧
      (key = queueName ∨ key = routingKey F (userIdKeyName u k)) := by
  simp only [DirectExchange.sends] at ha
  split at ha
  · next key m' hcall =>
    split_ifs at ha with hkeys
    obtain rfl := Option.some.inj ha
    unfold mqCall at hcall
    split at hcall <;> simp only [Option.some.injEq,reduceCtorEq,DirectExchange.Call.publish.injEq] at hcall
    obtain ⟨rfl,rfl⟩ := hcall
    exact ⟨_,_,_,_,rfl,(x.keys_iff.mp hkeys).2⟩
  · cases ha

theorem Course.not_deleted (hx : x.whole = c.state.history) (hc : Reach F O clock c)
    (h : Proper F clock u k queueName c.state.history) :
    ∀ a ∈ c.state.history, mqCall a ≠ some (.delete (x.mqUri,queueName)) := by
  intro a ha hcall
  unfold mqCall at hcall
  split at hcall <;> simp only [Option.some.injEq,reduceCtorEq,DirectExchange.Call.delete.injEq,
    Prod.mk.injEq] at hcall
  obtain ⟨rfl,rfl⟩ := hcall
  exact queue_kept hc (x.opens hx hc h) ha

theorem Course.bindings (hx : x.whole = c.state.history) (hc : Reach F O clock c)
    (h : Proper F clock u k queueName c.state.history) {rest : History}
    (hrest : rest ++ x.bound <:+ c.state.history) (key : String × String) :
    ((x.mqUri,queueName),key) ∈ (DirectExchange.after mqCall (rest ++ x.bound)).bindings ↔ x.keys key := by
  have ho := x.opens hx hc h
  have hno : ∀ a ∈ rest ++ x.bound, mqCall a ≠ some (.delete (x.mqUri,queueName)) :=
    fun a ha => x.not_deleted hx hc h a (hrest.subset ha)
  constructor
  · intro hb
    obtain ⟨mqUri,name⟩ := key
    obtain ⟨hmqUri,hkey⟩ := bound_of_queue hc h.queues ho.created hrest hb
    simp only [Course.keys,decide_eq_true_eq]
    exact hkey.imp (fun hkey => Prod.ext hmqUri hkey) fun hkey => Prod.ext hmqUri hkey.1
  · intro hkey
    have he : events t x.before = [] ++ (⟨.queueBind x.mqUri queueName queueName,.ok ()⟩ : Event Op Res) ::
        ⟨.createQueue x.mqUri "",.ok queueName⟩ :: x.added := x.events_before
    obtain ⟨l,q₁,h₁,hbefore,-,he₁⟩ := split_at_event he
    obtain ⟨q₂,hcreated⟩ := mem_events (o := .createQueue x.mqUri "") (r := .ok queueName).mp
      (show _ ∈ events t h₁ by rw [he₁]; exact List.mem_cons_self ..)
    obtain ⟨h₂,hs₂⟩ := suffix_of_mem hcreated
    have hs₁ : .op t q₁ (.queueBind x.mqUri queueName queueName) (.ok ()) :: h₁ <:+ x.before := ⟨l,hbefore.symm⟩
    have hentered : x.entered <:+ rest ++ x.bound := (List.suffix_cons ..).trans (List.suffix_append ..)
    have hlocked : x.before <:+ x.entered := (List.suffix_cons ..).trans (List.suffix_append ..)
    have hexists {p : History} (hs : h₁ <:+ p) (hp : p <:+ rest ++ x.bound) :
        ((DirectExchange.after mqCall p).queues (x.mqUri,queueName)).isSome :=
      DirectExchange.exists_suffix (hs₂.trans hs) (fun a ha => hno a (hp.subset ha))
        (DirectExchange.exists_of_declare rfl)
    have hown := (List.suffix_cons ..).trans (hs₁.trans hlocked)
    simp only [Course.keys,decide_eq_true_eq] at hkey
    rcases hkey with rfl | rfl
    · exact DirectExchange.bound_suffix (hs₁.trans (hlocked.trans hentered)) hno
        (DirectExchange.bound_of_bind rfl (hexists List.suffix_rfl (hown.trans hentered)))
    · exact DirectExchange.bound_suffix (List.suffix_append rest x.bound) hno
        (DirectExchange.bound_of_bind rfl (hexists hown hentered))

theorem Course.held_bound (hx : x.whole = c.state.history) (hc : Reach F O clock c)
    (h : Proper F clock u k queueName c.state.history) :
    (DirectExchange.after mqCall x.bound).held (x.mqUri,queueName) = [] := by
  refine List.eq_nil_iff_forall_not_mem.mpr fun m hm => ?_
  obtain ⟨a,past,hs,key,hcall,hbound⟩ := DirectExchange.reaches_of_mem hm
  unfold mqCall at hcall
  split at hcall <;> simp only [Option.some.injEq,reduceCtorEq,DirectExchange.Call.publish.injEq] at hcall
  rename_i t' q mqUri key' message _
  obtain ⟨rfl,rfl⟩ := hcall
  have hwhole : x.replayed <:+ c.state.history := hx ▸ x.replayed_suffix
  have hreplayed := hs.trans x.bound_suffix
  obtain ⟨-,hkey⟩ := bound_of_queue hc h.queues (x.opens hx hc h).created
    ((List.suffix_cons ..).trans (hreplayed.trans hwhole)) hbound
  obtain rfl := x.publisher hx hc h hreplayed hkey
  have hpublished : ⟨.publishMessage mqUri key' message,.ok ()⟩ ∈ events t' x.bound :=
    mem_events.mpr ⟨q,hs.subset (List.mem_cons_self ..)⟩
  simp only [x.events_bound,x.events_locked,List.mem_cons,Sigma.mk.injEq,reduceCtorEq,false_and,
    false_or] at hpublished
  exact x.plain _ hpublished

/-- What the owner tells it, in the order in which it does. -/
theorem Course.sends_telling (hx : x.whole = c.state.history) (hc : Reach F O clock c)
    (h : Proper F clock u k queueName c.state.history) :
    x.telling.reverse.filterMap (DirectExchange.sends mqCall x.keys) =
      x.res.map fun e => F.subscriptionMessage.encode ⟨"in-storage",e.1,e.2⟩ := by
  have hwhole : x.replayed <:+ c.state.history := hx ▸ x.replayed_suffix
  have hown : x.telling.filterMap (DirectExchange.sends mqCall x.keys) =
      (x.telling.filter fun a => a.thread = some t).filterMap (DirectExchange.sends mqCall x.keys) := by
    rw [List.filterMap_filter]
    refine List.filterMap_congr fun a ha => ?_
    by_cases ht : a.thread = some t
    · simp [ht]
    · cases hsends : DirectExchange.sends mqCall x.keys a with
      | none => simp
      | some m =>
        obtain ⟨t',q,mqUri,key,rfl,hkey⟩ := x.of_sends hsends
        obtain ⟨past,front,hfront⟩ := suffix_of_mem ha
        have hs : .op t' q (.publishMessage mqUri key m) (.ok ()) :: (past ++ x.bound) <:+ x.replayed :=
          ⟨front,by rw [Course.replayed,← hfront]; simp⟩
        have hlocked : ⟨.lockWrite,()⟩ ∈ events t (past ++ x.bound) :=
          (events_mono (List.suffix_append past x.bound) t).subset (by simp [x.events_bound,x.events_locked])
        exact absurd (congrArg some (x.publisher hx hc h hs (hkey.imp_right fun hkey => ⟨hkey,hlocked⟩))) ht
  have htelling : (events t x.telling).filterMap x.publishes =
      (x.res.map fun e => F.subscriptionMessage.encode ⟨"in-storage",e.1,e.2⟩).reverse := by
    have hown (e : String × Bytes) : x.publishes (told F x.mqUri queueName e) =
        some (F.subscriptionMessage.encode ⟨"in-storage",e.1,e.2⟩) := by
      simp [told,Course.publishes,Course.keys]
    rw [x.events_telling,List.filterMap_append,List.filterMap_reverse,List.filterMap_map,
      show x.publishes ∘ told F x.mqUri queueName = fun e => some _ from funext hown,List.filterMap_eq_map']
    simp [Course.publishes]
  rw [List.filterMap_reverse,hown,filterMap_thread (g := x.publishes) (fun _ => rfl)
    fun q o r _ => x.sends_op t q o r,htelling,List.reverse_reverse]

theorem Course.held (hx : x.whole = c.state.history) (hc : Reach F O clock c)
    (h : Proper F clock u k queueName c.state.history) :
    (DirectExchange.after mqCall c.state.history).held (x.mqUri,queueName) =
      x.res.map (fun e => F.subscriptionMessage.encode ⟨"in-storage",e.1,e.2⟩) ++
        x.later.reverse.filterMap (DirectExchange.sends mqCall x.keys) := by
  have hwhole : c.state.history =
      (x.later ++ .op t (.subscribe u k start) .unlockWrite () :: x.telling) ++ x.bound := by
    rw [← hx,Course.whole,Course.replayed,List.append_assoc]
    rfl
  have hbound : DirectExchange.received mqCall (x.mqUri,queueName) x.bound = [] := by
    rw [← DirectExchange.held_eq_received fun a ha => x.not_deleted hx hc h a
      (hwhole ▸ List.mem_append_right _ ha)]
    exact x.held_bound hx hc h
  rw [DirectExchange.held_eq_received (x.not_deleted hx hc h),hwhole,
    DirectExchange.received_append fun rest hrest key => x.bindings hx hc h
      (by
        obtain ⟨front,hfront⟩ := hrest
        exact ⟨front,by rw [hwhole,← hfront,List.append_assoc]⟩) key,hbound,List.nil_append,
      List.reverse_append,List.reverse_cons,
    List.filterMap_append,List.filterMap_append,x.sends_telling hx hc h,List.append_assoc]
  rfl

theorem account_mono {mqUri : String} {h h' : Events} (hs : ∀ e ∈ h, e ∈ h') (ha : Account u mqUri h) :
    Account u mqUri h' := by
  rcases ha with ⟨entries,path,payload,hm,hrest⟩ | ⟨path,hm⟩
  · exact .inl ⟨entries,path,payload,hs _ hm,hrest⟩
  · exact .inr ⟨path,hs _ hm⟩

theorem Course.wrote_inside (hx : x.whole = c.state.history) (hc : Reach F O clock c)
    (h : Proper F clock u k queueName c.state.history) (hlocked : x.locked <:+ past)
    (hpast : past <:+ x.replayed) {path : String} {v : Bytes} :
    Wrote u k path v past ↔ Wrote u k path v x.before := by
  have hwhole : x.replayed <:+ c.state.history := hx ▸ x.replayed_suffix
  constructor
  · rintro ⟨t',q,call,hm,hname,hv⟩
    obtain ⟨p,hs⟩ := suffix_of_mem hm
    rcases one_first hs hlocked with he | hss | hss
    · cases (List.cons.inj he).1
    · exact ⟨t',q,call,hss.subset (List.mem_cons_self ..),hname,hv⟩
    · have hp := (List.suffix_cons ..).trans (hs.trans hpast)
      have hevents : events t x.locked <:+ events t p := events_mono hss t
      have hin := x.inside (hevents.subset (by simp [x.events_locked])) hp
      refine absurd hname (unchanged_inside hc h.account h.users hin (account_mono (fun e he => hevents.subset ?_)
        x.account) (hs.trans (hpast.trans hwhole)) (x.opens hx hc h).user)
      simp [x.events_locked,he]
  · rintro ⟨t',q,call,hm,hname,hv⟩
    exact ⟨t',q,call,((List.suffix_cons ..).trans hlocked).subset hm,hname,hv⟩

/-- The entries that are read are the versions of the key, from the start on. -/
theorem Course.entry_iff (hx : x.whole = c.state.history) (hc : Reach F O clock c)
    (h : Proper F clock u k queueName c.state.history) {path : String} {v : Bytes} :
    (path,v) ∈ x.res ↔
      ∃ time, path = keyPath u k time ∧ start ≤ time ∧ Wrote u k path v x.before := by
  have hwhole : x.replayed <:+ c.state.history := hx ▸ x.replayed_suffix
  have hu : NoColon u := (x.opens hx hc h).user
  obtain ⟨l₁,q₁,p₁,htelling,-,he₁⟩ := split_at_event x.events_telling
  replace he₁ : events t p₁ = [] ++ (⟨.listKeys (getPrefix u k) true,.ok x.keyList⟩ : Event Op Res) :: [] := he₁
  obtain ⟨l₂,q₂,p₂,rfl,-,-⟩ := split_at_event he₁
  let h₂ := p₂ ++ x.bound
  let h₁ := (l₂ ++ .op t q₂ (.listKeys (getPrefix u k) true) (.ok x.keyList) :: p₂) ++ x.bound
  have hread : .op t q₁ (.readFromKeyPaths x.valid) (.ok x.res) :: h₁ <:+ x.replayed :=
    ⟨l₁,by rw [Course.replayed,htelling]; simp [h₁]⟩
  have hlist : .op t q₂ (.listKeys (getPrefix u k) true) (.ok x.keyList) :: h₂ <:+ h₁ := ⟨l₂,by simp [h₁,h₂]⟩
  have hh₁ : h₁ <:+ x.replayed := (List.suffix_cons ..).trans hread
  have hh₂ : h₂ <:+ x.replayed := (List.suffix_cons ..).trans (hlist.trans hh₁)
  have hversion {p : History} (hp : x.bound <:+ p) (hp' : p <:+ x.replayed) {time : ℤ} {v : Bytes} :
      (versions clock p).version (u,k) time = some v ↔ Wrote u k (keyPath u k time) v x.before :=
    (version_iff hc h.times hu h.users (hp'.trans hwhole)).trans
      (x.wrote_inside hx hc h (x.locked_suffix.trans hp) hp')
  obtain ⟨_,-,hr₁⟩ := stored_refines hc h.times h.users (hh₁.trans hwhole)
  obtain ⟨latest,hlatest,hr₂⟩ := stored_refines hc h.times h.users (hh₂.trans hwhole)
  obtain ⟨c₁,_,hc₁,-,hstate₁,-,hanswer₁⟩ := exec_before hc (hread.trans hwhole)
  obtain ⟨c₂,_,hc₂,-,hstate₂,-,hanswer₂⟩ := exec_before hc (hlist.trans (hh₁.trans hwhole))
  have hmaps₁ : c₁.state.shared.backend.maps = stored clock h₁ := hstate₁ ▸ maps_eq hc₁
  have hmaps₂ : c₂.state.shared.backend.maps = stored clock h₂ := hstate₂ ▸ maps_eq hc₂
  have hkeys (path : String) : path ∈ x.keyList ↔ path ∈ listKeys (stored clock h₂) (getPrefix u k) true := by
    have hr : x.keyList = O.keyOrder c₂.state.shared.backend.outside
        (listKeys c₂.state.shared.backend.maps (getPrefix u k) true) :=
      Except.ok.inj (Prod.mk.inj hanswer₂).1
    rw [hr,O.mem_keyOrder,hmaps₂]
  obtain ⟨valid,hvalid,hmem⟩ := validKeyPaths_iff (userIdKeyName u k) start
    fun path (hm : path ∈ x.keyList) => stamped_of_mem hr₂ hlatest ((hkeys path).mp hm)
  rw [Option.some.inj (hvalid.symm.trans x.listed)] at hmem
  have hentry : (path,v) ∈ x.res ↔
      path ∈ x.valid ∧ (stored clock h₁).keyPathToValue path = some v := by
    have hr : (.ok x.res : Except String Payloads) = (BasicStorage.readFromKeyPaths
        c₁.state.shared.backend.maps x.valid).map (O.entryOrder c₁.state.shared.backend.outside) :=
      (Prod.mk.inj hanswer₁).1
    rw [hmaps₁] at hr
    by_cases hpresent : ∀ path ∈ x.valid, (stored clock h₁).keyPathToValue path ≠ none
    · obtain ⟨entries,hok,hlookup⟩ := (readFromKeyPaths_cases (stored clock h₁) x.valid).1 hpresent
      rw [hok] at hr
      rw [Except.ok.inj hr,O.mem_entryOrder,hlookup]
    · push Not at hpresent
      obtain ⟨e,herr⟩ := (readFromKeyPaths_cases (stored clock h₁) x.valid).2 hpresent
      rw [herr] at hr
      cases hr
  rw [hentry,hmem,hkeys]
  constructor
  · rintro ⟨⟨-,time,rfl,hstart⟩,hv⟩
    rw [atTimestamp_userIdKeyName] at hv ⊢
    rw [hr₁.value_keyPath hu] at hv
    exact ⟨time,rfl,hstart,(hversion (List.suffix_append ..) hh₁).mp hv⟩
  · rintro ⟨time,rfl,hstart,hw⟩
    have hv₁ := (hversion (List.suffix_append ..) hh₁).mpr hw
    have hv₂ := (hversion (List.suffix_append ..) hh₂).mpr hw
    refine ⟨⟨(mem_level hr₂ hu time).mpr (.inl (Option.ne_none_iff_exists'.mpr ⟨v,hv₂⟩)),time,
      (atTimestamp_userIdKeyName u k time).symm,hstart⟩,?_⟩
    rw [hr₁.value_keyPath hu]
    exact hv₁

/-- What a change means to a later subscriber: a version, if it is not too old. -/
def due (F : Formats) (u k : String) (start : ℤ) : Action Op Res Request → Option Bytes
  | .op _ _ (.change call) (.ok path) =>
    if call.name = userIdKeyName u k ∧ (getTimestamp path).any fun time => start ≤ time then
      call.value?.map fun v => F.subscriptionMessage.encode ⟨"in-storage",path,v⟩
    else none
  | _ => none

theorem due_eq_some {a : Action Op Res Request} {m : Bytes} : due F u k start a = some m ↔
    ∃ t' q call path v, a = .op t' q (.change call) (.ok path) ∧ call.name = userIdKeyName u k ∧
      call.value? = some v ∧ (getTimestamp path).any (fun time => start ≤ time) ∧
      m = F.subscriptionMessage.encode ⟨"in-storage",path,v⟩ := by
  constructor
  · intro ha
    unfold due at ha
    split at ha
    · next t' q call path =>
      split_ifs at ha with hcond
      obtain ⟨v,hv,rfl⟩ := Option.map_eq_some_iff.mp ha
      exact ⟨t',q,call,path,v,rfl,hcond.1,hv,hcond.2,rfl⟩
    · cases ha
  · rintro ⟨t',q,call,path,v,rfl,hname,hv,htime,rfl⟩
    simp [due,hname,hv,htime]

/-- Different changes leave different versions. -/
theorem nodup_due (hc : Reach F O clock c) (h : Proper F clock u k queueName c.state.history)
    (hpast : past <:+ c.state.history) : (past.filterMap (due F u k start)).Nodup := by
  induction past with
  | nil => exact List.nodup_nil
  | cons a past ih =>
    have ih := ih ((List.suffix_cons ..).trans hpast)
    cases ha : due F u k start a with
    | none => rwa [List.filterMap_cons_none ha]
    | some m =>
      rw [List.filterMap_cons_some ha]
      refine List.nodup_cons.mpr ⟨fun hm => ?_,ih⟩
      obtain ⟨a',ha',hdue⟩ := List.mem_filterMap.mp hm
      obtain ⟨t₁,q₁,call,path,v,rfl,hname,hv,-,rfl⟩ := due_eq_some.mp ha
      obtain ⟨t₂,q₂,call',path',v',rfl,hname',hv',-,hmessage⟩ := due_eq_some.mp hdue
      obtain ⟨before,hs⟩ := suffix_of_mem ha'
      have hpath := (write_spec hc hpast hv hname).1
      have hpath' := (write_spec hc (hs.trans ((List.suffix_cons ..).trans hpast)) hv' hname').1
      have he := F.subscriptionMessage.encode_inj hmessage
      simp only [SubscriptionMessage.mk.injEq,true_and] at he
      rw [hpath,hpath',← atTimestamp_userIdKeyName,← atTimestamp_userIdKeyName] at he
      have hlt := h.times.increasing (readings_lt hs)
      have htime := (atTimestamp_inj.mp he.1).2
      omega

theorem stamp_of_write (hc : Reach F O clock c) (h : Proper F clock u k queueName c.state.history)
    {call : Call Bytes} {path : String} {v : Bytes}
    (hs : .op t' q (.change call) (.ok path) :: past <:+ c.state.history) (hv : call.value? = some v)
    (hname : call.name = userIdKeyName u k) :
    path = keyPath u k (clock (readings past)) ∧ getTimestamp path = some (clock (readings past)) := by
  have hpath := (write_spec hc hs hv hname).1
  obtain ⟨hlo,hhi⟩ := h.times.range (readings_lt hs).le
  refine ⟨hpath,?_⟩
  rw [hpath,← atTimestamp_userIdKeyName]
  refine getTimestamp_atTimestamp _ ?_ hhi
  simp only [epoch] at hlo
  omega

theorem order_of_read (hc : Reach F O clock c) {paths : List String} {res : Payloads}
    (hs : .op t' q (.readFromKeyPaths paths) (.ok res) :: past <:+ c.state.history) :
    ∃ m entries, res = O.entryOrder m entries := by
  obtain ⟨c₀,c₁,-,-,-,-,he⟩ := exec_before hc hs
  have hr : (.ok res : Except String Payloads) = (BasicStorage.readFromKeyPaths
      c₀.state.shared.backend.maps paths).map (O.entryOrder c₀.state.shared.backend.outside) :=
    (Prod.mk.inj he).1
  cases hread : BasicStorage.readFromKeyPaths c₀.state.shared.backend.maps paths with
  | error e =>
    rw [hread] at hr
    cases hr
  | ok entries =>
    rw [hread] at hr
    exact ⟨_,entries,Except.ok.inj hr⟩

/-- The past is told completely, and nothing of it twice. -/
theorem Course.past_told (hx : x.whole = c.state.history) (hc : Reach F O clock c)
    (h : Proper F clock u k queueName c.state.history)
    (horder : ∀ m entries, (O.entryOrder m entries).Nodup) :
    (x.res.map fun e => F.subscriptionMessage.encode ⟨"in-storage",e.1,e.2⟩).Perm
      (x.before.filterMap (due F u k start)) := by
  have hbefore : x.before <:+ c.state.history := hx ▸ (List.suffix_cons ..).trans
    (x.locked_suffix.trans (x.bound_suffix.trans x.replayed_suffix))
  have hnodup : x.res.Nodup := by
    have hread : ⟨.readFromKeyPaths x.valid,.ok x.res⟩ ∈ events t x.replayed := by simp [x.events_replayed]
    obtain ⟨q,hread⟩ := mem_events.mp hread
    obtain ⟨p,hs⟩ := suffix_of_mem hread
    obtain ⟨m,entries,hres⟩ := order_of_read hc (hs.trans (hx ▸ x.replayed_suffix))
    rw [hres]
    exact horder m entries
  have hinj : Function.Injective fun e : String × Bytes =>
      F.subscriptionMessage.encode ⟨"in-storage",e.1,e.2⟩ := fun e e' he => by
    have hmessage := F.subscriptionMessage.encode_inj he
    simp only [SubscriptionMessage.mk.injEq,true_and] at hmessage
    exact Prod.ext hmessage.1 hmessage.2
  refine (List.perm_ext_iff_of_nodup (hnodup.map hinj) (nodup_due hc h hbefore)).mpr fun m => ?_
  simp only [List.mem_map,List.mem_filterMap,due_eq_some]
  constructor
  · rintro ⟨⟨path,v⟩,hm,rfl⟩
    obtain ⟨time,rfl,hstart,t',q,call,hm,hname,hv⟩ := (x.entry_iff hx hc h).mp hm
    refine ⟨_,hm,t',q,call,_,v,rfl,hname,hv,?_,rfl⟩
    obtain ⟨p,hs⟩ := suffix_of_mem hm
    obtain ⟨hpath,hstamp⟩ := stamp_of_write hc h (hs.trans hbefore) hv hname
    rw [← atTimestamp_userIdKeyName,← atTimestamp_userIdKeyName] at hpath
    obtain rfl := (atTimestamp_inj.mp hpath).2
    rw [hstamp]
    exact decide_eq_true hstart
  · rintro ⟨a,hm,t',q,call,path,v,rfl,hname,hv,htime,rfl⟩
    refine ⟨(path,v),(x.entry_iff hx hc h).mpr ?_,rfl⟩
    obtain ⟨p,hs⟩ := suffix_of_mem hm
    obtain ⟨hpath,hstamp⟩ := stamp_of_write hc h (hs.trans hbefore) hv hname
    rw [hstamp] at htime
    exact ⟨_,hpath,of_decide_eq_true htime,t',q,call,hm,hname,hv⟩

/-- What a client has to announce when its call has succeeded. -/
def announcement (F : Formats) (u k : String) (q : Request) : Option (Request × Service String) → Option Bytes
  | some (_,.ret path) =>
    match asks q with
    | some (changeType,call,value) =>
      if call.name = userIdKeyName u k then some (F.subscriptionMessage.encode ⟨changeType,path,value⟩)
      else none
    | none => none
  | _ => none

theorem of_announcement {q : Request} {r : Except Failure String} {m : Bytes}
    (ha : announcement F u k q (some (q,.ofExcept r)) = some m) : ∃ path changeType call value, r = .ok path ∧
      asks q = some (changeType,call,value) ∧ call.name = userIdKeyName u k ∧
      m = F.subscriptionMessage.encode ⟨changeType,path,value⟩ := by
  cases r with
  | error e => cases ha
  | ok path =>
    cases hq : asks q with
    | none => simp [announcement,Prog.ofExcept,hq] at ha
    | some asked =>
      obtain ⟨changeType,call,value⟩ := asked
      simp only [announcement,Prog.ofExcept,hq,Option.ite_none_right_eq_some,Option.some.injEq] at ha
      exact ⟨path,changeType,call,value,rfl,rfl,ha.1,ha.2.symm⟩

/-- What a change means to an earlier subscriber: a message, if the call succeeds. A call changes the
storage under the lock, which it takes once. -/
def news (F : Formats) (u k : String) (c : Config Op Res Failure Request String (Shared (Inner M))) :
    Action Op Res Request → Option Bytes
  | .op t q .lockRead _ => announcement F u k q (c.threads t)
  | _ => none

/-- The same for the events of a thread. -/
def onLock (n : Option Bytes) : Event Op Res → Option Bytes
  | ⟨.lockRead,_⟩ => n
  | _ => none

theorem news_op (t' : ℕ) (q : Request) (o : Op) (r : Res o) :
    news F u k c (.op t' q o r) = onLock (announcement F u k q (c.threads t')) ⟨o,r⟩ := by
  cases o <;> rfl

theorem Course.after_replayed {a : Action Op Res Request} (ha : a ∈ x.later) :
    ∃ p, a :: p <:+ x.whole ∧ x.replayed <:+ p := by
  obtain ⟨p,front,hfront⟩ := suffix_of_mem ha
  exact ⟨p ++ .op t (.subscribe u k start) .unlockWrite () :: x.replayed,
    ⟨front,by rw [Course.whole,← hfront]; simp⟩,(List.suffix_cons ..).trans (List.suffix_append ..)⟩

theorem Course.none_during (hx : x.whole = c.state.history) (hc : Reach F O clock c) {body : Events}
    (hev : events t' x.replayed = ⟨.unlockRead,()⟩ :: (body ++ [⟨.lockRead,()⟩]))
    (hlocked : events t' x.locked = []) : False := by
  replace hev : events t' x.replayed = (⟨.unlockRead,()⟩ :: body) ++ (⟨.lockRead,()⟩ : Event Op Res) :: [] := hev
  obtain ⟨l,q,p,hsplit,-,hp⟩ := split_at_event hev
  have hs : .op t' q .lockRead () :: p <:+ x.replayed := ⟨l,hsplit.symm⟩
  rcases one_first hs (x.locked_suffix.trans x.bound_suffix) with he | hss | hss
  · cases (List.cons.inj he).1
  · have hm : ⟨.lockRead,()⟩ ∈ events t' x.locked :=
      mem_events.mpr ⟨q,List.mem_cons_of_mem _ (hss.subset (List.mem_cons_self ..))⟩
    rw [hlocked] at hm
    cases hm
  · have hin : Inside t (.op t' q .lockRead () :: p) := by
      have hsuffix : x.locked <:+ .op t' q .lockRead () :: p := hss.trans (List.suffix_cons ..)
      exact x.inside ((events_mono hsuffix t).subset (by simp [x.events_locked])) hs
    have hread : ⟨.lockRead,()⟩ ∈ events t' (.op t' q .lockRead () :: p) := by simp
    have hgiven := given_back hc (hs.trans (hx ▸ x.replayed_suffix)) hin hread
    rw [events_op_self,hp] at hgiven
    cases List.mem_singleton.mp hgiven

theorem Course.found (hx : x.whole = c.state.history) (hc : Reach F O clock c)
    (h : Proper F clock u k queueName c.state.history) {found : Bool}
    (hm : .op t' q (.containsSubscription (userIdKeyName u k)) found ∈ x.later) : found = true := by
  obtain ⟨p,hs,hp⟩ := x.after_replayed hm
  rw [hx] at hs
  obtain ⟨c₀,c₁,hc₀,-,rfl,-,he⟩ := exec_before hc hs
  have ho := x.opens hx hc h
  have hpast := (List.suffix_cons ..).trans hs
  have hbefore : x.before <:+ c₀.state.history := (List.suffix_cons ..).trans
    (x.locked_suffix.trans (x.bound_suffix.trans hp))
  have hinsert : ⟨.insertQueue queueName (userIdKeyName u k),()⟩ ∈ events t c₀.state.history :=
    (events_mono hp t).subset (by simp [x.events_replayed,x.events_bound])
  obtain ⟨q',hinsert⟩ := mem_events.mp hinsert
  have hopens : Opens t u k start x.mqUri queueName c₀.state.history :=
    ⟨hbefore.subset (x.created hx hc),ho.fresh.suffix hpast,ho.user,fun t hm => ho.kept t (hpast.subset hm)⟩
  exact (Prod.mk.inj he).1.trans (subscribed hc₀ hopens hinsert)

/-- A thread without anything to announce publishes nothing to the queue. -/
theorem Course.silent (hx : x.whole = c.state.history) (hc : Reach F O clock c)
    (h : Proper F clock u k queueName c.state.history) (hne : t' ≠ t) {q : Request} {r : Except Failure String}
    (ht : c.threads t' = some (q,.ofExcept r)) (hn : announcement F u k q (c.threads t') = none) :
    (events t' x.later).filterMap x.publishes = [] := by
  refine List.filterMap_eq_nil_iff.mpr fun e he => ?_
  cases hpub : x.publishes e with
  | none => rfl
  | some m =>
    obtain ⟨o,r'⟩ := e
    obtain ⟨q',hm⟩ := mem_events.mp he
    rw [← x.sends_op t' q'] at hpub
    obtain ⟨t₁,q₁,mqUri,key,ha,hkey⟩ := x.of_sends hpub
    obtain ⟨p,hs,-⟩ := x.after_replayed hm
    rw [ha,hx] at hs
    cases ha
    rcases publication hc h (x.opens hx hc h) hs hkey with heq | ⟨-,changeType,call,value,hq,hname,-,-⟩
    · exact absurd heq hne
    · have hmem := hs.subset (List.mem_cons_self ..)
      obtain rfl := ((hc.history_thread t').2 _ _ ht).2 _ _ _ hmem
      have hended : Ended F q' r (events t' c.state.history) := hc.traced_end (ends_handle F) ht
      cases r with
      | ok path => simp [announcement,ht,Prog.ofExcept,hq,hname] at hn
      | error e =>
        have hunannounced : Unannounced (events t' c.state.history) := by
          cases q' <;> first | exact hended | cases hq
        exact absurd (mem_events.mpr ⟨q',hmem⟩) (hunannounced mqUri key m)

/-- A call that has succeeded is announced if it took the lock afterwards. -/
theorem Course.announced_once (hx : x.whole = c.state.history) (hc : Reach F O clock c)
    (h : Proper F clock u k queueName c.state.history) (hne : t' ≠ t) {q : Request} {path changeType : String}
    {call : Call Bytes} {value : Bytes} (ht : c.threads t' = some (q,.ret path))
    (hq : asks q = some (changeType,call,value)) (hname : call.name = userIdKeyName u k) :
    (events t' x.later).filterMap x.publishes = (events t' x.since).filterMap
      (onLock (some (F.subscriptionMessage.encode ⟨changeType,path,value⟩))) := by
  have hended : Ended F q (.ok path) (events t' c.state.history) :=
    hc.traced_end (ends_handle F) (r := .ok path) ht
  obtain ⟨past,hev,hconcluded⟩ : ∃ past, events t' c.state.history = ⟨.unlockRead,()⟩ :: past ∧
      Concluded F changeType call value path past := by
    cases q with
    | subscribe u' k' start' => cases hq
    | unsubscribe u' queueName' => cases hq
    | _ =>
      obtain ⟨_,_,_,past,hq',hev,hconcluded⟩ := hended
      cases hq
      cases hq'
      exact ⟨past,hev,hconcluded⟩
  obtain ⟨body,hpast,hbody⟩ := hconcluded.body
  have hreplayed : x.replayed <:+ c.state.history := hx ▸ x.replayed_suffix
  have hlocked : x.locked <:+ x.replayed := x.locked_suffix.trans x.bound_suffix
  have hlater : events t' c.state.history = events t' x.later ++ events t' x.replayed := by
    rw [← hx,Course.whole,events_append,events_op_of_ne (Ne.symm hne)]
  have hsince : events t' c.state.history = events t' x.since ++ events t' x.locked := by
    rw [← hx,x.whole_eq,events_append]
  have hinside {p : History} (hp : x.locked <:+ p) (hp' : p <:+ x.replayed) : Inside t p :=
    x.inside ((events_mono hp t).subset (by simp [x.events_locked])) hp'
  have hwhole : events t' c.state.history = ⟨.unlockRead,()⟩ :: (body ++ [⟨.lockRead,()⟩]) := hpast ▸ hev
  rcases all_or_nothing hc hreplayed (hinside hlocked List.suffix_rfl) hwhole hbody with hnone | hall
  · have hnone' : events t' x.locked = [] := List.suffix_nil.mp (hnone ▸ events_mono hlocked t')
    rw [hnone,List.append_nil] at hlater
    rw [hnone',List.append_nil] at hsince
    rw [← hlater,← hsince,hev]
    cases hconcluded with
    | silent =>
      have hm : ⟨.containsSubscription call.name,false⟩ ∈ events t' x.later := by simp [← hlater,hev]
      obtain ⟨q',hm⟩ := mem_events.mp hm
      rw [hname] at hm
      cases x.found hx hc h hm
    | @told mqUri added plain account =>
      have hstart := ((hc.history_thread t').2 _ _ ht).1
      have huser : call.userId = u := ((userIdKeyName_inj (user_of_asks hq ▸ h.users t' q hstart)
        (x.opens hx hc h).user).mp hname).1
      have hmqUri : mqUri = x.mqUri := by
        have ha : Account u mqUri (events t' c.state.history) :=
          account_mono (fun e he => by simp [hev,he]) (huser ▸ account)
        have ha' : Account u x.mqUri (events t c.state.history) := account_mono (fun e he =>
          (events_mono (hlocked.trans hreplayed) t).subset (by simp [x.events_locked,he])) x.account
        exact account_unique hc h.account ha ha'
      subst hmqUri
      have hpublishes : added.filterMap x.publishes = [] := List.filterMap_eq_nil_iff.mpr fun e he => by
        obtain ⟨o,r⟩ := e
        have hplain : Plain o := plain _ he
        cases o <;> first | rfl | exact hplain.elim
      have honLock : added.filterMap (onLock (some (F.subscriptionMessage.encode ⟨changeType,path,value⟩))) =
          [] := List.filterMap_eq_nil_iff.mpr fun e he => by
        obtain ⟨o,r⟩ := e
        have hplain : Plain o := plain _ he
        cases o <;> first | rfl | exact hplain.elim
      have hpublished : x.publishes ⟨.publishMessage x.mqUri (routingKey F call.name)
          (F.subscriptionMessage.encode ⟨changeType,path,value⟩),.ok ()⟩ =
          some (F.subscriptionMessage.encode ⟨changeType,path,value⟩) := by
        simp [Course.publishes,Course.keys,hname]
      trans [F.subscriptionMessage.encode ⟨changeType,path,value⟩]
      · rw [List.filterMap_cons_none rfl,List.filterMap_cons_some hpublished,List.filterMap_append,hpublishes]
        rfl
      · rw [List.filterMap_cons_none rfl,List.filterMap_cons_none rfl,List.filterMap_append,honLock]
        rfl
  · have hlater' : events t' x.later = [] := by
      rw [hall] at hlater
      exact List.self_eq_append_left.mp hlater
    rcases all_or_nothing hc (hlocked.trans hreplayed) (hinside List.suffix_rfl hlocked) hwhole hbody with
      hnone | hall'
    · exact (x.none_during hx hc (hall.trans hwhole) hnone).elim
    · rw [hall'] at hsince
      rw [hlater',List.self_eq_append_left.mp hsince]
      rfl

theorem Course.thread_told (hx : x.whole = c.state.history) (hc : Reach F O clock c)
    (h : Proper F clock u k queueName c.state.history) (hidle : Idle c) (t' : ℕ) :
    ((x.later.filter fun a => a.thread = some t').filterMap (DirectExchange.sends mqCall x.keys)).Perm
      ((x.since.filter fun a => a.thread = some t').filterMap (news F u k c)) := by
  have hlater : x.later <+: c.state.history := by
    rw [← hx]
    exact List.prefix_append ..
  have hsince : x.since <+: c.state.history := by
    rw [← hx,x.whole_eq]
    exact List.prefix_append ..
  cases ht : c.threads t' with
  | none =>
    have hnone (l : History) (hl : l <+: c.state.history) : (l.filter fun a => a.thread = some t') = [] :=
      List.filter_eq_nil_iff.mpr fun a ha => by
        simpa using (hc.history_thread t').1 ht a (hl.subset ha)
    rw [hnone _ hlater,hnone _ hsince]
    exact List.Perm.nil
  | some y =>
    obtain ⟨q,p⟩ := y
    obtain ⟨r,rfl⟩ := hidle t' q p ht
    rw [filterMap_thread (g := x.publishes) (fun _ => rfl) fun q o r _ => x.sends_op t' q o r,
      filterMap_thread (g := onLock (announcement F u k q (c.threads t'))) (fun _ => rfl) fun q' o r' hm => by
        rw [news_op,((hc.history_thread t').2 _ _ ht).2 _ _ _ (hsince.subset hm)]]
    cases hn : announcement F u k q (c.threads t') with
    | none =>
      have hnone : (events t' x.since).filterMap (onLock none) = [] :=
        List.filterMap_eq_nil_iff.mpr fun e _ => by
          obtain ⟨o,r⟩ := e
          cases o <;> rfl
      rw [hnone]
      by_cases hne : t' = t
      · subst hne
        rw [x.events_later]
        exact List.Perm.nil
      · rw [x.silent hx hc h hne ht hn]
    | some m =>
      obtain ⟨path,changeType,call,value,rfl,hq,hname,rfl⟩ := of_announcement (ht ▸ hn)
      have hne : t' ≠ t := by
        rintro rfl
        rw [← ((hc.history_thread t').2 _ _ ht).2 _ _ _ (x.opens hx hc h).created] at hq
        cases hq
      rw [x.announced_once hx hc h hne ht hq hname]

/-- The queue of a subscriber. When all calls have returned, it holds every version of the key that had
been written when the subscription got the lock, from the start on, then one message for every later
change of the key by a call that has succeeded, and nothing else. -/
theorem delivered_once (O : Outside M) (clock : ℕ → ℤ) (horder : ∀ m entries, (O.entryOrder m entries).Nodup)
    (c : Config Op Res Failure Request String (Shared (Inner M))) (hc : Reach F O clock c) (hidle : Idle c)
    (t : ℕ) (u k : String) (start : ℤ) (queueName : String)
    (ht : c.threads t = some (.subscribe u k start,.ret queueName))
    (h : Proper F clock u k queueName c.state.history) : ∃ mqUri before since told announced,
    c.state.history = since ++ .op t (.subscribe u k start) .lockWrite () :: before ∧
    .op t (.subscribe u k start) (.createQueue mqUri "") (.ok queueName) ∈ before ∧
    (DirectExchange.after mqCall c.state.history).held (mqUri,queueName) = told ++ announced ∧
    told.Perm (before.filterMap (due F u k start)) ∧ announced.Perm (since.filterMap (news F u k c)) := by
  obtain ⟨x,hx⟩ := exists_course hc ht
  refine ⟨x.mqUri,x.before,x.since,_,_,hx.symm.trans x.whole_eq,x.created hx hc,x.held hx hc h,
    x.past_told hx hc h horder,?_⟩
  rw [List.filterMap_reverse]
  exact (List.reverse_perm _).trans (perm_of_threads rfl rfl fun t' => x.thread_told hx hc h hidle t')

end Facts

/-- A version is stored while the subscriber waits for the lock, the key is deleted by a call that has to
wait for the subscriber, and it is written again. -/
def meanwhile : List (Turn Request) :=
  .start 0 (.subscribe "alice" "a:b" 0) :: List.replicate 7 (.step 0) ++
  .start 1 (.update "alice" "a:b" [1]) :: List.replicate 2 (.step 1) ++
  .step 0 :: List.replicate 2 (.step 1) ++ List.replicate 5 (.step 0) ++
  .start 2 (.delete "alice" "a:b") :: .step 2 :: List.replicate 3 (.step 0) ++ List.replicate 8 (.step 2) ++
  .start 3 (.create "alice" "a:b" [2]) :: List.replicate 8 (.step 3)

/-- Changes of one key, and no call that unsubscribes. -/
def about (name : String) : Action Op Res Request → Bool
  | .start _ (.unsubscribe _ _) => false
  | .start _ q => NoColon q.userId ∧ (asks q).all fun asked => asked.2.1.name = name
  | _ => true

theorem proper_of_about {clock : ℕ → ℤ} {u k queueName : String} {h : History}
    (habout : ∀ a ∈ h, about (userIdKeyName u k) a) (hone : (creators h).length ≤ 1)
    (hplain : ∀ y ∈ creators h, PlainName y.2.2.2.2) (hkey : userIdKeyName u k ≠ userIdKeyName u mqUriKey)
    (htimes : Timed clock h) : Proper F clock u k queueName h := by
  have hasks {t : ℕ} {q : Request} (hm : .start t q ∈ h) : NoColon q.userId ∧
      ∀ changeType call value, asks q = some (changeType,call,value) → call.name = userIdKeyName u k := by
    have ha := habout _ hm
    cases q with
    | unsubscribe u' queueName' => cases ha
    | _ =>
      obtain ⟨huser,hname⟩ := of_decide_eq_true ha
      exact ⟨huser,fun _ _ _ hq => by rw [hq] at hname; exact of_decide_eq_true hname⟩
  refine ⟨fun t q hm => (hasks hm).1,newQueue_of_one hone hplain,everywhere_iff.mpr fun a past hs => ?_,htimes,
    fun t q _ call _ hm hq _ => (hasks hm).2 _ _ _ hq,
    fun t q _ call _ hm hq he => hkey (((hasks hm).2 _ _ _ hq).symm.trans he),fun t hm => ?_⟩
  · unfold FreshQueue
    split
    · next t q mqUri name queueName =>
      intro t' q' uri name' hm
      have hlength := (show (t,q,mqUri,name,queueName) :: creators past <:+ creators h from
        hs.filterMap creator).length_le
      have hpos := List.length_pos_of_mem (mem_creators.mpr hm)
      rw [List.length_cons] at hlength
      omega
    · trivial
  · cases habout _ hm

theorem sample_order (up : ℕ → Bool) (m : ℕ) (entries : Entries Bytes) :
    ((sampleOutside up).entryOrder m entries).Nodup := by
  refine List.Nodup.of_map Prod.fst ?_
  show ((entries.entries.map fun e => (e.1,e.2)).map Prod.fst).Nodup
  rw [List.map_map]
  exact entries.nodupKeys

theorem delivered_meanwhile : ∃ mqUri before since told announced,
    (sampleRun meanwhile).state.history =
      since ++ .op 0 (.subscribe "alice" "a:b" 0) .lockWrite () :: before ∧
    .op 0 (.subscribe "alice" "a:b" 0) (.createQueue mqUri "") (.ok "queue-1") ∈ before ∧
    (DirectExchange.after mqCall (sampleRun meanwhile).state.history).held (mqUri,"queue-1") =
      told ++ announced ∧
    told.Perm (before.filterMap (due sampleFormats "alice" "a:b" 0)) ∧
    announced.Perm (since.filterMap (news sampleFormats "alice" "a:b" (sampleRun meanwhile))) := by
  have hidle : Idle (sampleRun meanwhile) := Player.ended_play _ (by decide +kernel)
  have ht : (sampleRun meanwhile).threads 0 =
      some (.subscribe "alice" "a:b" 0,Prog.ofExcept (.ok "queue-1")) := by
    have hended : ((sampleRun meanwhile).threads 0).map (fun y => (y.1,y.2.outcome)) =
        some (.subscribe "alice" "a:b" 0,some (.ok "queue-1")) := by decide +kernel
    obtain ⟨⟨q,p⟩,hthread,he⟩ := Option.map_eq_some_iff.mp hended
    obtain ⟨rfl,hp⟩ := Prod.mk.inj he
    rw [hthread]
    exact congrArg (fun p => some (_,p)) (Prog.eq_ofExcept_of_outcome hp)
  have hlast : readings (sampleRun meanwhile).state.history = 4 := by decide +kernel
  exact delivered_once _ sampleClock (sample_order _) _ (sampleRun_reach meanwhile) hidle 0 "alice"
    "a:b" 0 "queue-1" ht (proper_of_about sampleFormats (by decide +kernel) (by decide +kernel)
      (by decide +kernel) (by decide) ⟨sampleClock_strictMono,by decide,by rw [hlast]; decide⟩)

end ChangeOrder
end Subscription
end CoLinkServer
