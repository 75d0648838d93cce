import CoLinkServer.ChangeOrder

/-! What the calls on the storage with subscriptions have done when they return: a change has been
announced or has found nobody to announce it to, and a subscription has been counted, entered and bound
before the past of its key was read and sent. -/
namespace CoLinkServer

namespace Interleaving.Prog

variable {Op : Type} {Res : Op → Type} {ε α : Type} {I : List (Event Op Res) → Prop}

theorem Traced.guardEnds {acquire release : Prog Op Res ε Unit} {body : Prog Op Res ε α}
    {h : List (Event Op Res)} {A E E' : List (Event Op Res) → Prop}
    {P P' : α → List (Event Op Res) → Prop} (ha : acquire.Traced I h (Ends (fun _ => A) E'))
    (hb : ∀ h, A h → body.Traced I h (Ends P E))
    (hp : ∀ a h, P a h → release.Traced I h (Ends (fun _ => P' a) E'))
    (hr : ∀ h, E h → release.Traced I h fun _ => E') :
    (Prog.bracket acquire release body).Traced I h (Ends P' E') := by
  refine Traced.seqEnds ha fun _ h hA => Traced.bind (Traced.attempt ((hb h hA).mono fun r h hB => ?_))
  refine Traced.bind ?_
  cases r with
  | ok a =>
    refine (hp a h hB).mono fun r' h' hr' => ?_
    cases r' with
    | ok u => exact Traced.ofExcept hr'
    | error e => exact hr'
  | error e =>
    refine (hr h hB).mono fun r' h' hr' => ?_
    cases r' with
    | ok u => exact Traced.ofExcept hr'
    | error e => exact hr'

end Interleaving.Prog

namespace Subscription

open Interleaving BasicStorage

namespace ChangeOrder

variable (F : Formats)

/-- The address that is stored for the account of the user, or has been stored for a new one. -/
def Account (userId mqUri : String) (h : Events) : Prop :=
  (∃ entries path payload, ⟨.readFromKeyNames userId [mqUriKey],.ok entries⟩ ∈ h ∧
    entries.head? = some (path,payload) ∧ stringOfBytes payload = some mqUri) ∨
  ∃ path, ⟨.change (.create userId mqUriKey (stringBytes mqUri)),.ok path⟩ ∈ h

section Traces

variable {h : Events}

theorem ends_getMqUri (userId : String) : (getMqUri userId).Traced (fun _ => True) h
    (Prog.Ends (fun mqUri h' => ∃ added, h' = added ++ h ∧ (∀ e ∈ added, Plain e.1) ∧
      Account userId mqUri added) fun h' => ∃ added, h' = added ++ h ∧ ∀ e ∈ added, Plain e.1) := by
  unfold getMqUri
  refine Prog.Traced.guardEnds (A := fun h' => h' = ⟨.lockGetMqUri,()⟩ :: h)
    (P := fun mqUri h' => ∃ added, h' = added ++ h ∧ (∀ e ∈ added, Plain e.1) ∧
      Account userId mqUri added) (E := fun h' => ∃ added, h' = added ++ h ∧ ∀ e ∈ added, Plain e.1)
    (fun _ => ⟨trivial,rfl⟩) ?_ ?_ ?_
  · rintro _ rfl r
    refine ⟨trivial,?_⟩
    cases r with
    | ok entries =>
      show Prog.Traced _ (unwrap entries.head? >>= fun entry => unwrap (stringOfBytes entry.2)) _ _
      let read : Events := [⟨.readFromKeyNames userId [mqUriKey],.ok entries⟩,⟨.lockGetMqUri,()⟩]
      have hread : ∀ e ∈ read, Plain e.1 := by simp [read,Plain]
      cases hhead : entries.head? with
      | none => exact ⟨read,rfl,hread⟩
      | some entry =>
        show Prog.Traced _ (unwrap (stringOfBytes entry.2)) _ _
        cases hstring : stringOfBytes entry.2 with
        | none => exact ⟨read,rfl,hread⟩
        | some mqUri =>
          exact ⟨read,rfl,hread,.inl ⟨entries,entry.1,entry.2,List.mem_cons_self ..,hhead,hstring⟩⟩
    | error e =>
      intro account
      refine ⟨trivial,?_⟩
      cases account with
      | error e' =>
        exact ⟨[⟨.createUserAccount,.error e'⟩,⟨.readFromKeyNames userId [mqUriKey],.error e⟩,
          ⟨.lockGetMqUri,()⟩],rfl,by simp [Plain]⟩
      | ok mqUri =>
        intro stored
        refine ⟨trivial,?_⟩
        cases stored with
        | error e' =>
          exact ⟨[⟨.change (.create userId mqUriKey (stringBytes mqUri)),.error e'⟩,
            ⟨.createUserAccount,.ok mqUri⟩,⟨.readFromKeyNames userId [mqUriKey],.error e⟩,
            ⟨.lockGetMqUri,()⟩],rfl,by simp [Plain]⟩
        | ok path =>
          exact ⟨[⟨.change (.create userId mqUriKey (stringBytes mqUri)),.ok path⟩,
            ⟨.createUserAccount,.ok mqUri⟩,⟨.readFromKeyNames userId [mqUriKey],.error e⟩,
            ⟨.lockGetMqUri,()⟩],rfl,by simp [Plain],.inr ⟨path,by simp⟩⟩
  · rintro mqUri _ ⟨added,rfl,hplain,haccount⟩ r
    refine ⟨trivial,⟨.unlockGetMqUri,r⟩ :: added,rfl,fun e he => ?_,?_⟩
    · rcases List.mem_cons.mp he with rfl | he
      · exact trivial
      · exact hplain e he
    · rcases haccount with ⟨entries,path,payload,hm,hrest⟩ | ⟨path,hm⟩
      · exact .inl ⟨entries,path,payload,List.mem_cons_of_mem _ hm,hrest⟩
      · exact .inr ⟨path,List.mem_cons_of_mem _ hm⟩
  · rintro _ ⟨added,rfl,hplain⟩ r
    refine ⟨trivial,⟨.unlockGetMqUri,r⟩ :: added,rfl,fun e he => ?_⟩
    rcases List.mem_cons.mp he with rfl | he
    · exact trivial
    · exact hplain e he

def Unannounced (h : Events) : Prop := ∀ mqUri key message, ⟨.publishMessage mqUri key message,.ok ()⟩ ∉ h

/-- The change has been stored, and nobody was subscribed or all who were have been told. -/
inductive Concluded (changeType : String) (call : Call Bytes) (value : Bytes) (path : String) :
    Events → Prop
  | silent : Concluded changeType call value path [⟨.containsSubscription call.name,false⟩,
      ⟨.change call,.ok path⟩,⟨.lockRead,()⟩]
  | told {mqUri : String} {added : Events} (plain : ∀ e ∈ added, Plain e.1)
      (account : Account call.userId mqUri added) : Concluded changeType call value path
        (⟨.publishMessage mqUri (routingKey F call.name)
          (F.subscriptionMessage.encode ⟨changeType,path,value⟩),.ok ()⟩ ::
        (added ++ [⟨.containsSubscription call.name,true⟩,⟨.change call,.ok path⟩,⟨.lockRead,()⟩]))

theorem Concluded.body {changeType : String} {call : Call Bytes} {value : Bytes} {path : String}
    {past : Events} (hpast : Concluded F changeType call value path past) :
    ∃ body, past = body ++ [⟨.lockRead,()⟩] ∧ ⟨.unlockRead,()⟩ ∉ body := by
  cases hpast with
  | silent => exact ⟨[⟨.containsSubscription call.name,false⟩,⟨.change call,.ok path⟩],rfl,by simp⟩
  | @told mqUri added plain account =>
    refine ⟨⟨.publishMessage mqUri (routingKey F call.name)
      (F.subscriptionMessage.encode ⟨changeType,path,value⟩),.ok ()⟩ ::
      (added ++ [⟨.containsSubscription call.name,true⟩,⟨.change call,.ok path⟩]),by simp,fun hm => ?_⟩
    simp only [List.mem_cons,List.mem_append,Sigma.mk.injEq,reduceCtorEq,false_and,List.not_mem_nil,or_false,
      false_or] at hm
    exact plain _ hm

theorem unannounced_cons {e : Event Op Res}
    (he : ∀ mqUri key message, e ≠ ⟨.publishMessage mqUri key message,.ok ()⟩) (hh : Unannounced h) :
    Unannounced (e :: h) := fun mqUri key message hm => by
  rcases List.mem_cons.mp hm with hm | hm
  · exact he mqUri key message hm.symm
  · exact hh mqUri key message hm

theorem unannounced_append {added : Events} (ha : ∀ e ∈ added, Plain e.1) (hh : Unannounced h) :
    Unannounced (added ++ h) := fun mqUri key message hm => by
  rcases List.mem_append.mp hm with hm | hm
  · exact ha _ hm
  · exact hh mqUri key message hm

theorem ends_change (changeType : String) (call : Call Bytes) (value : Bytes) :
    (change F changeType call value).Traced (fun _ => True) [] (Prog.Ends (fun path h' =>
      ∃ past, h' = ⟨.unlockRead,()⟩ :: past ∧ Concluded F changeType call value path past)
      Unannounced) := by
  unfold change
  refine Prog.Traced.guardEnds (A := fun h' : Events => h' = [⟨.lockRead,()⟩])
    (P := fun path => Concluded F changeType call value path) (E := Unannounced)
    (fun _ => ⟨trivial,rfl⟩) ?_ (fun path past hpast r => ⟨trivial,past,rfl,hpast⟩)
    fun past hpast r => ⟨trivial,unannounced_cons (fun _ _ _ he => by cases he) hpast⟩
  rintro _ rfl stored
  refine ⟨trivial,?_⟩
  have hstored (r : Except String String) : Unannounced [⟨.change call,r⟩,⟨.lockRead,()⟩] := by
    simp [Unannounced]
  cases stored with
  | error e => exact hstored (.error e)
  | ok path =>
    have hcontains (r : Bool) :
        Unannounced [⟨.containsSubscription call.name,r⟩,⟨.change call,.ok path⟩,⟨.lockRead,()⟩] := by
      simp [Unannounced]
    intro subscribed
    refine ⟨trivial,?_⟩
    cases (subscribed : Bool) with
    | false => exact Concluded.silent
    | true =>
      refine Prog.Traced.bind (p := getMqUri call.userId >>= fun mqUri => perform (.publishMessage mqUri
        (routingKey F call.name) (F.subscriptionMessage.encode ⟨changeType,path,value⟩)) >>= attempted)
        (Prog.Traced.bind ((ends_getMqUri call.userId).mono fun r h' hr => ?_))
      cases r with
      | error e =>
        obtain ⟨added,rfl,hplain⟩ := hr
        exact unannounced_append hplain (hcontains true)
      | ok mqUri =>
        obtain ⟨added,rfl,hplain,haccount⟩ := hr
        intro published
        refine ⟨trivial,?_⟩
        cases published with
        | error e =>
          exact unannounced_cons (fun _ _ _ he => by cases he) (unannounced_append hplain (hcontains true))
        | ok _ => exact Concluded.told hplain haccount

/-- What a subscription has done before it reads the past of its key. -/
def opened (u k mqUri queueName : String) (added : Events) : Events :=
  ⟨.queueBind mqUri queueName (routingKey F (userIdKeyName u k)),.ok ()⟩ ::
  ⟨.insertQueue queueName (userIdKeyName u k),()⟩ :: ⟨.countSubscription (userIdKeyName u k),()⟩ ::
  ⟨.lockWrite,()⟩ :: ⟨.queueBind mqUri queueName queueName,.ok ()⟩ ::
  ⟨.createQueue mqUri "",.ok queueName⟩ :: added

def Registered (u k : String) (start : ℤ) (queueName : String) (h : Events) : Prop :=
  ∃ mqUri added keyList valid res, (∀ e ∈ added, Plain e.1) ∧ Account u mqUri added ∧
    validKeyPaths (userIdKeyName u k) start keyList = some valid ∧
    h = ⟨.unlockWrite,()⟩ :: ((res.map (told F mqUri queueName)).reverse ++
      ⟨.readFromKeyPaths valid,.ok res⟩ :: ⟨.listKeys (getPrefix u k) true,.ok keyList⟩ ::
      opened F u k mqUri queueName added)

theorem ends_replay (mqUri queueName u k : String) (start : ℤ) :
    (replay F mqUri queueName u k start).Traced (fun _ => True) h (Prog.OnOk fun _ h' =>
      ∃ keyList valid res, validKeyPaths (userIdKeyName u k) start keyList = some valid ∧
        h' = (res.map (told F mqUri queueName)).reverse ++ ⟨.readFromKeyPaths valid,.ok res⟩ ::
          ⟨.listKeys (getPrefix u k) true,.ok keyList⟩ :: h) := by
  intro keys
  refine ⟨trivial,?_⟩
  cases keys with
  | error e => trivial
  | ok keyList =>
    show Prog.Traced _ (unwrap (validKeyPaths (userIdKeyName u k) start keyList) >>= _) _ _
    cases hvalid : validKeyPaths (userIdKeyName u k) start keyList with
    | none => trivial
    | some valid =>
      intro entries
      refine ⟨trivial,?_⟩
      cases entries with
      | error e => trivial
      | ok res =>
        let base : Events := ⟨.readFromKeyPaths valid,.ok res⟩ ::
          ⟨.listKeys (getPrefix u k) true,.ok keyList⟩ :: h
        refine Prog.Traced.ok (Prog.Traced.foldlM (J := fun rest _ h' => ∃ sent, sent ++ rest = res ∧
          h' = (sent.map (told F mqUri queueName)).reverse ++ base) (fun entry rest _ h' hj => ?_)
          (h := base) ⟨[],rfl,rfl⟩) fun _ h' hj => ?_
        · obtain ⟨sent,rfl,rfl⟩ := hj
          intro r
          refine ⟨trivial,?_⟩
          cases r with
          | error e => trivial
          | ok _ => exact ⟨sent ++ [entry],by simp,by simp [told]⟩
        · obtain ⟨sent,hsent,rfl⟩ := hj
          rw [List.append_nil] at hsent
          exact ⟨keyList,valid,res,hvalid,by rw [hsent]⟩

theorem ends_subscribe (u k : String) (start : ℤ) :
    (subscribe F u k start).Traced (fun _ => True) [] (Prog.OnOk (Registered F u k start)) := by
  refine Prog.Traced.seq (ends_getMqUri u).onOk fun mqUri h' hr => ?_
  obtain ⟨added,rfl,hplain,haccount⟩ := hr
  intro created
  refine ⟨trivial,?_⟩
  cases created with
  | error e => trivial
  | ok queueName =>
    intro bound
    refine ⟨trivial,?_⟩
    cases bound with
    | error e => trivial
    | ok _ =>
      let past : Events := ⟨.lockWrite,()⟩ :: ⟨.queueBind mqUri queueName queueName,.ok ()⟩ ::
        ⟨.createQueue mqUri "",.ok queueName⟩ :: (added ++ [])
      show Prog.Traced _ (Prog.bracket (perform .lockWrite) (perform .unlockWrite)
        (register F mqUri queueName u k start) >>= fun _ => .ret queueName) _ _
      refine Prog.Traced.seq (P := fun _ => Registered F u k start queueName)
        (Prog.Traced.bracket (A := fun h' : Events => h' = past) (B := fun _ h' =>
          ∃ keyList valid res, validKeyPaths (userIdKeyName u k) start keyList = some valid ∧
            h' = (res.map (told F mqUri queueName)).reverse ++ ⟨.readFromKeyPaths valid,.ok res⟩ ::
              ⟨.listKeys (getPrefix u k) true,.ok keyList⟩ :: opened F u k mqUri queueName added)
          (fun _ => ⟨trivial,rfl⟩) ?_ (fun _ _ => ⟨trivial,trivial⟩) fun _ h' hr r => ⟨trivial,?_⟩)
        fun _ h' hr => hr
      · rintro _ rfl
        refine fun _ => ⟨trivial,fun _ => ⟨trivial,fun bound => ⟨trivial,?_⟩⟩⟩
        cases bound with
        | error e => trivial
        | ok _ =>
          refine Prog.Traced.ok (ends_replay F mqUri queueName u k start) fun _ h' hr => ?_
          simpa [past,opened] using hr
      · obtain ⟨keyList,valid,res,hvalid,rfl⟩ := hr
        exact ⟨mqUri,added,keyList,valid,res,hplain,haccount,hvalid,rfl⟩

def Ended : Request → Except Failure String → Events → Prop
  | .subscribe u k start,.ok queueName,h => Registered F u k start queueName h
  | .subscribe _ _ _,.error _,_ => True
  | .unsubscribe _ _,_,h => Unannounced h
  | q,.ok path,h => ∃ changeType call value past, asks q = some (changeType,call,value) ∧
      h = ⟨.unlockRead,()⟩ :: past ∧ Concluded F changeType call value path past
  | _,.error _,h => Unannounced h

theorem unannounced_unsubscribe (u queueName : String) :
    (unsubscribe u queueName).All fun o => o.isPublish = false := by
  have haccount : (getMqUri u).All fun o => o.isPublish = false :=
    (account_getMqUri u).mono fun o ho => by cases o <;> first | rfl | exact ho.elim
  refine Prog.All.bind (p := perform (.removeQueue queueName)) (all_perform rfl) fun r => ?_
  cases r with
  | none => trivial
  | some name =>
    dsimp only
    split_ifs
    · trivial
    · refine Prog.All.bind (p := perform (.discountSubscription name)) (all_perform rfl) fun found => ?_
      cases (found : Bool) with
      | false => trivial
      | true =>
        exact haccount.bind fun mqUri => Prog.All.bind (p := perform (.deleteQueue mqUri queueName))
          (all_perform rfl) all_attempted

theorem ends_handle (q : Request) : (handle F q).Traced (fun _ => True) [] (Ended F q) := by
  have hchange {q : Request} {changeType : String} {call : Call Bytes} {value : Bytes}
      (hq : asks q = some (changeType,call,value)) :
      (change F changeType call value).Traced (fun _ => True) [] (Ended F q) := by
    refine (ends_change F changeType call value).mono fun r h' hr => ?_
    cases r with
    | ok path =>
      obtain ⟨past,rfl,hpast⟩ := hr
      cases q <;> first | exact ⟨changeType,call,value,past,hq,rfl,hpast⟩ | cases hq
    | error e => cases q <;> first | exact hr | cases hq
  cases q with
  | create u k v => exact hchange rfl
  | update u k v => exact hchange rfl
  | delete u k => exact hchange rfl
  | subscribe u k start =>
    refine (ends_subscribe F u k start).mono fun r h' hr => ?_
    cases r with
    | ok queueName => exact hr
    | error e => trivial
  | unsubscribe u queueName =>
    have hall : (handle F (.unsubscribe u queueName)).All fun o => o.isPublish = false :=
      (unannounced_unsubscribe u queueName).bind fun _ => trivial
    refine (Prog.Traced.of_all (J := Unannounced) hall (fun o ho r h' hh =>
      ⟨trivial,unannounced_cons (fun mqUri key message he => ?_) hh⟩) ?_).mono fun r h' hr => ?_
    · cases he
      cases ho
    · simp [Unannounced]
    · cases r <;> exact hr

/-- Who changes the storage, the two maps and the queues. -/
def Deed (q : Request) : Events → Prop
  | ⟨.change call,_⟩ :: h => (∃ changeType value, asks q = some (changeType,call,value) ∧
      h = [⟨.lockRead,()⟩]) ∨ ∃ mqUri, call = .create q.userId mqUriKey (stringBytes mqUri)
  | ⟨.insertQueue queueName name,_⟩ :: h => ∃ u k start mqUri, q = .subscribe u k start ∧
      name = userIdKeyName u k ∧ ⟨.createQueue mqUri "",.ok queueName⟩ ∈ h
  | ⟨.discountSubscription name,_⟩ :: h => ∃ queueName, q = .unsubscribe (getUserId name) queueName ∧
      ⟨.removeQueue queueName,some name⟩ ∈ h
  | ⟨.deleteQueue _ queueName,_⟩ :: h => ∃ name, q = .unsubscribe (getUserId name) queueName ∧
      ⟨.removeQueue queueName,some name⟩ ∈ h
  | ⟨.removeQueue queueName,_⟩ :: _ => ∃ u, q = .unsubscribe u queueName
  | _ => True

def Routine (userId : String) : Op → Prop
  | .change call => ∃ mqUri, call = .create userId mqUriKey (stringBytes mqUri)
  | .insertQueue _ _ => False
  | .discountSubscription _ => False
  | .deleteQueue _ _ => False
  | .removeQueue _ => False
  | _ => True

theorem deed_of_routine {q : Request} {o : Op} (ho : Routine q.userId o) (r : Res o) :
    Deed q (⟨o,r⟩ :: h) := by
  cases o <;> first | exact .inr ho | exact ho.elim | trivial

theorem traced_routine {q : Request} {α : Type} {p : Service α} (hp : p.All (Routine q.userId)) :
    p.Traced (Deed q) h fun _ h' => h <:+ h' :=
  Prog.Traced.of_all hp (fun _ ho r _ hh => ⟨deed_of_routine ho r,hh.trans (List.suffix_cons ..)⟩)
    List.suffix_rfl

theorem routine_getMqUri (userId : String) : (getMqUri userId).All (Routine userId) := by
  refine .bracket (all_perform trivial) (all_perform trivial) ⟨trivial,fun r => ?_⟩
  cases r with
  | ok entries => exact (all_unwrap _).bind fun _ => all_unwrap _
  | error e =>
    refine (all_try trivial all_attempted).bind fun mqUri => ?_
    exact (all_try (o := .change (.create userId mqUriKey (stringBytes mqUri))) ⟨mqUri,rfl⟩
      all_attempted).bind fun _ => trivial

theorem deed_change {q : Request} {changeType : String} {call : Call Bytes} {value : Bytes}
    (hq : asks q = some (changeType,call,value)) :
    (change F changeType call value).Traced (Deed q) [] fun _ _ => True := by
  have haccount : (getMqUri call.userId).All (Routine q.userId) := by
    have huser : call.userId = q.userId := by cases q <;> cases hq <;> rfl
    rw [huser]
    exact routine_getMqUri q.userId
  refine Prog.Traced.bind fun _ => ⟨trivial,?_⟩
  refine Prog.Traced.bind (Prog.Traced.attempt ?_)
  refine fun stored => ⟨.inl ⟨changeType,value,hq,rfl⟩,?_⟩
  have hrest (h : Events) (e : Except Failure String) :
      (perform .unlockRead >>= fun _ => Prog.ofExcept e : Service String).Traced (Deed q) h
        fun _ _ => True := fun _ => ⟨trivial,Prog.Traced.ofExcept trivial⟩
  cases stored with
  | error e => exact hrest _ _
  | ok path =>
    refine Prog.Traced.mono (traced_routine (p := publishChange F call.userId call.keyName changeType path
      value >>= fun _ => .ret path) (Prog.All.bind ?_ fun _ => trivial)) fun r h' _ => hrest h' r
    refine (all_perform trivial).bind fun subscribed => ?_
    cases (subscribed : Bool) with
    | false => trivial
    | true =>
      exact Prog.All.bind (p := getMqUri call.userId) haccount fun _ => all_try trivial all_attempted

theorem deed_subscribe (u k : String) (start : ℤ) :
    (subscribe F u k start).Traced (Deed (.subscribe u k start)) [] fun _ _ => True := by
  have hquiet {α : Type} {p : Service α} (hp : p.All (Routine u)) (h : Events) :
      p.Traced (Deed (.subscribe u k start)) h fun _ _ => True :=
    (traced_routine (q := .subscribe u k start) hp).mono fun _ _ _ => trivial
  refine Prog.Traced.bind ((hquiet (routine_getMqUri u) []).mono fun r h' _ => ?_)
  cases r with
  | error e => trivial
  | ok mqUri =>
    refine fun created => ⟨trivial,?_⟩
    cases created with
    | error e => trivial
    | ok queueName =>
      refine fun bound => ⟨trivial,?_⟩
      cases bound with
      | error e => trivial
      | ok _ =>
        refine Prog.Traced.bind (p := Prog.bracket (perform .lockWrite) (perform .unlockWrite)
          (register F mqUri queueName u k start)) (Prog.Traced.bind fun _ => ⟨trivial,?_⟩)
        refine Prog.Traced.bind (Prog.Traced.attempt ?_)
        refine fun _ => ⟨trivial,fun _ => ⟨⟨u,k,start,mqUri,rfl,rfl,by simp⟩,?_⟩⟩
        refine (hquiet (p := perform (.queueBind mqUri queueName (routingKey F (userIdKeyName u k))) >>=
          attempted >>= fun _ => replay F mqUri queueName u k start) ?_ _).mono fun r h' _ => ?_
        · refine (all_try trivial all_attempted).bind fun _ => ?_
          exact (replay_replay F mqUri queueName u k start).mono fun o ho => by
            cases o <;> trivial
        · refine fun _ => ⟨trivial,?_⟩
          cases r <;> exact trivial

theorem deed_unsubscribe (u queueName : String) :
    (unsubscribe u queueName).Traced (Deed (.unsubscribe u queueName)) [] fun _ _ => True := by
  refine fun found => ⟨⟨u,rfl⟩,?_⟩
  cases (found : Option String) with
  | none => trivial
  | some name =>
    show Prog.Traced _ (if u ≠ getUserId name then _ else _) _ _
    by_cases hu : u = getUserId name
    · subst hu
      rw [if_neg (not_not_intro rfl)]
      refine fun counted => ⟨⟨queueName,rfl,by simp⟩,?_⟩
      cases (counted : Bool) with
      | false => trivial
      | true =>
        refine Prog.Traced.bind (p := getMqUri (getUserId name)) ((traced_routine (q :=
          .unsubscribe (getUserId name) queueName) (routine_getMqUri (getUserId name))).mono fun r h' hh => ?_)
        cases r with
        | error e => trivial
        | ok mqUri =>
          refine fun r => ⟨⟨name,rfl,hh.subset (by simp)⟩,?_⟩
          cases r <;> exact trivial
    · rw [if_pos hu]
      trivial

theorem deed_handle (q : Request) : (handle F q).Traced (Deed q) [] fun _ _ => True := by
  cases q with
  | create u k v => exact deed_change F rfl
  | update u k v => exact deed_change F rfl
  | delete u k => exact deed_change F rfl
  | subscribe u k start => exact deed_subscribe F u k start
  | unsubscribe u queueName =>
    exact Prog.Traced.bind ((deed_unsubscribe u queueName).mono fun r _ _ => by cases r <;> trivial)

end Traces

end ChangeOrder
end Subscription
end CoLinkServer
