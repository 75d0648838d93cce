import CoLinkServer.KeyPaths
import CoLinkServer.SubscriptionFailures

/-! What a new subscriber is told of the past of its key. The level of the key in the index holds
its versions, but also a placeholder when there are keys below it, and the placeholder has the form
of a version at time zero. -/
namespace CoLinkServer
namespace Subscription

open Interleaving BasicStorage

section Level

variable {latest : ℤ} {maps : StorageMap Bytes} {a : Content Bytes} {u k : String}

theorem mem_level (hr : Refines latest maps a) (hu : NoColon u) (t : ℤ) :
    keyPath u k t ∈ listKeys maps (getPrefix u k) true ↔
      a.version (u,k) t ≠ none ∨ (t = 0 ∧ Directory a u k) := by
  rw [mem_listKeys,getPrefix_colon,hr.sets]
  constructor
  · rintro ⟨u',k',t',-,hpath,hlisted⟩
    have hu' : NoColon u' := by
      rcases hlisted with hv | ⟨-,hd⟩
      · exact hr.version_noColon (by simpa using hv)
      · exact hr.directory_noColon hd
    obtain ⟨rfl,rfl,rfl⟩ := (keyPath_inj hu hu').mp hpath
    simpa using hlisted
  · exact fun hlisted => ⟨u,k,t,rfl,rfl,by simpa using hlisted⟩

theorem stamped_of_mem (hr : Refines latest maps a) (hlatest : latest < 2 ^ 63) {dir path : String}
    (hm : path ∈ listKeys maps dir true) :
    ∃ name t, path = atTimestamp name t ∧ -2 ^ 63 ≤ t ∧ t < 2 ^ 63 := by
  rw [mem_listKeys,hr.sets] at hm
  obtain ⟨u',k',t,-,rfl,hv | ⟨rfl,-⟩⟩ := hm
  · have ht := hr.times u' k' t (by simpa using hv)
    simp only [epoch] at ht
    exact ⟨userIdKeyName u' k',t,rfl,by omega,by omega⟩
  · exact ⟨userIdKeyName u' k',0,rfl,by decide,by decide⟩

theorem validKeyPaths_iff (name : String) (startTimestamp : ℤ) {keyList : List String}
    (h : ∀ path ∈ keyList, ∃ name t, path = atTimestamp name t ∧ -2 ^ 63 ≤ t ∧ t < 2 ^ 63) :
    ∃ valid, validKeyPaths name startTimestamp keyList = some valid ∧ ∀ path, path ∈ valid ↔
      path ∈ keyList ∧ ∃ t, path = atTimestamp name t ∧ startTimestamp ≤ t := by
  induction keyList with
  | nil => exact ⟨[],rfl,by simp⟩
  | cons path keyList ih =>
    obtain ⟨valid,hvalid,hmem⟩ := ih fun p hp => h p (List.mem_cons_of_mem _ hp)
    obtain ⟨name',t,rfl,hlo,hhi⟩ := h path (List.mem_cons_self ..)
    have hown (t' : ℤ) : atTimestamp name' t = atTimestamp name t' ↔ name' = name ∧ t = t' :=
      atTimestamp_inj
    by_cases hn : name' = name
    · subst hn
      refine ⟨if startTimestamp ≤ t then atTimestamp name' t :: valid else valid,?_,fun p => ?_⟩
      · simp [validKeyPaths,getUserIdKeyName_atTimestamp,getTimestamp_atTimestamp _ hlo hhi,hvalid]
      · split_ifs with ht
        · rw [List.mem_cons,List.mem_cons,hmem]
          constructor
          · rintro (rfl | ⟨hp,hstart⟩)
            · exact ⟨.inl rfl,t,rfl,ht⟩
            · exact ⟨.inr hp,hstart⟩
          · rintro ⟨rfl | hp,hstart⟩
            · exact .inl rfl
            · exact .inr ⟨hp,hstart⟩
        · rw [List.mem_cons,hmem]
          refine ⟨fun hp => ⟨.inr hp.1,hp.2⟩,?_⟩
          rintro ⟨rfl | hp,t',he,hstart⟩
          · exact absurd ((hown t').mp he).2 (by omega)
          · exact ⟨hp,t',he,hstart⟩
    · refine ⟨valid,?_,fun p => ?_⟩
      · simp [validKeyPaths,getUserIdKeyName_atTimestamp,hn,hvalid]
      · rw [List.mem_cons,hmem]
        refine ⟨fun hp => ⟨.inr hp.1,hp.2⟩,?_⟩
        rintro ⟨rfl | hp,t',he,hstart⟩
        · exact absurd ((hown t').mp he).1 hn
        · exact ⟨hp,t',he,hstart⟩

def Due (a : Content Bytes) (u k : String) (startTimestamp : ℤ) (path : String) (payload : Bytes) :
    Prop :=
  ∃ t, path = keyPath u k t ∧ startTimestamp ≤ t ∧ a.version (u,k) t = some payload

/-- Reading what is listed of a key fails exactly when the placeholder is among it. -/
theorem read_due (hr : Refines latest maps a) (hu : NoColon u) {startTimestamp : ℤ}
    {valid : List String} (hvalid : ∀ path, path ∈ valid ↔
      path ∈ listKeys maps (getPrefix u k) true ∧
        ∃ t, path = atTimestamp (userIdKeyName u k) t ∧ startTimestamp ≤ t) :
    (startTimestamp ≤ 0 ∧ Directory a u k → ∃ e, readFromKeyPaths maps valid = .error e) ∧
    (¬(startTimestamp ≤ 0 ∧ Directory a u k) → ∃ entries, readFromKeyPaths maps valid = .ok entries ∧
      ∀ path payload, entries.lookup path = some payload ↔ Due a u k startTimestamp path payload) := by
  constructor
  · rintro ⟨hstart,hd⟩
    refine (readFromKeyPaths_cases maps valid).2 ⟨keyPath u k 0,?_,?_⟩
    · exact (hvalid _).mpr ⟨(mem_level hr hu 0).mpr (.inr ⟨rfl,hd⟩),0,rfl,hstart⟩
    · rw [hr.value_keyPath hu]
      by_contra hv
      have ht := hr.times u k 0 hv
      simp [epoch] at ht
  · intro hn
    have hversion {t : ℤ} (hm : keyPath u k t ∈ valid) : a.version (u,k) t ≠ none := by
      obtain ⟨hm,t',he,hstart⟩ := (hvalid _).mp hm
      obtain rfl := (atTimestamp_inj.mp he).2
      rcases (mem_level hr hu t).mp hm with hv | ⟨rfl,hd⟩
      · exact hv
      · exact absurd ⟨hstart,hd⟩ hn
    obtain ⟨entries,he,hl⟩ := (readFromKeyPaths_cases maps valid).1 fun path hp => by
      obtain ⟨-,t,rfl,-⟩ := (hvalid path).mp hp
      rw [atTimestamp_userIdKeyName,hr.value_keyPath hu]
      exact hversion hp
    refine ⟨entries,he,fun path payload => ?_⟩
    rw [hl]
    constructor
    · rintro ⟨hp,hv⟩
      obtain ⟨-,t,rfl,hstart⟩ := (hvalid path).mp hp
      rw [atTimestamp_userIdKeyName,hr.value_keyPath hu] at hv
      exact ⟨t,rfl,hstart,hv⟩
    · rintro ⟨t,rfl,hstart,hv⟩
      rw [hr.value_keyPath hu]
      exact ⟨(hvalid _).mpr ⟨(mem_level hr hu t).mpr (.inl (by simp [hv])),t,rfl,hstart⟩,hv⟩

end Level

structure Succeeds {M : Type} (O : Outside M) : Prop where
  createUserAccount : ∀ m, ∃ mqUri, (O.createUserAccount m).1 = .ok mqUri
  createQueue : ∀ m mqUri name, ∃ queueName, (O.createQueue m mqUri name).1 = .ok queueName
  deleteQueue : ∀ m mqUri queueName, (O.deleteQueue m mqUri queueName).1 = .ok ()
  queueBind : ∀ m mqUri queueName key, (O.queueBind m mqUri queueName key).1 = .ok ()
  publishMessage : ∀ m mqUri key payload, (O.publishMessage m mqUri key payload).1 = .ok ()

section Solo

variable {M α : Type} {O : Outside M} {x : Shared (Inner M)} {h : List (Event Op Res)} (F : Formats)

/-- The world outside has moved on. -/
def Shared.outside (x : Shared (Inner M)) (m : M) : Shared (Inner M) :=
  { x with backend := { x.backend with outside := m } }

theorem Succeeds.publish (hO : Succeeds O) (x : Shared (Inner M)) (mqUri key : String)
    (payload : Bytes) :
    ∃ m, answer (basic O) (.publishMessage mqUri key payload) x = (.ok (),x.outside m) :=
  ⟨_,Prod.ext (hO.publishMessage x.backend.outside mqUri key payload) rfl⟩

theorem Succeeds.bind (hO : Succeeds O) (x : Shared (Inner M)) (mqUri queueName key : String) :
    ∃ m, answer (basic O) (.queueBind mqUri queueName key) x = (.ok (),x.outside m) :=
  ⟨_,Prod.ext (hO.queueBind x.backend.outside mqUri queueName key) rfl⟩

theorem Succeeds.create (hO : Succeeds O) (x : Shared (Inner M)) (mqUri name : String) :
    ∃ queueName m, answer (basic O) (.createQueue mqUri name) x = (.ok queueName,x.outside m) := by
  obtain ⟨queueName,hq⟩ := hO.createQueue x.backend.outside mqUri name
  exact ⟨queueName,_,Prod.ext hq rfl⟩

def told (mqUri queueName : String) (entry : String × Bytes) : Event Op Res :=
  ⟨.publishMessage mqUri queueName (F.subscriptionMessage.encode ⟨"in-storage",entry.1,entry.2⟩),.ok ()⟩

theorem solo_publish (hO : Succeeds O) (mqUri queueName : String) (entries : Payloads)
    (x : Shared (Inner M)) (h : List (Event Op Res)) :
    let e := solo O (entries.foldlM (fun _ entry => perform (.publishMessage mqUri queueName
      (F.subscriptionMessage.encode ⟨"in-storage",entry.1,entry.2⟩)) >>= attempted) ()) x h
    e.result = .ok () ∧ e.state.backend.maps = x.backend.maps ∧
      ∀ ev, ev ∈ e.events ↔ ev ∈ h ∨ ∃ entry ∈ entries, ev = told F mqUri queueName entry := by
  induction entries generalizing x h with
  | nil => exact ⟨rfl,rfl,by simp⟩
  | cons entry entries ih =>
    obtain ⟨m,ha⟩ := hO.publish x mqUri queueName
      (F.subscriptionMessage.encode ⟨"in-storage",entry.1,entry.2⟩)
    obtain ⟨hr,hm,hev⟩ := ih (x.outside m) (told F mqUri queueName entry :: h)
    simp only [List.foldlM_cons,solo,perform,Prog.call_bind,Prog.ret_bind,Prog.eval_call,ha,attempted]
      at hr hm hev ⊢
    refine ⟨hr,hm,fun ev => ?_⟩
    refine (hev ev).trans ?_
    rw [List.mem_cons]
    constructor
    · rintro ((rfl | hh) | ⟨entry',hm,rfl⟩)
      · exact .inr ⟨entry,List.mem_cons_self ..,rfl⟩
      · exact .inl hh
      · exact .inr ⟨entry',List.mem_cons_of_mem _ hm,rfl⟩
    · rintro (hh | ⟨entry',hm,rfl⟩)
      · exact .inl (.inr hh)
      · rcases List.mem_cons.mp hm with rfl | hm
        · exact .inl (.inl rfl)
        · exact .inr ⟨entry',hm,rfl⟩

/-- The replay fails when the placeholder is listed, and tells every version otherwise. -/
theorem solo_replay (hO : Succeeds O) {latest : ℤ} {a : Content Bytes}
    (hr : Refines latest x.backend.maps a) (hlatest : latest < 2 ^ 63) {u k : String} (hu : NoColon u)
    (mqUri queueName : String) (startTimestamp : ℤ) :
    let e := solo O (replay F mqUri queueName u k startTimestamp) x h
    (startTimestamp ≤ 0 ∧ Directory a u k → ∃ err, e.result = .error (.error err)) ∧
    (¬(startTimestamp ≤ 0 ∧ Directory a u k) → e.result = .ok () ∧
      e.state.backend.maps = x.backend.maps ∧ ∀ mqUri' queueName' key,
        ⟨.publishMessage mqUri' queueName' key,.ok ()⟩ ∈ e.events ↔
          ⟨.publishMessage mqUri' queueName' key,.ok ()⟩ ∈ h ∨
            (mqUri' = mqUri ∧ queueName' = queueName ∧ ∃ path payload,
              key = F.subscriptionMessage.encode ⟨"in-storage",path,payload⟩ ∧
                Due a u k startTimestamp path payload)) := by
  intro e
  let keyList := O.keyOrder x.backend.outside (listKeys x.backend.maps (getPrefix u k) true)
  have hlist : answer (basic O) (.listKeys (getPrefix u k) true) x = (.ok keyList,x) := rfl
  have hstamped : ∀ path ∈ keyList, ∃ name t, path = atTimestamp name t ∧ -2 ^ 63 ≤ t ∧ t < 2 ^ 63 :=
    fun path hp => stamped_of_mem hr hlatest ((O.mem_keyOrder _ _ _).mp hp)
  obtain ⟨valid,hv,hvalid⟩ := validKeyPaths_iff (userIdKeyName u k) startTimestamp hstamped
  have hlisted : ∀ path, path ∈ valid ↔ path ∈ listKeys x.backend.maps (getPrefix u k) true ∧
      ∃ t, path = atTimestamp (userIdKeyName u k) t ∧ startTimestamp ≤ t := fun path => by
    rw [hvalid,O.mem_keyOrder]
  have hread := read_due hr hu hlisted
  have he : e = solo O (replay F mqUri queueName u k startTimestamp) x h := rfl
  simp only [solo,replay,perform,Prog.call_bind,Prog.ret_bind,Prog.eval_call,hlist,attempted,hv,
    unwrap] at he
  constructor
  · intro hd
    obtain ⟨err,herr⟩ := hread.1 hd
    have ha : answer (basic O) (.readFromKeyPaths valid) x = (.error err,x) := by
      simp [answer,basic,Shared.answer,herr,Except.map]
    rw [ha] at he
    exact ⟨err,by rw [he]; rfl⟩
  · intro hd
    obtain ⟨entries,hentries,hlookup⟩ := hread.2 hd
    have ha : answer (basic O) (.readFromKeyPaths valid) x =
        (.ok (O.entryOrder x.backend.outside entries),x) := by
      simp [answer,basic,Shared.answer,hentries,Except.map]
    rw [ha] at he
    obtain ⟨hresult,hmaps,hevents⟩ := solo_publish F hO mqUri queueName
      (O.entryOrder x.backend.outside entries) x
      (⟨.readFromKeyPaths valid,.ok (O.entryOrder x.backend.outside entries)⟩ ::
        ⟨.listKeys (getPrefix u k) true,.ok keyList⟩ :: h)
    rw [he]
    refine ⟨hresult,hmaps,fun mqUri' queueName' key => (hevents _).trans (or_congr ?_ ?_)⟩
    · simp
    · constructor
      · rintro ⟨entry,hm,hev⟩
        simp only [told,Sigma.mk.injEq,Op.publishMessage.injEq] at hev
        obtain ⟨⟨rfl,rfl,rfl⟩,-⟩ := hev
        exact ⟨rfl,rfl,entry.1,entry.2,rfl,
          (hlookup _ _).mp ((O.mem_entryOrder _ _ _ _).mp hm)⟩
      · rintro ⟨rfl,rfl,path,payload,rfl,hdue⟩
        exact ⟨(path,payload),(O.mem_entryOrder _ _ _ _).mpr ((hlookup _ _).mpr hdue),rfl⟩

/-- The account of the user, if there is one, is text. -/
def Readable (maps : StorageMap Bytes) (u : String) : Prop :=
  ∀ payload, value maps u mqUriKey = some payload → stringOfBytes payload ≠ none

/-- The calls that the storage has carried out when the replay begins: a user without an account
has been given one. -/
inductive Opened (b : Inner M) (u : String) (calls : List (ℤ × Call Bytes)) :
    List (ℤ × Call Bytes) → Prop
  | stored {payload : Bytes} (hv : value b.maps u mqUriKey = some payload) : Opened b u calls calls
  | created (mqUri : String) (hv : value b.maps u mqUriKey = none) :
      Opened b u calls (calls ++ [(b.clock 0,.create u mqUriKey (stringBytes mqUri))])

/-- With a message queue that does not fail, only the account can stop an opening. -/
theorem solo_opening (hO : Succeeds O) {u : String} {calls : List (ℤ × Call Bytes)}
    (hmaps : x.backend.maps = (run calls).1) :
    let e := solo O (opening u) x h
    (¬ Readable x.backend.maps u ∧ ∃ f, e.result = .error f) ∨
      (Readable x.backend.maps u ∧ ∃ mqUri queueName calls', e.result = .ok (mqUri,queueName) ∧
        Opened x.backend u calls calls' ∧ e.state.backend.maps = (run calls').1) := by
  intro e
  obtain ⟨hm,-⟩ := solo_getMqUri (O := O) u x h
  cases hr : (solo O (getMqUri u) x h).result with
  | error f =>
    rw [hr] at hm
    refine .inl ⟨?_,f,by rw [show e = solo O (opening u) x h from rfl,opening,solo,Prog.eval_bind_error hr]⟩
    generalize (solo O (getMqUri u) x h).state.backend = b at hm
    cases hm with
    | garbled hv hu => exact fun hread => hread _ hv hu
    | refused hv ha =>
      obtain ⟨mqUri,hok⟩ := hO.createUserAccount x.backend.outside
      rw [ha] at hok
      cases hok
  | ok mqUri =>
    rw [hr] at hm
    let y := (solo O (getMqUri u) x h).state
    obtain ⟨queueName,m,hcreate⟩ := hO.create y mqUri ""
    obtain ⟨m',hbind⟩ := hO.bind (y.outside m) mqUri queueName queueName
    have he : e = solo O (opening u) x h := rfl
    rw [opening,solo,Prog.eval_bind_ok hr] at he
    simp only [perform,Prog.call_bind,Prog.ret_bind,Prog.eval_call,attempted,y,solo] at he hcreate hbind
    rw [hcreate] at he
    simp only [Prog.ret_bind,Prog.eval_call,hbind] at he
    have hstate : e.state.backend.maps = y.backend.maps := by rw [he]; rfl
    have hresult : e.result = .ok (mqUri,queueName) := by rw [he]; rfl
    generalize hb : (solo O (getMqUri u) x h).state.backend = b at hm
    have hy : y.backend.maps = b.maps := congrArg Inner.maps hb
    cases hm with
    | stored hv hu =>
      refine .inr ⟨fun payload hv' => ?_,mqUri,queueName,calls,hresult,.stored hv,?_⟩
      · rw [hv] at hv'
        rw [← Option.some.inj hv',hu]
        simp
      · rw [hstate,hy,hmaps]
    | created hv ha =>
      refine .inr ⟨fun payload hv' => ?_,mqUri,queueName,_,hresult,.created mqUri hv,?_⟩
      · rw [hv] at hv'
        cases hv'
      · rw [hstate,hy,run_concat,← hmaps]
        rfl

/-- The account is one of the keys that have been written when the replay begins. -/
theorem Opened.written {b : Inner M} {u k : String} {calls calls' : List (ℤ × Call Bytes)}
    (ho : Opened b u calls calls') (hmaps : b.maps = (run calls).1) (h : Clocked calls)
    (hu : NoColon u) :
    Written (run calls').2 u k ↔ k = mqUriKey ∨ Written (run calls).2 u k := by
  cases ho with
  | stored hv =>
    refine ⟨.inr,?_⟩
    rintro (rfl | hw)
    · obtain ⟨latest,-,hr⟩ := run_refines h h.bound.1 h.bound.2
      rw [hmaps,value_eq] at hv
      obtain ⟨t,-,ht⟩ := Option.bind_eq_some_iff.mp hv
      rw [atTimestamp_userIdKeyName,hr.value_keyPath hu] at ht
      exact (known_iff h).mp ⟨t,by simp [ht]⟩
    · exact hw
  | created mqUri hv =>
    have hcreate := create_of_absent b (stringBytes mqUri) hv
    rw [Inner.perform,hmaps] at hcreate
    rw [run_concat]
    constructor
    · rintro ⟨path,v,d,hd,hres,hc⟩
      rcases List.mem_append.mp hd with hd | hd
      · exact .inr ⟨path,v,d,hd,hres,hc⟩
      · rw [List.mem_singleton.mp hd] at hc
        rcases hc with hc | hc
        · cases hc
          exact .inl rfl
        · cases hc
    · rintro (rfl | ⟨path,v,d,hd,hres,hc⟩)
      · exact ⟨_,_,_,List.mem_append_right _ (List.mem_singleton_self _),hcreate,.inl rfl⟩
      · exact ⟨path,v,d,List.mem_append_left _ hd,hres,hc⟩

def Op.isPublish : Op → Bool
  | .publishMessage _ _ _ => true
  | _ => false

theorem opening_quiet (u : String) : (opening u).All fun o => o.isPublish = false := by
  refine ((account_getMqUri u).mono fun o ho => ?_).bind fun mqUri => ?_
  · cases o <;> first | rfl | exact ho.elim
  refine (@all_try (fun o => o.isPublish = false) _ _ rfl _ all_attempted).bind fun queueName => ?_
  exact (@all_try (fun o => o.isPublish = false) _ _ rfl _ all_attempted).bind fun _ => trivial

/-- What happens under the lock. -/
theorem solo_register (hO : Succeeds O) {latest : ℤ} {a : Content Bytes}
    (hr : Refines latest x.backend.maps a) (hlatest : latest < 2 ^ 63) {u k : String} (hu : NoColon u)
    (mqUri queueName : String) (startTimestamp : ℤ) :
    let e := solo O (register F mqUri queueName u k startTimestamp) x h
    (startTimestamp ≤ 0 ∧ Directory a u k → ∃ err, e.result = .error (.error err)) ∧
    (¬(startTimestamp ≤ 0 ∧ Directory a u k) → e.result = .ok () ∧
      e.state.backend.maps = x.backend.maps ∧ ∀ mqUri' queueName' key,
        ⟨.publishMessage mqUri' queueName' key,.ok ()⟩ ∈ e.events ↔
          ⟨.publishMessage mqUri' queueName' key,.ok ()⟩ ∈ h ∨
            (mqUri' = mqUri ∧ queueName' = queueName ∧ ∃ path payload,
              key = F.subscriptionMessage.encode ⟨"in-storage",path,payload⟩ ∧
                Due a u k startTimestamp path payload)) := by
  intro e
  let y := ((answer (basic O) (.countSubscription (userIdKeyName u k)) x).2).setQueue queueName
    (some (userIdKeyName u k))
  obtain ⟨m,hbind⟩ := hO.bind y mqUri queueName (routingKey F (userIdKeyName u k))
  have he : e = solo O (replay F mqUri queueName u k startTimestamp) (y.outside m)
      (⟨.queueBind mqUri queueName (routingKey F (userIdKeyName u k)),.ok ()⟩ ::
        ⟨.insertQueue queueName (userIdKeyName u k),()⟩ ::
        ⟨.countSubscription (userIdKeyName u k),()⟩ :: h) := by
    show solo O (register F mqUri queueName u k startTimestamp) x h = _
    simp only [solo,register,perform,Prog.call_bind,Prog.ret_bind,Prog.eval_call]
    rw [show answer (basic O) (.queueBind mqUri queueName (routingKey F (userIdKeyName u k)))
      (answer (basic O) (.insertQueue queueName (userIdKeyName u k))
        (answer (basic O) (.countSubscription (userIdKeyName u k)) x).2).2 = _ from hbind]
    rfl
  rw [he]
  have hreplay := solo_replay F hO (x := y.outside m) (k := k) (h :=
    ⟨.queueBind mqUri queueName (routingKey F (userIdKeyName u k)),.ok ()⟩ ::
      ⟨.insertQueue queueName (userIdKeyName u k),()⟩ ::
      ⟨.countSubscription (userIdKeyName u k),()⟩ :: h) hr hlatest hu mqUri queueName startTimestamp
  refine ⟨hreplay.1,fun hn => ?_⟩
  obtain ⟨hresult,hmaps,hevents⟩ := hreplay.2 hn
  refine ⟨hresult,hmaps,fun mqUri' queueName' key => (hevents mqUri' queueName' key).trans ?_⟩
  simp

end Solo

/-- The subscriber of the queue has been told of the version. -/
def Told (F : Formats) (queueName path : String) (payload : Bytes) (h : List (Event Op Res)) : Prop :=
  ∃ mqUri, told F mqUri queueName (path,payload) ∈ h

/-- The subscription succeeds, and its queue receives the versions of the key from the start on and
nothing else of the past. -/
def Complete {M : Type} (F : Formats) (b : Inner M) (u k : String) (startTimestamp : ℤ)
    (calls : List (ℤ × Call Bytes)) (e : Ending Op Res Failure String (Shared (Inner M))) : Prop :=
  ∃ queueName calls', e.result = .ok queueName ∧ Opened b u calls calls' ∧
    e.state.backend.maps = (run calls').1 ∧ ∀ path payload, Told F queueName path payload e.events ↔
      ∃ t, path = keyPath u k t ∧ startTimestamp ≤ t ∧ Returned (run calls').2 u k path payload

section Whole

variable {M : Type} {O : Outside M} (F : Formats)

theorem quiet_events {α : Type} {p : Service α} (hp : p.All fun o => o.isPublish = false)
    (x : Shared (Inner M)) {mqUri queueName : String} {key : Bytes} {r : Except String Unit} :
    ⟨.publishMessage mqUri queueName key,r⟩ ∉ (solo O p x []).events := by
  obtain ⟨added,he,hadded⟩ := hp.events (answer (basic O)) x []
  intro hm
  rw [show (solo O p x []).events = added ++ [] from he,List.append_nil] at hm
  cases hadded _ hm

theorem Opened.clocked {b : Inner M} {u : String} {calls calls' : List (ℤ × Call Bytes)}
    (ho : Opened b u calls calls') {payload : Bytes}
    (h : Clocked (calls ++ [(b.clock 0,.create u mqUriKey payload)])) : Clocked calls' := by
  cases ho with
  | stored hv => exact h.concat.1
  | created mqUri hv =>
    have hmem {c : ℤ × Call Bytes} (hc : c ∈ calls ++ [(b.clock 0,.create u mqUriKey (stringBytes mqUri))]) :
        c ∈ calls ∨ c = (b.clock 0,.create u mqUriKey (stringBytes mqUri)) := by simpa using hc
    obtain ⟨hcalls,hu,hlo,hhi,hlt⟩ := h.concat
    refine ⟨fun c hc => ?_,fun c hc => ?_,?_⟩
    · rcases hmem hc with hc | rfl
      · exact hcalls.users c hc
      · exact hu
    · rcases hmem hc with hc | rfl
      · exact hcalls.range c hc
      · exact ⟨hlo,hhi⟩
    · exact List.pairwise_append.mpr ⟨hcalls.increasing,List.pairwise_singleton _ _,
        fun c hc c' hc' => by rw [List.mem_singleton.mp hc']; exact hlt c hc⟩

theorem due_iff {calls : List (ℤ × Call Bytes)} (h : Clocked calls) {u k : String} (hu : NoColon u)
    {startTimestamp : ℤ} {path : String} {payload : Bytes} :
    Due (VersionedMap.replay (changes (run calls).2)) u k startTimestamp path payload ↔
      ∃ t, path = keyPath u k t ∧ startTimestamp ≤ t ∧ Returned (run calls).2 u k path payload := by
  refine exists_congr fun t => and_congr_right fun hpath => and_congr_right fun _ => ?_
  rw [← version_eq_some h]
  constructor
  · exact fun hv => ⟨t,hpath,hv⟩
  · rintro ⟨t',ht',hv⟩
    obtain ⟨-,-,rfl⟩ := (keyPath_inj hu hu).mp (hpath.symm.trans ht')
    exact hv

/-- Nothing in the message queue fails. -/
theorem replay_complete_iff (hO : Succeeds O) (x : Shared (Inner M)) (u k : String)
    (startTimestamp : ℤ) (calls : List (ℤ × Call Bytes)) (hmaps : x.backend.maps = (run calls).1)
    (h : Clocked (calls ++ [(x.backend.clock 0,.create u mqUriKey [])])) :
    Complete F x.backend u k startTimestamp calls (solo O (subscribe F u k startTimestamp) x []) ↔
      Readable x.backend.maps u ∧ (0 < startTimestamp ∨
        ∀ k', k' = mqUriKey ∨ Written (run calls).2 u k' → ¬ Above k k') := by
  have hu : NoColon u := h.concat.2.1
  rcases solo_opening (h := []) hO (u := u) hmaps with ⟨hread,f,hresult⟩ |
    ⟨hread,mqUri,queueName,calls',hresult,hopened,hafter⟩
  · rw [solo,eval_subscribe_error F _ hresult]
    constructor
    · rintro ⟨queueName,-,hok,-⟩
      cases hok
    · exact fun hc => absurd hc.1 hread
  · have hclocked := hopened.clocked h
    obtain ⟨latest,hlatest,hr⟩ := run_refines hclocked hclocked.bound.1 hclocked.bound.2
    have hdirectory : Directory (VersionedMap.replay (changes (run calls').2)) u k ↔
        ∃ k', (k' = mqUriKey ∨ Written (run calls).2 u k') ∧ Above k k' :=
      exists_congr fun k' => and_congr_left fun _ =>
        (known_iff hclocked).trans (hopened.written hmaps h.concat.1 hu)
    let y := (solo O (opening u) x []).state
    let past := (solo O (opening u) x []).events
    let e := solo O (register F mqUri queueName u k startTimestamp) { y with writer := true }
      (⟨.lockWrite,()⟩ :: past)
    rw [solo,eval_subscribe F _ hresult]
    change Complete F x.backend u k startTimestamp calls ⟨e.result.map fun _ => queueName,
      { e.state with writer := false },⟨.unlockWrite,()⟩ :: e.events⟩ ↔ _
    have hlocked : Refines latest ({ y with writer := true } : Shared (Inner M)).backend.maps
        (VersionedMap.replay (changes (run calls').2)) := hafter ▸ hr
    obtain ⟨hblocked,hfree⟩ := solo_register F hO (x := { y with writer := true })
      (h := ⟨.lockWrite,()⟩ :: past) hlocked hlatest (k := k) hu mqUri queueName startTimestamp
    by_cases hd : startTimestamp ≤ 0 ∧ Directory (VersionedMap.replay (changes (run calls').2)) u k
    · obtain ⟨err,herr⟩ := hblocked hd
      refine iff_of_false ?_ ?_
      · rintro ⟨_,_,hok,-⟩
        rw [show e.result = _ from herr] at hok
        cases hok
      · rintro ⟨-,hstart | hnone⟩
        · omega
        · obtain ⟨k',hk',habove⟩ := hdirectory.mp hd.2
          exact hnone k' hk' habove
    · obtain ⟨hok,hkept,hevents⟩ := hfree hd
      refine iff_of_true ⟨queueName,calls',by rw [show e.result = _ from hok]; rfl,hopened,
        hkept.trans hafter,fun path payload => ?_⟩ ⟨hread,?_⟩
      · rw [← due_iff hclocked hu]
        have hquiet {mqUri' : String} {key : Bytes} {r : Except String Unit} :
            ⟨.publishMessage mqUri' queueName key,r⟩ ∉ (⟨.lockWrite,()⟩ :: past : List (Event Op Res)) := by
          simpa using quiet_events (O := O) (opening_quiet u) x
        constructor
        · rintro ⟨mqUri',hm⟩
          rcases (hevents mqUri' queueName _).mp ((List.mem_cons.mp hm).resolve_left (by simp [told])) with
            hm | ⟨-,-,path',payload',hkey,hdue⟩
          · exact absurd hm hquiet
          · have hmessage := F.subscriptionMessage.encode_inj hkey
            simp only [SubscriptionMessage.mk.injEq,true_and] at hmessage
            rwa [hmessage.1,hmessage.2]
        · exact fun hdue => ⟨mqUri,List.mem_cons_of_mem _
            ((hevents mqUri queueName _).mpr (.inr ⟨rfl,rfl,path,payload,rfl,hdue⟩))⟩
      · by_cases hstart : 0 < startTimestamp
        · exact .inl hstart
        · refine .inr fun k' hk' habove => hd ⟨by omega,hdirectory.mpr ⟨k',hk',habove⟩⟩

/-- One key below the key `a:b`, and no key `a:b`. -/
def nestedCalls : List (ℤ × Call Bytes) := [(1700000000000000000,.create "alice" "a:b:c" [1])]

def sampleNested : Shared (Inner ℕ) :=
  .new ⟨(run nestedCalls).1,fun n => 1700000000000000001 + n,0⟩

theorem sample_succeeds : Succeeds (sampleOutside fun _ => true) :=
  ⟨fun _ => ⟨_,rfl⟩,fun _ _ _ => ⟨_,rfl⟩,fun _ _ _ => rfl,fun _ _ _ _ => rfl,fun _ _ _ _ => rfl⟩

theorem replay_complete_sample : Complete sampleFormats sampleNested.backend "alice" "a:b:c" 1 nestedCalls
    (solo (sampleOutside fun _ => true) (subscribe sampleFormats "alice" "a:b:c" 1) sampleNested []) :=
  (replay_complete_iff sampleFormats sample_succeeds sampleNested "alice" "a:b:c" 1 nestedCalls rfl
    ⟨by
      simp only [nestedCalls,List.cons_append,List.nil_append,List.forall_mem_cons]
      exact ⟨by decide,by decide,by simp⟩,
      by simp [nestedCalls,sampleNested,Shared.new,epoch],
      by simp [nestedCalls,sampleNested,Shared.new]⟩).mpr ⟨fun _ hv => (by cases hv),.inl (by decide)⟩

/-- The placeholder for the directory `a:b` is taken for a version of the key `a:b`. -/
theorem replay_blocked :
    (solo (sampleOutside fun _ => true) (subscribe sampleFormats "alice" "a:b" 0) sampleNested []).result =
      .error (.error "Key path not found: alice::a:b@0") ∧
    ¬ Complete sampleFormats sampleNested.backend "alice" "a:b" 0 nestedCalls
      (solo (sampleOutside fun _ => true) (subscribe sampleFormats "alice" "a:b" 0) sampleNested []) := by
  have hresult : (solo (sampleOutside fun _ => true) (subscribe sampleFormats "alice" "a:b" 0)
      sampleNested []).result = .error (.error "Key path not found: alice::a:b@0") := by decide +kernel
  refine ⟨hresult,?_⟩
  rintro ⟨queueName,calls',hok,-⟩
  rw [hresult] at hok
  cases hok

end Whole

end Subscription
end CoLinkServer
