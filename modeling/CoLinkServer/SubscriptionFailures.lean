import CoLinkServer.SubscriptionStorage

/-! What a call leaves behind that fails. Nothing is undone: a subscription that fails after it has
been counted stays counted, and a change of the storage that cannot be published stays made. -/
namespace CoLinkServer
namespace Subscription

open Interleaving BasicStorage

variable {σ α : Type} (F : Formats)

def opening (userId : String) : Service (String × String) := do
  let mqUri ← getMqUri userId
  let queueName ← perform (.createQueue mqUri "") >>= attempted
  perform (.queueBind mqUri queueName queueName) >>= attempted
  .ret (mqUri,queueName)

theorem subscribe_eq (userId keyName : String) (startTimestamp : ℤ) :
    subscribe F userId keyName startTimestamp = (opening userId >>= fun opened => do
      Prog.bracket (perform .lockWrite) (perform .unlockWrite)
        (register F opened.1 opened.2 userId keyName startTimestamp)
      .ret opened.2) := by
  simp only [subscribe,opening,Prog.bind_assoc,Prog.ret_bind]

theorem eval_subscribe (B : Backend σ) {x : Shared σ} {userId keyName : String} {startTimestamp : ℤ}
    {opened : String × String} (hr : ((opening userId).eval (answer B) x []).result = .ok opened) :
    (subscribe F userId keyName startTimestamp).eval (answer B) x [] =
      let before := (opening userId).eval (answer B) x []
      let e := (register F opened.1 opened.2 userId keyName startTimestamp).eval (answer B)
        { before.state with writer := true } (⟨.lockWrite,()⟩ :: before.events)
      ⟨e.result.map fun _ => opened.2,{ e.state with writer := false },⟨.unlockWrite,()⟩ :: e.events⟩ := by
  rw [subscribe_eq,Prog.eval_bind_ok hr,Prog.eval_bind_ret (g := fun _ => opened.2)]
  have hbracket := Prog.eval_bracket (f := answer B) (x := ((opening userId).eval (answer B) x []).state)
    (h := ((opening userId).eval (answer B) x []).events) Op.lockWrite Op.unlockWrite
    (register F opened.1 opened.2 userId keyName startTimestamp)
  rw [show (Prog.bracket (perform .lockWrite) (perform .unlockWrite)
    (register F opened.1 opened.2 userId keyName startTimestamp)).eval (answer B) _ _ = _ from hbracket]
  rfl

theorem eval_subscribe_error (B : Backend σ) {x : Shared σ} {userId keyName : String}
    {startTimestamp : ℤ} {f : Failure}
    (hr : ((opening userId).eval (answer B) x []).result = .error f) :
    (subscribe F userId keyName startTimestamp).eval (answer B) x [] =
      ⟨.error f,((opening userId).eval (answer B) x []).state,
        ((opening userId).eval (answer B) x []).events⟩ := by
  rw [subscribe_eq,Prog.eval_bind_error hr]

def Op.NoMaps : Op → Prop
  | .countSubscription _ => False
  | .discountSubscription _ => False
  | .insertQueue _ _ => False
  | .removeQueue _ => False
  | _ => True

theorem sameMaps_answer (B : Backend σ) {o : Op} (ho : o.NoMaps) (x : Shared σ) :
    SameMaps x (answer B o x).2 := by
  cases o <;> first | exact ⟨rfl,rfl⟩ | exact ho.elim

theorem SameMaps.trans {σ' σ'' : Type} {x : Shared σ} {y : Shared σ'} {z : Shared σ''}
    (h : SameMaps x y) (h' : SameMaps y z) : SameMaps x z :=
  ⟨h'.counts.trans h.counts,h'.queues.trans h.queues⟩

theorem sameMaps_eval {B : Backend σ} {p : Service α} (hp : p.All Op.NoMaps) (x : Shared σ)
    (h : List (Event Op Res)) : SameMaps x (p.eval (answer B) x h).state :=
  hp.eval (P := SameMaps x) (fun _ ho y hy => hy.trans (sameMaps_answer B ho y)) ⟨rfl,rfl⟩

theorem opening_noMaps (userId : String) : (opening userId).All Op.NoMaps := by
  refine ((account_getMqUri userId).mono fun o ho => ?_).bind fun mqUri => ?_
  · cases o <;> trivial
  refine (all_try trivial all_attempted).bind fun queueName => ?_
  exact (all_try trivial all_attempted).bind fun _ => trivial

def Op.isBind : Op → Bool
  | .queueBind _ _ _ => true
  | _ => false

def Unbound (h : List (Event Op Res)) : Prop :=
  ∀ mqUri queueName key, ⟨.queueBind mqUri queueName key,.ok ()⟩ ∉ h

theorem unbound_cons {o : Op} {r : Res o} {h : List (Event Op Res)} (ho : o.isBind = false)
    (hh : Unbound h) : Unbound (⟨o,r⟩ :: h) := fun m q k hm => by
  rcases List.mem_cons.mp hm with he | hm
  · cases he
    cases ho
  · exact hh m q k hm

theorem traced_unbound {p : Service α} (hp : p.All fun o => o.isBind = false)
    {h : List (Event Op Res)} (hh : Unbound h) :
    p.Traced (fun _ => True) h (Prog.Ends (fun _ => Unbound) Unbound) := by
  refine (Prog.Traced.of_all hp (J := Unbound) (fun o ho r h hh => ⟨trivial,unbound_cons ho hh⟩)
    hh).mono fun r h hr => ?_
  cases r <;> exact hr

theorem opening_unbound (userId : String) :
    (opening userId).Traced (fun _ => True) [] (Prog.Ends (fun _ _ => True) Unbound) := by
  have hnil : Unbound [] := fun _ _ _ hm => by cases hm
  refine (traced_unbound ((account_getMqUri userId).mono fun o ho => ?_) hnil).seqEnds
    fun mqUri h hh => ?_
  · cases o <;> first | rfl | exact ho.elim
  have hcreate : (perform (.createQueue mqUri "") >>= attempted).All fun o => o.isBind = false :=
    Prog.All.bind ⟨rfl,fun _ => trivial⟩ all_attempted
  refine (traced_unbound hcreate hh).seqEnds fun queueName h hh => ?_
  intro r
  refine ⟨trivial,?_⟩
  cases r with
  | ok _ => exact trivial
  | error e =>
    intro m q k hm
    rcases List.mem_cons.mp hm with he | hm
    · cases he
    · exact hh m q k hm

theorem register_maps (B : Backend σ) (mqUri queueName userId keyName : String)
    (startTimestamp : ℤ) (x : Shared σ) (h : List (Event Op Res)) :
    SameMaps ((x.setCount (userIdKeyName userId keyName)
        (some ((x.keySubscriptionCount (userIdKeyName userId keyName)).getD 0 + 1))).setQueue queueName
          (some (userIdKeyName userId keyName)))
      ((register F mqUri queueName userId keyName startTimestamp).eval (answer B) x h).state := by
  have hrest : ((perform (.queueBind mqUri queueName (routingKey F (userIdKeyName userId keyName))) >>=
        attempted >>= fun _ => replay F mqUri queueName userId keyName startTimestamp) :
      Service Unit).All Op.NoMaps := by
    refine (all_try trivial all_attempted).bind fun _ => ?_
    refine (replay_replay F mqUri queueName userId keyName startTimestamp).mono fun o ho => ?_
    cases o <;> trivial
  have hcount : (answer B (.countSubscription (userIdKeyName userId keyName)) x).2 =
      x.setCount (userIdKeyName userId keyName)
        (some ((x.keySubscriptionCount (userIdKeyName userId keyName)).getD 0 + 1)) := by
    cases hc : x.keySubscriptionCount (userIdKeyName userId keyName) <;> simp [answer,hc]
  rw [← hcount]
  exact sameMaps_eval hrest _ _

/-- What a failed call should leave: the maps as they were, and no queue on the routing key. -/
structure Traceless (x : Shared σ) (userId keyName : String)
    (e : Ending Op Res Failure String (Shared σ)) : Prop where
  maps : SameMaps x e.state
  bindings : ∀ mqUri queueName, ⟨.queueBind mqUri queueName
    (routingKey F (userIdKeyName userId keyName)),.ok ()⟩ ∉ e.events

/-- Whatever storage and message queue there are: a subscription leaves no trace exactly when it
fails at a step before it is counted. -/
theorem subscribe_traceless_iff (B : Backend σ) (x : Shared σ) (userId keyName : String)
    (startTimestamp : ℤ) :
    Traceless F x userId keyName ((subscribe F userId keyName startTimestamp).eval (answer B) x []) ↔
      ∃ e, ((opening userId).eval (answer B) x []).result = .error e := by
  have hmaps := sameMaps_eval (B := B) (opening_noMaps userId) x []
  cases ho : ((opening userId).eval (answer B) x []).result with
  | error e' =>
    rw [eval_subscribe_error F B ho]
    have hunbound : Unbound ((opening userId).eval (answer B) x []).events := by
      have ht := (opening_unbound userId).eval (f := answer B) (x := x)
      rw [ho] at ht
      exact ht
    exact ⟨fun _ => ⟨e',rfl⟩,fun _ => ⟨hmaps,fun m q => hunbound m q _⟩⟩
  | ok opened =>
    rw [eval_subscribe F B ho]
    refine ⟨fun ht => ?_,?_⟩
    swap
    · rintro ⟨e',he'⟩
      cases he'
    have hcounts := congrFun ht.maps.counts (userIdKeyName userId keyName)
    have hopened := congrFun hmaps.counts (userIdKeyName userId keyName)
    have hregister := (congrFun (register_maps F B opened.1 opened.2 userId keyName startTimestamp
      { ((opening userId).eval (answer B) x []).state with writer := true }
      (⟨.lockWrite,()⟩ :: ((opening userId).eval (answer B) x []).events)).counts
        (userIdKeyName userId keyName)).trans (Function.update_self ..)
    have hnew := hregister.symm.trans hcounts
    simp only [hopened] at hnew
    cases hc : x.keySubscriptionCount (userIdKeyName userId keyName) with
    | none => simp [hc] at hnew
    | some n => simp [hc] at hnew

/-- The connection to the message queue is lost before the second binding. -/
theorem subscribe_leaves_trace :
    (solo (sampleOutside fun n => n < 3) (subscribe sampleFormats "alice" "key" 0)
      (.new sampleInner) []).result = .error (.error "MQ Connection Error") ∧
    (solo (sampleOutside fun n => n < 3) (subscribe sampleFormats "alice" "key" 0)
      (.new sampleInner) []).state.keySubscriptionCount "alice::key" = some 1 ∧
    (solo (sampleOutside fun n => n < 3) (subscribe sampleFormats "alice" "key" 0)
      (.new sampleInner) []).state.queueNameToUserIdKeyName "queue-1" = some "alice::key" ∧
    ¬ Traceless sampleFormats (.new sampleInner) "alice" "key"
      (solo (sampleOutside fun n => n < 3) (subscribe sampleFormats "alice" "key" 0)
        (.new sampleInner) []) := by
  have hcount : (solo (sampleOutside fun n => n < 3) (subscribe sampleFormats "alice" "key" 0)
      (.new sampleInner) []).state.keySubscriptionCount "alice::key" = some 1 := by rfl
  refine ⟨by rfl,hcount,by rfl,fun ht => ?_⟩
  have hh := congrFun ht.maps.counts "alice::key"
  rw [hcount] at hh
  cases hh

variable {M : Type}

/-- The call of the layer that belongs to a call of the storage. -/
def changeStorage : Call Bytes → Service String
  | .create userId keyName value => create F userId keyName value
  | .update userId keyName value => update F userId keyName value
  | .delete userId keyName => delete F userId keyName

def notice (keyPath : String) : Call Bytes → SubscriptionMessage
  | .create _ _ value => ⟨"create",keyPath,value⟩
  | .update _ _ value => ⟨"update",keyPath,value⟩
  | .delete _ _ => ⟨"delete",keyPath,[]⟩

theorem changeStorage_eq (call : Call Bytes) (keyPath : String) : changeStorage F call =
    change F (notice keyPath call).changeType call (notice keyPath call).payload := by
  cases call <;> rfl

/-- The message queue refuses an account to the user, or does not take the notice. -/
inductive NotifyFails (O : Outside M) (b : Inner M) (call : Call Bytes) (keyPath : String) : Prop
  | refused {e : String} {m : M} (hv : value b.maps call.userId mqUriKey = none)
      (ha : O.createUserAccount b.outside = (.error e,m))
  | lost {mqUri e : String} {b' : Inner M} {m : M} (hm : MqUri O call.userId b (.ok mqUri) b')
      (hp : O.publishMessage b'.outside mqUri (routingKey F call.name)
        (F.subscriptionMessage.encode (notice keyPath call)) = (.error e,m))

def Fails {ρ : Type} (r : Except Failure ρ) : Prop := ∃ e, r = .error (.error e)

theorem fails_map {ρ ρ' : Type} {r : Except Failure ρ} (g : ρ → ρ') : Fails (r.map g) ↔ Fails r := by
  cases r <;> simp [Fails,Except.map]

theorem mqUri_unique {O : Outside M} {userId : String} {b b₁ b₂ : Inner M}
    {r₁ r₂ : Except Failure String} (h₁ : MqUri O userId b r₁ b₁) (h₂ : MqUri O userId b r₂ b₂) :
    r₁ = r₂ ∧ b₁ = b₂ := by
  cases h₁ <;> cases h₂ <;> simp_all

theorem notice_payload (keyPath : String) (call : Call Bytes) : F.subscriptionMessage.encode
    ⟨(notice keyPath call).changeType,keyPath,(notice keyPath call).payload⟩ =
      F.subscriptionMessage.encode (notice keyPath call) := by
  cases call <;> rfl

/-- How telling the subscribers ends, and which key it may touch. -/
theorem solo_publishChange (O : Outside M) (x : Shared (Inner M)) (h : List (Event Op Res))
    (call : Call Bytes) (keyPath : String) :
    let e := solo O (publishChange F call.userId call.keyName (notice keyPath call).changeType keyPath
      (notice keyPath call).payload) x h
    (Fails e.result ↔
      (x.keySubscriptionCount call.name).isSome ∧ NotifyFails F O x.backend call keyPath) ∧
    (e.state.backend.maps = x.backend.maps ∨
      ∃ r b, MqUri O call.userId x.backend r b ∧ e.state.backend.maps = b.maps) := by
  intro e
  have ha : answer (basic O) (.containsSubscription call.name) x =
      ((x.keySubscriptionCount call.name).isSome,x) := rfl
  cases hc : (x.keySubscriptionCount call.name).isSome with
  | false =>
    have he : e = ⟨.ok (),x,⟨.containsSubscription call.name,false⟩ :: h⟩ := by
      rw [hc] at ha
      show solo O (perform (.containsSubscription call.name) >>= _) x h = _
      simp only [perform,Prog.call_bind,Prog.ret_bind,Prog.eval_call,ha]
      rfl
    rw [he]
    simp [Fails]
  | true =>
    let h' : List (Event Op Res) := ⟨.containsSubscription call.name,true⟩ :: h
    have he : e = solo O (getMqUri call.userId >>= fun mqUri =>
        perform (.publishMessage mqUri (routingKey F call.name)
          (F.subscriptionMessage.encode (notice keyPath call))) >>= attempted) x h' := by
      rw [hc] at ha
      rw [← notice_payload]
      show solo O (perform (.containsSubscription call.name) >>= _) x h = _
      simp only [perform,Prog.call_bind,Prog.ret_bind,Prog.eval_call,ha]
      rfl
    obtain ⟨hm,-⟩ := solo_getMqUri (O := O) call.userId x h'
    cases hr : (solo O (getMqUri call.userId) x h').result with
    | error f =>
      rw [hr] at hm
      rw [he,solo,Prog.eval_bind_error hr]
      refine ⟨?_,.inr ⟨_,_,hm,rfl⟩⟩
      simp only [true_and]
      constructor
      · rintro ⟨e',hf⟩
        obtain rfl := Except.error.inj hf
        generalize hb : (solo O (getMqUri call.userId) x h').state.backend = b at hm
        cases hm with
        | refused hv ha => exact .refused hv ha
      · intro hn
        cases hn with
        | refused hv ha =>
          obtain rfl := Except.error.inj (mqUri_unique hm (.refused hv ha)).1
          exact ⟨_,rfl⟩
        | lost hm' hp => exact absurd (mqUri_unique hm hm').1 (by simp)
    | ok mqUri =>
      rw [hr] at hm
      rw [he,solo,Prog.eval_bind_ok hr]
      dsimp only [solo] at hm
      generalize Prog.eval (answer (basic O)) (getMqUri call.userId) x h' = e' at hm ⊢
      cases hp : O.publishMessage e'.state.backend.outside mqUri (routingKey F call.name)
          (F.subscriptionMessage.encode (notice keyPath call)) with
      | mk r m =>
        have hb : answer (basic O) (.publishMessage mqUri (routingKey F call.name)
            (F.subscriptionMessage.encode (notice keyPath call))) e'.state =
            (r,{ e'.state with backend := { e'.state.backend with outside := m } }) := by
          simp [answer,basic,Shared.answer,Inner.answer,hp]
        simp only [perform,Prog.call_bind,Prog.ret_bind,Prog.eval_call,hb]
        cases r with
        | ok _ =>
          refine ⟨?_,.inr ⟨_,_,hm,rfl⟩⟩
          simp only [attempted,Prog.eval_ret,true_and]
          constructor
          · rintro ⟨_,hf⟩
            cases hf
          · intro hn
            cases hn with
            | refused hv ha => exact absurd (mqUri_unique hm (.refused hv ha)).1 (by simp)
            | lost hm' hp' =>
              obtain ⟨hu,hb'⟩ := mqUri_unique hm hm'
              obtain rfl := Except.ok.inj hu
              rw [← hb',hp] at hp'
              cases (Prod.mk.inj hp').1
        | error err =>
          refine ⟨?_,.inr ⟨_,_,hm,rfl⟩⟩
          simp only [attempted,Prog.eval_fail,true_and]
          exact ⟨fun _ => .lost hm hp,fun _ => ⟨err,rfl⟩⟩

theorem solo_lockedRead (O : Outside M) (x : Shared (Inner M)) (h : List (Event Op Res))
    (p : Service α) :
    solo O (Prog.bracket (perform .lockRead) (perform .unlockRead) p) x h =
      let e := solo O p { x with readers := x.readers + 1 } (⟨.lockRead,()⟩ :: h)
      ⟨e.result,{ e.state with readers := e.state.readers - 1 },⟨.unlockRead,()⟩ :: e.events⟩ :=
  Prog.eval_bracket Op.lockRead Op.unlockRead p

/-- How a change of the storage ends. -/
theorem solo_changeStorage (O : Outside M) (x : Shared (Inner M)) (h : List (Event Op Res))
    (call : Call Bytes) :
    let e := solo O (changeStorage F call) x h
    let path := atTimestamp call.name (stamp (x.backend.clock 0) call)
    (Accepts x.backend.maps call →
      (Fails e.result ↔ (x.keySubscriptionCount call.name).isSome ∧
        NotifyFails F O (x.backend.perform call).2 call path) ∧
      (e.state.backend.maps = (x.backend.perform call).2.maps ∨ ∃ r b,
        MqUri O call.userId (x.backend.perform call).2 r b ∧ e.state.backend.maps = b.maps)) ∧
    (¬ Accepts x.backend.maps call → e.state.backend.maps = x.backend.maps) := by
  intro e path
  let x' : Shared (Inner M) := { x with readers := x.readers + 1, backend := (x.backend.perform call).2 }
  have ha : answer (basic O) (.change call) { x with readers := x.readers + 1 } =
      ((x.backend.perform call).1,x') := rfl
  have he : e = solo O (changeStorage F call) x h := rfl
  rw [changeStorage_eq F call path,change,solo_lockedRead] at he
  simp only [solo,perform,Prog.call_bind,Prog.ret_bind,Prog.eval_call,ha] at he
  rcases perform_cases x.backend.maps (x.backend.clock 0) call with
    ⟨haccepts,hr,-⟩ | ⟨hrefused,⟨err,hr⟩,hmaps⟩
  · refine ⟨fun _ => ?_,fun hn => absurd haccepts hn⟩
    rw [show (x.backend.perform call).1 = .ok path from hr] at he
    simp only [attempted,Prog.ret_bind] at he
    rw [Prog.eval_bind_ret (g := fun _ => path)] at he
    obtain ⟨hfails,hmaps⟩ := solo_publishChange F O x'
      (⟨.change call,.ok path⟩ :: ⟨.lockRead,()⟩ :: h) call path
    rw [he]
    exact ⟨(fails_map fun _ => path).trans hfails,hmaps⟩
  · refine ⟨fun haccepts => absurd haccepts hrefused,fun _ => ?_⟩
    rw [show (x.backend.perform call).1 = .error err from hr] at he
    rw [he]
    exact hmaps

def runFrom (maps : StorageMap Bytes) (later : List (ℤ × Call Bytes)) : StorageMap Bytes :=
  later.foldl (fun maps c => (BasicStorage.perform maps c.1 c.2).2) maps

/-- Whatever is called later, no read of the given keys of the user tells the two storages apart. -/
def Unseen (userId : String) (keys : Set String) (maps maps' : StorageMap Bytes) : Prop :=
  ∀ later : List (ℤ × Call Bytes),
    (∀ keyNames : List String, (∀ k ∈ keyNames, k ∈ keys) →
      readFromKeyNames (runFrom maps' later) userId keyNames =
        readFromKeyNames (runFrom maps later) userId keyNames) ∧
    (∀ keyPaths : List String, (∀ path ∈ keyPaths, ∃ k ∈ keys, ∃ t, path = keyPath userId k t) →
      readFromKeyPaths (runFrom maps' later) keyPaths = readFromKeyPaths (runFrom maps later) keyPaths) ∧
    ∀ dir includeHistory, ∀ k ∈ keys, ∀ t,
      (keyPath userId k t ∈ listKeys (runFrom maps' later) dir includeHistory ↔
        keyPath userId k t ∈ listKeys (runFrom maps later) dir includeHistory)

theorem readFromKeyNames_pointer (maps : StorageMap Bytes) (u k : String) :
    (∃ t v, maps.keyNameToTimestamp (userIdKeyName u k) = some t ∧ value maps u k = some v ∧
      readFromKeyNames maps u [k] = .ok (AList.insert (keyPath u k t) v ∅)) ∨
    (value maps u k = none ∧ ∃ e, readFromKeyNames maps u [k] = .error e) := by
  rcases readFromKeyNames_single maps u k with ⟨v,-,hv,-⟩ | herror
  · cases ht : maps.keyNameToTimestamp (userIdKeyName u k) with
    | none => simp [value,ht] at hv
    | some t =>
      have hpath : maps.keyPathToValue (keyPath u k t) = some v := by simpa [value,ht] using hv
      exact .inl ⟨t,v,rfl,hv,by simp [readFromKeyNames,ht,hpath]⟩
  · exact .inr herror

theorem pointer_of_read {maps maps' : StorageMap Bytes} {u k : String}
    (h : readFromKeyNames maps u [k] = readFromKeyNames maps' u [k]) :
    value maps u k = value maps' u k ∧ (value maps u k ≠ none →
      maps.keyNameToTimestamp (userIdKeyName u k) = maps'.keyNameToTimestamp (userIdKeyName u k)) := by
  rcases readFromKeyNames_pointer maps u k with ⟨t,v,ht,hv,hr⟩ | ⟨hv,e,hr⟩ <;>
    rcases readFromKeyNames_pointer maps' u k with ⟨t',v',ht',hv',hr'⟩ | ⟨hv',e',hr'⟩ <;>
    rw [hr,hr'] at h
  · have hl := congrArg (AList.lookup (keyPath u k t)) (Except.ok.inj h)
    rw [AList.lookup_insert] at hl
    by_cases hp : keyPath u k t = keyPath u k t'
    · obtain rfl := (atTimestamp_inj.mp hp).2
      rw [AList.lookup_insert] at hl
      exact ⟨by rw [hv,hv',hl],fun _ => by rw [ht,ht']⟩
    · rw [AList.lookup_insert_ne hp] at hl
      cases hl
  · cases h
  · cases h
  · exact ⟨by rw [hv,hv'],fun hn => absurd hv hn⟩

theorem stamp_not_written {calls : List (ℤ × Call Bytes)} {now : ℤ} {call : Call Bytes}
    (h : Ticking (calls ++ [(now,call)])) (name : String) :
    (run calls).1.keyPathToValue (atTimestamp name (stamp now call)) = none := by
  by_contra hn
  obtain ⟨c,hc,hct⟩ := written_at hn
  obtain ⟨hcalls,-,hhi,hlt⟩ := h.concat
  have hlo := (hcalls.range c hc).1
  have hnew := hlt c hc
  cases call with
  | create u k v =>
    simp only [stamp] at hct
    omega
  | update u k v =>
    simp only [stamp] at hct
    omega
  | delete u k =>
    have hs := stamp_delete_lt hhi hlo
    simp only [stamp] at hct
    omega

/-- An accepted call is seen by the next read of its key. -/
theorem accepted_seen {calls : List (ℤ × Call Bytes)} {now : ℤ} {call : Call Bytes}
    (h : Ticking (calls ++ [(now,call)])) (ha : Accepts (run calls).1 call) :
    readFromKeyNames (BasicStorage.perform (run calls).1 now call).2 call.userId [call.keyName] ≠
      readFromKeyNames (run calls).1 call.userId [call.keyName] := by
  intro he
  obtain ⟨hvalue,hpointer⟩ := pointer_of_read he
  rcases perform_cases (run calls).1 now call with ⟨-,-,ht,hv⟩ | ⟨hn,-⟩
  · have hnew : (BasicStorage.perform (run calls).1 now call).2.keyNameToTimestamp
        (userIdKeyName call.userId call.keyName) = some (stamp now call) := by
      rw [ht]
      exact Function.update_self ..
    have hnone : value (run calls).1 call.userId call.keyName = none := by
      by_contra hn
      have hold := (hpointer (by rwa [hvalue])).symm.trans hnew
      rw [value_eq,hold,Option.bind_some,stamp_not_written h] at hn
      exact hn rfl
    cases hval : call.value? with
    | none =>
      cases call with
      | delete u k => exact ha hnone
      | create u k v => cases hval
      | update u k v => cases hval
    | some v =>
      rw [hnone,value_eq,hnew,Option.bind_some,hv,hval,Option.elim_some] at hvalue
      have hself := Function.update_self (atTimestamp call.name (stamp now call)) (some v)
        (run calls).1.keyPathToValue
      rw [show atTimestamp (userIdKeyName call.userId call.keyName) (stamp now call) =
        atTimestamp call.name (stamp now call) from rfl,hself] at hvalue
      cases hvalue
  · exact absurd ha hn

/-- Neither does the account that is created for the notice hide it. -/
theorem accepted_seen_after {O : Outside M} {b b' : Inner M} {r : Except Failure String}
    {calls : List (ℤ × Call Bytes)} {call : Call Bytes} (hmaps : b.maps = (run calls).1)
    (h : Ticking (calls ++ [(b.clock 0,call)])) (hnext : b.clock 0 < b.clock 1)
    (ha : Accepts b.maps call) (hm : MqUri O call.userId (b.perform call).2 r b') :
    readFromKeyNames b'.maps call.userId [call.keyName] ≠
      readFromKeyNames b.maps call.userId [call.keyName] := by
  have hseen : readFromKeyNames (b.perform call).2.maps call.userId [call.keyName] ≠
      readFromKeyNames b.maps call.userId [call.keyName] := by
    show readFromKeyNames (BasicStorage.perform b.maps (b.clock 0) call).2 _ _ ≠ _
    rw [hmaps]
    exact accepted_seen h (hmaps ▸ ha)
  by_cases hk : userIdKeyName call.userId call.keyName = userIdKeyName call.userId mqUriKey
  · cases hm with
    | stored hv hu => exact hseen
    | garbled hv hu => exact hseen
    | refused hv hacc => exact hseen
    | @created mqUri m hv hacc =>
      intro he
      obtain ⟨hvalue,hpointer⟩ := pointer_of_read he.symm
      rcases perform_cases (b.perform call).2.maps (b.clock 1)
          (.create call.userId mqUriKey (stringBytes mqUri)) with ⟨-,-,ht,hval⟩ | ⟨hn,-⟩
      · have hpoints : (({ (b.perform call).2 with outside := m } : Inner M).perform
            (.create call.userId mqUriKey (stringBytes mqUri))).2.maps.keyNameToTimestamp
            (userIdKeyName call.userId call.keyName) = some (b.clock 1) := by
          rw [hk]
          exact (congrFun ht _).trans (Function.update_self ..)
        have hstored : (({ (b.perform call).2 with outside := m } : Inner M).perform
            (.create call.userId mqUriKey (stringBytes mqUri))).2.maps.keyPathToValue
            (atTimestamp (userIdKeyName call.userId call.keyName) (b.clock 1)) =
              some (stringBytes mqUri) := by
          rw [hk]
          exact (congrFun hval _).trans (Function.update_self ..)
        rw [value_eq _ call.userId call.keyName,value_eq _ call.userId call.keyName,hpoints,
          Option.bind_some,hstored] at hvalue
        have hold := hpointer (by rw [value_eq,hvalue]; simp)
        rw [hpoints] at hold
        rw [hold,Option.bind_some,hmaps] at hvalue
        obtain ⟨c,hc,hct⟩ := written_at (by rw [hvalue]; simp)
        have hlt := h.concat.2.2.2 c hc
        omega
      · exact absurd hv hn
  · obtain ⟨ht,hv⟩ := hm.maps hk
    have hsame : readFromKeyNames b'.maps call.userId [call.keyName] =
        readFromKeyNames (b.perform call).2.maps call.userId [call.keyName] := by
      simp only [readFromKeyNames,List.foldlM_cons,List.foldlM_nil,ht,← atTimestamp_userIdKeyName,hv]
    rw [hsame]
    exact hseen

/-- A change of the storage that fails after it has been made. -/
theorem changeStorage_unseen_iff (O : Outside M) (x : Shared (Inner M)) (call : Call Bytes)
    (keys : Set String) (hkeys : call.keyName ∈ keys) (calls : List (ℤ × Call Bytes))
    (hmaps : x.backend.maps = (run calls).1) (h : Ticking (calls ++ [(x.backend.clock 0,call)]))
    (hnext : x.backend.clock 0 < x.backend.clock 1) :
    let e := solo O (changeStorage F call) x []
    (Fails e.result → Unseen call.userId keys x.backend.maps e.state.backend.maps) ↔
      ¬(Accepts x.backend.maps call ∧ (x.keySubscriptionCount call.name).isSome ∧
        NotifyFails F O (x.backend.perform call).2 call
          (atTimestamp call.name (stamp (x.backend.clock 0) call))) := by
  intro e
  obtain ⟨haccepts,hrefused⟩ := solo_changeStorage F O x [] call
  by_cases ha : Accepts x.backend.maps call
  · obtain ⟨hfails,hchanged⟩ := haccepts ha
    have hread : readFromKeyNames e.state.backend.maps call.userId [call.keyName] ≠
        readFromKeyNames x.backend.maps call.userId [call.keyName] := by
      rcases hchanged with hm | ⟨r,b,hm,hb⟩
      · rw [hm]
        show readFromKeyNames (BasicStorage.perform x.backend.maps _ call).2 _ _ ≠ _
        rw [hmaps]
        exact accepted_seen h (hmaps ▸ ha)
      · rw [hb]
        exact accepted_seen_after hmaps h hnext ha hm
    constructor
    · rintro hunseen ⟨-,hn⟩
      exact hread ((hunseen (hfails.mpr hn) []).1 [call.keyName] (by simpa using hkeys))
    · exact fun hn hf => absurd ⟨ha,hfails.mp hf⟩ hn
  · have he := hrefused ha
    refine ⟨fun _ hn => ha hn.1,fun _ _ => ?_⟩
    rw [he]
    exact fun later => ⟨fun _ _ => rfl,fun _ _ => rfl,fun _ _ _ _ _ => .rfl⟩

/-- The deletion of a key that is not there. -/
theorem changeStorage_unseen_sample :
    Unseen "alice" {"key"} sampleInner.maps (solo (sampleOutside fun n => n < 4)
      (changeStorage sampleFormats (.delete "alice" "key")) (.new sampleInner) []).state.backend.maps :=
  (changeStorage_unseen_iff sampleFormats (sampleOutside fun n => n < 4) (.new sampleInner)
    (.delete "alice" "key") {"key"} rfl [] rfl
    ⟨by simp [sampleInner,Shared.new,epoch],by simp⟩ (by simp [sampleInner,Shared.new])).mpr
      (fun hn => hn.1 rfl) ⟨_,rfl⟩

/-- A user with one subscription and no connection to the message queue any more. -/
def sampleSubscribed : Shared (Inner ℕ) := (solo (sampleOutside fun n => n < 4)
  (subscribe sampleFormats "alice" "key" 0) (.new sampleInner) []).state

/-- An update fails, and the new value is there. -/
theorem update_seen :
    (solo (sampleOutside fun n => n < 4) (changeStorage sampleFormats (.update "alice" "key" [1]))
      sampleSubscribed []).result = .error (.error "MQ Connection Error") ∧
    value sampleSubscribed.backend.maps "alice" "key" = none ∧
    value (solo (sampleOutside fun n => n < 4) (changeStorage sampleFormats
      (.update "alice" "key" [1])) sampleSubscribed []).state.backend.maps "alice" "key" = some [1] ∧
    ¬ Unseen "alice" {"key"} sampleSubscribed.backend.maps (solo (sampleOutside fun n => n < 4)
      (changeStorage sampleFormats (.update "alice" "key" [1])) sampleSubscribed []).state.backend.maps := by
  have hafter : value (solo (sampleOutside fun n => n < 4) (changeStorage sampleFormats
      (.update "alice" "key" [1])) sampleSubscribed []).state.backend.maps "alice" "key" = some [1] := by
    decide +kernel
  refine ⟨by decide +kernel,by decide +kernel,hafter,fun hu => ?_⟩
  have hread := pointer_of_read ((hu []).1 ["key"] (by simp))
  have hvalue := hafter.symm.trans hread.1
  cases hvalue.trans (show value sampleSubscribed.backend.maps "alice" "key" = none by decide +kernel)

end Subscription
end CoLinkServer
