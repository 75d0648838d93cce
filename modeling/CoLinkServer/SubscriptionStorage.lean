import CoLinkServer.Subscription
import CoLinkServer.VersionTimes
import Mathlib.Data.Finset.Sort

/-! The subscriptions over the in-memory storage. What the storage answers is computed; the
message queue, and the order in which a hash map is iterated over, are those of an outside
world with a state of its own. -/
namespace CoLinkServer
namespace Subscription

open Interleaving BasicStorage

/-- The message queue and the orders of the hash maps. -/
structure Outside (M : Type) where
  createUserAccount : M → Except String String × M
  createQueue : M → String → String → Except String String × M
  deleteQueue : M → String → String → Except String Unit × M
  queueBind : M → String → String → String → Except String Unit × M
  publishMessage : M → String → String → Bytes → Except String Unit × M
  keyOrder : M → Finset String → List String
  mem_keyOrder : ∀ m keys key, key ∈ keyOrder m keys ↔ key ∈ keys
  entryOrder : M → Entries Bytes → Payloads
  mem_entryOrder : ∀ m (entries : Entries Bytes) path payload,
    (path,payload) ∈ entryOrder m entries ↔ entries.lookup path = some payload

/-- The storage, the clock readings to come, and the world outside. -/
structure Inner (M : Type) where
  maps : StorageMap Bytes
  clock : ℕ → ℤ
  outside : M

variable {M : Type}

def Inner.answer {ρ : Type} (b : Inner M) (a : ρ × M) : ρ × Inner M := (a.1,{ b with outside := a.2 })

def Inner.perform (b : Inner M) (call : Call Bytes) : Except String String × Inner M :=
  ((BasicStorage.perform b.maps (b.clock 0) call).1,
    { b with maps := (BasicStorage.perform b.maps (b.clock 0) call).2, clock := fun n => b.clock (n+1) })

def basic (O : Outside M) : Backend (Inner M) where
  change b call := b.perform call
  readFromKeyPaths b keyPaths :=
    ((BasicStorage.readFromKeyPaths b.maps keyPaths).map (O.entryOrder b.outside),b)
  readFromKeyNames b userId keyNames :=
    ((BasicStorage.readFromKeyNames b.maps userId keyNames).map (O.entryOrder b.outside),b)
  listKeys b dir includeHistory :=
    (.ok (O.keyOrder b.outside (BasicStorage.listKeys b.maps dir includeHistory)),b)
  createUserAccount b := b.answer (O.createUserAccount b.outside)
  createQueue b mqUri queueName := b.answer (O.createQueue b.outside mqUri queueName)
  deleteQueue b mqUri queueName := b.answer (O.deleteQueue b.outside mqUri queueName)
  queueBind b mqUri queueName key := b.answer (O.queueBind b.outside mqUri queueName key)
  publishMessage b mqUri key payload := b.answer (O.publishMessage b.outside mqUri key payload)

variable (O : Outside M)

/-- Work through a program with nobody else around. -/
abbrev solo {α : Type} (p : Service α) (x : Shared (Inner M)) (h : List (Event Op Res)) :
    Ending Op Res Failure α (Shared (Inner M)) := p.eval (answer (basic O)) x h

variable {O} {x : Shared (Inner M)} {h : List (Event Op Res)}

theorem head_of_single (m : M) (path : String) (payload : Bytes) :
    ∃ entry, (O.entryOrder m (AList.insert path payload ∅)).head? = some entry ∧ entry.2 = payload := by
  have hmem (path' : String) (payload' : Bytes) :
      (path',payload') ∈ O.entryOrder m (AList.insert path payload ∅) ↔
        path' = path ∧ payload' = payload := by
    rw [O.mem_entryOrder]
    by_cases hp : path' = path
    · subst hp
      rw [AList.lookup_insert]
      simp [eq_comm]
    · rw [AList.lookup_insert_ne hp]
      simp [hp]
  cases hl : O.entryOrder m (AList.insert path payload ∅) with
  | nil =>
    have hh := (hmem path payload).mpr ⟨rfl,rfl⟩
    rw [hl] at hh
    cases hh
  | cons entry rest =>
    have hh := (hmem entry.1 entry.2).mp (by rw [hl]; exact List.mem_cons_self ..)
    exact ⟨entry,rfl,hh.2⟩

/-- The ways in which `get_mq_uri` ends, with the backend it leaves. -/
inductive MqUri (O : Outside M) (userId : String) (b : Inner M) :
    Except Failure String → Inner M → Prop
  | stored {payload : Bytes} {mqUri : String} (hv : value b.maps userId mqUriKey = some payload)
      (hu : stringOfBytes payload = some mqUri) : MqUri O userId b (.ok mqUri) b
  | garbled {payload : Bytes} (hv : value b.maps userId mqUriKey = some payload)
      (hu : stringOfBytes payload = none) : MqUri O userId b (.error .panic) b
  | refused {e : String} {m : M} (hv : value b.maps userId mqUriKey = none)
      (ha : O.createUserAccount b.outside = (.error e,m)) :
      MqUri O userId b (.error (.error e)) { b with outside := m }
  | created {mqUri : String} {m : M} (hv : value b.maps userId mqUriKey = none)
      (ha : O.createUserAccount b.outside = (.ok mqUri,m)) :
      MqUri O userId b (.ok mqUri)
        (({ b with outside := m } : Inner M).perform (.create userId mqUriKey (stringBytes mqUri))).2

/-- The two maps are the same. -/
structure SameMaps {σ σ' : Type} (x : Shared σ) (y : Shared σ') : Prop where
  counts : y.keySubscriptionCount = x.keySubscriptionCount
  queues : y.queueNameToUserIdKeyName = x.queueNameToUserIdKeyName

theorem create_of_absent (b : Inner M) {userId keyName : String} (payload : Bytes)
    (hv : value b.maps userId keyName = none) :
    (b.perform (.create userId keyName payload)).1 = .ok (keyPath userId keyName (b.clock 0)) := by
  rcases perform_cases b.maps (b.clock 0) (.create userId keyName payload) with ⟨-,hr,-⟩ | ⟨hn,-⟩
  · exact hr
  · exact absurd hv hn

theorem solo_lockedMqUri {α : Type} (p : Service α) :
    solo O (Prog.bracket (perform .lockGetMqUri) (perform .unlockGetMqUri) p) x h =
      let e := solo O p { x with getMqUriMutex := true } (⟨.lockGetMqUri,()⟩ :: h)
      ⟨e.result,{ e.state with getMqUriMutex := false },⟨.unlockGetMqUri,()⟩ :: e.events⟩ :=
  Prog.eval_bracket Op.lockGetMqUri Op.unlockGetMqUri p

theorem solo_getMqUri (userId : String) (x : Shared (Inner M)) (h : List (Event Op Res)) :
    MqUri O userId x.backend (solo O (getMqUri userId) x h).result
      (solo O (getMqUri userId) x h).state.backend ∧
    SameMaps x (solo O (getMqUri userId) x h).state := by
  rw [getMqUri,solo_lockedMqUri]
  dsimp only [solo]
  rcases readFromKeyNames_single x.backend.maps userId mqUriKey with
    ⟨payload,path,hv,hr⟩ | ⟨hv,e,hr⟩
  · have ha : answer (basic O) (.readFromKeyNames userId [mqUriKey]) { x with getMqUriMutex := true } =
        (.ok (O.entryOrder x.backend.outside (AList.insert path payload ∅)),
          { x with getMqUriMutex := true }) := by
      simp [answer,basic,hr,Except.map,Shared.answer]
    obtain ⟨entry,hhead,hpay⟩ := head_of_single (O := O) x.backend.outside path payload
    simp only [perform,Prog.call_bind,Prog.ret_bind,Prog.eval_call,ha,hhead,unwrap,hpay]
    cases hu : stringOfBytes payload with
    | none => exact ⟨.garbled hv hu,⟨rfl,rfl⟩⟩
    | some mqUri => exact ⟨.stored hv hu,⟨rfl,rfl⟩⟩
  · have ha : answer (basic O) (.readFromKeyNames userId [mqUriKey]) { x with getMqUriMutex := true } =
        (.error e,{ x with getMqUriMutex := true }) := by
      simp [answer,basic,hr,Except.map,Shared.answer]
    simp only [perform,Prog.call_bind,Prog.ret_bind,Prog.eval_call,ha]
    cases hacc : O.createUserAccount x.backend.outside with
    | mk r m =>
      have hb : answer (basic O) .createUserAccount { x with getMqUriMutex := true } =
          (r,{ x with getMqUriMutex := true, backend := { x.backend with outside := m } }) := by
        simp [answer,basic,Shared.answer,Inner.answer,hacc]
      simp only [hb]
      cases r with
      | error e => exact ⟨.refused hv hacc,⟨rfl,rfl⟩⟩
      | ok mqUri =>
        have hcreate := create_of_absent { x.backend with outside := m } (stringBytes mqUri) hv
        have hc : answer (basic O) (.change (.create userId mqUriKey (stringBytes mqUri)))
            { x with getMqUriMutex := true, backend := { x.backend with outside := m } } =
            (.ok (keyPath userId mqUriKey (x.backend.clock 0)),
              { x with
                getMqUriMutex := true
                backend := (({ x.backend with outside := m } : Inner M).perform
                  (.create userId mqUriKey (stringBytes mqUri))).2 }) :=
          Prod.ext hcreate rfl
        simp only [attempted,Prog.ret_bind,Prog.eval_call,hc]
        exact ⟨.created hv hacc,⟨rfl,rfl⟩⟩

/-- Reading the account of a user touches no other key. -/
theorem MqUri.maps {userId : String} {b b' : Inner M} {r : Except Failure String}
    (hm : MqUri O userId b r b') {name : String} (hne : name ≠ userIdKeyName userId mqUriKey) :
    b'.maps.keyNameToTimestamp name = b.maps.keyNameToTimestamp name ∧
    ∀ t, b'.maps.keyPathToValue (atTimestamp name t) = b.maps.keyPathToValue (atTimestamp name t) := by
  cases hm with
  | stored hv hu => exact ⟨rfl,fun _ => rfl⟩
  | garbled hv hu => exact ⟨rfl,fun _ => rfl⟩
  | refused hv ha => exact ⟨rfl,fun _ => rfl⟩
  | @created mqUri m hv ha =>
    rcases perform_cases b.maps (b.clock 0) (.create userId mqUriKey (stringBytes mqUri)) with
      ⟨-,-,ht,hval⟩ | ⟨-,-,hmaps⟩
    · constructor
      · show (BasicStorage.perform b.maps (b.clock 0) _).2.keyNameToTimestamp name = _
        rw [ht]
        exact Function.update_of_ne hne _ _
      · intro t
        show (BasicStorage.perform b.maps (b.clock 0) _).2.keyPathToValue _ = _
        rw [hval]
        exact Function.update_of_ne (fun he => hne (atTimestamp_inj.mp he).1) _ _
    · show (BasicStorage.perform b.maps (b.clock 0) _).2.keyNameToTimestamp name = _ ∧ _
      constructor
      · rw [hmaps]
      · intro t
        show (BasicStorage.perform b.maps (b.clock 0) _).2.keyPathToValue _ = _
        rw [hmaps]

/-- The state counts the operations, and `up` tells which of them the queue is there for. -/
def sampleOutside (up : ℕ → Bool) : Outside ℕ where
  createUserAccount n := (if up n then .ok "amqp://user" else .error "MQ API Error",n+1)
  createQueue n _ _ := (if up n then .ok ("queue-" ++ toString n) else .error "MQ Connection Error",n+1)
  deleteQueue n _ _ := (if up n then .ok () else .error "MQ Connection Error",n+1)
  queueBind n _ _ _ := (if up n then .ok () else .error "MQ Connection Error",n+1)
  publishMessage n _ _ _ := (if up n then .ok () else .error "MQ Connection Error",n+1)
  keyOrder _ keys := keys.sort
  mem_keyOrder _ _ _ := Finset.mem_sort _
  entryOrder _ entries := entries.entries.map fun e => (e.1,e.2)
  mem_entryOrder _ entries path payload := by
    rw [← Option.mem_def,AList.mem_lookup_iff,List.mem_map]
    constructor
    · rintro ⟨e,he,heq⟩
      obtain ⟨rfl,rfl⟩ := Prod.mk.inj heq
      exact he
    · exact fun he => ⟨_,he,rfl⟩

def sampleInner : Inner ℕ := ⟨BasicStorage.empty,fun n => 1700000000000000000 + n,0⟩

def serve (F : Formats) (O : Outside M) (x : Shared (Inner M)) (q : Request) : Shared (Inner M) :=
  (solo O (handle F q) x []).state

end Subscription
end CoLinkServer
